import Mathlib.Tactic

/-!
# Sorted multimaps

`std::multimap`: an insertion goes behind the entries with the same key.
-/

/-- A list of entries in the order of their keys. -/
structure Multimap (κ ν : Type*) [LinearOrder κ] where
  entries : List (κ × ν)
  sorted : entries.Pairwise fun a b => a.1 ≤ b.1

namespace Multimap

variable {κ ν : Type*} [LinearOrder κ] {m : Multimap κ ν} {k : κ} {v : ν} {e : κ × ν}

/-! ## Sorted lists -/

section

variable {l : List (κ × ν)} {p : κ × ν → Bool}

/-- An entry with the property has only such entries before it. -/
def DownClosed (l : List (κ × ν)) (p : κ × ν → Bool) : Prop :=
  ∀ a ∈ l, ∀ b ∈ l, a.1 ≤ b.1 → p b → p a

theorem DownClosed.tail {a : κ × ν} (h : DownClosed (a :: l) p) : DownClosed l p :=
  fun b hb c hc => h b (List.mem_cons_of_mem _ hb) c (List.mem_cons_of_mem _ hc)

theorem takeWhile_eq_filter (hl : l.Pairwise fun a b => a.1 ≤ b.1) (hp : DownClosed l p) :
    l.takeWhile p = l.filter p := by
  induction l with
  | nil => rfl
  | cons a l ih =>
    rw [List.pairwise_cons] at hl
    by_cases ha : p a
    · rw [List.takeWhile_cons, if_pos ha, List.filter_cons_of_pos ha, ih hl.2 hp.tail]
    · rw [List.takeWhile_cons, if_neg ha, eq_comm, List.filter_eq_nil_iff]
      intro b hb hpb
      obtain rfl | hb' := List.mem_cons.mp hb
      · exact ha hpb
      · exact ha (hp a List.mem_cons_self b hb (hl.1 b hb') hpb)

theorem dropWhile_eq_filter (hl : l.Pairwise fun a b => a.1 ≤ b.1) (hp : DownClosed l p) :
    l.dropWhile p = l.filter fun e => !p e := by
  induction l with
  | nil => rfl
  | cons a l ih =>
    rw [List.pairwise_cons] at hl
    by_cases ha : p a
    · rw [List.dropWhile_cons, if_pos ha, List.filter_cons_of_neg (by simp [ha]), ih hl.2 hp.tail]
    · rw [List.dropWhile_cons, if_neg ha, eq_comm, List.filter_eq_self]
      intro b hb
      rw [Bool.not_eq_eq_eq_not, Bool.not_true, ← Bool.not_eq_true]
      intro hpb
      obtain rfl | hb' := List.mem_cons.mp hb
      · exact ha hpb
      · exact ha (hp a List.mem_cons_self b hb (hl.1 b hb') hpb)

end

/-! ## Operations -/

def empty : Multimap κ ν := ⟨[], .nil⟩

/-- The entries from the first one whose key is not below `k`. -/
def lowerBound (m : Multimap κ ν) (k : κ) : List (κ × ν) := m.entries.dropWhile fun e => e.1 < k

/-- The entries with the key `k`. -/
def equalRange (m : Multimap κ ν) (k : κ) : List (κ × ν) :=
  (m.lowerBound k).takeWhile fun e => e.1 = k

theorem mem_lowerBound : e ∈ m.lowerBound k ↔ e ∈ m.entries ∧ k ≤ e.1 := by
  rw [lowerBound, dropWhile_eq_filter m.sorted fun a _ b _ hab hb => decide_eq_true
    (hab.trans_lt (of_decide_eq_true hb)), List.mem_filter]
  simp

theorem pairwise_lowerBound (m : Multimap κ ν) (k : κ) :
    (m.lowerBound k).Pairwise fun a b => a.1 ≤ b.1 :=
  m.sorted.sublist (List.dropWhile_sublist _)

/-- The new entry goes behind those whose key is not above its own. -/
def insert (m : Multimap κ ν) (k : κ) (v : ν) : Multimap κ ν where
  entries := (m.entries.takeWhile fun e => e.1 ≤ k) ++
    (k, v) :: m.entries.dropWhile fun e => e.1 ≤ k
  sorted := by
    have hp : DownClosed m.entries fun e => e.1 ≤ k := fun a _ b _ hab hb =>
      decide_eq_true (hab.trans (of_decide_eq_true hb))
    have hbelow : ∀ a ∈ m.entries.takeWhile fun e => e.1 ≤ k, a.1 ≤ k := by
      intro a ha
      rw [takeWhile_eq_filter m.sorted hp, List.mem_filter, decide_eq_true_iff] at ha
      exact ha.2
    have habove : ∀ b ∈ m.entries.dropWhile fun e => e.1 ≤ k, k ≤ b.1 := by
      intro b hb
      rw [dropWhile_eq_filter m.sorted hp, List.mem_filter] at hb
      simp only [Bool.not_eq_eq_eq_not, Bool.not_true, decide_eq_false_iff_not, not_le] at hb
      exact hb.2.le
    rw [List.pairwise_append, List.pairwise_cons]
    refine ⟨m.sorted.sublist (List.takeWhile_sublist _),
      ⟨habove, m.sorted.sublist (List.dropWhile_sublist _)⟩, fun a ha b hb => ?_⟩
    obtain rfl | hb := List.mem_cons.mp hb
    · exact hbelow a ha
    · exact (hbelow a ha).trans (habove b hb)

end Multimap
