import Mathlib.Data.List.AList
import Mathlib.Tactic

/-!
# Sums over the entries of a finite map
-/

namespace AList

variable {α β : Type*}

/-- The sum of the weights of all values. -/
def total (w : β → ℤ) (m : AList fun _ : α => β) : ℤ := (m.entries.map fun e => w e.2).sum

variable [DecidableEq α]

/-- The weight stored at a key, zero when there is none. -/
def weightAt (w : β → ℤ) (m : AList fun _ : α => β) (a : α) : ℤ := ((m.lookup a).map w).getD 0

variable {w : β → ℤ} {m : AList fun _ : α => β}

theorem weightAt_of_lookup {a : α} {b : β} (h : m.lookup a = some b) : weightAt w m a = w b := by
  simp [weightAt, h]

private theorem sum_kerase (w : β → ℤ) (a : α) (l : List (Sigma fun _ : α => β)) :
    ((l.kerase a).map fun e => w e.2).sum + ((l.dlookup a).map w).getD 0 =
      (l.map fun e => w e.2).sum := by
  induction l with
  | nil => simp
  | cons e l ih =>
    obtain ⟨k, v⟩ := e
    by_cases h : a = k
    · subst h
      simp [add_comm]
    · rw [List.kerase_cons_ne h, List.dlookup_cons_ne _ _ h, List.map_cons, List.map_cons,
        List.sum_cons, List.sum_cons, ← ih]
      ring

theorem total_insert (w : β → ℤ) (m : AList fun _ : α => β) (a : α) (b : β) :
    total w (m.insert a b) = total w m - weightAt w m a + w b := by
  have h := sum_kerase w a m.entries
  simp only [total, weightAt, entries_insert, List.map_cons, List.sum_cons]
  rw [← h]
  simp only [lookup]
  ring

end AList
