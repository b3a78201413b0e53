import Mathlib.Tactic

/-!
# Searching a graph with a stage

A search takes one node off the stage, counts it among the nodes it has seen and puts those of its
successors on the stage that are not seen yet.
-/

namespace Worklist

variable {α : Type*} [DecidableEq α] {next : α → List α}

/-- The search with a bound on the number of steps. -/
def search (next : α → List α) : ℕ → List α → List α → List α
  | 0, _, seen => seen
  | _ + 1, [], seen => seen
  | n + 1, a :: stage, seen =>
    search next n (((next a).filter fun b => decide (b ∉ a :: seen)) ∪ stage) (a :: seen)

/-- One search from each of the roots that the searches before it have not seen. -/
def searchAll (next : α → List α) (n : ℕ) (roots seen : List α) : List α :=
  roots.foldl (fun seen a => search next n (if a ∈ seen then [] else [a]) seen) seen

/-- Following successors. -/
abbrev Reaches (next : α → List α) : α → α → Prop := Relation.ReflTransGen fun a b => b ∈ next a

variable {nodes : Finset α} {n : ℕ} {stage seen : List α}

theorem search_sound {x : α} (h : x ∈ search next n stage seen) :
    x ∈ seen ∨ ∃ a ∈ stage, Reaches next a x := by
  induction n generalizing stage seen with
  | zero => exact .inl h
  | succ n ih =>
    cases stage with
    | nil => exact .inl h
    | cons a stage =>
      rcases ih h with hseen | ⟨b, hb, hreach⟩
      · rcases List.mem_cons.mp hseen with rfl | hseen
        · exact .inr ⟨x, List.mem_cons_self, .refl⟩
        · exact .inl hseen
      · rcases List.mem_union_iff.mp hb with hb | hb
        · exact .inr ⟨a, List.mem_cons_self, .head (List.mem_of_mem_filter hb) hreach⟩
        · exact .inr ⟨b, List.mem_cons_of_mem a hb, hreach⟩

/-- What holds between two steps of a search among the given nodes. -/
structure Searching (next : α → List α) (nodes : Finset α) (stage seen : List α) : Prop where
  stage_mem : ∀ a ∈ stage, a ∈ nodes
  stage_nodup : stage.Nodup
  stage_new : ∀ a ∈ stage, a ∉ seen
  seen_mem : ∀ a ∈ seen, a ∈ nodes
  seen_nodup : seen.Nodup
  done : ∀ a ∈ seen, ∀ b ∈ next a, b ∈ seen ∨ b ∈ stage

/-- The nodes seen form a closed set. -/
abbrev Closed (next : α → List α) (nodes : Finset α) (seen : List α) : Prop :=
  Searching next nodes [] seen

theorem Searching.step {a : α} (hnodes : ∀ a ∈ nodes, ∀ b ∈ next a, b ∈ nodes)
    (h : Searching next nodes (a :: stage) seen) :
    Searching next nodes (((next a).filter fun b => decide (b ∉ a :: seen)) ∪ stage) (a :: seen) := by
  have ha : a ∈ nodes := h.stage_mem a List.mem_cons_self
  have hnodup := List.nodup_cons.mp h.stage_nodup
  constructor
  · intro b hb
    rcases List.mem_union_iff.mp hb with hb | hb
    · exact hnodes a ha b (List.mem_of_mem_filter hb)
    · exact h.stage_mem b (List.mem_cons_of_mem a hb)
  · exact List.Nodup.union _ hnodup.2
  · intro b hb
    rcases List.mem_union_iff.mp hb with hb | hb
    · exact of_decide_eq_true (List.mem_filter.mp hb).2
    · rw [List.mem_cons, not_or]
      exact ⟨fun hba => hnodup.1 (hba ▸ hb), h.stage_new b (List.mem_cons_of_mem a hb)⟩
  · exact List.forall_mem_cons.mpr ⟨ha, h.seen_mem⟩
  · exact List.nodup_cons.mpr ⟨h.stage_new a List.mem_cons_self, h.seen_nodup⟩
  · intro b hb c hc
    by_cases hseen : c ∈ a :: seen
    · exact .inl hseen
    · refine .inr (List.mem_union_iff.mpr ?_)
      rcases List.mem_cons.mp hb with rfl | hb
      · exact .inl (List.mem_filter.mpr ⟨hc, decide_eq_true hseen⟩)
      · rcases h.done b hb c hc with hc | hc
        · exact absurd (List.mem_cons_of_mem a hc) hseen
        · rcases List.mem_cons.mp hc with rfl | hc
          · exact absurd List.mem_cons_self hseen
          · exact .inr hc

/-- A search with a step for every node ends with an empty stage. -/
theorem Searching.closed (hnodes : ∀ a ∈ nodes, ∀ b ∈ next a, b ∈ nodes)
    (h : Searching next nodes stage seen) (hn : nodes.card ≤ seen.length + n) :
    Closed next nodes (search next n stage seen) ∧
      ∀ a, a ∈ seen ∨ a ∈ stage → a ∈ search next n stage seen := by
  induction n generalizing stage seen with
  | zero =>
    -- All nodes are seen, so that nothing is left for the stage.
    have hsub : seen.toFinset ⊆ nodes := fun a ha => h.seen_mem a (List.mem_toFinset.mp ha)
    have hall : seen.toFinset = nodes := Finset.eq_of_subset_of_card_le hsub
      (by rw [List.toFinset_card_of_nodup h.seen_nodup]; omega)
    have hstage : stage = [] := by
      refine List.eq_nil_iff_forall_not_mem.mpr fun a ha => h.stage_new a ha ?_
      rw [← List.mem_toFinset, hall]
      exact h.stage_mem a ha
    subst hstage
    exact ⟨h, fun a ha => ha.resolve_right List.not_mem_nil⟩
  | succ n ih =>
    cases stage with
    | nil => exact ⟨h, fun a ha => ha.resolve_right List.not_mem_nil⟩
    | cons a stage =>
      obtain ⟨hclosed, hmem⟩ := ih (h.step hnodes) (by rw [List.length_cons]; omega)
      refine ⟨hclosed, fun b hb => ?_⟩
      rw [List.mem_cons] at hb
      rcases hb with hb | rfl | hb
      · exact hmem b (.inl (List.mem_cons_of_mem a hb))
      · exact hmem b (.inl List.mem_cons_self)
      · exact hmem b (.inr (List.mem_union_iff.mpr (.inr hb)))

theorem Closed.reaches {seen : List α} (h : Closed next nodes seen) {a x : α} (ha : a ∈ seen)
    (hreach : Reaches next a x) : x ∈ seen := by
  induction hreach with
  | refl => exact ha
  | tail _ hx ih => exact (h.done _ ih _ hx).resolve_right List.not_mem_nil

theorem closed_nil (next : α → List α) (nodes : Finset α) : Closed next nodes [] :=
  ⟨by simp, List.nodup_nil, by simp, by simp, List.nodup_nil, by simp⟩

theorem Closed.start {seen : List α} (h : Closed next nodes seen) {a : α} (ha : a ∈ nodes) :
    Searching next nodes (if a ∈ seen then [] else [a]) seen := by
  split_ifs with hmem
  · exact h
  · exact { h with
      stage_mem := fun b hb => List.mem_singleton.mp hb ▸ ha
      stage_nodup := List.nodup_singleton a
      stage_new := fun b hb => List.mem_singleton.mp hb ▸ hmem
      done := fun b hb c hc => .inl ((h.done b hb c hc).resolve_right List.not_mem_nil) }

/-- The searches from the roots see what is in reach of a root. -/
theorem mem_searchAll {roots seen : List α} (hnodes : ∀ a ∈ nodes, ∀ b ∈ next a, b ∈ nodes)
    (hroots : ∀ a ∈ roots, a ∈ nodes) (hn : nodes.card ≤ n) (h : Closed next nodes seen) :
    Closed next nodes (searchAll next n roots seen) ∧
      ∀ x, x ∈ searchAll next n roots seen ↔ x ∈ seen ∨ ∃ a ∈ roots, Reaches next a x := by
  induction roots generalizing seen with
  | nil => exact ⟨h, fun x => by simp [searchAll]⟩
  | cons a roots ih =>
    rw [List.forall_mem_cons] at hroots
    obtain ⟨hclosed, hmem⟩ := (h.start hroots.1).closed (n := n) hnodes (by omega)
    obtain ⟨hall, hiff⟩ := ih hroots.2 hclosed
    refine ⟨hall, fun x => (hiff x).trans ?_⟩
    have hfirst : x ∈ search next n (if a ∈ seen then [] else [a]) seen ↔
        x ∈ seen ∨ Reaches next a x := by
      constructor
      · intro hx
        rcases search_sound hx with hx | ⟨b, hb, hreach⟩
        · exact .inl hx
        · split_ifs at hb
          · cases hb
          · exact .inr (List.mem_singleton.mp hb ▸ hreach)
      · rintro (hx | hreach)
        · exact hmem x (.inl hx)
        · refine hclosed.reaches (hmem a ?_) hreach
          by_cases ha : a ∈ seen
          · exact .inl ha
          · exact .inr (by rw [if_neg ha]; exact List.mem_singleton_self a)
    rw [hfirst, List.exists_mem_cons_iff, or_assoc]

end Worklist
