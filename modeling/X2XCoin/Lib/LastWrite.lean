import Mathlib.Tactic

/-!
# The last write

A cell that a list of events writes to: an event sets the cell, clears it or leaves it.
-/

namespace LastWrite

variable {ε ν : Type*}

/-- The cell after the events; an event that writes gives the new content. -/
def run (write : ε → Option (Option ν)) (events : List ε) (cell : Option ν) : Option ν :=
  events.foldl (fun cell e => (write e).getD cell) cell

/-- Some event sets the value and no later one writes. -/
def Holds (write : ε → Option (Option ν)) (events : List ε) (v : ν) : Prop :=
  ∃ before e after, events = before ++ e :: after ∧ write e = some (some v) ∧
    ∀ e' ∈ after, write e' = none

variable {write : ε → Option (Option ν)} {events : List ε} {e : ε} {v : ν}

theorem run_append (later : List ε) (cell : Option ν) :
    run write (events ++ later) cell = run write later (run write events cell) :=
  List.foldl_append

theorem run_append_singleton (cell : Option ν) :
    run write (events ++ [e]) cell = (write e).getD (run write events cell) := by
  rw [run_append]
  rfl

theorem run_eq_of_forall_none (cell : Option ν) (h : ∀ e ∈ events, write e = none) :
    run write events cell = cell := by
  induction events generalizing cell with
  | nil => rfl
  | cons e events ih =>
    change run write events ((write e).getD cell) = cell
    rw [h e List.mem_cons_self, Option.getD_none]
    exact ih cell fun e' he' => h e' (List.mem_cons_of_mem _ he')

theorem run_congr_of_ne_none (he : e ∈ events) (hwrite : write e ≠ none) (cell cell' : Option ν) :
    run write events cell = run write events cell' := by
  induction events generalizing cell cell' with
  | nil => cases he
  | cons e₀ events ih =>
    change run write events ((write e₀).getD cell) = run write events ((write e₀).getD cell')
    obtain rfl | he := List.mem_cons.mp he
    · obtain ⟨v, hv⟩ := Option.ne_none_iff_exists'.mp hwrite
      rw [hv]
      rfl
    · exact ih he _ _

theorem run_run_of_subset {before : List ε} (h : before ⊆ events) (cell : Option ν) :
    run write events (run write before cell) = run write events cell := by
  by_cases hnone : ∀ e ∈ before, write e = none
  · rw [run_eq_of_forall_none cell hnone]
  · push Not at hnone
    obtain ⟨e, he, hwrite⟩ := hnone
    exact run_congr_of_ne_none (h he) hwrite _ _

theorem isSome_run_of_imp {cell cell' : Option ν} (h : cell.isSome → cell'.isSome)
    (hrun : (run write events cell).isSome) : (run write events cell').isSome := by
  induction events generalizing cell cell' with
  | nil => exact h hrun
  | cons e events ih =>
    refine ih (fun hcell => ?_) hrun
    change ((write e).getD cell).isSome at hcell
    change ((write e).getD cell').isSome
    cases hw : write e with
    | none =>
      rw [hw] at hcell
      exact h hcell
    | some v =>
      rw [hw] at hcell
      exact hcell

theorem holds_append_singleton : Holds write (events ++ [e]) v ↔
    write e = some (some v) ∨ write e = none ∧ Holds write events v := by
  constructor
  · rintro ⟨before, e', after, heq, hset, hafter⟩
    obtain rfl | ⟨after, last, rfl⟩ := List.eq_nil_or_concat after
    · obtain ⟨-, h⟩ := List.append_inj' heq rfl
      cases h
      exact .inl hset
    · rw [List.concat_eq_append] at heq hafter
      rw [← List.cons_append, ← List.append_assoc] at heq
      obtain ⟨rfl, h⟩ := List.append_inj' heq rfl
      cases h
      exact .inr ⟨hafter e (by simp), before, e', after, rfl, hset,
        fun e'' h => hafter e'' (List.mem_append_left _ h)⟩
  · rintro (hset | ⟨hnone, before, e', after, rfl, hset, hafter⟩)
    · exact ⟨events, e, [], rfl, hset, by simp⟩
    · refine ⟨before, e', after ++ [e], by simp, hset, fun e'' h => ?_⟩
      obtain h | h := List.mem_append.mp h
      · exact hafter e'' h
      · rw [List.mem_singleton.mp h, hnone]

theorem run_eq_some_iff : run write events none = some v ↔ Holds write events v := by
  induction events using List.reverseRecOn with
  | nil =>
    constructor
    · intro h
      cases h
    · rintro ⟨before, e, after, heq, -⟩
      simp at heq
  | append_singleton events e ih =>
    rw [run_append_singleton, holds_append_singleton, ← ih]
    cases write e <;> simp

theorem run_cases (events : List ε) (cell : Option ν) :
    ((∀ e ∈ events, write e = none) ∧ run write events cell = cell) ∨
    ∃ before e after v, events = before ++ e :: after ∧ write e = some v ∧
      (∀ e' ∈ after, write e' = none) ∧ run write events cell = v := by
  induction events using List.reverseRecOn with
  | nil => exact .inl ⟨fun e he => absurd he List.not_mem_nil, rfl⟩
  | append_singleton events e ih =>
    rw [run_append_singleton]
    cases hwrite : write e with
    | some v =>
      exact .inr ⟨events, e, [], v, rfl, hwrite, fun e' he' => absurd he' List.not_mem_nil, rfl⟩
    | none =>
      rcases ih with ⟨hnone, hrun⟩ | ⟨before, e₀, after, v, rfl, hset, hafter, hrun⟩
      · exact .inl ⟨List.forall_mem_append.mpr ⟨hnone, List.forall_mem_singleton.mpr hwrite⟩, hrun⟩
      · refine .inr ⟨before, e₀, after ++ [e], v, ?_, hset, ?_, hrun⟩
        · rw [List.append_assoc, List.cons_append]
        · exact List.forall_mem_append.mpr ⟨hafter, List.forall_mem_singleton.mpr hwrite⟩

theorem run_filter (events : List ε) (cell : Option ν) :
    run write (events.filter fun e => (write e).isSome) cell = run write events cell := by
  induction events generalizing cell with
  | nil => rfl
  | cons e events ih =>
    rw [List.filter_cons]
    cases hwrite : write e with
    | none =>
      rw [if_neg (by simp), ih]
      change _ = run write events ((write e).getD cell)
      rw [hwrite, Option.getD_none]
    | some v =>
      rw [if_pos (by simp)]
      exact ih _

end LastWrite
