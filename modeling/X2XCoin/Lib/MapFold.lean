import Mathlib.Data.List.AList
import Mathlib.Tactic

/-!
# Folding over the entries of a finite map

A loop over the entries of a map that updates, for every entry, only what a state shows at the
entry's key.
-/

namespace AList

variable {α ε σ ν : Type*} [DecidableEq α]
  {step : σ → α → ε → σ} {view : σ → α → ν} {put : ε → ν → ν} {I : σ → Prop} {P : ν → ε → Prop}

theorem foldl_list_view
    (hstep : ∀ s a e, I s → P (view s a) e → I (step s a e) ∧
      ∀ a', view (step s a e) a' = if a' = a then put e (view s a) else view s a')
    {l : List (Σ _ : α, ε)} (hl : l.NodupKeys) {s : σ} (hs : I s)
    (hok : ∀ a e, l.dlookup a = some e → P (view s a) e) :
    I (l.foldl (fun s p => step s p.1 p.2) s) ∧
      ∀ a, view (l.foldl (fun s p => step s p.1 p.2) s) a =
        (l.dlookup a).elim (view s a) fun e => put e (view s a) := by
  induction l generalizing s with
  | nil => exact ⟨hs, fun a => by simp⟩
  | cons p l ih =>
    obtain ⟨k, e⟩ := p
    rw [List.nodupKeys_cons] at hl
    have hk : l.dlookup k = none := List.dlookup_eq_none.mpr hl.1
    obtain ⟨hinv, hshow⟩ := hstep s k e hs (hok k e (List.dlookup_cons_eq l k e))
    have hrest : ∀ a e', l.dlookup a = some e' → P (view (step s k e) a) e' := by
      intro a e' ha
      have hne : a ≠ k := by
        rintro rfl
        simp [hk] at ha
      rw [hshow, if_neg hne]
      exact hok a e' (by rw [List.dlookup_cons_ne l ⟨k, e⟩ hne, ha])
    obtain ⟨hfin, hall⟩ := ih hl.2 hinv hrest
    refine ⟨hfin, fun a => ?_⟩
    rw [List.foldl_cons, hall, hshow]
    by_cases hne : a = k
    · subst hne
      simp [hk]
    · rw [List.dlookup_cons_ne l ⟨k, e⟩ hne, if_neg hne]

/-- What a state shows after the loop: at every key of the map the update by its entry. -/
theorem foldl_entries_view (step : σ → α → ε → σ) (view : σ → α → ν) (put : ε → ν → ν)
    (hstep : ∀ s a e, I s → P (view s a) e → I (step s a e) ∧
      ∀ a', view (step s a e) a' = if a' = a then put e (view s a) else view s a')
    (m : AList fun _ : α => ε) {s : σ} (hs : I s)
    (hok : ∀ a e, m.lookup a = some e → P (view s a) e) :
    I (m.entries.foldl (fun s p => step s p.1 p.2) s) ∧
      ∀ a, view (m.entries.foldl (fun s p => step s p.1 p.2) s) a =
        (m.lookup a).elim (view s a) fun e => put e (view s a) :=
  foldl_list_view hstep m.nodupKeys hs hok

end AList
