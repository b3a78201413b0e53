import Mathlib.Tactic

/-!
# Runs of deterministic machines

A machine is a function `step : σ → ι → σ`; a run is `List.foldl step`.  A guard is met by every
step
of a run in the state in which the step is taken.
-/

namespace Run

variable {σ ι τ : Type*} {step : σ → ι → σ} {guard : σ → ι → Prop}

/-- Every step of the run meets the guard in the state in which it is taken. -/
def Meets (step : σ → ι → σ) (guard : σ → ι → Prop) : σ → List ι → Prop
  | _, [] => True
  | s, i :: is => guard s i ∧ Meets step guard (step s i) is

theorem simulation {spec : τ → ι → τ} {R : σ → τ → Prop}
    (hstep : ∀ s t i, R s t → guard s i → R (step s i) (spec t i)) {s : σ} {t : τ} {is : List ι}
    (hs : R s t) (h : Meets step guard s is) : R (is.foldl step s) (is.foldl spec t) := by
  induction is generalizing s t with
  | nil => exact hs
  | cons i is ih => exact ih (hstep s t i hs h.1) h.2

theorem invariant {inv : σ → Prop} (hstep : ∀ s i, inv s → guard s i → inv (step s i))
    {s : σ} {is : List ι} (hs : inv s) (h : Meets step guard s is) : inv (is.foldl step s) :=
  @simulation σ ι Unit step guard (fun _ _ => ()) (fun s _ => inv s) (fun s _ i => hstep s i) s () is
    hs h

/-- The guard is exactly what a step needs to keep `P`, in runs that are restricted to steps with
`base`: a run meets the guard when `P` holds in all states the run goes through. -/
theorem meets_iff_of_meets {base : σ → ι → Prop} {S P : σ → Prop}
    (hsound : ∀ s i, S s → base s i → S (step s i))
    (hstep : ∀ s i, S s → P s → base s i → (P (step s i) ↔ guard s i)) {s : σ} {is : List ι}
    (hs : S s) (hi : P s) (hbase : Meets step base s is) :
    Meets step guard s is ↔ ∀ is', is' <+: is → P (is'.foldl step s) := by
  induction is generalizing s with
  | nil =>
    refine ⟨fun _ is' h => ?_, fun _ => trivial⟩
    rw [List.prefix_nil.mp h]
    exact hi
  | cons i is ih =>
    constructor
    · rintro ⟨hg, hrest⟩ is' h
      have hi' := (hstep s i hs hi hbase.1).mpr hg
      cases is' with
      | nil => exact hi
      | cons j js =>
        obtain ⟨rfl, hjs⟩ := List.cons_prefix_cons.mp h
        exact (ih (hsound s j hs hbase.1) hi' hbase.2).mp hrest js hjs
    · intro h
      have hi' : P (step s i) := h [i] (List.cons_prefix_cons.mpr ⟨rfl, List.nil_prefix⟩)
      refine ⟨(hstep s i hs hi hbase.1).mp hi', ?_⟩
      refine (ih (hsound s i hs hbase.1) hi' hbase.2).mpr fun js hjs => ?_
      exact h (i :: js) (List.cons_prefix_cons.mpr ⟨rfl, hjs⟩)

/-- Two guards that are equivalent in all sound states are met by the same runs. -/
theorem meets_congr {base guard' : σ → ι → Prop} {S : σ → Prop}
    (hsound : ∀ s i, S s → base s i → S (step s i))
    (hiff : ∀ s i, S s → base s i → (guard s i ↔ guard' s i)) {s : σ} {is : List ι} (hs : S s)
    (hbase : Meets step base s is) : Meets step guard s is ↔ Meets step guard' s is := by
  induction is generalizing s with
  | nil => exact Iff.rfl
  | cons i is ih =>
    exact and_congr (hiff s i hs hbase.1) (ih (hsound s i hs hbase.1) hbase.2)

/-- The guard is exactly what a step needs to keep `P`, and `P` never comes back once it is lost: it
holds at the end of a run exactly if the run meets the guard. -/
theorem final_iff_meets {S P : σ → Prop} (hsound : ∀ s i, S s → S (step s i))
    (hstep : ∀ s i, S s → (P (step s i) ↔ P s ∧ guard s i)) {s : σ} {is : List ι} (hs : S s) :
    P (is.foldl step s) ↔ P s ∧ Meets step guard s is := by
  induction is generalizing s with
  | nil => exact (and_iff_left trivial).symm
  | cons i is ih => rw [List.foldl_cons, ih (hsound s i hs), hstep s i hs, and_assoc, Meets]

theorem meets_true (s : σ) (is : List ι) : Meets step (fun _ _ => True) s is := by
  induction is generalizing s with
  | nil => trivial
  | cons i is ih => exact ⟨trivial, ih _⟩

theorem meets_iff {S P : σ → Prop} (hsound : ∀ s i, S s → S (step s i))
    (hstep : ∀ s i, S s → P s → (P (step s i) ↔ guard s i)) {s : σ} {is : List ι}
    (hs : S s) (hi : P s) :
    Meets step guard s is ↔ ∀ is', is' <+: is → P (is'.foldl step s) :=
  meets_iff_of_meets (fun s i h _ => hsound s i h) (fun s i h hp _ => hstep s i h hp) hs hi
    (meets_true s is)

/-- Steps that meet the guard keep an invariant, and `P`, which follows from the invariant, is lost by
any other step: a run meets the guard exactly if `P` holds in all its states. -/
theorem meets_iff_of_detects {inv P : σ → Prop}
    (hkeep : ∀ s i, inv s → guard s i → inv (step s i)) (hP : ∀ s, inv s → P s)
    (hdetect : ∀ s i, inv s → P (step s i) → guard s i) {s : σ} {is : List ι} (hs : inv s) :
    Meets step guard s is ↔ ∀ is', is' <+: is → P (is'.foldl step s) := by
  induction is generalizing s with
  | nil =>
    refine ⟨fun _ is' h => ?_, fun _ => trivial⟩
    rw [List.prefix_nil.mp h]
    exact hP s hs
  | cons i is ih =>
    constructor
    · rintro ⟨hg, hrest⟩ is' h
      cases is' with
      | nil => exact hP s hs
      | cons j js =>
        obtain ⟨rfl, hjs⟩ := List.cons_prefix_cons.mp h
        exact (ih (hkeep s j hs hg)).mp hrest js hjs
    · intro h
      have hg := hdetect s i hs (h [i] (List.cons_prefix_cons.mpr ⟨rfl, List.nil_prefix⟩))
      refine ⟨hg, (ih (hkeep s i hs hg)).mpr fun js hjs => ?_⟩
      exact h (i :: js) (List.cons_prefix_cons.mpr ⟨rfl, hjs⟩)

end Run
