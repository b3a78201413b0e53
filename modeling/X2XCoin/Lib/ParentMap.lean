import Mathlib.Tactic

/-!
# Trees of parent pointers

A partial map in which every value names the key of its parent and its height.
-/

namespace ParentMap

variable {κ ν : Type*}

section

variable (get : κ → Option ν) (parent : ν → Option κ) (height : ν → ℕ)

/-- At most `n` values on the way up from a key. -/
def walk : ℕ → Option κ → List ν
  | 0, _ => []
  | _ + 1, none => []
  | n + 1, some k =>
    match get k with
    | none => []
    | some v => v :: walk n (parent v)

/-- The value of a key and its ancestors. -/
def path (k : κ) : List ν :=
  match get k with
  | none => []
  | some v => walk get parent (height v + 1) (some k)

structure WellFormed : Prop where
  parent_some : ∀ {k v k'}, get k = some v → parent v = some k' →
    ∃ v', get k' = some v' ∧ height v = height v' + 1
  parent_none : ∀ {k v}, get k = some v → parent v = none → height v = 0

end

variable {get get' : κ → Option ν} {parent : ν → Option κ} {height : ν → ℕ}

variable {k : κ}

theorem path_eq_nil (h : get k = none) : path get parent height k = [] := by
  rw [path, h]

theorem path_eq_cons {v : ν} (h : get k = some v) :
    ∃ rest, path get parent height k = v :: rest := by
  simp only [path, h, walk]
  exact ⟨_, rfl⟩

theorem exists_get_of_mem_walk {n : ℕ} {k : Option κ} {v : ν} (h : v ∈ walk get parent n k) :
    ∃ k', get k' = some v := by
  induction n generalizing k with
  | zero => cases h
  | succ n ih =>
    cases k with
    | none => cases h
    | some k =>
      rw [walk] at h
      split at h
      · cases h
      · next hk =>
        obtain rfl | h := List.mem_cons.mp h
        · exact ⟨k, hk⟩
        · exact ih h

theorem exists_get_of_mem_path {v : ν} (h : v ∈ path get parent height k) :
    ∃ k', get k' = some v := by
  rw [path] at h
  split at h
  · cases h
  · exact exists_get_of_mem_walk h

section

variable (hm : WellFormed get parent height) {v : ν}
include hm

theorem WellFormed.path_root (h : get k = some v) (hp : parent v = none) :
    path get parent height k = [v] := by
  simp only [path, h, hm.parent_none h hp, walk, hp]

theorem WellFormed.path_child {k k' : κ} (h : get k = some v) (hp : parent v = some k') :
    path get parent height k = v :: path get parent height k' := by
  obtain ⟨v', h', hheight⟩ := hm.parent_some h hp
  simp only [path, h, h', walk, hp, hheight]

theorem WellFormed.induction {P : κ → ν → Prop}
    (root : ∀ k v, get k = some v → parent v = none → P k v)
    (child : ∀ k v k' v', get k = some v → parent v = some k' → get k' = some v' → P k' v' → P k v)
    {k : κ} (h : get k = some v) : P k v := by
  induction hn : height v generalizing k v with
  | zero =>
    cases hp : parent v with
    | none => exact root k v h hp
    | some k' =>
      obtain ⟨v', -, hheight⟩ := hm.parent_some h hp
      omega
  | succ n ih =>
    cases hp : parent v with
    | none =>
      have := hm.parent_none h hp
      omega
    | some k' =>
      obtain ⟨v', h', hheight⟩ := hm.parent_some h hp
      exact child k v k' v' h hp h' (ih h' (by omega))

theorem WellFormed.length_path (h : get k = some v) :
    (path get parent height k).length = height v + 1 := by
  refine hm.induction (P := fun k v => (path get parent height k).length = height v + 1) ?_ ?_ h
  · intro k v h hp
    rw [hm.path_root h hp, hm.parent_none h hp, List.length_singleton]
  · intro k v k' v' h hp h' ih
    obtain ⟨w, hw, hheight⟩ := hm.parent_some h hp
    obtain rfl : w = v' := Option.some.inj (hw.symm.trans h')
    rw [hm.path_child h hp, List.length_cons, ih, hheight]

/-! ## Changing the map -/

/-- More values do not change the paths of those that are there. -/
theorem WellFormed.path_mono (hsub : ∀ k v, get k = some v → get' k = some v) (h : get k = some v)
    (hm' : WellFormed get' parent height) :
    path get' parent height k = path get parent height k := by
  refine hm.induction (P := fun k _ => path get' parent height k = path get parent height k) ?_ ?_ h
  · intro k v h hp
    rw [hm.path_root h hp, hm'.path_root (hsub k v h) hp]
  · intro k v k' v' h hp _ ih
    rw [hm.path_child h hp, hm'.path_child (hsub k v h) hp, ih]

theorem WellFormed.insert [DecidableEq κ] (hnew : get k = none)
    (hself : ∀ k', parent v = some k' → ∃ v', get k' = some v' ∧ height v = height v' + 1)
    (hroot : parent v = none → height v = 0) :
    WellFormed (Function.update get k (some v)) parent height := by
  have hold : ∀ {k' v'}, get k' = some v' → Function.update get k (some v) k' = some v' := by
    intro k' v' h
    have hne : k' ≠ k := by
      rintro rfl
      rw [hnew] at h
      cases h
    rw [Function.update_of_ne hne, h]
  constructor
  · intro k₁ w k₂ h hp
    by_cases hk : k₁ = k
    · subst hk
      obtain rfl : v = w := by simpa using h
      obtain ⟨v', h', hheight⟩ := hself k₂ hp
      exact ⟨v', hold h', hheight⟩
    · rw [Function.update_of_ne hk] at h
      obtain ⟨v', h', hheight⟩ := hm.parent_some h hp
      exact ⟨v', hold h', hheight⟩
  · intro k₁ w h hp
    by_cases hk : k₁ = k
    · subst hk
      obtain rfl : v = w := by simpa using h
      exact hroot hp
    · rw [Function.update_of_ne hk] at h
      exact hm.parent_none h hp

end

/-! ## Parts of the values -/

section

variable {μ : Type*} {parent' : μ → Option κ} {height' : μ → ℕ} {g : ν → μ}

theorem walk_map (hparent : ∀ v, parent' (g v) = parent v) (n : ℕ) (k : Option κ) :
    walk (fun k => (get k).map g) parent' n k = (walk get parent n k).map g := by
  induction n generalizing k with
  | zero => rfl
  | succ n ih =>
    cases k with
    | none => rfl
    | some k =>
      cases h : get k with
      | none => simp [walk, h]
      | some v => simp [walk, h, hparent, ih]

/-- The path of a map that keeps only some part of every value. -/
theorem path_map (hparent : ∀ v, parent' (g v) = parent v) (hheight : ∀ v, height' (g v) = height v)
    (k : κ) : path (fun k => (get k).map g) parent' height' k = (path get parent height k).map g := by
  cases h : get k with
  | none => simp [path, h]
  | some v =>
    simp only [path, h, Option.map_some, hheight]
    exact walk_map hparent _ _

end

end ParentMap
