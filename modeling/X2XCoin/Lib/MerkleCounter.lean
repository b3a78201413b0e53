import Mathlib.Tactic

/-!
# Merkle trees by a binary counter

Leaves are read one after another into a counter whose digits hold the complete subtrees; a new leaf
is carried through the digits that are set.  At the end the lowest subtree is paired with itself,
level by level, until it meets the next digit.  Over hashes the computation is the image of the one
over free trees, from which the leaves can be read off unless a carry was flagged.
-/

namespace MerkleCounter

section

variable {α : Type*} (node : α → α → α)

/-- Carry a subtree into the counter; the flag says that two equal ones were combined. -/
def push [BEq α] : α → List (Option α) → List (Option α) × Bool
  | h, [] => ([some h], false)
  | h, none :: inner => (some h :: inner, false)
  | h, some l :: inner =>
    let (inner, mutated) := push (node l h) inner
    (none :: inner, l == h || mutated)

/-- Read all leaves. -/
def pushAll [BEq α] (leaves : List α) : List (Option α) × Bool :=
  leaves.foldl
    (fun (inner, mutated) h =>
      let (inner, m) := push node h inner
      (inner, mutated || m))
    ([], false)

/-- The tree above a subtree `h` that is not yet complete. -/
def sweep : α → List (Option α) → α
  | h, [] => h
  | h, some l :: inner => sweep (node l h) inner
  | h, none :: inner => if inner.all Option.isNone then h else sweep (node h h) inner

/-- The whole tree, if there are leaves. -/
def root : List (Option α) → Option α
  | [] => none
  | none :: inner => root inner
  | some h :: inner => some (sweep node h (none :: inner))

end

/-! ## Level by level -/

section

variable {α : Type*} (node : α → α → α)

/-- The level above one; if it is odd, its last node is repeated. -/
def level : List α → List α
  | [] => []
  | [x] => [node x x]
  | x :: y :: xs => node x y :: level xs

theorem length_level : ∀ xs : List α, (level node xs).length = (xs.length + 1) / 2
  | [] => by rw [level, List.length_nil]
  | [_] => by rw [level, List.length_singleton, List.length_singleton]
  | _ :: _ :: xs => by
    rw [level, List.length_cons, length_level xs, List.length_cons, List.length_cons]
    omega

/-- The root of the tree that is built level by level. -/
def levelRoot : List α → Option α
  | [] => none
  | [x] => some x
  | x :: y :: xs => levelRoot (level node (x :: y :: xs))
termination_by xs => xs.length
decreasing_by
  rw [length_level, List.length_cons, List.length_cons]
  omega

variable [BEq α]

/-- The digits after some leaves are read. -/
def fill (inner : List (Option α)) (xs : List α) : List (Option α) :=
  xs.foldl (fun inner h => (push node h inner).1) inner

theorem fst_pushAll (xs : List α) : (pushAll node xs).1 = fill node [] xs := by
  induction xs using List.reverseRecOn with
  | nil => rfl
  | append_singleton xs x ih =>
    simp only [pushAll, fill, List.foldl_append, List.foldl_cons, List.foldl_nil] at ih ⊢
    rw [ih]

theorem push_ne_none (h : α) (inner : List (Option α)) :
    (push node h inner).1.all Option.isNone = false := by
  induction inner generalizing h with
  | nil => rfl
  | cons o inner ih =>
    cases o with
    | none => rfl
    | some l => exact ih _

/-- Reading a subtree and then finishing is finishing from the subtree. -/
theorem root_push (h : α) (inner : List (Option α)) :
    root node (push node h inner).1 = some (sweep node h inner) := by
  induction inner generalizing h with
  | nil => rfl
  | cons o inner ih =>
    cases o with
    | none => rfl
    | some l => exact ih _

/-- With the lowest digit free, reading leaves is reading the level above them. -/
theorem root_fill_none : ∀ (xs : List α) (inner : List (Option α)),
    inner.all Option.isNone = false ∨ xs.length ≠ 1 →
      root node (fill node (none :: inner) xs) = root node (fill node inner (level node xs))
  | [], _, _ => rfl
  | [x], inner, h => by
    show some (sweep node x (none :: inner)) = root node (push node (node x x) inner).1
    rw [root_push, sweep, if_neg (by simpa using h)]
  | x :: y :: xs, inner, _ =>
    root_fill_none xs (push node (node x y) inner).1 (.inl (push_ne_none node _ _))

theorem root_pushAll (xs : List α) : root node (pushAll node xs).1 = levelRoot node xs := by
  rw [fst_pushAll]
  induction xs using levelRoot.induct node with
  | case1 => rw [levelRoot, fill, List.foldl_nil, root]
  | case2 x => rw [levelRoot]; rfl
  | case3 x y xs ih =>
    rw [levelRoot, ← ih, ← root_fill_none node _ [] (.inr (by simp))]
    rfl

end

/-! ## Free trees -/

inductive Tree (ι : Type*) where
  | leaf (x : ι)
  | node (l r : Tree ι)
  deriving DecidableEq

namespace Tree

variable {ι : Type*}

def flatten : Tree ι → List ι
  | leaf x => [x]
  | node l r => l.flatten ++ r.flatten

/-- No node has two equal children. -/
def Reduced : Tree ι → Prop
  | leaf _ => True
  | node l r => l ≠ r ∧ l.Reduced ∧ r.Reduced

theorem not_reduced_node_self {t : Tree ι} : ¬ (node t t).Reduced := fun h => h.1 rfl

theorem not_reduced_node_right {l r : Tree ι} (h : ¬ r.Reduced) : ¬ (node l r).Reduced :=
  fun h' => h h'.2.2

variable [DecidableEq ι]

/-- The leaves without those that were doubled to complete the tree. -/
def unpad : Tree ι → List ι
  | leaf x => [x]
  | node l r => if l = r then l.unpad else l.flatten ++ r.unpad

theorem unpad_of_reduced {t : Tree ι} (h : t.Reduced) : t.unpad = t.flatten := by
  induction t with
  | leaf x => rfl
  | node l r _ ihr => rw [unpad, if_neg h.1, ihr h.2.2, flatten]

theorem unpad_node_self (t : Tree ι) : (node t t).unpad = t.unpad := if_pos rfl

end Tree

section

variable {ι : Type*}

/-- The leaves in a counter; the highest digit comes first. -/
def leaves : List (Option (Tree ι)) → List ι
  | [] => []
  | none :: inner => leaves inner
  | some t :: inner => leaves inner ++ t.flatten

/-- All digits are reduced. -/
def AllReduced (inner : List (Option (Tree ι))) : Prop := ∀ t, some t ∈ inner → t.Reduced

variable {inner : List (Option (Tree ι))} {t : Tree ι} {h : Tree ι} {xs : List ι}

theorem leaves_eq_nil (h : inner.all Option.isNone = true) : leaves inner = [] := by
  induction inner with
  | nil => rfl
  | cons o inner ih =>
    rw [List.all_cons, Bool.and_eq_true] at h
    rw [Option.isNone_iff_eq_none.mp h.1, leaves, ih h.2]

theorem allReduced_cons {o : Option (Tree ι)} :
    AllReduced (o :: inner) ↔ (∀ t, o = some t → t.Reduced) ∧ AllReduced inner := by
  simp only [AllReduced, List.mem_cons, or_imp, forall_and, eq_comm]

theorem mem_leaves_of_sweep {x : ι} (hx : x ∈ (sweep Tree.node h inner).flatten) :
    x ∈ leaves inner ∨ x ∈ h.flatten := by
  induction inner generalizing h with
  | nil => exact .inr hx
  | cons o inner ih =>
    cases o with
    | some l =>
      obtain hx | hx := ih hx
      · exact .inl (List.mem_append_left _ hx)
      · exact (List.mem_append.mp hx).imp (List.mem_append_right _) id
    | none =>
      rw [sweep] at hx
      split_ifs at hx
      · exact .inr hx
      · exact (ih hx).imp id fun hx => (List.mem_append.mp hx).elim id id

theorem mem_leaves_of_root {x : ι} (ht : root Tree.node inner = some t) (hx : x ∈ t.flatten) :
    x ∈ leaves inner := by
  induction inner with
  | nil => cases ht
  | cons o inner ih =>
    cases o with
    | none => exact ih ht
    | some h =>
      obtain rfl := Option.some.inj ht
      have hx : x ∈ leaves (none :: inner) ∨ x ∈ h.flatten := mem_leaves_of_sweep hx
      exact List.mem_append.mpr hx

theorem leaves_eq_nil_of_root (h : root Tree.node inner = none) : leaves inner = [] := by
  induction inner with
  | nil => rfl
  | cons o inner ih =>
    cases o with
    | none => exact ih h
    | some t => cases h

variable [DecidableEq ι]

theorem leaves_push (h : Tree ι) (inner : List (Option (Tree ι))) :
    leaves (push Tree.node h inner).1 = leaves inner ++ h.flatten := by
  induction inner generalizing h with
  | nil => rfl
  | cons o inner ih =>
    cases o with
    | none => rfl
    | some l =>
      show leaves (push Tree.node (.node l h) inner).1 = _
      rw [ih, Tree.flatten, leaves, List.append_assoc]

theorem allReduced_push (hh : h.Reduced) (hinner : AllReduced inner)
    (hflag : (push Tree.node h inner).2 = false) : AllReduced (push Tree.node h inner).1 := by
  induction inner generalizing h with
  | nil => exact allReduced_cons.mpr ⟨fun t ht => Option.some.inj ht ▸ hh, nofun⟩
  | cons o inner ih =>
    obtain ⟨ho, hrest⟩ := allReduced_cons.mp hinner
    cases o with
    | none => exact allReduced_cons.mpr ⟨fun t ht => Option.some.inj ht ▸ hh, hrest⟩
    | some l =>
      have hflag : (l == h || (push Tree.node (.node l h) inner).2) = false := hflag
      rw [Bool.or_eq_false_iff, beq_eq_false_iff_ne] at hflag
      exact allReduced_cons.mpr ⟨nofun, ih ⟨hflag.1, ho l rfl, hh⟩ hrest hflag.2⟩

/-- The doubled subtree is not reduced, so it differs from every digit it is combined with. -/
theorem unpad_sweep (hh : ¬ h.Reduced) (hinner : AllReduced inner) :
    (sweep Tree.node h inner).unpad = leaves inner ++ h.unpad := by
  induction inner generalizing h with
  | nil => rfl
  | cons o inner ih =>
    obtain ⟨ho, hrest⟩ := allReduced_cons.mp hinner
    cases o with
    | some l =>
      have hne : l ≠ h := fun heq => hh (heq ▸ ho l rfl)
      rw [sweep, ih (Tree.not_reduced_node_right hh) hrest, leaves, Tree.unpad, if_neg hne,
        List.append_assoc]
    | none =>
      rw [sweep, leaves]
      split_ifs with hall
      · rw [leaves_eq_nil hall, List.nil_append]
      · rw [ih Tree.not_reduced_node_self hrest, Tree.unpad_node_self]

theorem unpad_root (hinner : AllReduced inner) (ht : root Tree.node inner = some t) :
    t.unpad = leaves inner := by
  induction inner with
  | nil => cases ht
  | cons o inner ih =>
    obtain ⟨ho, hrest⟩ := allReduced_cons.mp hinner
    cases o with
    | none => exact ih hrest ht
    | some h =>
      have hh := ho h rfl
      obtain rfl := Option.some.inj ht
      rw [leaves, sweep]
      split_ifs with hall
      · rw [leaves_eq_nil hall, List.nil_append, Tree.unpad_of_reduced hh]
      · rw [unpad_sweep Tree.not_reduced_node_self hrest, Tree.unpad_node_self,
          Tree.unpad_of_reduced hh]

/-- The tree over a list of leaves, if it is not empty, and whether a carry was flagged. -/
def treeOf (xs : List ι) : Option (Tree ι) × Bool :=
  let (inner, mutated) := pushAll Tree.node (xs.map Tree.leaf)
  (root Tree.node inner, mutated)

theorem pushAll_spec (xs : List ι) :
    leaves (pushAll Tree.node (xs.map Tree.leaf)).1 = xs ∧
      ((pushAll Tree.node (xs.map Tree.leaf)).2 = false →
        AllReduced (pushAll Tree.node (xs.map Tree.leaf)).1) := by
  induction xs using List.reverseRecOn with
  | nil => exact ⟨rfl, fun _ => nofun⟩
  | append_singleton xs x ih =>
    simp only [pushAll, List.map_append, List.map_singleton, List.foldl_append, List.foldl_cons,
      List.foldl_nil] at ih ⊢
    refine ⟨by rw [leaves_push, ih.1, Tree.flatten], fun hflag => ?_⟩
    rw [Bool.or_eq_false_iff] at hflag
    exact allReduced_push trivial (ih.2 hflag.1) hflag.2

theorem mem_of_treeOf (h : (treeOf xs).1 = some t) {x : ι} (hx : x ∈ t.flatten) : x ∈ xs := by
  rw [← (pushAll_spec xs).1]
  exact mem_leaves_of_root h hx

theorem exists_treeOf (h : xs ≠ []) : ∃ t, (treeOf xs).1 = some t := by
  refine Option.ne_none_iff_exists'.mp fun hnone => h ?_
  rw [← (pushAll_spec xs).1]
  exact leaves_eq_nil_of_root hnone

theorem unpad_treeOf (h : treeOf xs = (some t, false)) : t.unpad = xs := by
  obtain ⟨hroot, hflag⟩ := Prod.mk.inj h
  obtain ⟨hleaves, hred⟩ := pushAll_spec xs
  rw [unpad_root (hred hflag) hroot, hleaves]

end

/-! ## Homomorphic images -/

section

variable {ι α : Type*} {node : α → α → α} {f : Tree ι → α}

theorem sweep_map (hf : ∀ l r, f (.node l r) = node (f l) (f r)) (h : Tree ι)
    (inner : List (Option (Tree ι))) :
    sweep node (f h) (inner.map (Option.map f)) = f (sweep Tree.node h inner) := by
  induction inner generalizing h with
  | nil => rfl
  | cons o inner ih =>
    cases o with
    | some l => exact (congrArg (sweep node · _) (hf l h).symm).trans (ih _)
    | none =>
      have hall : (inner.map (Option.map f)).all Option.isNone = inner.all Option.isNone := by
        simp [List.all_map, Function.comp_def]
      simp only [List.map_cons, Option.map_none, sweep, hall]
      split_ifs
      · rfl
      · rw [← hf, ih]

theorem root_map (hf : ∀ l r, f (.node l r) = node (f l) (f r)) (inner : List (Option (Tree ι))) :
    root node (inner.map (Option.map f)) = (root Tree.node inner).map f := by
  induction inner with
  | nil => rfl
  | cons o inner ih =>
    cases o with
    | none => exact ih
    | some h => exact congrArg some (sweep_map hf h (none :: inner))

variable [DecidableEq ι] [BEq α] [ReflBEq α]

theorem push_map (hf : ∀ l r, f (.node l r) = node (f l) (f r)) (h : Tree ι)
    (inner : List (Option (Tree ι))) :
    (push node (f h) (inner.map (Option.map f))).1 =
        (push Tree.node h inner).1.map (Option.map f) ∧
      ((push node (f h) (inner.map (Option.map f))).2 = false →
        (push Tree.node h inner).2 = false) := by
  induction inner generalizing h with
  | nil => exact ⟨rfl, id⟩
  | cons o inner ih =>
    cases o with
    | none => exact ⟨rfl, id⟩
    | some l =>
      obtain ⟨ih₁, ih₂⟩ := ih (.node l h)
      rw [hf] at ih₁ ih₂
      refine ⟨congrArg (none :: ·) ih₁, fun hflag => ?_⟩
      have hflag : (f l == f h || (push node (node (f l) (f h)) (inner.map (Option.map f))).2) = false :=
        hflag
      rw [Bool.or_eq_false_iff] at hflag
      show (l == h || (push Tree.node (.node l h) inner).2) = false
      rw [ih₂ hflag.2, Bool.or_false, beq_eq_false_iff_ne]
      rintro rfl
      rw [beq_self_eq_true] at hflag
      cases hflag.1

theorem pushAll_map (hf : ∀ l r, f (.node l r) = node (f l) (f r)) (ts : List (Tree ι)) :
    (pushAll node (ts.map f)).1 = (pushAll Tree.node ts).1.map (Option.map f) ∧
      ((pushAll node (ts.map f)).2 = false → (pushAll Tree.node ts).2 = false) := by
  induction ts using List.reverseRecOn with
  | nil => exact ⟨rfl, id⟩
  | append_singleton ts t ih =>
    simp only [pushAll, List.map_append, List.map_singleton, List.foldl_append, List.foldl_cons,
      List.foldl_nil] at ih ⊢
    rw [ih.1]
    obtain ⟨hpush, hflag⟩ := push_map hf t (pushAll Tree.node ts).1
    refine ⟨hpush, fun h => ?_⟩
    rw [Bool.or_eq_false_iff] at h ⊢
    exact ⟨ih.2 h.1, hflag h.2⟩

end

/-! ## Hashes -/

section

variable {ι μ α : Type*} (hash : μ → α) (leafMsg : ι → μ) (nodeMsg : α → α → μ)

/-- The hash of a tree. -/
def Tree.eval : Tree ι → α
  | .leaf x => hash (leafMsg x)
  | .node l r => hash (nodeMsg l.eval r.eval)

/-- What is hashed for a tree. -/
def Tree.messages : Tree ι → Set μ
  | .leaf x => {leafMsg x}
  | .node l r => insert (nodeMsg (l.eval hash leafMsg nodeMsg) (r.eval hash leafMsg nodeMsg))
      (l.messages ∪ r.messages)

variable {hash leafMsg nodeMsg}

theorem Tree.eval_inj {S : Set μ} (hS : Set.InjOn hash S)
    (hnode : ∀ {a b c d}, nodeMsg a b = nodeMsg c d → a = c ∧ b = d) {t t' : Tree ι}
    (hleaf : ∀ x ∈ t.flatten, ∀ y, leafMsg x = leafMsg y → x = y)
    (hne : ∀ x ∈ t.flatten, ∀ a b, leafMsg x ≠ nodeMsg a b)
    (hne' : ∀ x ∈ t'.flatten, ∀ a b, leafMsg x ≠ nodeMsg a b)
    (ht : t.messages hash leafMsg nodeMsg ⊆ S) (ht' : t'.messages hash leafMsg nodeMsg ⊆ S)
    (h : t.eval hash leafMsg nodeMsg = t'.eval hash leafMsg nodeMsg) : t = t' := by
  induction t generalizing t' with
  | leaf x =>
    cases t' with
    | leaf y =>
      have := hS (ht rfl) (ht' rfl) h
      rw [hleaf x (by simp [flatten]) y this]
    | node l r =>
      have := hS (ht rfl) (ht' (Set.mem_insert _ _)) h
      exact absurd this (hne x (by simp [flatten]) _ _)
  | node l r ihl ihr =>
    cases t' with
    | leaf y =>
      have := hS (ht (Set.mem_insert _ _)) (ht' rfl) h
      exact absurd this.symm (hne' y (by simp [flatten]) _ _)
    | node l' r' =>
      simp only [flatten, List.mem_append, or_imp, forall_and] at hleaf hne hne'
      obtain ⟨-, hsub⟩ := Set.insert_subset_iff.mp ht
      obtain ⟨-, hsub'⟩ := Set.insert_subset_iff.mp ht'
      obtain ⟨hl, hr⟩ := hnode (hS (ht (Set.mem_insert _ _)) (ht' (Set.mem_insert _ _)) h)
      rw [ihl hleaf.1 hne.1 hne'.1 (Set.union_subset_iff.mp hsub).1 (Set.union_subset_iff.mp hsub').1 hl,
        ihr hleaf.2 hne.2 hne'.2 (Set.union_subset_iff.mp hsub).2 (Set.union_subset_iff.mp hsub').2 hr]

end

end MerkleCounter
