import X2XCoin.Lib.Forest

/-!
# Block locators

`GetLocator` of a chain and `FindForkInGlobalIndex` on another node.
-/

open Forest

namespace X2XCoin

/-- The block index of a node and its active chain.  `GetAncestor` is `Forest.ancestor`. -/
structure ChainView (α : Type) where
  /-- The hash is in `mapBlockIndex`. -/
  indexed : α → Bool
  pprev : α → Option α
  nHeight : α → ℕ
  vChain : List α

namespace ChainView

variable {α : Type} [DecidableEq α]

def contains (v : ChainView α) (pindex : α) : Bool := v.vChain[v.nHeight pindex]? = some pindex

def tip (v : ChainView α) : Option α := v.vChain.getLast?

/-- The loop of `GetLocator` after `size` entries. -/
def locatorFrom (v : ChainView α) : (fuel : ℕ) → α → (nStep size : ℕ) → List α
  | 0, _, _, _ => []
  | fuel + 1, pindex, nStep, size =>
    pindex ::
      if v.nHeight pindex = 0 then []
      else
        let nHeight := v.nHeight pindex - nStep
        match if v.contains pindex then v.vChain[nHeight]?
          else ancestor v.pprev v.nHeight pindex nHeight with
        | none => []
        | some next =>
          locatorFrom v fuel next (if size + 1 > 10 then nStep * 2 else nStep) (size + 1)

def getLocator (v : ChainView α) (pindex : Option α) : List α :=
  match pindex.or v.tip with
  | none => []
  | some pindex => v.locatorFrom (v.nHeight pindex + 1) pindex 1 0

def findForkInGlobalIndex (v : ChainView α) : List α → Option α
  | [] => v.vChain.head?
  | hash :: vHave =>
    if v.indexed hash then
      if v.contains hash then some hash
      else if ancestor v.pprev v.nHeight hash (v.vChain.length - 1) = v.tip then v.tip
      else findForkInGlobalIndex v vHave
    else findForkInGlobalIndex v vHave

/-- Parents are in the index, and the chain has the ancestors of each of its blocks. -/
structure WellFormed (v : ChainView α) : Prop where
  graded : Graded v.pprev v.nHeight
  pprev_indexed : ∀ a b, v.indexed a → v.pprev a = some b → v.indexed b
  chain : ∀ (i : ℕ) a, v.vChain[i]? = some a →
    v.indexed a ∧ v.nHeight a = i ∧ ∀ b, v.pprev a = some b → b ∈ v.vChain

section

variable {v : ChainView α} (hv : v.WellFormed)

include hv

theorem WellFormed.contains_iff {a : α} : v.contains a ↔ a ∈ v.vChain := by
  rw [contains, decide_eq_true_iff]
  refine ⟨List.mem_of_getElem?, fun h => ?_⟩
  obtain ⟨i, hi⟩ := List.getElem?_of_mem h
  rw [(hv.chain i a hi).2.1, hi]

omit [DecidableEq α] in
theorem WellFormed.indexed_above {a b : α} (ha : v.indexed a) (h : Above v.pprev a b) :
    v.indexed b := by
  obtain ⟨n, hn⟩ := h
  induction n generalizing a with
  | zero => exact Option.some.inj hn ▸ ha
  | succ n ih =>
    obtain ⟨c, hc, hn⟩ := Option.bind_eq_some_iff.mp hn
    exact ih (hv.pprev_indexed a c ha hc) hn

theorem WellFormed.contains_above {a b : α} (ha : v.contains a) (h : Above v.pprev a b) :
    v.contains b := by
  obtain ⟨n, hn⟩ := h
  induction n generalizing a with
  | zero => exact Option.some.inj hn ▸ ha
  | succ n ih =>
    obtain ⟨c, hc, hn⟩ := Option.bind_eq_some_iff.mp hn
    exact ih (hv.contains_iff.mpr ((hv.chain _ a (of_decide_eq_true ha)).2.2 c hc)) hn

theorem WellFormed.next_eq {a : α} {n : ℕ} (hn : n ≤ v.nHeight a) :
    ∃ b, (if v.contains a then v.vChain[n]? else ancestor v.pprev v.nHeight a n) = some b ∧
      Above v.pprev a b ∧ v.nHeight b = n := by
  obtain ⟨b, hb⟩ := hv.graded.exists_ancestor hn
  obtain ⟨habove, hheight⟩ := hv.graded.ancestor_eq_some.mp hb
  refine ⟨b, ?_, habove, hheight⟩
  split_ifs with ha
  · rw [← hheight]
    exact of_decide_eq_true (hv.contains_above ha habove)
  · exact hb

/-- What is known of a step from `pindex` after `size` entries, at some distance from the start. -/
structure Doubling (nStep size distance : ℕ) : Prop where
  step : nStep = 2 ^ (size - 10)
  size_le : size ≤ distance
  step_le : 10 ≤ size → nStep ≤ distance

omit hv in
theorem Doubling.next {nStep size distance : ℕ} (h : Doubling nStep size distance) :
    Doubling (if size + 1 > 10 then nStep * 2 else nStep) (size + 1) (distance + nStep) := by
  obtain ⟨hstep, hsize, hle⟩ := h
  have hpos : 1 ≤ nStep := hstep ▸ Nat.one_le_two_pow
  by_cases h10 : 10 ≤ size
  · refine ⟨?_, by omega, fun _ => ?_⟩
    · rw [if_pos (by omega), hstep, ← pow_succ]
      congr 1
      omega
    · rw [if_pos (by omega)]
      have := hle h10
      omega
  · refine ⟨?_, by omega, fun _ => ?_⟩
    · rw [if_neg (by omega), hstep]
      congr 1
      omega
    · rw [if_neg (by omega)]
      omega

/-- One turn of the loop: the next entry, and what is known of the step after it. -/
theorem WellFormed.locatorFrom_succ {p a : α} {nStep size : ℕ} (ha : Above v.pprev p a)
    (hzero : v.nHeight a ≠ 0) (hstep : Doubling nStep size (v.nHeight p - v.nHeight a))
    (fuel : ℕ) :
    ∃ b nStep',
      v.locatorFrom (fuel + 1) a nStep size = a :: v.locatorFrom fuel b nStep' (size + 1) ∧
      Above v.pprev p b ∧ v.nHeight b = v.nHeight a - nStep ∧ v.nHeight b < v.nHeight a ∧
      (v.nHeight b ≠ 0 → Doubling nStep' (size + 1) (v.nHeight p - v.nHeight b)) := by
  obtain ⟨b, hb, habove, hheight⟩ := hv.next_eq (Nat.sub_le (v.nHeight a) nStep)
  have hpos : 1 ≤ nStep := hstep.step ▸ Nat.one_le_two_pow
  have hle := hv.graded.height_le ha
  refine ⟨b, if size + 1 > 10 then nStep * 2 else nStep, ?_, ha.trans habove, hheight, by omega,
    fun hb0 => ?_⟩
  · simp only [locatorFrom, if_neg hzero, hb]
  · rw [show v.nHeight p - v.nHeight b = v.nHeight p - v.nHeight a + nStep by omega]
    exact hstep.next

theorem WellFormed.locatorFrom_spec {p a : α} {fuel nStep size : ℕ} (hfuel : v.nHeight a < fuel)
    (ha : Above v.pprev p a)
    (hstep : v.nHeight a ≠ 0 → Doubling nStep size (v.nHeight p - v.nHeight a))
    (hsize : size ≤ 11 + Nat.log 2 (v.nHeight p)) :
    (∃ g, (v.locatorFrom fuel a nStep size).getLast? = some g ∧ Above v.pprev p g ∧
      v.pprev g = none) ∧
    (v.locatorFrom fuel a nStep size).length + size ≤ 12 + Nat.log 2 (v.nHeight p) := by
  induction fuel generalizing a nStep size with
  | zero => omega
  | succ fuel ih =>
    by_cases hzero : v.nHeight a = 0
    · rw [locatorFrom, if_pos hzero]
      refine ⟨⟨a, rfl, ha, ?_⟩, by rw [List.length_singleton]; omega⟩
      refine Option.eq_none_iff_forall_ne_some.mpr fun b hb => ?_
      have := hv.graded.child a b hb
      omega
    · obtain ⟨b, nStep', heq, hb, -, hlt, hnext⟩ := hv.locatorFrom_succ ha hzero (hstep hzero) fuel
      have hsize' : size + 1 ≤ 11 + Nat.log 2 (v.nHeight p) := by
        by_cases h10 : 10 ≤ size
        · have hle := (hstep hzero).step_le h10
          have hlog : size - 10 ≤ Nat.log 2 (v.nHeight p) := Nat.le_log_of_pow_le one_lt_two
            ((hstep hzero).step ▸ hle.trans (Nat.sub_le _ _))
          omega
        · omega
      obtain ⟨⟨g, hlast, hg⟩, hlen⟩ := ih (by omega) hb hnext hsize'
      rw [heq, List.length_cons]
      refine ⟨⟨g, ?_, hg⟩, by omega⟩
      rw [List.getLast?_cons, hlast, Option.getD_some]

end

variable {A B : ChainView α} (hA : A.WellFormed) (hB : B.WellFormed)
  (hagree : ∀ a, A.indexed a → B.indexed a → A.pprev a = B.pprev a ∧ A.nHeight a = B.nHeight a)

include hA hB hagree

omit [DecidableEq α] in
theorem above_iff_of_agree {a b : α} (ha : A.indexed a) (ha' : B.indexed a) :
    Above A.pprev a b ↔ Above B.pprev a b := by
  refine exists_congr fun n => Eq.congr_left ?_
  induction n generalizing a with
  | zero => rfl
  | succ n ih =>
    have hp := (hagree a ha ha').1
    rw [up, up, ← hp]
    cases h : A.pprev a with
    | none => rfl
    | some c => exact ih (hA.pprev_indexed a c ha h) (hB.pprev_indexed a c ha' (hp ▸ h))

variable {p c : α} (hp : A.indexed p) (hc : Above A.pprev p c) (hcB : B.contains c)
  (hlast : ∀ x, Above A.pprev p x → B.contains x → A.nHeight x ≤ A.nHeight c)

include hp hc hcB hlast

/-- A descendant of the tip of the other chain finds the last common block. -/
theorem tip_eq_of_ancestor {a : α} (ha : Above A.pprev p a) (haB : B.indexed a)
    (h : ancestor B.pprev B.nHeight a (B.vChain.length - 1) = B.tip) : B.tip = some c := by
  have hmem := hB.contains_iff.mp hcB
  have hpos := List.length_pos_of_mem hmem
  obtain ⟨t, ht⟩ : ∃ t, B.tip = some t :=
    ⟨_, List.getLast?_eq_some_getLast (List.ne_nil_of_mem hmem)⟩
  rw [ht, show ((B.vChain.length : ℤ) - 1) = ((B.vChain.length - 1 : ℕ) : ℤ) by omega,
    hB.graded.ancestor_eq_some] at h
  have htB : B.contains t := hB.contains_iff.mpr (List.mem_of_getLast? ht)
  have hat := (above_iff_of_agree hA hB hagree (hA.indexed_above hp ha) haB).mpr h.1
  have heights : ∀ {x}, Above A.pprev p x → B.contains x →
      A.nHeight x = B.nHeight x ∧ B.nHeight x < B.vChain.length := fun {x} hx hxB => by
    have hget := of_decide_eq_true hxB
    exact ⟨(hagree x (hA.indexed_above hp hx) (hB.chain _ x hget).1).2,
      (List.getElem?_eq_some_iff.mp hget).1⟩
  have hle := hlast t (ha.trans hat) htB
  obtain ⟨heq, -⟩ := heights (ha.trans hat) htB
  obtain ⟨heq', hlt⟩ := heights hc hcB
  rw [ht, hA.graded.eq_of_height_eq (ha.trans hat) hc (by omega)]

theorem findFork_locatorFrom {a : α} {fuel nStep size : ℕ} (hfuel : A.nHeight a < fuel)
    (ha : Above A.pprev p a)
    (hstep : A.nHeight a ≠ 0 → Doubling nStep size (A.nHeight p - A.nHeight a))
    (hgap : A.nHeight a ≤ A.nHeight c →
      A.nHeight c - A.nHeight a ≤ A.nHeight p - A.nHeight c) :
    ∃ r, B.findForkInGlobalIndex (A.locatorFrom fuel a nStep size) = some r ∧ B.contains r ∧
      Above A.pprev c r ∧ A.nHeight c - A.nHeight r ≤ A.nHeight p - A.nHeight c := by
  have hcI := hA.indexed_above hp hc
  have hcI' := (hB.chain _ c (of_decide_eq_true hcB)).1
  induction fuel generalizing a nStep size with
  | zero => omega
  | succ fuel ih =>
    by_cases hle : A.nHeight a ≤ A.nHeight c
    · -- an ancestor of the common block is in the other chain
      have hca := hA.graded.above_of_height_le hc ha hle
      have hca' := (above_iff_of_agree hA hB hagree hcI hcI').mp hca
      have haB := hB.contains_above hcB hca'
      refine ⟨a, ?_, haB, hca, hgap hle⟩
      rw [locatorFrom, findForkInGlobalIndex, if_pos (hB.indexed_above hcI' hca'), if_pos haB]
    · obtain ⟨b, nStep', heq, hb, hheight, hlt, hnext⟩ :=
        hA.locatorFrom_succ ha (by omega) (hstep (by omega)) fuel
      have hsmall : nStep = 1 ∨ nStep ≤ A.nHeight p - A.nHeight a := by
        obtain ⟨h, -, hle⟩ := hstep (by omega)
        by_cases h10 : 10 ≤ size
        · exact .inr (hle h10)
        · exact .inl (by rw [h, Nat.sub_eq_zero_of_le (by omega), pow_zero])
      have hpa := hA.graded.height_le ha
      obtain ⟨r, hr, hrest⟩ := ih (by omega) hb hnext (by omega)
      rw [heq, findForkInGlobalIndex, if_neg fun h => hle (hlast a ha h)]
      split_ifs with hindexed htip
      · have hcc := tip_eq_of_ancestor hA hB hagree hp hc hcB hlast ha hindexed htip
        exact ⟨c, hcc, hcB, .refl c, by omega⟩
      · exact ⟨r, hr, hrest⟩
      · exact ⟨r, hr, hrest⟩

omit hA hB hagree hp hc hcB hlast

end ChainView

end X2XCoin
