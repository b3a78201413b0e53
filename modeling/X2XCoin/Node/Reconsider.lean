import X2XCoin.Node.Flags
import X2XCoin.Node.RegTest

/-!
# Blocks invalidated and reconsidered by hand

`InvalidateBlock` and `ResetBlockFailureFlags` of `main.cpp`.  The second clears the flags of the
descendants of a block and of its ancestors; a block on another branch above one of these ancestors
keeps `BLOCK_FAILED_CHILD`.
-/

namespace X2XCoin

namespace Chainstate

/-! ## `InvalidateBlock` -/

/-- The loop that disconnects the active chain down to below `pindex`. -/
def disconnectInvalid (disconnect : Chainstate → Check Chainstate) (pindex : CBlockIndex) :
    ℕ → Chainstate → Chainstate × Check Unit
  | 0, s => (s, .ok ())
  | n + 1, s =>
    if s.contains pindex then
      match s.chainActive.head? with
      | none => (s, .ok ())
      | some pindexWalk =>
        let s := (s.modifyStatus pindexWalk fun status =>
          { status with failedChild := true }).eraseCandidate pindexWalk
        match disconnect s with
        | .error f => (s, .error f)
        | .ok s => disconnectInvalid disconnect pindex n s
    else (s, .ok ())

/-- The loop over `mapBlockIndex`: what is not worse than the new tip becomes a candidate again. -/
def refillCandidates (s : Chainstate) : Chainstate :=
  s.mapBlockIndex.keys.foldl (fun s h =>
    if (s.lookup h).any (fun i => i.nStatus.isValid 3 && i.nChainTx ≠ 0) && s.isCandidate h then
      s.addCandidate h
    else s) s

def invalidateBlock (crypto : Crypto) (keys : PubKeys) (p : Params) (files : BlockFiles)
    (s : Chainstate) (pindex : IndexEntry) : Chainstate × Check Unit :=
  let s := (s.modifyStatus pindex.hash fun status =>
    { status with failedValid := true }).eraseCandidate pindex.hash
  match disconnectInvalid (disconnectTip crypto keys p files) pindex.toCBlockIndex
    s.chainActive.length s with
  | (s, .error f) => (s, .error f)
  | (s, .ok ()) => (s.refillCandidates, .ok ())

/-! ## `ResetBlockFailureFlags` -/

/-- `nStatus &= ~BLOCK_FAILED_MASK`. -/
def clearFlags (s : Chainstate) (hash : Uint256) : Chainstate :=
  s.modifyStatus hash fun status => { status with failedValid := false, failedChild := false }

/-- A turn of the first loop: the entry `h` is cleared if it descends from `pindex`. -/
def resetDescendant (pindex : CBlockIndex) (s : Chainstate) (h : Uint256) : Chainstate :=
  if (s.lookup h).any (fun i => !i.nStatus.isValid 3) ∧
      (getAncestor (s.path h) pindex.nHeight).map CBlockIndex.hash = some pindex.hash then
    let s := s.clearFlags h
    if (s.lookup h).any fun i => i.nStatus.isValid 3 && i.nChainTx ≠ 0 &&
        s.tip.any fun tip => tip.toCBlockIndex.worse i.toCBlockIndex then
      s.addCandidate h
    else s
  else s

def resetBlockFailureFlags (s : Chainstate) (pindex : CBlockIndex) : Chainstate :=
  let s := s.mapBlockIndex.keys.foldl (resetDescendant pindex) s
  ((s.path pindex.hash).map CBlockIndex.hash).foldl clearFlags s

/-! ## The flags that are left -/

variable {crypto : Crypto} {keys : PubKeys} {p : Params} {files : BlockFiles} {s s' : Chainstate}
  {genesis hash : Uint256}

theorem ite_cleared {c d e : Prop} [Decidable c] [Decidable d] [Decidable e] (h : e ↔ c ∨ d)
    (f : Option (Bool × Bool)) :
    (if c then (if d then f.map fun _ => (false, false) else f).map fun _ => (false, false)
      else if d then f.map fun _ => (false, false) else f) =
    if e then f.map fun _ => (false, false) else f := by
  by_cases hc : c <;> by_cases hd : d <;> simp [h, hc, hd, Function.comp_def]

theorem flags_clearFlags {h : Uint256} : (s.clearFlags hash).flags h =
    if h = hash then (s.flags h).map fun _ => (false, false) else s.flags h := by
  rw [clearFlags, modifyStatus, flags_modify, flags, Option.map_map]
  rfl

variable {pindex : CBlockIndex}

theorem tree_resetDescendant {h : Uint256} :
    (s.resetDescendant pindex h).tree = s.tree ∧
      (s.resetDescendant pindex h).chainActive = s.chainActive := by
  have hclear : (s.clearFlags h).tree = s.tree := tree_modifyStatus
  simp only [resetDescendant]
  split_ifs
  · exact ⟨hclear, rfl⟩
  · exact ⟨hclear, rfl⟩
  · exact ⟨rfl, rfl⟩

theorem flags_resetDescendant (hs : s.Coherent genesis) {v : TreeNode}
    (hv : s.tree pindex.hash = some v) (hheight : v.nHeight = pindex.nHeight) {h k : Uint256} :
    (s.resetDescendant pindex h).flags k =
      if k = h ∧ pindex.hash ∈ s.tree.chain k then (s.flags k).map fun _ => (false, false)
      else s.flags k := by
  have hanc := hs.getAncestor_iff hv h
  rw [hheight] at hanc
  rw [resetDescendant]
  by_cases hmem : pindex.hash ∈ s.tree.chain h
  · by_cases hvalid : (s.lookup h).any (fun i => !i.nStatus.isValid 3) = true
    · have hclear : (s.clearFlags h).flags k = if k = h ∧ pindex.hash ∈ s.tree.chain k then
          (s.flags k).map fun _ => (false, false) else s.flags k := by
        rw [flags_clearFlags]
        by_cases heq : k = h
        · rw [if_pos heq, if_pos ⟨heq, by rw [heq]; exact hmem⟩]
        · rw [if_neg heq, if_neg fun h => heq h.1]
      rw [if_pos ⟨hvalid, hanc.mpr hmem⟩, ← hclear]
      simp only
      split_ifs <;> rfl
    · -- An entry that is valid has no flags to clear.
      rw [if_neg fun h => hvalid h.1]
      split_ifs with hk
      · obtain ⟨rfl, -⟩ := hk
        rw [flags]
        cases hlook : s.lookup k with
        | none => rfl
        | some e =>
          rw [hlook] at hvalid
          simp only [Option.any_some, BlockStatus.isValid, BlockStatus.failed, Bool.not_eq_true',
            Bool.not_eq_false, Bool.and_eq_true, Bool.or_eq_false_iff] at hvalid
          rw [Option.map_some, hvalid.1.1, hvalid.1.2]
          rfl
      · rfl
  · rw [if_neg fun h => hmem (hanc.mp h.2), if_neg]
    rintro ⟨rfl, h⟩
    exact hmem h

theorem foldl_resetDescendant (hs : s.Coherent genesis) {v : TreeNode}
    (hv : s.tree pindex.hash = some v) (hheight : v.nHeight = pindex.nHeight) (l : List Uint256) :
    (l.foldl (resetDescendant pindex) s).tree = s.tree ∧
      (l.foldl (resetDescendant pindex) s).chainActive = s.chainActive ∧
      ∀ k, (l.foldl (resetDescendant pindex) s).flags k =
        if k ∈ l ∧ pindex.hash ∈ s.tree.chain k then (s.flags k).map fun _ => (false, false)
        else s.flags k := by
  induction l generalizing s with
  | nil => exact ⟨rfl, rfl, fun k => by simp⟩
  | cons h l ih =>
    obtain ⟨htree, hchain⟩ := @tree_resetDescendant s pindex h
    obtain ⟨ht, hc, hf⟩ := @ih (s.resetDescendant pindex h) (hs.congr htree hchain)
      (by rw [htree]; exact hv)
    refine ⟨ht.trans htree, hc.trans hchain, fun k => ?_⟩
    rw [List.foldl_cons, hf, flags_resetDescendant hs hv hheight, htree]
    refine ite_cleared ?_ _
    rw [List.mem_cons, or_and_right, or_comm]

theorem foldl_clearFlags (l : List Uint256) :
    (l.foldl clearFlags s).tree = s.tree ∧ (l.foldl clearFlags s).chainActive = s.chainActive ∧
      ∀ k, (l.foldl clearFlags s).flags k =
        if k ∈ l then (s.flags k).map fun _ => (false, false) else s.flags k := by
  induction l generalizing s with
  | nil => exact ⟨rfl, rfl, fun k => by simp⟩
  | cons h l ih =>
    obtain ⟨ht, hc, hf⟩ := @ih (s.clearFlags h)
    refine ⟨ht.trans tree_modifyStatus, hc, fun k => ?_⟩
    rw [List.foldl_cons, hf, flags_clearFlags]
    exact ite_cleared (by rw [List.mem_cons, or_comm]) _

/-- What `ResetBlockFailureFlags` clears: the descendants of the entry and its ancestors. -/
theorem resetBlockFailureFlags_spec (hs : s.Coherent genesis) {pindex : IndexEntry}
    (he : s.lookup hash = some pindex) :
    (s.resetBlockFailureFlags pindex.toCBlockIndex).tree = s.tree ∧
      (s.resetBlockFailureFlags pindex.toCBlockIndex).chainActive = s.chainActive ∧
      ∀ k, (s.resetBlockFailureFlags pindex.toCBlockIndex).flags k =
        if hash ∈ s.tree.chain k ∨ k ∈ s.tree.chain hash then
          (s.flags k).map fun _ => (false, false)
        else s.flags k := by
  obtain rfl := hs.hash_eq he
  obtain ⟨ht, hc, hf⟩ := foldl_resetDescendant hs (tree_of_lookup he) rfl s.mapBlockIndex.keys
  generalize hs₁ : s.mapBlockIndex.keys.foldl (resetDescendant pindex.toCBlockIndex) s = s₁ at ht hc hf
  have hreset : s.resetBlockFailureFlags pindex.toCBlockIndex =
      (s.tree.chain pindex.hash).foldl clearFlags s₁ := by
    rw [resetBlockFailureFlags, hs₁, map_hash_path, ht]
  obtain ⟨ht', hc', hf'⟩ := @foldl_clearFlags s₁ (s.tree.chain pindex.hash)
  rw [hreset]
  refine ⟨ht'.trans ht, hc'.trans hc, fun k => ?_⟩
  by_cases hk : k ∈ s.mapBlockIndex.keys
  · rw [hf', hf]
    exact ite_cleared (by rw [or_comm, and_iff_right hk]) _
  · have hnone : s.flags k = none := by
      rw [flags, lookup, AList.lookup_eq_none.mpr hk, Option.map_none]
    rw [hf', hf, hnone]
    simp

/-- What `InvalidateBlock` may have done to the state `s`: the flags are set with a cause, and
`BLOCK_FAILED_VALID` only on the entry itself. -/
structure Invalidated (genesis hash : Uint256) (s s' : Chainstate) : Prop where
  coherent : s'.Coherent genesis
  tree : s'.tree = s.tree
  flagging : s.Flagging s'
  marked : s'.FailedValid hash
  only : ∀ {a}, s'.FailedValid a → s.FailedValid a ∨ a = hash

theorem Invalidated.congr {s₁ : Chainstate} (h : Invalidated genesis hash s s₁)
    (hc : s'.Coherent genesis) (htree : s'.tree = s₁.tree) (hflags : s'.flags = s₁.flags) :
    Invalidated genesis hash s s' := by
  obtain ⟨-, ht, hf, hm, ho⟩ := h
  refine ⟨hc, htree.trans ht, hf.congr htree hflags, ?_, ?_⟩
  · rwa [FailedValid, hflags]
  · intro a ha
    rw [FailedValid, hflags] at ha
    exact ho ha

theorem mem_of_contains (h : s.contains pindex = true) : pindex.hash ∈ s.chainActive := by
  have hget : s.chainActive.reverse[pindex.nHeight]? = some pindex.hash := by
    simpa [contains] using h
  exact List.mem_reverse.mp (List.mem_of_getElem? hget)

theorem Invalidated.disconnectInvalid {s₀ : Chainstate} {pindex : CBlockIndex}
    (h : Invalidated genesis pindex.hash s₀ s) (n : ℕ) :
    Invalidated genesis pindex.hash s₀
      (disconnectInvalid (disconnectTip crypto keys p files) pindex n s).1 := by
  induction n generalizing s with
  | zero => exact h
  | succ n ih =>
    rw [Chainstate.disconnectInvalid]
    split_ifs with hcontains
    · split
      · exact h
      · next tip htip =>
        -- The tip is marked, and the block that is invalidated is below it.
        have hwalk : Invalidated genesis pindex.hash s₀ ((s.modifyStatus tip fun status =>
            { status with failedChild := true }).eraseCandidate tip) := by
          have htree := @tree_modifyStatus s tip fun status => { status with failedChild := true }
          obtain ⟨tip', v, hv, hchain⟩ := h.coherent.active
          obtain rfl : tip' = tip := by
            rw [hchain, h.coherent.tree.chain_head hv] at htip
            exact Option.some.inj htip
          have hmem := mem_of_contains hcontains
          rw [hchain] at hmem
          have hmark := Flagging.markChild h.coherent.tree ⟨_, hmem, h.marked.failed⟩
          have hcoh : (s.modifyStatus tip' fun status =>
            { status with failedChild := true }).Coherent genesis := h.coherent.congr htree rfl
          have hinv : Invalidated genesis pindex.hash s₀ (s.modifyStatus tip' fun status =>
              { status with failedChild := true }) := by
            refine ⟨hcoh, htree.trans h.tree, h.flagging.trans h.coherent.tree hcoh.tree hmark,
              hmark.failedValid h.marked, fun {a} ha => h.only ?_⟩
            obtain ⟨c, hc⟩ := ha
            rw [modifyStatus, flags_modify] at hc
            split_ifs at hc
            · obtain ⟨e, he, hec⟩ := Option.map_eq_some_iff.mp hc
              rw [FailedValid, flags, he]
              exact ⟨_, congrArg some (Prod.ext (Prod.mk.inj hec).1 rfl)⟩
            · exact ⟨c, hc⟩
          exact hinv.congr (hcoh.congr rfl rfl) rfl rfl
        simp only
        split
        · exact hwalk
        · next hdis =>
          have hcoh := (hwalk.coherent.disconnectTip hdis).1
          obtain ⟨_, _, _, _, -, -, -, rfl⟩ := disconnectTip_ok hdis
          exact ih (hwalk.congr hcoh rfl rfl)
    · exact h

theorem refillCandidates_mapBlockIndex :
    s.refillCandidates.mapBlockIndex = s.mapBlockIndex ∧
      s.refillCandidates.chainActive = s.chainActive := by
  refine List.foldlRecOn s.mapBlockIndex.keys _ (motive := fun s' : Chainstate =>
    s'.mapBlockIndex = s.mapBlockIndex ∧ s'.chainActive = s.chainActive) ⟨rfl, rfl⟩ ?_
  intro s' hs' h _
  split_ifs <;> exact hs'

/-- `InvalidateBlock` marks the block, and blocks of the active chain above it. -/
theorem invalidateBlock_spec (hs : s.Coherent genesis) {pindex : IndexEntry}
    (he : s.lookup hash = some pindex) :
    Invalidated genesis hash s (s.invalidateBlock crypto keys p files pindex).1 := by
  obtain rfl := hs.hash_eq he
  have htree := @tree_modifyStatus s pindex.hash fun status => { status with failedValid := true }
  have hcoh : (s.modifyStatus pindex.hash fun status =>
    { status with failedValid := true }).Coherent genesis := hs.congr htree rfl
  have hmark : Invalidated genesis pindex.hash s (s.modifyStatus pindex.hash fun status =>
      { status with failedValid := true }) := by
    refine ⟨hcoh, htree, .mark hs.tree _, ?_, fun {a} ha => ?_⟩
    · rw [FailedValid, modifyStatus, flags_modify, if_pos rfl, he]
      exact ⟨_, rfl⟩
    · rw [FailedValid, modifyStatus, flags_modify] at ha
      split_ifs at ha with heq
      · exact .inr heq
      · exact .inl ha
  have hstart : Invalidated genesis pindex.hash s ((s.modifyStatus pindex.hash fun status =>
      { status with failedValid := true }).eraseCandidate pindex.hash) :=
    hmark.congr (hcoh.congr rfl rfl) rfl rfl
  have hloop := @Invalidated.disconnectInvalid crypto keys p files _ _ s pindex.toCBlockIndex hstart
    s.chainActive.length
  simp only [invalidateBlock]
  split
  · next hdis =>
    change disconnectInvalid _ _ s.chainActive.length _ = _ at hdis
    rwa [hdis] at hloop
  · next s₁ hdis =>
    change disconnectInvalid _ _ s.chainActive.length _ = _ at hdis
    rw [hdis] at hloop
    have hs₁ : Invalidated genesis pindex.hash s s₁ := hloop
    obtain ⟨hmap, hchain⟩ := @refillCandidates_mapBlockIndex s₁
    have htree₁ : s₁.refillCandidates.tree = s₁.tree := by rw [tree, hmap, tree]
    refine hs₁.congr (hs₁.coherent.congr htree₁ hchain) htree₁ ?_
    funext h
    rw [flags, lookup, hmap]
    rfl

/-! ## Justified flags -/

/-- An entry with a failure flag has `BLOCK_FAILED_VALID` on it or on an ancestor. -/
def FlagsJustified (s : Chainstate) : Prop :=
  ∀ hash, s.Failed hash → ∃ a ∈ s.tree.chain hash, s.FailedValid a

/-- If the flags have their causes in `C`, they have them in any larger set that new
`BLOCK_FAILED_VALID` flags are in. -/
theorem Flagging.causes (h : s.Flagging s') (ht : s.tree.WellFormed genesis)
    (ht' : s'.tree.WellFormed genesis) {C C' : Set Uint256}
    (hs : ∀ hash, s.Failed hash → ∃ a ∈ s.tree.chain hash, a ∈ C) (hsub : C ⊆ C')
    (hnew : ∀ a, s'.FailedValid a → ¬ s.FailedValid a → a ∈ C') (hash : Uint256)
    (hf : s'.Failed hash) : ∃ a ∈ s'.tree.chain hash, a ∈ C' := by
  obtain ⟨v, hv⟩ := hf.tree
  have hold : ∀ a ∈ s'.tree.chain hash, s.Failed a → ∃ b ∈ s'.tree.chain hash, b ∈ C' := by
    intro a ha hfa
    obtain ⟨b, hb, hbC⟩ := hs a hfa
    obtain ⟨w, hw⟩ := hfa.tree
    rw [← h.chain ht ht' hw] at hb
    exact ⟨b, ht'.chain_subset hv ha hb, hsub hbC⟩
  obtain ⟨a, ha, hfa | hfa⟩ := h.cause hf
  · exact hold a ha hfa
  · by_cases hbefore : s.FailedValid a
    · exact hold a ha hbefore.failed
    · exact ⟨a, ha, hnew a hfa hbefore⟩

theorem Flagging.justified (h : s.Flagging s') (ht : s.tree.WellFormed genesis)
    (ht' : s'.tree.WellFormed genesis) (hs : s.FlagsJustified) : s'.FlagsJustified :=
  @Flagging.causes s s' genesis h ht ht' { a | s.FailedValid a } { a | s'.FailedValid a } hs
    (fun _ => h.failedValid) fun _ ha _ => ha

/-- Reconsidering the block leaves no flag without its cause: every other flagged entry has a cause
that is no ancestor of the block. -/
def KeepsCauses (s : Chainstate) (hash : Uint256) : Prop :=
  ∀ h, s.Failed h → hash ∉ s.tree.chain h → h ∉ s.tree.chain hash →
    ∃ a ∈ s.tree.chain h, a ∉ s.tree.chain hash ∧ s.FailedValid a

theorem failed_resetBlockFailureFlags (hs : s.Coherent genesis) {pindex : IndexEntry}
    (he : s.lookup hash = some pindex) (k : Uint256) :
    ((s.resetBlockFailureFlags pindex.toCBlockIndex).Failed k ↔
      s.Failed k ∧ hash ∉ s.tree.chain k ∧ k ∉ s.tree.chain hash) ∧
    ((s.resetBlockFailureFlags pindex.toCBlockIndex).FailedValid k ↔
      s.FailedValid k ∧ hash ∉ s.tree.chain k ∧ k ∉ s.tree.chain hash) := by
  obtain ⟨-, -, hf⟩ := resetBlockFailureFlags_spec hs he
  rw [Failed, FailedValid, hf, ← not_or]
  split_ifs with hk
  · refine ⟨iff_of_false ?_ fun h => h.2 hk, iff_of_false ?_ fun h => h.2 hk⟩
    · rintro ⟨f, hf, hf'⟩
      obtain ⟨_, -, rfl⟩ := Option.map_eq_some_iff.mp hf
      cases hf'
    · rintro ⟨c, hc⟩
      obtain ⟨_, -, hc⟩ := Option.map_eq_some_iff.mp hc
      cases hc
  · exact ⟨(and_iff_left hk).symm, (and_iff_left hk).symm⟩

theorem resetBlockFailureFlags_justified (hs : s.Coherent genesis) {pindex : IndexEntry}
    (he : s.lookup hash = some pindex) :
    (s.resetBlockFailureFlags pindex.toCBlockIndex).FlagsJustified ↔ s.KeepsCauses hash := by
  obtain ⟨ht, -⟩ := resetBlockFailureFlags_spec hs he
  have hreset := failed_resetBlockFailureFlags hs he
  simp only [FlagsJustified, KeepsCauses, fun k => (hreset k).1, fun k => (hreset k).2, ht]
  constructor
  · intro h k hk hdesc hanc
    obtain ⟨a, ha, hfa, -, hnot⟩ := h k ⟨hk, hdesc, hanc⟩
    exact ⟨a, ha, hnot, hfa⟩
  · rintro h k ⟨hk, hdesc, hanc⟩
    obtain ⟨a, ha, hnot, hfa⟩ := h k hk hdesc hanc
    obtain ⟨v, hv⟩ := hk.tree
    -- A cause that descends from the block would make the entry itself a descendant.
    exact ⟨a, ha, hfa, fun h => hdesc (hs.tree.chain_subset hv ha h), hnot⟩

end Chainstate

/-! ## Runs -/

inductive ManualOp where
  | node (op : NodeOp)
  /-- `invalidateblock`. -/
  | invalidate (hash : Uint256)
  /-- `reconsiderblock`. -/
  | reconsider (hash : Uint256)

namespace Running

variable {crypto : Crypto} {keys : PubKeys} {p : Params} {r : Running} {genesis : CBlock}

def manualStep (crypto : Crypto) (keys : PubKeys) (p : Params) (r : Running) : ManualOp → Running
  | .node op => r.step crypto keys p op
  | .invalidate hash =>
    match r.lookup hash with
    | none => r
    | some pindex =>
      { r with toChainstate := (r.invalidateBlock crypto keys p r.blockFiles pindex).1 }
  | .reconsider hash =>
    match r.lookup hash with
    | none => r
    | some pindex =>
      { r with toChainstate := r.resetBlockFailureFlags pindex.toCBlockIndex }

/-- What a step may do with a block reconsidered by hand. -/
def Reconsiders (r : Running) : ManualOp → Prop
  | .reconsider hash => r.KeepsCauses hash
  | _ => True

theorem Coherent.of_tree {s : Chainstate} (hr : r.Coherent p) (hs : s.Coherent p.hashGenesisBlock)
    (htree : s.tree = r.tree) : Coherent p { r with toChainstate := s } :=
  ⟨hs, fun thread hash h => by rw [htree]; exact hr.mostWork thread hash h⟩

theorem manualStep_coherent (hr : r.Coherent p) (op : ManualOp) :
    (r.manualStep crypto keys p op).Coherent p := by
  cases op with
  | node op => exact step_coherent hr op
  | invalidate hash =>
    rw [manualStep]
    split
    · exact hr
    · next he =>
      exact hr.of_tree (Chainstate.invalidateBlock_spec hr.state he).coherent
        (Chainstate.invalidateBlock_spec hr.state he).tree
  | reconsider hash =>
    rw [manualStep]
    split
    · exact hr
    · next he =>
      obtain ⟨ht, hc, -⟩ := Chainstate.resetBlockFailureFlags_spec hr.state he
      exact hr.of_tree (hr.state.congr ht hc) ht

theorem manualStep_justified (hr : r.Coherent p) (hj : r.FlagsJustified) (op : ManualOp) :
    (r.manualStep crypto keys p op).FlagsJustified ↔ r.Reconsiders op := by
  have ht := hr.state.tree
  cases op with
  | node op =>
    exact iff_of_true ((step_flagging hr op).justified ht (step_coherent hr op).state.tree hj) trivial
  | invalidate hash =>
    refine iff_of_true ?_ trivial
    rw [manualStep]
    split
    · exact hj
    · next he =>
      have h := @Chainstate.invalidateBlock_spec crypto keys p r.blockFiles _ _ _ hr.state _ he
      exact h.flagging.justified ht h.coherent.tree hj
  | reconsider hash =>
    rw [manualStep]
    split
    · next hnone =>
      -- Nothing is an ancestor or a descendant of a block that is not known.
      refine iff_of_true hj fun h hf _ _ => ?_
      obtain ⟨a, ha, hfa⟩ := hj h hf
      have hnone' : r.tree hash = none := BlockMap.tree_eq_none.mpr hnone
      have hnil : r.tree.chain hash = [] := by
        rw [Tree.chain, Tree.path, ParentMap.path_eq_nil hnone', List.map_nil]
      exact ⟨a, ha, by rw [hnil]; exact List.not_mem_nil, hfa⟩
    · next he => exact Chainstate.resetBlockFailureFlags_justified hr.state he

/-- The blocks invalidated by hand and not reconsidered since, after one more operation. -/
def handStep (hand : Set Uint256) : ManualOp → Set Uint256
  | .node _ => hand
  | .invalidate hash => insert hash hand
  | .reconsider hash => hand \ {hash}

/-- The blocks that were invalidated by hand in a run and not reconsidered since. -/
def byHand (ops : List ManualOp) : Set Uint256 := ops.foldl handStep ∅

/-- The blocks that the node itself marked as invalid in the course of a run. -/
def found (crypto : Crypto) (keys : PubKeys) (p : Params) (r : Running) (ops : List ManualOp) :
    Set Uint256 :=
  { hash | ∃ before op, before ++ [.node op] <+: ops ∧
    ¬ (before.foldl (manualStep crypto keys p) r).FailedValid hash ∧
    ((before ++ [.node op]).foldl (manualStep crypto keys p) r).FailedValid hash }

theorem found_mono {ops : List ManualOp} {op : ManualOp} :
    found crypto keys p r ops ⊆ found crypto keys p r (ops ++ [op]) := by
  rintro hash ⟨before, op', hprefix, h⟩
  exact ⟨before, op', hprefix.trans (List.prefix_append ops [op]), h⟩

theorem run_manual_coherent (ops : List ManualOp) :
    (ops.foldl (manualStep crypto keys p) (start p genesis)).Coherent p := by
  induction ops using List.reverseRecOn with
  | nil => exact start_coherent
  | append_singleton ops op ih =>
    rw [List.foldl_append]
    exact manualStep_coherent ih op

theorem start_not_failed (hash : Uint256) : ¬ (start p genesis).Failed hash := by
  rintro ⟨f, hf, hf'⟩
  obtain ⟨e, he, rfl⟩ := Option.map_eq_some_iff.mp hf
  obtain ⟨rfl, -⟩ := start_eq_some (Chainstate.tree_of_lookup he)
  rw [Chainstate.lookup, start, AList.lookup_insert] at he
  obtain rfl := Option.some.inj he
  cases hf'

/-- One step: the flags have their causes among the blocks invalidated by hand and those found
invalid. -/
theorem manualStep_causes (hr : r.Coherent p) {hand before after : Set Uint256}
    (hcause : ∀ hash, r.Failed hash → ∃ a ∈ r.tree.chain hash, a ∈ hand ∪ before)
    (hsub : before ⊆ after) (op : ManualOp)
    (hnew : ∀ op', op = .node op' → ∀ a, (r.manualStep crypto keys p op).FailedValid a →
      ¬ r.FailedValid a → a ∈ after) (hash : Uint256)
    (hf : (r.manualStep crypto keys p op).Failed hash) :
    ∃ a ∈ (r.manualStep crypto keys p op).tree.chain hash, a ∈ handStep hand op ∪ after := by
  have ht := hr.state.tree
  cases op with
  | node op =>
    refine (step_flagging hr op).causes ht (step_coherent hr op).state.tree hcause ?_ ?_ hash hf
    · exact Set.union_subset_union_right hand hsub
    · exact fun a ha hnot => .inr (hnew op rfl a ha hnot)
  | invalidate target =>
    have hunion : hand ∪ before ⊆ insert target hand ∪ after :=
      Set.union_subset_union (Set.subset_insert target hand) hsub
    rw [manualStep] at hf ⊢
    cases hlook : r.lookup target with
    | none =>
      simp only [hlook] at hf ⊢
      obtain ⟨a, ha, haC⟩ := hcause hash hf
      exact ⟨a, ha, hunion haC⟩
    | some pindex =>
      simp only [hlook] at hf ⊢
      have h := @Chainstate.invalidateBlock_spec crypto keys p r.blockFiles _ _ _ hr.state _ hlook
      refine h.flagging.causes ht h.coherent.tree hcause hunion (fun a ha hnot => .inl ?_) hash hf
      exact .inl ((h.only ha).resolve_left hnot)
  | reconsider target =>
    have hkeep : ∀ k, r.Failed k → target ∉ r.tree.chain k →
        ∃ a ∈ r.tree.chain k, a ∈ hand \ {target} ∪ after := by
      intro k hk hnot
      obtain ⟨a, ha, haC⟩ := hcause k hk
      exact ⟨a, ha, haC.imp (fun h => ⟨h, fun heq => hnot (heq ▸ ha)⟩) fun h => hsub h⟩
    rw [manualStep] at hf ⊢
    cases hlook : r.lookup target with
    | none =>
      simp only [hlook] at hf ⊢
      refine hkeep hash hf fun hmem => ?_
      obtain ⟨w, hw, rfl⟩ := List.mem_map.mp hmem
      obtain ⟨v, hv⟩ := hf.tree
      have hw' := (ht.of_mem_path hv hw).1
      cases hw'.symm.trans (BlockMap.tree_eq_none.mpr hlook)
    | some pindex =>
      simp only [hlook] at hf ⊢
      obtain ⟨htree, -⟩ := Chainstate.resetBlockFailureFlags_spec hr.state hlook
      obtain ⟨hfailed, hnot, -⟩ :=
        (Chainstate.failed_resetBlockFailureFlags hr.state hlook hash).1.mp hf
      rw [htree]
      exact hkeep hash hfailed hnot

/-- Every flag goes back to a block that was invalidated by hand and not reconsidered since, or to one
that the node found invalid. -/
theorem run_causes (ops : List ManualOp) (hash : Uint256)
    (h : (ops.foldl (manualStep crypto keys p) (start p genesis)).Failed hash) :
    ∃ a ∈ (ops.foldl (manualStep crypto keys p) (start p genesis)).tree.chain hash,
      a ∈ byHand ops ∪ found crypto keys p (start p genesis) ops := by
  induction ops using List.reverseRecOn generalizing hash with
  | nil => exact absurd h (start_not_failed hash)
  | append_singleton ops op ih =>
    rw [byHand, List.foldl_append]
    rw [List.foldl_append] at h ⊢
    refine manualStep_causes (run_manual_coherent ops) ih found_mono op ?_ hash h
    rintro op' rfl a ha hnot
    refine ⟨ops, op', List.prefix_rfl, hnot, ?_⟩
    rw [List.foldl_append]
    exact ha

def siblingHeader : CBlockHeader := { (regTestBlock 2).toCBlockHeader with nNonce := 0 }

def siblingHash : Uint256 := 0x9ea58841a0997369b980587a940eb528c284d63eba95252fa544751653c1ebc2

def siblingCrypto : Crypto :=
  { regTestCrypto with
    hash256 := fun bytes =>
      if bytes = siblingHeader.serialize then siblingHash else regTestCrypto.hash256 bytes }

def siblingOps : List ManualOp :=
  (deliver 1769820000 [regTestBlock 1, regTestBlock 2]).map .node ++
    [.node (.header 1769820000 siblingHeader), .invalidate (regTestRow 1).hash, .reconsider siblingHash]

def siblingRun : Running :=
  siblingOps.foldl (manualStep siblingCrypto PubKeys.none regTestParams)
    (start regTestParams regTestGenesis)

end Running

end X2XCoin
