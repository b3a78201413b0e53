import X2XCoin.Node.Coherent

/-!
# Failure flags

`Flagging` is all that the operations of a node do to the flags: none is taken away, and one that is
new has its cause on the way to the genesis block.
-/

namespace X2XCoin

/-- A change of an entry that leaves its failure flags. -/
def CBlockIndex.KeepsFlags (f : CBlockIndex → CBlockIndex) : Prop :=
  ∀ i, (f i).nStatus.failedValid = i.nStatus.failedValid ∧
    (f i).nStatus.failedChild = i.nStatus.failedChild

theorem BlockStatus.failed_raiseValidity (status : BlockStatus) (n : ℕ) :
    (status.raiseValidity n).failedValid = status.failedValid ∧
      (status.raiseValidity n).failedChild = status.failedChild := by
  rw [raiseValidity]
  split_ifs <;> exact ⟨rfl, rfl⟩

namespace Chainstate

/-- A part of the entries. -/
def attr {α : Type} (g : CBlockIndex → α) (s : Chainstate) (hash : Uint256) : Option α :=
  (s.lookup hash).map fun e => g e.toCBlockIndex

theorem attr_modify {α : Type} {g : CBlockIndex → α} {f : CBlockIndex → CBlockIndex} {s : Chainstate}
    {hash h : Uint256} : (s.modify hash f).attr g h =
      if h = hash then s.attr (fun i => g (f i)) h else s.attr g h := by
  rw [attr, lookup_modify]
  split_ifs
  · rw [Option.map_map]
    rfl
  · rfl

theorem attr_modify_keeps {α : Type} {g : CBlockIndex → α} {f : CBlockIndex → CBlockIndex}
    (hf : ∀ i, g (f i) = g i) {s : Chainstate} {hash : Uint256} :
    (s.modify hash f).attr g = s.attr g := by
  funext h
  simp only [attr_modify, hf, ite_self]

/-- `BLOCK_FAILED_VALID` and `BLOCK_FAILED_CHILD` of an entry. -/
def flags (s : Chainstate) (hash : Uint256) : Option (Bool × Bool) :=
  (s.lookup hash).map fun e => (e.nStatus.failedValid, e.nStatus.failedChild)

/-- The entry carries `BLOCK_FAILED_VALID`. -/
def FailedValid (s : Chainstate) (hash : Uint256) : Prop := ∃ c, s.flags hash = some (true, c)

/-- The entry carries one of the flags. -/
def Failed (s : Chainstate) (hash : Uint256) : Prop :=
  ∃ f, s.flags hash = some f ∧ (f.1 || f.2) = true

instance (s : Chainstate) (hash : Uint256) : Decidable (s.FailedValid hash) :=
  decidable_of_iff ((s.flags hash).any Prod.fst = true) (by
    rw [FailedValid, Option.any_eq_true]
    exact ⟨fun ⟨⟨_, c⟩, hf, h⟩ => ⟨c, h ▸ hf⟩, fun ⟨c, hc⟩ => ⟨_, hc, rfl⟩⟩)

instance (s : Chainstate) (hash : Uint256) : Decidable (s.Failed hash) :=
  decidable_of_iff ((s.flags hash).any (fun f => f.1 || f.2) = true) (Option.any_eq_true _ _)

/-- What a run without `ResetBlockFailureFlags` does to the flags. -/
structure Flagging (s s' : Chainstate) : Prop where
  tree : ∀ {hash v}, s.tree hash = some v → s'.tree hash = some v
  failedValid : ∀ {hash}, s.FailedValid hash → s'.FailedValid hash
  failed : ∀ {hash}, s.Failed hash → s'.Failed hash
  cause : ∀ {hash}, s'.Failed hash → ∃ a ∈ s'.tree.chain hash, s.Failed a ∨ s'.FailedValid a

variable {crypto : Crypto} {keys : PubKeys} {p : Params} {files : BlockFiles} {pblock : Option CBlock}
  {s s₀ s₁ s' : Chainstate} {genesis hash : Uint256}

theorem FailedValid.failed (h : s.FailedValid hash) : s.Failed hash := by
  obtain ⟨c, hc⟩ := h
  exact ⟨_, hc, rfl⟩

theorem Failed.tree (h : s.Failed hash) : ∃ v, s.tree hash = some v := by
  obtain ⟨f, hf, -⟩ := h
  obtain ⟨e, he, -⟩ := Option.map_eq_some_iff.mp hf
  exact ⟨_, tree_of_lookup he⟩

theorem failed_of_lookup {e : IndexEntry} (he : s.lookup hash = some e)
    (h : e.nStatus.failed = true) : s.Failed hash :=
  ⟨_, congrArg (Option.map _) he, h⟩

theorem flags_modify {f : CBlockIndex → CBlockIndex} {h : Uint256} :
    (s.modify hash f).flags h =
      if h = hash then (s.lookup h).map fun e =>
        ((f e.toCBlockIndex).nStatus.failedValid, (f e.toCBlockIndex).nStatus.failedChild)
      else s.flags h :=
  @attr_modify _ (fun i => (i.nStatus.failedValid, i.nStatus.failedChild)) f s hash h

theorem flags_modify_keeps {f : CBlockIndex → CBlockIndex} (hf : CBlockIndex.KeepsFlags f) :
    (s.modify hash f).flags = s.flags :=
  @attr_modify_keeps _ (fun i => (i.nStatus.failedValid, i.nStatus.failedChild)) f
    (fun i => Prod.ext (hf i).1 (hf i).2) s hash

/-! ## Steps -/

theorem Flagging.chain (h : s.Flagging s') (ht : s.tree.WellFormed genesis)
    (ht' : s'.tree.WellFormed genesis) {v : TreeNode} (hv : s.tree hash = some v) :
    s'.tree.chain hash = s.tree.chain hash := by
  rw [Tree.chain, Tree.chain, Tree.path, ht.linked.path_mono (fun _ _ => h.tree) hv ht'.linked, Tree.path]

theorem Flagging.congr (h : s.Flagging s₁) (htree : s'.tree = s₁.tree) (hflags : s'.flags = s₁.flags) :
    s.Flagging s' where
  tree hv := by rw [htree]; exact h.tree hv
  failedValid hf := by rw [FailedValid, hflags]; exact h.failedValid hf
  failed hf := by rw [Failed, hflags]; exact h.failed hf
  cause hf := by
    rw [Failed, hflags] at hf
    simp only [htree, FailedValid, hflags]
    exact h.cause hf

theorem Flagging.refl (ht : s.tree.WellFormed genesis) : s.Flagging s where
  tree hv := hv
  failedValid h := h
  failed h := h
  cause {hash} h := by
    obtain ⟨v, hv⟩ := h.tree
    exact ⟨hash, ht.mem_chain_self hv, .inl h⟩

theorem Flagging.of_eq (ht : s.tree.WellFormed genesis) (htree : s'.tree = s.tree)
    (hflags : s'.flags = s.flags) : s.Flagging s' :=
  (Flagging.refl ht).congr htree hflags

theorem Flagging.trans (ht₁ : s₁.tree.WellFormed genesis) (ht : s'.tree.WellFormed genesis)
    (h : s.Flagging s₁) (h' : s₁.Flagging s') : s.Flagging s' where
  tree hv := h'.tree (h.tree hv)
  failedValid hf := h'.failedValid (h.failedValid hf)
  failed hf := h'.failed (h.failed hf)
  cause {hash} hf := by
    obtain ⟨v, hv⟩ := hf.tree
    obtain ⟨a, ha, hfa | hfa⟩ := h'.cause hf
    · obtain ⟨b, hb, hfb⟩ := h.cause hfa
      obtain ⟨w, hw⟩ := hfa.tree
      rw [← h'.chain ht₁ ht hw] at hb
      exact ⟨b, ht.chain_subset hv ha hb, hfb.imp_right h'.failedValid⟩
    · exact ⟨a, ha, .inr hfa⟩

section

variable (ht : s.tree.WellFormed genesis)
include ht

/-- A change of the status of one entry that takes no flag away. -/
theorem Flagging.modifyStatus {f : BlockStatus → BlockStatus}
    (hvalid : ∀ status, status.failedValid = true → (f status).failedValid = true)
    (hfailed : ∀ status, status.failed = true → (f status).failed = true)
    (hcause : ∀ e, s.lookup hash = some e → (f e.nStatus).failed = true →
      ∃ a ∈ s.tree.chain hash, s.Failed a ∨ (s.modifyStatus hash f).FailedValid a) :
    s.Flagging (s.modifyStatus hash f) where
  tree hv := by rwa [tree_modifyStatus]
  failedValid {h} hf := by
    obtain ⟨c, hc⟩ := hf
    rw [FailedValid, Chainstate.modifyStatus, flags_modify]
    split_ifs
    · obtain ⟨e, he, hec⟩ := Option.map_eq_some_iff.mp hc
      rw [he, Option.map_some]
      exact ⟨_, congrArg some (Prod.ext (hvalid _ (Prod.mk.inj hec).1) rfl)⟩
    · exact ⟨c, hc⟩
  failed {h} hf := by
    obtain ⟨c, hc, hc'⟩ := hf
    rw [Failed, Chainstate.modifyStatus, flags_modify]
    split_ifs
    · obtain ⟨e, he, rfl⟩ := Option.map_eq_some_iff.mp hc
      rw [he, Option.map_some]
      exact ⟨_, rfl, hfailed _ hc'⟩
    · exact ⟨c, hc, hc'⟩
  cause {h} hf := by
    rw [tree_modifyStatus]
    obtain ⟨v, hv⟩ := hf.tree
    rw [tree_modifyStatus] at hv
    rw [Failed, Chainstate.modifyStatus, flags_modify] at hf
    split_ifs at hf with heq
    · subst heq
      obtain ⟨c, hc, hc'⟩ := hf
      obtain ⟨e, he, rfl⟩ := Option.map_eq_some_iff.mp hc
      exact hcause e he hc'
    · exact ⟨h, ht.mem_chain_self hv, .inl hf⟩

theorem Flagging.mark (hash : Uint256) :
    s.Flagging (s.modifyStatus hash fun status => { status with failedValid := true }) := by
  refine Flagging.modifyStatus ht (fun _ _ => rfl) (fun _ _ => rfl) fun e he _ => ?_
  refine ⟨hash, ht.mem_chain_self (tree_of_lookup he), .inr ?_⟩
  rw [FailedValid, Chainstate.modifyStatus, flags_modify, if_pos rfl, he]
  exact ⟨_, rfl⟩

theorem Flagging.markChild (h : ∃ a ∈ s.tree.chain hash, s.Failed a) :
    s.Flagging (s.modifyStatus hash fun status => { status with failedChild := true }) := by
  refine Flagging.modifyStatus ht (fun _ h => h) (fun _ _ => Bool.or_true _) fun e he _ => ?_
  obtain ⟨a, ha, hfa⟩ := h
  exact ⟨a, ha, .inl hfa⟩

/-! ## Operations -/

theorem Flagging.condemn (hash : Uint256) (f : Failure) : s.Flagging (s.condemn hash f) := by
  rw [Chainstate.condemn]
  split_ifs
  · exact Flagging.mark ht hash
  · exact .refl ht

theorem Flagging.linkBlocks (n : ℕ) (queue : List Uint256) : s.Flagging (linkBlocks n queue s) := by
  refine Flagging.of_eq ht (tree_linkBlocks n queue) ?_
  induction n, queue, s using linkBlocks.induct with
  | case1 | case2 => rfl
  | case3 n hash queue s s' waiting hlink ih =>
    have hs' : s'.flags = s.flags := by
      rw [show s' = (s.linkBlock hash).1 from (congrArg Prod.fst hlink).symm]
      simp only [linkBlock]
      split_ifs <;> exact flags_modify_keeps fun _ => ⟨rfl, rfl⟩
    rw [Chainstate.linkBlocks, hlink, ← hs']
    refine ih ?_
    rw [show s' = (s.linkBlock hash).1 from (congrArg Prod.fst hlink).symm, tree_linkBlock]
    exact ht

theorem Flagging.receivedBlockTransactions (hash : Uint256) (block : CBlock) :
    s.Flagging (s.receivedBlockTransactions hash block) := by
  have htree : (s.modify hash fun i => i.received block).tree = s.tree :=
    tree_modify fun _ => ⟨rfl, rfl, rfl, rfl⟩
  have hmod : s.Flagging (s.modify hash fun i => i.received block) :=
    .of_eq ht htree (flags_modify_keeps fun i => BlockStatus.failed_raiseValidity _ _)
  have ht' : (s.modify hash fun i => i.received block).tree.WellFormed genesis := by
    rw [htree]
    exact ht
  have hlink := fun n queue => hmod.trans ht' (by rw [tree_linkBlocks]; exact ht')
    (Flagging.linkBlocks ht' n queue)
  simp only [Chainstate.receivedBlockTransactions]
  split
  · exact hlink _ _
  · split
    · exact hmod
    · split_ifs
      · exact hlink _ _
      · exact hmod.congr rfl rfl
      · exact hmod

end

theorem connectBlock_flags {chainHeight : ℤ} {path : List CBlockIndex} {pindex : CBlockIndex}
    {view : CoinsView} {block : CBlock} {r : ConnectResult}
    (h : connectBlock crypto p chainHeight true path pindex view block false = .ok r) :
    r.pindex.nStatus.failedValid = pindex.nStatus.failedValid ∧
      r.pindex.nStatus.failedChild = pindex.nStatus.failedChild := by
  simp only [connectBlock, check_bind_eq_ok, Bool.false_eq_true, if_false] at h
  obtain ⟨-, -, -, -, h⟩ := h
  split at h
  · obtain rfl := check_pure_eq_ok.mp h
    exact ⟨rfl, rfl⟩
  · simp only [check_bind_eq_ok, check_pure_eq_ok] at h
    obtain ⟨-, -, rfl⟩ := h
    exact BlockStatus.failed_raiseValidity _ _

theorem Flagging.connectTip (hs : s.Coherent genesis) {pindex : IndexEntry}
    (he : s.lookup hash = some pindex) :
    s.Flagging (s.connectTip crypto keys p files pblock pindex).1 := by
  rw [Chainstate.connectTip]
  split_ifs
  · exact .refl hs.tree
  · split
    · exact .refl hs.tree
    · next block _ =>
      split
      · next f _ =>
        have ht : (s.setModifier crypto p pindex block).tree.WellFormed genesis := by
          rw [tree_setModifier]
          exact hs.tree
        have hmod : s.Flagging (s.setModifier crypto p pindex block) := by
          refine .of_eq hs.tree tree_setModifier ?_
          simp only [setModifier]
          split_ifs
          · exact flags_modify_keeps fun _ => ⟨rfl, rfl⟩
          · rfl
        have hinv : (s.setModifier crypto p pindex block).Flagging
            ((s.setModifier crypto p pindex block).invalidBlockFound pindex.hash f) := by
          rw [invalidBlockFound]
          split_ifs
          · exact (Flagging.condemn ht pindex.hash f).congr rfl rfl
          · exact .refl ht
        exact hmod.trans ht (by rw [tree_invalidBlockFound]; exact ht) hinv
      · next r hr =>
        refine .of_eq hs.tree tree_connected ?_
        funext h
        have hflags := connectBlock_flags hr
        show (s.modify pindex.hash _).flags h = _
        rw [flags_modify]
        split_ifs with heq
        · rw [heq, hs.hash_eq he, flags, he, Option.map_some, Option.map_some, hflags.1, hflags.2]
        · rfl

theorem Flagging.dropChain (hs : s.Coherent genesis) {fFailedChain : Bool} {above : List CBlockIndex}
    (hcause : fFailedChain = true → ∀ i ∈ above, ∃ a ∈ s.tree.chain i.hash, s.Failed a) :
    s.Flagging (s.dropChain fFailedChain above) := by
  refine (List.foldlRecOn above _ (motive := fun s' => s'.Coherent genesis ∧ s'.tree = s.tree ∧
    s.Flagging s') ⟨hs, rfl, .refl hs.tree⟩ ?_).2.2
  rintro s' ⟨hc, ht, hf⟩ i hi
  cases fFailedChain with
  | true =>
    obtain ⟨a, ha, hfa⟩ := hcause rfl i hi
    have hmark := Flagging.markChild hc.tree ⟨a, by rwa [ht], hf.failed hfa⟩
    have htree := @tree_modifyStatus s' i.hash fun status => { status with failedChild := true }
    exact ⟨hc.congr htree rfl, htree.trans ht,
      (hf.trans hc.tree (by rw [htree]; exact hc.tree) hmark).congr rfl rfl⟩
  | false =>
    simp only [Bool.false_eq_true, if_false]
    split <;> exact ⟨hc.congr rfl rfl, ht, hf.congr rfl rfl⟩

theorem Coherent.mem_chain_of_span (hs : s.Coherent genesis) {pindexNew pindexTest : CBlockIndex}
    {above rest : List CBlockIndex} (hbest : s.bestCandidate = some pindexNew)
    (hspan : ((s.path pindexNew.hash).takeWhile fun i => !s.contains i).span usable =
      (above, pindexTest :: rest)) :
    pindexTest ∈ s.path pindexNew.hash ∧
      ∀ i ∈ above, pindexTest.hash ∈ s.tree.chain i.hash := by
  obtain ⟨hash, e, -, he, rfl⟩ := bestCandidate_mem hbest
  rw [List.span_eq_takeWhile_dropWhile, Prod.mk.injEq] at hspan
  have hpath : s.path e.hash = above ++ pindexTest :: (rest ++
      (s.path e.hash).dropWhile fun i => !s.contains i) := by
    rw [← List.cons_append, ← List.append_assoc, ← hspan.1, ← hspan.2, List.takeWhile_append_dropWhile,
      List.takeWhile_append_dropWhile]
  refine ⟨by rw [hpath]; simp, fun i hi => ?_⟩
  obtain ⟨l, r, rfl⟩ := List.append_of_mem hi
  have hchain := @map_hash_path s e.hash
  rw [hpath, List.map_append, List.map_append, List.map_cons, List.append_assoc, List.cons_append,
    eq_comm] at hchain
  rw [hs.tree.chain_suffix (by rw [hs.hash_eq he]; exact tree_of_lookup he) hchain]
  simp

theorem turnInvariant_flagging (genesis : Uint256) (s₀ : Chainstate) :
    TurnInvariant crypto keys p files fun s => s.Coherent genesis ∧ s₀.Flagging s where
  disconnect hs h := by
    refine ⟨(turnInvariant_coherent genesis).disconnect hs.1 h, ?_⟩
    obtain ⟨_, _, _, _, -, -, -, rfl⟩ := disconnectTip_ok h
    exact hs.2.congr rfl rfl
  connect pblock hs he :=
    have hc := (turnInvariant_coherent genesis).connect pblock hs.1 he
    ⟨hc, hs.2.trans hs.1.tree hc.tree (Flagging.connectTip hs.1 he)⟩
  prune hs h := by
    refine ⟨(@turnInvariant_coherent crypto keys p files genesis).prune hs.1 h, ?_⟩
    simp only [pruneBlockIndexCandidates, check_bind_eq_ok, check_pure_eq_ok] at h
    obtain ⟨-, -, rfl⟩ := h
    exact hs.2.congr rfl rfl
  drop {s pindexNew above pindexTest rest} hs hbest hspan hassert := by
    have hc := (@turnInvariant_coherent crypto keys p files genesis).drop hs.1 hbest hspan hassert
    obtain ⟨htest, hchain⟩ := hs.1.mem_chain_of_span hbest hspan
    obtain ⟨e, he, rfl⟩ := hs.1.lookup_of_mem_path htest
    refine ⟨hc, hs.2.trans hs.1.tree hc.tree
      ((Flagging.dropChain hs.1 fun hf i hi => ?_).congr rfl rfl)⟩
    exact ⟨e.hash, hchain i hi, failed_of_lookup he hf⟩

theorem flags_addHeader {block : CBlockHeader} :
    (s.addHeader p hash block).flags = (s.addToBlockIndex hash block).flags := by
  refine flags_modify_keeps fun i => ?_
  split_ifs <;> exact ⟨rfl, rfl⟩

theorem flags_addToBlockIndex {block : CBlockHeader} (hnew : s.lookup hash = none) {h : Uint256} :
    (s.addToBlockIndex hash block).flags h = if h = hash then some (false, false) else s.flags h := by
  rw [flags, addToBlockIndex, hnew]
  split_ifs with heq
  · rw [heq, lookup, AList.lookup_insert]
    rfl
  · rw [lookup, AList.lookup_insert_ne heq]
    rfl

theorem Flagging.acceptBlockHeader (hs : s.Coherent p.hashGenesisBlock) {nAdjustedTime : ℤ}
    {block : CBlockHeader} {fProofOfStake : Bool}
    (h : s.acceptBlockHeader crypto p nAdjustedTime block fProofOfStake = .ok s') : s.Flagging s' := by
  have ht' := (hs.acceptBlockHeader h).tree
  rw [Chainstate.acceptBlockHeader] at h
  split_ifs at h with hg
  · obtain rfl := check_pure_eq_ok.mp h
    obtain ⟨e, he⟩ := Option.isSome_iff_exists.mp hs.genesis_isSome
    have hadd : s.addToBlockIndex (block.getHash crypto) block = s := by
      rw [hg, addToBlockIndex, he]
    exact .of_eq hs.tree (by rw [tree_addHeader, hadd]) (by rw [flags_addHeader, hadd])
  · cases hself : s.lookup (block.getHash crypto) with
    | some pindex =>
      simp only [hself, check_bind_eq_ok, check_pure_eq_ok] at h
      obtain ⟨-, -, rfl⟩ := h
      exact .refl hs.tree
    | none =>
      simp only [hself, check_bind_eq_ok, orFail_eq_ok, check_pure_eq_ok] at h
      obtain ⟨-, -, prev, hprev, -, -, -, -, rfl⟩ := h
      have htree := tree_addToBlockIndex hself (tree_of_lookup hprev)
      have hnone : s.flags (block.getHash crypto) = none := by rw [flags, hself, Option.map_none]
      refine ⟨fun hv => ?_, fun {h} hf => ?_, fun {h} hf => ?_, fun {h} hf => ?_⟩
      · rw [tree_addHeader, htree]
        exact Tree.add_of_some (BlockMap.tree_eq_none.mpr hself) hv
      · rw [FailedValid, flags_addHeader, flags_addToBlockIndex hself]
        rwa [if_neg]
        rintro rfl
        obtain ⟨c, hc⟩ := hf
        cases hnone.symm.trans hc
      · rw [Failed, flags_addHeader, flags_addToBlockIndex hself]
        rwa [if_neg]
        rintro rfl
        obtain ⟨c, hc, -⟩ := hf
        cases hnone.symm.trans hc
      · obtain ⟨v, hv⟩ := hf.tree
        refine ⟨h, ht'.mem_chain_self hv, .inl ?_⟩
        rw [Failed, flags_addHeader, flags_addToBlockIndex hself] at hf
        split_ifs at hf with heq
        · obtain ⟨c, hc, hc'⟩ := hf
          obtain rfl := Option.some.inj hc
          cases hc'
        · exact hf

theorem Flagging.acceptBlockData (node : Node) (ht : node.tree.WellFormed genesis) (block : CBlock)
    (pindex : CBlockIndex) :
    node.Flagging (node.acceptBlockData crypto p block pindex).1.toChainstate := by
  rw [Node.acceptBlockData]
  split
  · exact .condemn ht _ _
  · split_ifs
    · exact .refl ht
    · exact .receivedBlockTransactions ht _ _

end Chainstate

namespace Running

variable {crypto : Crypto} {keys : PubKeys} {p : Params} {r : Running}

/-- The operations of a node only set flags, and never without a cause. -/
theorem step_flagging (hr : r.Coherent p) (op : NodeOp) :
    r.Flagging (r.step crypto keys p op).toChainstate := by
  have ht := hr.state.tree
  cases op with
  | header nAdjustedTime block =>
    simp only [step]
    split
    · exact .refl ht
    · next hacc => exact Chainstate.Flagging.acceptBlockHeader hr.state hacc
  | block nAdjustedTime block fRequested =>
    simp only [step, Node.acceptBlock]
    split
    · exact .refl ht
    · next s hacc =>
      have hs := hr.state.acceptBlockHeader hacc
      have hheader := Chainstate.Flagging.acceptBlockHeader hr.state hacc
      split
      · exact hheader
      · next pindex _ =>
        split_ifs
        · exact hheader
        · refine hheader.trans hs.tree ?_
            (Chainstate.Flagging.acceptBlockData ⟨s, r.blockFiles⟩ hs.tree block _)
          rw [Node.tree_acceptBlockData]
          exact hs.tree
  | activate thread pblock =>
    exact ((Chainstate.turnInvariant_flagging p.hashGenesisBlock r.toChainstate).activateTurn
      ⟨hr.state, .refl ht⟩ _).2

end Running

end X2XCoin
