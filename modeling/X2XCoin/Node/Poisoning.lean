import X2XCoin.Consensus.MerkleBinding
import X2XCoin.Node.ProcessBlock
import X2XCoin.Node.StakeKernel

/-!
# Blocks with the header of another block

A peer can send, under the header of a valid block, other transactions or another signature.  The
signature is not covered by the header, and neither is the kind of the block: a block without a
coinstake is held to the proof of work that a proof-of-stake header does not have.
-/

open ByteCodec

namespace X2XCoin

namespace Chainstate

variable {crypto : Crypto} {keys : PubKeys} {p : Params} {files : BlockFiles} {pblock : Option CBlock}
  {s s' : Chainstate} {genesis hash : Uint256}

/-! ## An entry without data is not marked by `ActivateBestChain` -/

/-- The entry is known, without data and not marked as invalid. -/
def Missing (s : Chainstate) (hash : Uint256) : Prop :=
  ∃ e, s.lookup hash = some e ∧ e.nStatus.haveData = false ∧ e.nStatus.failedValid = false

theorem Missing.modifyStatus {h : Uint256} {f : BlockStatus → BlockStatus} (hs : s.Missing hash)
    (hf : ∀ status, (f status).haveData = status.haveData ∧ (f status).failedValid = status.failedValid) :
    (s.modifyStatus h f).Missing hash := by
  obtain ⟨e, he, hdata, hfailed⟩ := hs
  rw [Missing, Chainstate.modifyStatus, lookup_modify]
  split_ifs
  · rw [he]
    exact ⟨_, rfl, (hf _).1.trans hdata, (hf _).2.trans hfailed⟩
  · exact ⟨e, he, hdata, hfailed⟩

theorem Missing.dropChain (hs : s.Missing hash) (fFailedChain : Bool) (above : List CBlockIndex) :
    (s.dropChain fFailedChain above).Missing hash := by
  induction above generalizing s with
  | nil => exact hs
  | cons i above ih =>
    rw [Chainstate.dropChain, List.foldl_cons, ← Chainstate.dropChain]
    apply ih
    show Missing (ite _ _ _) hash
    split_ifs
    · exact hs.modifyStatus fun _ => ⟨rfl, rfl⟩
    · split <;> exact hs

theorem Missing.target (hs : s.Missing hash) {w w' : Option Uint256}
    (h : s.target w = .ok (s', w')) : s'.Missing hash :=
  @target_invariant s s' (·.Missing hash) (fun hs _ _ _ => hs.dropChain _ _) hs w w' h

/-- The blocks that `FindMostWorkChain` wants to connect are usable. -/
theorem findMostWorkChain_usable {n : ℕ} {w : Uint256} (h : s.findMostWorkChain n = .ok (s', some w)) :
    ∀ i ∈ (s'.path w).takeWhile fun i => !s'.contains i, usable i = true := by
  induction n generalizing s with
  | zero => cases check_pure_eq_ok.mp h
  | succ n ih =>
    rw [findMostWorkChain] at h
    split at h
    · cases check_pure_eq_ok.mp h
    · rw [check_bind_eq_ok] at h
      obtain ⟨-, -, h⟩ := h
      split at h
      · next hrest =>
        obtain ⟨rfl, hw⟩ := Prod.mk.inj (check_pure_eq_ok.mp h)
        cases hw
        rw [List.span_eq_takeWhile_dropWhile] at hrest
        simpa using List.dropWhile_eq_nil_iff.mp hrest
      · exact ih h

theorem Missing.of_lookup_eq (hs : s.Missing hash) (h : s'.lookup hash = s.lookup hash) :
    s'.Missing hash := by
  rwa [Missing, h]

/-- Connecting another block, or the block itself when it is not there, leaves its entry. -/
theorem Missing.connectTip (hs : s.Missing hash) (hfile : files.lookup hash = none)
    {pindexNew : IndexEntry} (hblock : pindexNew.hash = hash → pblock = none) :
    (s.connectTip crypto keys p files pblock pindexNew).1.Missing hash := by
  rw [Chainstate.connectTip]
  split_ifs
  · exact hs
  · by_cases hself : pindexNew.hash = hash
    · have hnone : readBlock crypto p files pindexNew.toCBlockIndex = none := by
        rw [readBlock, hself, hfile, Option.filter_none]
      rw [hblock hself, hnone]
      exact hs
    · split
      · exact hs
      · split
        · exact hs.of_lookup_eq ((lookup_invalidBlockFound_ne (Ne.symm hself)).trans
            (lookup_setModifier_ne (Ne.symm hself)))
        · exact hs.of_lookup_eq (lookup_modify_ne (Ne.symm hself))

/-- A step towards another entry, or towards the entry itself when it is active, leaves it. -/
theorem Missing.activateBestChainStep (hs : s.Missing hash) (hfile : files.lookup hash = none)
    {w : Uint256} (hw : w = hash → ∀ i ∈ (s.path w).head?, s.contains i = true) :
    (s.activateBestChainStep crypto keys p files pblock w).state.Missing hash := by
  have hd := @disconnectTo_invariant s (·.Missing hash) (disconnectTip crypto keys p files)
    (fun hs h => by
      obtain ⟨_, _, _, _, -, -, -, rfl⟩ := disconnectTip_ok h
      exact hs) hs ((s.findFork w).map CBlockIndex.hash) s.chainActive.length
  rw [Chainstate.activateBestChainStep]
  split
  · next hdis => rwa [hdis] at hd
  · next hdis =>
    rw [hdis] at hd
    by_cases heq : w = hash
    · -- Nothing is to be connected.
      have hnil : (s.path w).takeWhile (fun i => !s.contains i) = [] := by
        cases hpath : s.path w with
        | nil => rfl
        | cons i l => simp [hw heq i (by rw [hpath]; rfl)]
      rw [hnil]
      exact hd
    · refine @connectUpTo_invariant _ (·.Missing hash) _ (fun hs _ => Missing.connectTip hs hfile ?_)
        (fun hs h => ?_) hd _ _
      · exact fun hself => if_neg fun h => heq (h.symm.trans hself)
      · simp only [pruneBlockIndexCandidates, check_bind_eq_ok, check_pure_eq_ok] at h
        obtain ⟨-, -, rfl⟩ := h
        exact hs

theorem Coherent.activateBestChainStep_active (hcoh : s.Coherent genesis) {v : TreeNode}
    (hv : s.tree hash = some v) (hin : ∀ i ∈ (s.path hash).head?, s.contains i = true)
    (hok : (s.activateBestChainStep crypto keys p files pblock hash).result = .ok ()) :
    (s.activateBestChainStep crypto keys p files pblock hash).state.chainActive.head? = some hash := by
  obtain ⟨e, he, rfl⟩ := tree_eq_some.mp hv
  obtain ⟨rest, hpath⟩ := path_eq_cons he
  have hcontains := hin e.toCBlockIndex (by rw [hpath]; rfl)
  have hnil : (s.path hash).takeWhile (fun i => !s.contains i) = [] := by
    rw [hpath]
    simp [hcontains]
  have hfork : s.findFork hash = some e.toCBlockIndex := by
    rw [Chainstate.findFork, hpath, List.find?_cons_of_pos hcontains]
  obtain ⟨fork, above, below, hfork', hchain, hbelow, hmem⟩ := hcoh.findFork hv
  obtain rfl : e.toCBlockIndex = fork := Option.some.inj (hfork.symm.trans hfork')
  obtain ⟨-, hall⟩ := @Coherent.disconnectTo_fork crypto keys p files s genesis hcoh _ _ _ hchain
    s.chainActive.length
  rw [Chainstate.activateBestChainStep, hfork, Option.map_some] at hok ⊢
  have hlen : above.length ≤ s.chainActive.length := by
    rw [hchain, List.length_append]
    omega
  split at hok
  · cases hok
  · next hdis =>
    rw [hdis] at hall
    rw [hnil]
    obtain ⟨-, hchain'⟩ := hall hmem hlen rfl
    rw [hcoh.hash_eq he] at hchain'
    exact congrArg List.head? hchain'

theorem Missing.activateTurn (hs : s.Missing hash) (hcoh : s.Coherent genesis)
    (hfile : files.lookup hash = none) {w : Option Uint256} (hw : w ≠ some hash)
    (hmem : ∀ h, w = some h → ∃ v, s.tree h = some v) :
    (s.activateTurn crypto keys p files pblock w).state.Missing hash ∧
      ((s.activateTurn crypto keys p files pblock w).returns = none →
        (s.activateTurn crypto keys p files pblock w).pindexMostWork ≠ some hash) := by
  rw [Chainstate.activateTurn]
  split
  · exact ⟨hs, by simp⟩
  · next htarget =>
    exact ⟨hs.target htarget, by simp⟩
  · next s₁ t htarget =>
    obtain ⟨hcoh₁, -, hmem₁⟩ := hcoh.target hmem htarget
    obtain ⟨v, hv⟩ := hmem₁ t rfl
    -- If the entry itself is the target it is active, because it is not usable.
    have hboth : s₁.Missing hash ∧ (t = hash → ∀ i ∈ (s₁.path t).head?, s₁.contains i = true) := by
      cases w with
      | some w =>
        obtain ⟨rfl, heq⟩ := Prod.mk.inj (check_pure_eq_ok.mp htarget)
        exact ⟨hs, fun h => absurd (heq.trans (congrArg some h)) hw⟩
      | none =>
        have hs₁ := hs.target htarget
        refine ⟨hs₁, ?_⟩
        rintro rfl i hi
        by_contra hnot
        obtain ⟨e, he, hdata, -⟩ := hs₁
        obtain ⟨rest, hpath⟩ := path_eq_cons he
        rw [hpath] at hi
        obtain rfl := Option.some.inj hi
        have husable := findMostWorkChain_usable htarget e.toCBlockIndex (by
          rw [hpath, List.takeWhile_cons_of_pos (by simpa using hnot)]
          exact List.mem_cons_self)
        simp [usable, hdata] at husable
    obtain ⟨hs₁, hactive⟩ := hboth
    split_ifs
    · exact ⟨hs₁, by simp⟩
    · have hstep := fun pblock =>
        @Missing.activateBestChainStep crypto keys p files pblock s₁ hash hs₁ hfile t hactive
      simp only
      split
      · exact ⟨hstep _, by simp⟩
      · next hok =>
        split_ifs with hinv hhead
        · exact ⟨hstep _, by simp⟩
        · exact ⟨hstep _, by simp⟩
        · refine ⟨hstep _, fun _ heq => hhead ?_⟩
          obtain rfl := Option.some.inj heq
          exact hcoh₁.activateBestChainStep_active hv (hactive rfl) hok

theorem Missing.activateBestChain (hs : s.Missing hash) (hcoh : s.Coherent genesis)
    (hfile : files.lookup hash = none) (n : ℕ) {w : Option Uint256} (hw : w ≠ some hash)
    (hmem : ∀ h, w = some h → ∃ v, s.tree h = some v) :
    (s.activateBestChain crypto keys p files pblock n w).1.Missing hash := by
  induction n generalizing s w with
  | zero => exact hs
  | succ n ih =>
    obtain ⟨hs', hne⟩ := @Missing.activateTurn crypto keys p files pblock s genesis hash hs hcoh hfile w
      hw hmem
    obtain ⟨hcoh', hmem'⟩ := @Coherent.activateTurn crypto keys p files pblock s genesis hcoh w hmem
    rw [Chainstate.activateBestChain]
    split
    · exact hs'
    · next hret =>
      refine ih hs' hcoh' (hne hret) fun h heq => ?_
      rw [tree_activateTurn]
      exact hmem' h heq

/-- The kind of the block does not show in what becomes of its header. -/
theorem acceptBlockHeader_unique {s₁ s₂ : Chainstate} {nAdjustedTime : ℤ} {header : CBlockHeader}
    {fProofOfStake fProofOfStake' : Bool}
    (h₁ : s.acceptBlockHeader crypto p nAdjustedTime header fProofOfStake = .ok s₁)
    (h₂ : s.acceptBlockHeader crypto p nAdjustedTime header fProofOfStake' = .ok s₂) : s₂ = s₁ := by
  rw [acceptBlockHeader] at h₁ h₂
  split_ifs at h₁ h₂
  · exact (check_pure_eq_ok.mp h₂).symm.trans (check_pure_eq_ok.mp h₁)
  · cases hlook : s.lookup (header.getHash crypto) with
    | some pindex =>
      simp only [hlook, check_bind_eq_ok, check_pure_eq_ok] at h₁ h₂
      obtain ⟨-, -, rfl⟩ := h₁
      obtain ⟨-, -, rfl⟩ := h₂
      rfl
    | none =>
      simp only [hlook, check_bind_eq_ok, check_pure_eq_ok] at h₁ h₂
      obtain ⟨-, -, -, -, -, -, -, -, rfl⟩ := h₁
      obtain ⟨-, -, -, -, -, -, -, -, rfl⟩ := h₂
      rfl

/-- A header that is accepted has not been marked, and still is not. -/
theorem acceptBlockHeader_unmarked {nAdjustedTime : ℤ} {header : CBlockHeader} {fProofOfStake : Bool}
    (hne : header.getHash crypto ≠ p.hashGenesisBlock)
    (h : s.acceptBlockHeader crypto p nAdjustedTime header fProofOfStake = .ok s') :
    (∀ e, s.lookup (header.getHash crypto) = some e → e.nStatus.failedValid = false) ∧
      ∀ e, s'.lookup (header.getHash crypto) = some e → e.nStatus.failedValid = false := by
  rw [acceptBlockHeader, if_neg hne] at h
  cases hlook : s.lookup (header.getHash crypto) with
  | some pindex =>
    simp only [hlook, check_bind_eq_ok, check_pure_eq_ok, ensure_eq_ok] at h
    obtain ⟨-, hfailed, rfl⟩ := h
    have hvalid : pindex.nStatus.failedValid = false := by
      simp only [BlockStatus.failed, Bool.or_eq_true, not_or] at hfailed
      exact Bool.eq_false_iff.mpr hfailed.1
    refine ⟨?_, fun e he => ?_⟩
    · rintro e ⟨⟩
      exact hvalid
    · obtain rfl := Option.some.inj (hlook.symm.trans he)
      exact hvalid
  | none =>
    simp only [hlook, check_bind_eq_ok, check_pure_eq_ok] at h
    obtain ⟨-, -, -, -, -, -, -, -, rfl⟩ := h
    refine ⟨fun _ h => (by cases h), fun e he => ?_⟩
    rw [addHeader, lookup_modify, if_pos rfl, addToBlockIndex, hlook, lookup, AList.lookup_insert] at he
    obtain rfl := Option.some.inj he
    simp only
    split_ifs <;> rfl

end Chainstate

/-! ## What is checked of the other block -/

section

variable {crypto : Crypto} {p : Params} {chainHeight : ℤ} {block block' : CBlock}

/-- The tests of `CheckBlock` between the one on the size and the one on the signature. -/
def checkBeforeSignature (p : Params) (chainHeight : ℤ) (block : CBlock) : Check Unit := do
  ensure (block.vtx.head?.any CTransaction.isCoinBase) (dos 100 .invalid "bad-cb-missing" false)
  ensure (∀ tx ∈ block.vtx.tail, ¬ tx.isCoinBase) (dos 100 .invalid "bad-cb-multiple" false)
  ensure (∀ tx ∈ block.vtx.head?, ¬ block.getBlockTime > futureDrift p chainHeight tx.nTime.toNat)
    (dos 50 .invalid "bad-cb-time" false)
  ensure (¬ (block.isProofOfStake ∧ ¬ checkStakeTime p block)) (dos 50 .invalid "bad-cs-time" false)
  onlyIf block.isProofOfStake (checkStakeLayout block)

/-- The tests after the signature. -/
def checkAfterSignature (block : CBlock) : Check Unit := do
  block.vtx.forM (checkBlockTransaction block)
  ensure (¬ (block.vtx.map getSigOpCountWithoutP2SH).sum > MAX_BLOCK_SIGOPS)
    (dos 100 .invalid "bad-blk-sigops" false)

theorem checkBlockBody_eq : checkBlockBody crypto p chainHeight block true = (do
    ensure (¬ (block.vtx = [] ∨ block.vtx.length > MAX_BLOCK_SIZE ∨
      block.serialize.length > MAX_BLOCK_SIZE)) (dos 100 .invalid "bad-blk-length" false)
    checkBeforeSignature p chainHeight block
    ensure (¬ (true = true ∧ ¬ checkBlockSignature crypto block))
      (dos 100 .invalid "bad-block-signature" false)
    checkAfterSignature block) := by
  simp only [checkBlockBody, checkBeforeSignature, checkAfterSignature, bind_assoc]

theorem checkBlockBody_ok (h : checkBlockBody crypto p chainHeight block true = .ok ()) :
    (block.vtx ≠ [] ∧ block.vtx.length ≤ MAX_BLOCK_SIZE ∧ block.serialize.length ≤ MAX_BLOCK_SIZE) ∧
      checkBeforeSignature p chainHeight block = .ok () ∧ checkBlockSignature crypto block = true ∧
      checkAfterSignature block = .ok () := by
  simp only [checkBlockBody_eq, check_bind_eq_ok, ensure_eq_ok, not_or, not_lt, true_and,
    not_not] at h
  obtain ⟨-, hsize, ⟨⟩, hbefore, -, hsig, hafter⟩ := h
  exact ⟨hsize, hbefore, hsig, hafter⟩

section

variable (hheader : block'.toCBlockHeader = block.toCBlockHeader)
include hheader

/-- Everything but the size and the signature depends on the header and the transactions. -/
theorem checks_same (hvtx : block'.vtx = block.vtx) :
    checkBeforeSignature p chainHeight block' = checkBeforeSignature p chainHeight block ∧
      checkAfterSignature block' = checkAfterSignature block ∧
      checkMerkleRoot crypto block' = checkMerkleRoot crypto block ∧
      block'.isProofOfWork = block.isProofOfWork := by
  obtain ⟨header, vtx, sig⟩ := block
  obtain ⟨header', vtx', sig'⟩ := block'
  obtain rfl : header' = header := hheader
  obtain rfl : vtx' = vtx := hvtx
  exact ⟨rfl, rfl, rfl, rfl⟩

/-- The body of a block with the same transactions can only fail for its size or its signature. -/
theorem checkBlockBody_same (hvtx : block'.vtx = block.vtx)
    (h : checkBlockBody crypto p chainHeight block true = .ok ()) :
    checkBlockBody crypto p chainHeight block' true =
      if block'.serialize.length > MAX_BLOCK_SIZE then .error (dos 100 .invalid "bad-blk-length" false)
      else if checkBlockSignature crypto block' then .ok ()
      else .error (dos 100 .invalid "bad-block-signature" false) := by
  obtain ⟨⟨hne, hlen, -⟩, hbefore, -, hafter⟩ := checkBlockBody_ok h
  obtain ⟨hbefore', hafter', -⟩ := @checks_same crypto p chainHeight block block' hheader hvtx
  rw [checkBlockBody_eq, hbefore', hbefore, hafter', hafter, hvtx]
  split_ifs with hlong hsig
  · rw [ensure, if_neg (not_not.mpr (.inr (.inr hlong)))]
    rfl
  · rw [ensure_pos (by simp only [not_or, not_lt]; exact ⟨hne, hlen, not_lt.mp hlong⟩), check_ok_bind,
      check_ok_bind, ensure_pos (show ¬ (true = true ∧ ¬ _) from fun h => h.2 hsig), check_ok_bind]
  · rw [ensure_pos (by simp only [not_or, not_lt]; exact ⟨hne, hlen, not_lt.mp hlong⟩), check_ok_bind,
      check_ok_bind, ensure, if_neg (not_not.mpr ⟨rfl, hsig⟩)]
    rfl

/-- Two blocks with the same transactions and good signatures are twins. -/
theorem twin_of_same (hvtx : block'.vtx = block.vtx)
    (h : checkBlockBody crypto p chainHeight block true = .ok ())
    (hsize : block'.serialize.length ≤ MAX_BLOCK_SIZE)
    (hsig : checkBlockSignature crypto block' = true) : block.Twin crypto p block' := by
  obtain ⟨⟨-, -, hsize₀⟩, -, hsig₀, -⟩ := checkBlockBody_ok h
  refine ⟨hheader, hvtx, fun chainHeight => ?_⟩
  obtain ⟨hbefore, hafter, hmerkle, hpow⟩ := @checks_same crypto p chainHeight block block' hheader hvtx
  simp only [checkBlock, hmerkle, hpow, hheader, checkBlockBody_eq, hbefore, hafter, hvtx, hsig, hsig₀,
    not_lt.mpr hsize, not_lt.mpr hsize₀]

/-- `CheckBlock` on a block with the header of one that passed. -/
theorem checkBlock_other (h : checkBlock crypto p chainHeight block true true true = .ok ()) :
    checkBlock crypto p chainHeight block' true true true =
      if block'.isProofOfWork ∧ ¬ checkProofOfWork p (block'.getPoWHash crypto) block'.nBits then
        .error (dos 50 .invalid "high-hash" false)
      else checkMerkleRoot crypto block' >>= fun _ => checkBlockBody crypto p chainHeight block' true := by
  simp only [checkBlock, checkBlockHeader, check_bind_eq_ok, ensure_eq_ok] at h
  obtain ⟨_, ⟨_, hversion, -⟩, -⟩ := h
  rw [← hheader] at hversion
  simp only [checkBlock, checkBlockHeader, ensure_pos hversion, check_ok_bind, Bool.true_and, onlyIf,
    if_true]
  split_ifs with hpow
  · rw [ensure, if_neg (not_not.mpr hpow)]
    rfl
  · rw [ensure_pos hpow]
    rfl

end

theorem checkBlock_parts (h : checkBlock crypto p chainHeight block true true true = .ok ()) :
    checkMerkleRoot crypto block = .ok () ∧ checkBlockBody crypto p chainHeight block true = .ok () := by
  rw [checkBlock_other rfl h] at h
  split_ifs at h
  rw [check_bind_eq_ok] at h
  obtain ⟨⟨⟩, hmerkle, hbody⟩ := h
  exact ⟨hmerkle, hbody⟩

theorem vtx_eq_of_checkMerkleRoot (hok : BlockOk block)
    (hheader : block'.toCBlockHeader = block.toCBlockHeader)
    (hfree : CollisionFree crypto (merkleMessages crypto block.vtx ∪ merkleMessages crypto block'.vtx))
    (h64 : ∀ tx ∈ block.vtx ++ block'.vtx, tx.serialize.length ≠ 64)
    (h : checkMerkleRoot crypto block = .ok ()) (h' : checkMerkleRoot crypto block' = .ok ()) :
    block'.vtx = block.vtx := by
  simp only [checkMerkleRoot, check_bind_eq_ok, ensure_eq_ok, Bool.not_eq_true] at h h'
  obtain ⟨-, hroot, hflag⟩ := h
  obtain ⟨-, hroot', hflag'⟩ := h'
  have hne : block.vtx ≠ [] := by
    obtain ⟨tx, rest, hvtx, -⟩ := hok.coinBase
    rw [hvtx]
    exact List.cons_ne_nil _ _
  have hsize : ∀ tx ∈ block.vtx, tx.serialize.length ≤ MAX_SIZE := fun tx htx =>
    (hok.txs tx htx).size.trans (by decide)
  rw [hheader, hroot] at hroot'
  exact (vtx_eq_of_merkleRoot hne hfree hsize h64 hroot' hflag hflag').symm

theorem checkMerkleRoot_condemns {f : Failure} (h : checkMerkleRoot crypto block = .error f) :
    f.condemns = false := by
  simp only [checkMerkleRoot, check_bind_eq_error, ensure_eq_error] at h
  obtain ⟨-, rfl⟩ | ⟨-, -, -, rfl⟩ := h <;> rfl

end

/-! ## Accepting and poisoning -/

namespace Node

/-- `ProcessNewBlock` newly stores the block and leaves its entry unmarked. -/
structure Accepts (crypto : Crypto) (keys : PubKeys) (p : Params) (nAdjustedTime : ℤ) (n : ℕ)
    (node : Node) (pfrom : Option ℤ) (block : CBlock) (fRequested : Bool) : Prop where
  new : node.blockFiles.lookup (block.getHash crypto) = none
  returns : (node.processNewBlock crypto keys p nAdjustedTime n pfrom block fRequested).2 = .ok ()
  stored : (node.processNewBlock crypto keys p nAdjustedTime n pfrom block
    fRequested).1.blockFiles.lookup (block.getHash crypto) = some block
  unmarked : ∀ e, (node.processNewBlock crypto keys p nAdjustedTime n pfrom block
    fRequested).1.lookup (block.getHash crypto) = some e → e.nStatus.failedValid = false

/-- The entry of a hash is marked as invalid. -/
def Marked (node : Node) (hash : Uint256) : Prop :=
  ∃ e, node.lookup hash = some e ∧ e.nStatus.failedValid = true

/-- `AcceptBlock` gets as far as `CheckBlock`. -/
def Reaches (crypto : Crypto) (p : Params) (nAdjustedTime : ℤ) (node : Node) (block : CBlock)
    (fRequested : Bool) : Prop :=
  ∃ s pindex, node.acceptBlockHeader crypto p nAdjustedTime block.toCBlockHeader block.isProofOfStake =
    .ok s ∧ s.lookup (block.getHash crypto) = some pindex ∧
      s.skipsBlock pindex.toCBlockIndex fRequested = false

variable {crypto : Crypto} {keys : PubKeys} {p : Params} {nAdjustedTime : ℤ} {n : ℕ} {node : Node}
  {pfrom : Option ℤ} {block block' : CBlock} {fRequested fProofOfStake : Bool}

theorem accepts_iff : node.Accepts crypto keys p nAdjustedTime n pfrom block fRequested ↔
    node.blockFiles.lookup (block.getHash crypto) = none ∧
      (node.processNewBlock crypto keys p nAdjustedTime n pfrom block fRequested).2 = .ok () ∧
      (node.processNewBlock crypto keys p nAdjustedTime n pfrom block fRequested).1.blockFiles.lookup
        (block.getHash crypto) = some block ∧
      ((node.processNewBlock crypto keys p nAdjustedTime n pfrom block fRequested).1.lookup
        (block.getHash crypto)).all (fun e => !e.nStatus.failedValid) = true := by
  simp only [Option.all_eq_true, Bool.not_eq_true']
  exact ⟨fun ⟨h₁, h₂, h₃, h₄⟩ => ⟨h₁, h₂, h₃, h₄⟩, fun ⟨h₁, h₂, h₃, h₄⟩ => ⟨h₁, h₂, h₃, h₄⟩⟩

instance : Decidable (node.Accepts crypto keys p nAdjustedTime n pfrom block fRequested) :=
  decidable_of_iff _ accepts_iff.symm

instance {hash : Uint256} : Decidable (node.Marked hash) :=
  decidable_of_iff ((node.lookup hash).any (fun e => e.nStatus.failedValid) = true)
    (Option.any_eq_true _ _)

theorem Accepts.facts (h : node.Accepts crypto keys p nAdjustedTime n pfrom block fRequested) :
    ∃ s pindex, node.acceptBlockHeader crypto p nAdjustedTime block.toCBlockHeader
        block.isProofOfStake = .ok s ∧ s.lookup (block.getHash crypto) = some pindex ∧
      s.skipsBlock pindex.toCBlockIndex fRequested = false ∧
      s.checkBlockData crypto p block pindex.nHeight = .ok () ∧
      ¬ (block.isProofOfWork ∧ (pindex.nHeight : ℤ) > p.nLastPOWBlock) ∧
      (node.processNewBlock crypto keys p nAdjustedTime n pfrom block fRequested).1.toChainstate =
        ((s.receivedBlockTransactions pindex.hash block).activateBestChain crypto keys p
          (node.blockFiles.insert pindex.hash block) (some block) n none).1 := by
  obtain ⟨hnew, hret, hstored, -⟩ := h
  rw [processNewBlock] at hret hstored ⊢
  split_ifs at hret hstored ⊢ with hpass
  · cases hacc : node.acceptBlock crypto p nAdjustedTime block fRequested with
    | mk node₁ res =>
      rw [hacc] at hret hstored
      cases res with
      | error f => cases hret
      | ok u =>
        rw [acceptBlock] at hacc
        cases hheader : node.acceptBlockHeader crypto p nAdjustedTime block.toCBlockHeader
          block.isProofOfStake with
        | error f =>
          rw [hheader] at hacc
          cases hacc
        | ok s =>
          simp only [hheader] at hacc
          cases hlook : s.lookup (block.getHash crypto) with
          | none =>
            rw [hlook] at hacc
            cases hacc
          | some pindex =>
            simp only [hlook] at hacc
            split_ifs at hacc with hskip
            · cases hacc
              exact absurd (hstored.symm.trans hnew) (Option.some_ne_none _)
            · rw [acceptBlockData] at hacc
              split at hacc
              · cases hacc
              · next hdata =>
                split_ifs at hacc with hheight
                · cases hacc
                · cases hacc
                  exact ⟨s, pindex, rfl, hlook, Bool.eq_false_iff.mpr hskip, hdata, hheight, rfl⟩

variable {s : Chainstate} {pindex : IndexEntry}

section

variable (hpass : block.passesEncoding crypto pfrom = true)
  (hs : node.acceptBlockHeader crypto p nAdjustedTime block.toCBlockHeader block.isProofOfStake = .ok s)
  (hpindex : s.lookup (block.getHash crypto) = some pindex)
  (hskip : s.skipsBlock pindex.toCBlockIndex fRequested = false)
include hpass hs hpindex hskip

/-- A block whose data is refused marks the entry or leaves it. -/
theorem processNewBlock_error {f : Failure}
    (hdata : s.checkBlockData crypto p block pindex.nHeight = .error f) :
    (node.processNewBlock crypto keys p nAdjustedTime n pfrom block fRequested).1.toChainstate =
      s.condemn pindex.hash f := by
  simp only [processNewBlock, hpass, if_true, acceptBlock, hs, hpindex, hskip, acceptBlockData, hdata]
  rfl

/-- A block whose data is accepted is stored, and the best chain is looked for. -/
theorem processNewBlock_ok (hdata : s.checkBlockData crypto p block pindex.nHeight = .ok ())
    (hheight : ¬ (block.isProofOfWork ∧ (pindex.nHeight : ℤ) > p.nLastPOWBlock)) :
    (node.processNewBlock crypto keys p nAdjustedTime n pfrom block fRequested).1.toChainstate =
      ((s.receivedBlockTransactions pindex.hash block).activateBestChain crypto keys p
        (node.blockFiles.insert pindex.hash block) (some block) n none).1 := by
  simp only [processNewBlock, hpass, if_true, acceptBlock, hs, hpindex, hskip, acceptBlockData, hdata,
    hheight]
  rfl

end

/-- `AcceptBlock` does not get to `CheckBlock`: what is left of the block is its header. -/
theorem not_marked_of_not_reaches (hcoh : node.toChainstate.Coherent p.hashGenesisBlock)
    (hne : block.getHash crypto ≠ p.hashGenesisBlock)
    (hfile : node.blockFiles.lookup (block.getHash crypto) = none)
    (hs : node.acceptBlockHeader crypto p nAdjustedTime block.toCBlockHeader fProofOfStake = .ok s)
    (hmissing : s.Missing (block.getHash crypto))
    (hnot : ¬ (block.passesEncoding crypto pfrom = true ∧
      node.Reaches crypto p nAdjustedTime block fRequested)) :
    ¬ (node.processNewBlock crypto keys p nAdjustedTime n pfrom block fRequested).1.Marked
      (block.getHash crypto) := by
  obtain ⟨hbefore, -⟩ := Chainstate.acceptBlockHeader_unmarked hne hs
  have hnode : ¬ node.Marked (block.getHash crypto) := by
    rintro ⟨e, he, hmarked⟩
    rw [hbefore e he] at hmarked
    cases hmarked
  rw [processNewBlock]
  split_ifs with hpass
  · rw [acceptBlock]
    cases hs' : node.acceptBlockHeader crypto p nAdjustedTime block.toCBlockHeader
      block.isProofOfStake with
    | error f => exact hnode
    | ok s' =>
      obtain rfl := Chainstate.acceptBlockHeader_unique hs hs'
      obtain ⟨pindex, hpindex, hstatus⟩ := hmissing
      have hskip : s'.skipsBlock pindex.toCBlockIndex fRequested = true := by
        by_contra h
        exact hnot ⟨hpass, s', pindex, hs', hpindex, Bool.eq_false_iff.mpr h⟩
      simp only [hpindex, hskip, if_true]
      obtain ⟨e, he, -, hvalid⟩ := @Chainstate.Missing.activateBestChain crypto keys p node.blockFiles
        (some block) s' p.hashGenesisBlock _ ⟨pindex, hpindex, hstatus⟩ (hcoh.acceptBlockHeader hs') hfile n
        none (by simp) (by simp)
      rintro ⟨e', he', hmarked⟩
      obtain rfl := Option.some.inj (he.symm.trans he')
      rw [hvalid] at hmarked
      cases hmarked
  · exact hnode

/-- The refusal of the data marks the entry if it condemns the block. -/
theorem marked_condemn {hash : Uint256} {f : Failure}
    (hnode : node.toChainstate = s.condemn pindex.hash f) (hpindex : s.lookup hash = some pindex)
    (hhash : pindex.hash = hash) (hvalid : pindex.nStatus.failedValid = false) :
    node.Marked hash ↔ f.condemns = true := by
  rw [Marked, hnode, Chainstate.condemn, hhash]
  split_ifs with hf
  · rw [Chainstate.modifyStatus, Chainstate.lookup_modify, if_pos rfl, hpindex]
    exact iff_of_true ⟨_, rfl, rfl⟩ hf
  · refine iff_of_false ?_ hf
    rintro ⟨e, he, hmarked⟩
    obtain rfl := Option.some.inj (hpindex.symm.trans he)
    rw [hvalid] at hmarked
    cases hmarked

theorem processNewBlock_twin {pfrom' : Option ℤ} {fRequested' : Bool}
    (htwin : block.Twin crypto p block') (hpass : block'.passesEncoding crypto pfrom' = true)
    (hs : node.acceptBlockHeader crypto p nAdjustedTime block.toCBlockHeader block.isProofOfStake =
      .ok s)
    (hpindex : s.lookup (block.getHash crypto) = some pindex)
    (hskip : s.skipsBlock pindex.toCBlockIndex fRequested' = false)
    (hdata : s.checkBlockData crypto p block pindex.nHeight = .ok ())
    (hheight : ¬ (block.isProofOfWork ∧ (pindex.nHeight : ℤ) > p.nLastPOWBlock)) :
    (node.processNewBlock crypto keys p nAdjustedTime n pfrom' block' fRequested').1.toChainstate =
      ((s.receivedBlockTransactions pindex.hash block).activateBestChain crypto keys p
        (node.blockFiles.insert pindex.hash block) (some block) n none).1 := by
  have hfiles : BlockFiles.Twin crypto p (node.blockFiles.insert pindex.hash block)
      (node.blockFiles.insert pindex.hash block') := by
    intro hash
    by_cases heq : hash = pindex.hash
    · rw [heq, AList.lookup_insert, AList.lookup_insert]
      exact .some htwin
    · rw [AList.lookup_insert_ne heq, AList.lookup_insert_ne heq]
      cases node.blockFiles.lookup hash with
      | none => exact .none
      | some b => exact .some (CBlock.Twin.refl b)
  have hreceived : s.receivedBlockTransactions pindex.hash block' =
      s.receivedBlockTransactions pindex.hash block := by
    simp only [Chainstate.receivedBlockTransactions, CBlockIndex.received, htwin.vtx,
      htwin.isProofOfStake]
  have hdata' : s.checkBlockData crypto p block' pindex.nHeight = .ok () := by
    rw [← hdata]
    simp only [Chainstate.checkBlockData, htwin.check, contextualCheckBlock, htwin.vtx, htwin.header]
  rw [← htwin.header, ← htwin.isProofOfStake] at hs
  rw [← htwin.header] at hpindex
  rw [← htwin.isProofOfWork] at hheight
  rw [processNewBlock_ok hpass hs hpindex hskip hdata' hheight, hreceived,
    Chainstate.activateBestChain_twin hfiles (.some htwin)]

/-- The block is refused for something that its header does not fix: for the proof of work that a
block without a coinstake needs, or, with the transactions of the block that is accepted, for its
signature or its size. -/
def RefusedForData (crypto : Crypto) (p : Params) (block block' : CBlock) : Prop :=
  (block'.isProofOfWork = true ∧ ¬ checkProofOfWork p (block'.getPoWHash crypto) block'.nBits) ∨
    block'.vtx = block.vtx ∧
      (checkBlockSignature crypto block' = false ∨ MAX_BLOCK_SIZE < block'.serialize.length)

/-- Which blocks under the header of a block that is accepted get the entry marked. -/
theorem marked_processNewBlock (hcoh : node.toChainstate.Coherent p.hashGenesisBlock)
    (hgenesis : (node.blockFiles.lookup p.hashGenesisBlock).isSome) {pfrom' : Option ℤ}
    {fRequested' : Bool}
    (hacc : node.Accepts crypto keys p nAdjustedTime n pfrom block fRequested)
    (hheader : block'.toCBlockHeader = block.toCBlockHeader)
    (hfree : CollisionFree crypto (merkleMessages crypto block.vtx ∪ merkleMessages crypto block'.vtx))
    (h64 : ∀ tx ∈ block.vtx ++ block'.vtx, tx.serialize.length ≠ 64) :
    (node.processNewBlock crypto keys p nAdjustedTime n pfrom' block' fRequested').1.Marked
        (block.getHash crypto) ↔
      block'.passesEncoding crypto pfrom' = true ∧
        node.Reaches crypto p nAdjustedTime block' fRequested' ∧
        RefusedForData crypto p block block' := by
  obtain ⟨s, pindex, hs, hpindex, hskip, hdata, hheight, hstate⟩ := hacc.facts
  have hne : block.getHash crypto ≠ p.hashGenesisBlock := by
    intro heq
    rw [← heq, hacc.new] at hgenesis
    cases hgenesis
  have hvalid := (Chainstate.acceptBlockHeader_unmarked hne hs).2 pindex hpindex
  have hhash := (hcoh.acceptBlockHeader hs).hash_eq hpindex
  have hmissing : s.Missing (block.getHash crypto) := by
    refine ⟨pindex, hpindex, ?_, hvalid⟩
    rw [Chainstate.skipsBlock, Bool.or_eq_false_iff] at hskip
    exact hskip.1
  by_cases hreach : block'.passesEncoding crypto pfrom' = true ∧
    node.Reaches crypto p nAdjustedTime block' fRequested'
  swap
  · refine iff_of_false ?_ fun h => hreach ⟨h.1, h.2.1⟩
    rw [← hheader] at hne hs hmissing ⊢
    exact not_marked_of_not_reaches hcoh hne (by rw [hheader]; exact hacc.new) hs hmissing hreach
  have hreach' := hreach
  obtain ⟨hpass, s', pindex', hs', hpindex', hskip'⟩ := hreach'
  have hs₀ := hs
  rw [← hheader] at hs₀
  obtain rfl := Chainstate.acceptBlockHeader_unique hs₀ hs'
  have hpindex₀ := hpindex'
  rw [hheader] at hpindex₀
  obtain rfl := Option.some.inj (hpindex.symm.trans hpindex₀)
  -- What the refusal of the data does to the entry.
  have herror : ∀ f, s'.checkBlockData crypto p block' pindex.nHeight = .error f →
      ((node.processNewBlock crypto keys p nAdjustedTime n pfrom' block' fRequested').1.Marked
        (block.getHash crypto) ↔ f.condemns = true) := fun f hf =>
    marked_condemn (processNewBlock_error hpass hs' hpindex' hskip' hf) hpindex hhash hvalid
  rw [← and_assoc, and_iff_right hreach]
  have hcheck := hdata
  rw [Chainstate.checkBlockData, check_bind_eq_ok] at hcheck
  obtain ⟨⟨⟩, hcheck, hcontext⟩ := hcheck
  have hother := checkBlock_other hheader hcheck
  by_cases hpow : block'.isProofOfWork ∧ ¬ checkProofOfWork p (block'.getPoWHash crypto) block'.nBits
  · rw [if_pos hpow] at hother
    rw [herror (dos 50 .invalid "high-hash" false) (by rw [Chainstate.checkBlockData, hother]; rfl)]
    exact iff_of_true rfl (.inl hpow)
  rw [if_neg hpow] at hother
  rw [RefusedForData, or_iff_right hpow]
  obtain ⟨hroot, hbody⟩ := checkBlock_parts hcheck
  cases hmerkle : checkMerkleRoot crypto block' with
  | error f =>
    rw [hmerkle] at hother
    rw [herror f (by rw [Chainstate.checkBlockData, hother]; rfl), checkMerkleRoot_condemns hmerkle]
    refine iff_of_false Bool.false_ne_true fun h => ?_
    obtain ⟨-, -, heq, -⟩ := @checks_same crypto p s'.height block block' hheader h.1
    cases hmerkle.symm.trans (heq.trans hroot)
  | ok u =>
    have hvtx := vtx_eq_of_checkMerkleRoot (checkBlock_ok hcheck) hheader hfree h64 hroot hmerkle
    rw [hmerkle, check_ok_bind, checkBlockBody_same hheader hvtx hbody] at hother
    rw [and_iff_right hvtx]
    by_cases hsize : block'.serialize.length > MAX_BLOCK_SIZE
    · rw [if_pos hsize] at hother
      rw [herror (dos 100 .invalid "bad-blk-length" false)
        (by rw [Chainstate.checkBlockData, hother]; rfl)]
      exact iff_of_true rfl (.inr hsize)
    rw [if_neg hsize] at hother
    by_cases hsig : checkBlockSignature crypto block' = true
    · refine iff_of_false ?_ fun h => h.elim (fun h => ?_) hsize
      · rintro ⟨e, he, hmarked⟩
        have htwin := twin_of_same hheader hvtx hbody (not_lt.mp hsize) hsig
        rw [processNewBlock_twin htwin hpass hs hpindex hskip' hdata hheight, ← hstate] at he
        rw [hacc.unmarked e he] at hmarked
        cases hmarked
      · rw [hsig] at h
        cases h
    · rw [if_neg hsig] at hother
      rw [herror (dos 100 .invalid "bad-block-signature" false)
        (by rw [Chainstate.checkBlockData, hother]; rfl)]
      exact iff_of_true rfl (.inl (Bool.eq_false_iff.mpr hsig))

theorem Marked.refused (hne : block.getHash crypto ≠ p.hashGenesisBlock)
    (h : node.Marked (block.getHash crypto)) :
    (node.processNewBlock crypto keys p nAdjustedTime n pfrom block fRequested).2 ≠ .ok () := by
  obtain ⟨e, he, hmarked⟩ := h
  have hheader : node.acceptBlockHeader crypto p nAdjustedTime block.toCBlockHeader
      block.isProofOfStake = .error (invalid .none "duplicate") := by
    rw [Chainstate.acceptBlockHeader, if_neg hne, he]
    simp only [BlockStatus.failed, hmarked, ensure, Bool.true_or, not_true_eq_false, if_false]
    rfl
  rw [processNewBlock]
  split_ifs
  · rw [acceptBlock, hheader]
    intro h
    cases h
  · intro h
    cases h

end Node

namespace Running

def poisonBlock : CBlock := { stakeBlock 0 with vchBlockSig := stakeSig (stakeRow 7).s }

def poisonCrypto : Crypto :=
  { stakeCrypto 0 with
    checkLowS := fun sig => sig = stakeSig (stakeRow 0).s ∨ sig = stakeSig (stakeRow 7).s }

def poisonOps : List NodeOp :=
  deliver 1769820000 ((List.range 10).map fun h => regTestBlock (h + 1))

def poisonRun : Running :=
  poisonOps.foldl (step poisonCrypto PubKeys.none regTestParams) (start regTestParams regTestGenesis)

theorem stakeBlock_accepted : poisonRun.Accepts poisonCrypto PubKeys.none regTestParams 1769820000 5
    (some 60018) (stakeBlock 0) true := by
  decide +kernel

end Running

end X2XCoin
