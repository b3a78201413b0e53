import X2XCoin.Node.AcceptBlock
import X2XCoin.Validation.VerifyDB

/-!
# Activating the best chain

`DisconnectTip`, `ConnectTip`, `FindMostWorkChain`, `ActivateBestChainStep` and `ActivateBestChain`
of `main.cpp`.  The lists that `ActivateBestChainStep` connects in batches of 32 are one list, since
a
batch that comes to its end is followed by the next.  Flushing the caches does not fail, and all
scripts are checked.
-/

open ByteCodec

namespace X2XCoin

abbrev BlockFiles := AList fun _ : Uint256 => CBlock

def abortNode (strMessage : String) : Failure :=
  .rejected (({} : CValidationState).error strMessage)

/-- The failure leaves an invalid state. -/
def Failure.isInvalid : Failure → Bool
  | .rejected state => state.isInvalid
  | _ => false

/-- `ReadBlockFromDisk`. -/
def readBlock (crypto : Crypto) (p : Params) (files : BlockFiles) (pindex : CBlockIndex) :
    Option CBlock :=
  (files.lookup pindex.hash).filter fun block => readBlockFromDisk crypto p ⟨block, pindex, []⟩

namespace Chainstate

/-! ## Moving the tip -/

/-- `DisconnectTip`.  `DisconnectBlock` is called without a place for its flag, so a block that is
not disconnected cleanly is a failure. -/
def disconnectTip (crypto : Crypto) (keys : PubKeys) (p : Params) (files : BlockFiles)
    (s : Chainstate) : Check Chainstate := do
  let tip ← orFail .assertion s.tip
  let block ← orFail (abortNode "Failed to read block") (readBlock crypto p files tip.toCBlockIndex)
  let undoData ← orFail (.rejected {})
    (if tip.nStatus.haveUndo then s.undoFiles.lookup tip.hash else none)
  let pprev ← orFail .outOfBounds (tip.pprev.bind s.lookup)
  let (view, fClean) ← orFail (.rejected {})
    (disconnectBlock crypto keys block pprev.toCBlockIndex tip.toCBlockIndex undoData s.pcoinsTip)
  ensure fClean (.rejected {})
  pure ({ s with pcoinsTip := view }.setTip pprev.hash)

/-- The state after `ConnectBlock` succeeded on `pindex`.  Undo data is only written once. -/
def connected (crypto : Crypto) (keys : PubKeys) (s : Chainstate) (pindex : IndexEntry)
    (r : ConnectResult) : Chainstate :=
  let undoFiles :=
    match pindex.pprev with
    | none => s.undoFiles
    | some prev =>
      if pindex.nStatus.haveUndo then s.undoFiles
      else s.undoFiles.insert pindex.hash (undoWriteToDisk crypto keys prev r.blockundo)
  let s := { s with pcoinsTip := r.view, undoFiles := undoFiles }
  (s.modify pindex.hash fun i =>
    { i with nStakeModifier := r.pindex.nStakeModifier, nStatus := r.pindex.nStatus }).setTip pindex.hash

def invalidBlockFound (s : Chainstate) (hash : Uint256) (f : Failure) : Chainstate :=
  if f.condemns then (s.condemn hash f).eraseCandidate hash else s

/-- The entry after `ConnectBlock` failed on `block`: the stake modifier is set before the tests on the
difficulty, the kernel and the transactions. -/
def setModifier (crypto : Crypto) (p : Params) (s : Chainstate) (pindex : IndexEntry)
    (block : CBlock) : Chainstate :=
  let path := (pindex.pprev.map s.path).getD []
  if checkBlock crypto p s.height block true true true = .ok () ∧
      (path.head?.map CBlockIndex.hash).getD 0 = s.pcoinsTip.hashBlock ∧
      block.getHash crypto ≠ p.hashGenesisBlock then
    s.modify pindex.hash fun i =>
      { i with nStakeModifier := blockStakeModifier crypto path.head? block }
  else s

/-- `ConnectTip`; `pblock` is the block if it is in memory. -/
def connectTip (crypto : Crypto) (keys : PubKeys) (p : Params) (files : BlockFiles)
    (pblock : Option CBlock) (s : Chainstate) (pindexNew : IndexEntry) : Chainstate × Check Unit :=
  if pindexNew.pprev ≠ s.chainActive.head? then (s, .error .assertion)
  else
    match pblock <|> readBlock crypto p files pindexNew.toCBlockIndex with
    | none => (s, .error (abortNode "Failed to read block"))
    | some block =>
      match connectBlock crypto p s.height true ((pindexNew.pprev.map s.path).getD [])
          pindexNew.toCBlockIndex s.pcoinsTip block false with
      | .error f =>
        ((s.setModifier crypto p pindexNew block).invalidBlockFound pindexNew.hash f, .error f)
      | .ok r => (s.connected crypto keys pindexNew r, .ok ())

/-! ## The chain to go to -/

/-- The last entry of `setBlockIndexCandidates`. -/
def bestCandidate (s : Chainstate) : Option CBlockIndex :=
  (s.setBlockIndexCandidates.filterMap s.lookup).foldl (fun best i =>
    match best with
    | none => some i.toCBlockIndex
    | some b => if b.worse i.toCBlockIndex then some i.toCBlockIndex else some b) none

/-- Take the blocks `above` an unusable one off the candidates. -/
def dropChain (fFailedChain : Bool) (above : List CBlockIndex) (s : Chainstate) : Chainstate :=
  above.foldl (fun s i =>
    let s :=
      if fFailedChain then
        s.modifyStatus i.hash fun status => { status with failedChild := true }
      else
        match (s.lookup i.hash).bind fun e => e.pprev with
        | none => s
        | some prev => { s with mapBlocksUnlinked := s.mapBlocksUnlinked ++ [(prev, i.hash)] }
    s.eraseCandidate i.hash) s

/-- Neither failed nor without data. -/
def usable (i : CBlockIndex) : Bool := !i.nStatus.failed && i.nStatus.haveData

/-- `FindMostWorkChain`; every turn but the last takes a candidate away. -/
def findMostWorkChain : ℕ → Chainstate → Check (Chainstate × Option Uint256)
  | 0, s => pure (s, none)
  | n + 1, s =>
    match s.bestCandidate with
    | none => pure (s, none)
    | some pindexNew =>
      let (above, rest) := ((s.path pindexNew.hash).takeWhile fun i => !s.contains i).span usable
      do
      ensure (∀ i ∈ above ++ rest.take 1, i.nChainTx ≠ 0 ∨ i.nHeight = 0) .assertion
      match rest with
      | [] => pure (s, some pindexNew.hash)
      | pindexTest :: _ =>
        findMostWorkChain n
          ((s.dropChain pindexTest.nStatus.failed above).eraseCandidate pindexTest.hash)

/-- `PruneBlockIndexCandidates`, with the assertion that something is left. -/
def pruneBlockIndexCandidates (s : Chainstate) : Check Chainstate := do
  let left := s.setBlockIndexCandidates.filter s.isCandidate
  ensure (left ≠ []) .assertion
  pure { s with setBlockIndexCandidates := left }

/-! ## One step -/

/-- The first loop of `ActivateBestChainStep`: the number of blocks disconnected until the tip is
`pindexFork`, the state, and whether every `DisconnectTip` succeeded. -/
def disconnectTo (disconnect : Chainstate → Check Chainstate) (pindexFork : Option Uint256) :
    ℕ → Chainstate → ℕ × Chainstate × Check Unit
  | 0, s => (0, s, .ok ())
  | n + 1, s =>
    if s.chainActive.head? = none ∨ s.chainActive.head? = pindexFork then (0, s, .ok ())
    else
      match disconnect s with
      | .error f => (0, s, .error f)
      | .ok s =>
        let r := disconnectTo disconnect pindexFork n s
        (r.1 + 1, r.2)

/-- The tip has more work than the tip before the step. -/
def betterThan (s : Chainstate) (pindexOldTip : Option IndexEntry) : Bool :=
  match s.tip, pindexOldTip with
  | some tip, some old => tip.nChainWork > old.nChainWork
  | _, _ => true

/-- The second loop, over the blocks to connect, the lowest first: the state, `fInvalidFound` and
whether the step succeeds. -/
def connectUpTo (connect : Chainstate → IndexEntry → Chainstate × Check Unit)
    (pindexOldTip : Option IndexEntry) :
    List Uint256 → Chainstate → Chainstate × Bool × Check Unit
  | [], s => (s, false, .ok ())
  | hash :: hashes, s =>
    match s.lookup hash with
    | none => (s, false, .error .outOfBounds)
    | some pindexConnect =>
      match connect s pindexConnect with
      | (s, .error f) => if f.isInvalid then (s, true, .ok ()) else (s, false, .error f)
      | (s, .ok ()) =>
        match s.pruneBlockIndexCandidates with
        | .error f => (s, false, .error f)
        | .ok s =>
          if s.betterThan pindexOldTip then (s, false, .ok ())
          else connectUpTo connect pindexOldTip hashes s

/-- What a call of `ActivateBestChainStep` does. -/
structure StepResult where
  nDisconnected : ℕ
  state : Chainstate
  fInvalidFound : Bool
  result : Check Unit

/-- `ActivateBestChainStep` towards the entry `pindexMostWork`. -/
def activateBestChainStep (crypto : Crypto) (keys : PubKeys) (p : Params) (files : BlockFiles)
    (pblock : Option CBlock) (s : Chainstate) (pindexMostWork : Uint256) : StepResult :=
  let pindexFork := (s.findFork pindexMostWork).map CBlockIndex.hash
  match disconnectTo (disconnectTip crypto keys p files) pindexFork s.chainActive.length s with
  | (n, s', .error f) => ⟨n, s', false, .error f⟩
  | (n, s', .ok ()) =>
    let toConnect := (((s.path pindexMostWork).takeWhile fun i => !s.contains i).map
      CBlockIndex.hash).reverse
    let r := connectUpTo (fun s pindex =>
      connectTip crypto keys p files (if pindex.hash = pindexMostWork then pblock else none) s pindex)
      s.tip toConnect s'
    ⟨n, r.1, r.2.1, r.2.2⟩

/-! ## The loop of `ActivateBestChain` -/

/-- One turn of the loop: the state, the value of `pindexMostWork` for the next turn, and what the
call returns if it returns here. -/
structure Turn where
  state : Chainstate
  pindexMostWork : Option Uint256
  returns : Option (Check Unit)
  nDisconnected : ℕ := 0

/-- The chain a turn works towards. -/
def target (s : Chainstate) (pindexMostWork : Option Uint256) : Check (Chainstate × Option Uint256) :=
  match pindexMostWork with
  | some hash => pure (s, some hash)
  | none => s.findMostWorkChain (s.setBlockIndexCandidates.length + 1)

/-- One turn, with `cs_main` held. -/
def activateTurn (crypto : Crypto) (keys : PubKeys) (p : Params) (files : BlockFiles)
    (pblock : Option CBlock) (s : Chainstate) (pindexMostWork : Option Uint256) : Turn :=
  match s.target pindexMostWork with
  | .error f => ⟨s, none, some (.error f), 0⟩
  | .ok (s, none) => ⟨s, none, some (.ok ()), 0⟩
  | .ok (s, some hash) =>
    if s.chainActive.head? = some hash then ⟨s, none, some (.ok ()), 0⟩
    else
      let pblock := pblock.filter fun block => block.getHash crypto = hash
      let r := s.activateBestChainStep crypto keys p files pblock hash
      match r.result with
      | .error f => ⟨r.state, none, some (.error f), r.nDisconnected⟩
      | .ok () =>
        if r.fInvalidFound then ⟨r.state, none, none, r.nDisconnected⟩
        else if r.state.chainActive.head? = some hash then
          ⟨r.state, none, some (.ok ()), r.nDisconnected⟩
        else ⟨r.state, some hash, none, r.nDisconnected⟩

/-- `ActivateBestChain`, stopped by a shutdown after `n` turns if it has not returned before. -/
def activateBestChain (crypto : Crypto) (keys : PubKeys) (p : Params) (files : BlockFiles)
    (pblock : Option CBlock) : ℕ → Chainstate → Option Uint256 → Chainstate × Check Unit
  | 0, s, _ => (s, .ok ())
  | n + 1, s, pindexMostWork =>
    let t := s.activateTurn crypto keys p files pblock pindexMostWork
    match t.returns with
    | some r => (t.state, r)
    | none => activateBestChain crypto keys p files pblock n t.state t.pindexMostWork

/-! ## What a turn keeps -/

/-- A property of states that survives each thing a turn does: a tip disconnected, a tip connected or
refused, the candidates pruned, and an unusable chain dropped. -/
structure TurnInvariant (crypto : Crypto) (keys : PubKeys) (p : Params) (files : BlockFiles)
    (P : Chainstate → Prop) : Prop where
  disconnect : ∀ {s s'}, P s → disconnectTip crypto keys p files s = .ok s' → P s'
  connect : ∀ {s hash pindex} pblock, P s → s.lookup hash = some pindex →
    P (connectTip crypto keys p files pblock s pindex).1
  prune : ∀ {s s'}, P s → s.pruneBlockIndexCandidates = .ok s' → P s'
  drop : ∀ {s pindexNew above pindexTest rest}, P s → s.bestCandidate = some pindexNew →
    ((s.path pindexNew.hash).takeWhile fun i => !s.contains i).span usable =
      (above, pindexTest :: rest) →
    (∀ i ∈ above ++ [pindexTest], i.nChainTx ≠ 0 ∨ i.nHeight = 0) →
    P ((s.dropChain pindexTest.nStatus.failed above).eraseCandidate pindexTest.hash)

section

variable {crypto : Crypto} {keys : PubKeys} {p : Params} {files : BlockFiles} {pblock : Option CBlock}
  {s s' : Chainstate} {P : Chainstate → Prop}

theorem disconnectTo_invariant {disconnect : Chainstate → Check Chainstate}
    (hP : ∀ {s s'}, P s → disconnect s = .ok s' → P s') (hs : P s) (pindexFork : Option Uint256)
    (n : ℕ) : P (disconnectTo disconnect pindexFork n s).2.1 := by
  induction n generalizing s with
  | zero => exact hs
  | succ n ih =>
    rw [disconnectTo]
    split_ifs
    · exact hs
    · split
      · exact hs
      · next h => exact ih (hP hs h)

theorem connectUpTo_invariant {connect : Chainstate → IndexEntry → Chainstate × Check Unit}
    (hconnect : ∀ {s hash pindex}, P s → s.lookup hash = some pindex → P (connect s pindex).1)
    (hprune : ∀ {s s'}, P s → s.pruneBlockIndexCandidates = .ok s' → P s') (hs : P s)
    (pindexOldTip : Option IndexEntry) (hashes : List Uint256) :
    P (connectUpTo connect pindexOldTip hashes s).1 := by
  induction hashes generalizing s with
  | nil => exact hs
  | cons hash hashes ih =>
    rw [connectUpTo]
    split
    · exact hs
    · next hlook =>
      have hs := hconnect hs hlook
      split
      · next hc =>
        rw [hc] at hs
        split_ifs <;> exact hs
      · next hc =>
        rw [hc] at hs
        split
        · exact hs
        · next hp =>
          split_ifs
          · exact hprune hs hp
          · exact ih (hprune hs hp)

theorem target_invariant (hdrop : ∀ {s pindexNew above pindexTest rest}, P s →
      s.bestCandidate = some pindexNew →
      ((s.path pindexNew.hash).takeWhile fun i => !s.contains i).span usable =
        (above, pindexTest :: rest) →
      (∀ i ∈ above ++ [pindexTest], i.nChainTx ≠ 0 ∨ i.nHeight = 0) →
      P ((s.dropChain pindexTest.nStatus.failed above).eraseCandidate pindexTest.hash))
    (hs : P s) {w w' : Option Uint256} (h : s.target w = .ok (s', w')) : P s' := by
  cases w with
  | some hash =>
    obtain ⟨rfl, -⟩ := Prod.mk.inj (check_pure_eq_ok.mp h)
    exact hs
  | none =>
    rw [target] at h
    generalize s.setBlockIndexCandidates.length + 1 = n at h
    induction n generalizing s with
    | zero =>
      obtain ⟨rfl, -⟩ := Prod.mk.inj (check_pure_eq_ok.mp h)
      exact hs
    | succ n ih =>
      rw [findMostWorkChain] at h
      split at h
      · obtain ⟨rfl, -⟩ := Prod.mk.inj (check_pure_eq_ok.mp h)
        exact hs
      · next pindexNew hbest =>
        rw [check_bind_eq_ok] at h
        obtain ⟨_, hassert, h⟩ := h
        split at h
        · obtain ⟨rfl, -⟩ := Prod.mk.inj (check_pure_eq_ok.mp h)
          exact hs
        · next hspan =>
          rw [hspan, ensure_eq_ok] at hassert
          exact ih (hdrop hs hbest (Prod.ext rfl hspan) hassert) h

namespace TurnInvariant

theorem activateBestChainStep (hP : TurnInvariant crypto keys p files P) (hs : P s) (hash : Uint256) :
    P (s.activateBestChainStep crypto keys p files pblock hash).state := by
  have hd := disconnectTo_invariant hP.disconnect hs ((s.findFork hash).map CBlockIndex.hash)
    s.chainActive.length
  rw [Chainstate.activateBestChainStep]
  split
  · next hdis => rwa [hdis] at hd
  · next hdis =>
    rw [hdis] at hd
    exact connectUpTo_invariant (fun hs hlook => hP.connect _ hs hlook) hP.prune hd _ _

theorem activateTurn (hP : TurnInvariant crypto keys p files P) (hs : P s) (w : Option Uint256) :
    P (s.activateTurn crypto keys p files pblock w).state := by
  rw [Chainstate.activateTurn]
  split
  · exact hs
  · next htarget => exact target_invariant hP.drop hs htarget
  · next s₁ hash htarget =>
    have hs₁ := target_invariant hP.drop hs htarget
    split_ifs
    · exact hs₁
    · simp only
      split
      · exact hP.activateBestChainStep hs₁ hash
      · split_ifs <;> exact hP.activateBestChainStep hs₁ hash

end TurnInvariant

end

/-! ## The tree stays -/

section

variable {crypto : Crypto} {keys : PubKeys} {p : Params} {files : BlockFiles} {pblock : Option CBlock}
  {s s' : Chainstate}

theorem disconnectTip_ok (h : s.disconnectTip crypto keys p files = .ok s') :
    ∃ tip prev pprev view, s.tip = some tip ∧ tip.pprev = some prev ∧ s.lookup prev = some pprev ∧
      s' = { s with pcoinsTip := view }.setTip pprev.hash := by
  simp only [disconnectTip, check_bind_eq_ok, orFail_eq_ok, check_pure_eq_ok,
    Option.bind_eq_some_iff] at h
  obtain ⟨tip, htip, -, -, -, -, pprev, ⟨prev, hprev, hpprev⟩, vc, -, -, -, rfl⟩ := h
  exact ⟨tip, prev, pprev, vc.1, htip, hprev, hpprev, rfl⟩

theorem disconnectTip_tree (h : s.disconnectTip crypto keys p files = .ok s') : s'.tree = s.tree := by
  obtain ⟨_, _, _, _, -, -, -, rfl⟩ := disconnectTip_ok h
  rfl

@[simp] theorem tree_connected {pindex : IndexEntry} {r : ConnectResult} :
    (s.connected crypto keys pindex r).tree = s.tree :=
  tree_modify fun _ => ⟨rfl, rfl, rfl, rfl⟩

@[simp] theorem tree_invalidBlockFound {hash : Uint256} {f : Failure} :
    (s.invalidBlockFound hash f).tree = s.tree := by
  rw [invalidBlockFound]
  split_ifs
  · exact tree_condemn
  · rfl

@[simp] theorem tree_setModifier {pindex : IndexEntry} {block : CBlock} :
    (s.setModifier crypto p pindex block).tree = s.tree := by
  simp only [setModifier]
  split_ifs
  · exact tree_modify fun _ => ⟨rfl, rfl, rfl, rfl⟩
  · rfl

@[simp] theorem tree_connectTip {pindexNew : IndexEntry} :
    (s.connectTip crypto keys p files pblock pindexNew).1.tree = s.tree := by
  rw [connectTip]
  split_ifs
  · rfl
  · split
    · rfl
    · split
      · exact tree_invalidBlockFound.trans tree_setModifier
      · exact tree_connected

@[simp] theorem tree_dropChain (fFailedChain : Bool) (above : List CBlockIndex) :
    (s.dropChain fFailedChain above).tree = s.tree := by
  induction above generalizing s with
  | nil => rfl
  | cons i above ih =>
    rw [dropChain, List.foldl_cons, ← dropChain, ih, tree_eraseCandidate]
    split_ifs
    · exact tree_modifyStatus
    · split <;> rfl

theorem turnInvariant_tree (t : Tree) :
    TurnInvariant crypto keys p files fun s => s.tree = t where
  disconnect hs h := (disconnectTip_tree h).trans hs
  connect _ hs _ := tree_connectTip.trans hs
  prune hs h := by
    simp only [pruneBlockIndexCandidates, check_bind_eq_ok, check_pure_eq_ok] at h
    obtain ⟨-, -, rfl⟩ := h
    exact hs
  drop hs _ _ _ := (tree_dropChain _ _).trans hs

theorem target_tree {w w' : Option Uint256} (h : s.target w = .ok (s', w')) : s'.tree = s.tree :=
  @target_invariant s s' (·.tree = s.tree) (fun hs _ _ _ => (tree_dropChain _ _).trans hs) rfl w w' h

theorem tree_activateTurn {w : Option Uint256} :
    (s.activateTurn crypto keys p files pblock w).state.tree = s.tree :=
  (turnInvariant_tree s.tree).activateTurn rfl w

end

end Chainstate

end X2XCoin
