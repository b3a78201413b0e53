import X2XCoin.Node.Coherent
import X2XCoin.Node.RegTest

/-!
# The depth of a reorganisation

`ContextualCheckBlockHeader` refuses a header that is `nMaxReorganizationDepth` blocks or more below
the tip, but it looks at the tip of the moment in which the header arrives.
-/

namespace X2XCoin

namespace Chainstate

variable {crypto : Crypto} {keys : PubKeys} {p : Params} {files : BlockFiles} {pblock : Option CBlock}
  {s s' : Chainstate} {genesis hash : Uint256}

/-- The first block after the fork with the chain of `hash` is not too deep for
`ContextualCheckBlockHeader`. -/
def ForkRecent (p : Params) (s : Chainstate) (hash : Uint256) : Prop :=
  ∀ fork ∈ s.findFork hash, ¬ s.height - (fork.nHeight + 1) ≥ p.nMaxReorganizationDepth

instance (p : Params) (s : Chainstate) (hash : Uint256) : Decidable (s.ForkRecent p hash) :=
  inferInstanceAs (Decidable (∀ fork ∈ s.findFork hash, _))

/-- The first loop of `ActivateBestChainStep` towards `hash`. -/
def disconnectToFork (crypto : Crypto) (keys : PubKeys) (p : Params) (files : BlockFiles)
    (s : Chainstate) (hash : Uint256) : ℕ × Chainstate × Check Unit :=
  disconnectTo (disconnectTip crypto keys p files) ((s.findFork hash).map CBlockIndex.hash)
    s.chainActive.length s

theorem activateBestChainStep_nDisconnected :
    (s.activateBestChainStep crypto keys p files pblock hash).nDisconnected =
      (s.disconnectToFork crypto keys p files hash).1 := by
  rw [activateBestChainStep, disconnectToFork]
  split <;> next h => rw [h]

/-! ## Counting -/

/-- The blocks above a recent fork are at most `nMaxReorganizationDepth`. -/
theorem Coherent.disconnectToFork_le (hs : s.Coherent genesis) {v : TreeNode}
    (hv : s.tree hash = some v) :
    (s.ForkRecent p hash →
      ((s.disconnectToFork crypto keys p files hash).1 : ℤ) ≤ p.nMaxReorganizationDepth) ∧
    ((s.disconnectToFork crypto keys p files hash).2.2 = .ok () →
      ((s.disconnectToFork crypto keys p files hash).1 : ℤ) ≤ p.nMaxReorganizationDepth →
      s.ForkRecent p hash) := by
  obtain ⟨fork, above, below, hfork, hchain, hbelow, hmem⟩ := hs.findFork hv
  have hlen : s.chainActive.length = above.length + (fork.nHeight + 1) := by
    rw [hchain, List.length_append, List.length_cons, hbelow]
  have hrecent : s.ForkRecent p hash ↔ (above.length : ℤ) ≤ p.nMaxReorganizationDepth := by
    simp only [ForkRecent, hfork, Option.mem_def, Option.some.injEq, forall_eq', height, hlen]
    push_cast
    omega
  obtain ⟨hle, heq⟩ := @Coherent.disconnectTo_fork crypto keys p files s genesis hs _ _ _ hchain
    s.chainActive.length
  rw [hrecent, disconnectToFork, hfork, Option.map_some]
  constructor
  · omega
  · intro hok hn
    rwa [(heq hmem (by omega) hok).1] at hn

end Chainstate

namespace Running

/-- The call of `ActivateBestChainStep` in the next turn of a thread, if there is one: the state and
the entry it works towards. -/
def stepCall (r : Running) (thread : ℕ) : Option (Chainstate × Uint256) :=
  match r.target (r.pindexMostWork thread) with
  | .ok (s, some hash) => if s.chainActive.head? = some hash then none else some (s, hash)
  | _ => none

variable {crypto : Crypto} {keys : PubKeys} {p : Params} {r : Running} {thread : ℕ} {s : Chainstate}
  {hash : Uint256}

theorem stepCall_eq_some (h : r.stepCall thread = some (s, hash)) :
    r.target (r.pindexMostWork thread) = .ok (s, some hash) ∧ s.chainActive.head? ≠ some hash := by
  rw [stepCall] at h
  split at h
  · split_ifs at h with hhead
    cases h
    exact ⟨‹_›, hhead⟩
  · cases h

/-- The blocks a turn disconnects are those of its call of `ActivateBestChainStep`. -/
theorem turn_nDisconnected (h : r.stepCall thread = some (s, hash)) (pblock : Option CBlock) :
    (r.turn crypto keys p thread pblock).nDisconnected =
      (s.disconnectToFork crypto keys p r.blockFiles hash).1 := by
  obtain ⟨htarget, hhead⟩ := stepCall_eq_some h
  rw [turn, Chainstate.activateTurn, htarget]
  simp only [hhead, if_false]
  rw [← Chainstate.activateBestChainStep_nDisconnected]
  split
  · rfl
  · split_ifs <;> rfl

def staleBlock : CBlock := { regTestBlock 1 with nBits := 0x1e04a000, nNonce := 2610916 }

def staleCrypto : Crypto :=
  { regTestCrypto with
    hash256 := fun bytes =>
      if bytes = staleBlock.toCBlockHeader.serialize then
        0x45d1085d8d7dd64d3fb5d73322bd625d5f1742e3bed1a47eebbe8a02e0ec3ab9
      else regTestCrypto.hash256 bytes
    scrypt := fun bytes =>
      if bytes = staleBlock.toCBlockHeader.serialize then
        0x000002535ede039a81afe1488365e7b4e5e18985d8732b1cfb09d022f4aa9c80
      else regTestCrypto.scrypt bytes }

def staleOps : List NodeOp :=
  .header 1769820000 staleBlock.toCBlockHeader ::
    (deliver 1769820000 ((List.range 51).map fun h => regTestBlock (h + 1)) ++
      [.block 1769820000 staleBlock false])

end Running

end X2XCoin
