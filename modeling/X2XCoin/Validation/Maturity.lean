import X2XCoin.Validation.ActiveChain

/-!
# Coinbase and coinstake maturity

`CheckTxInputs` tests the depth of every input, but against the zero of a default constructed
`Params`; only the kernel of a proof-of-stake block is tested against the parameter of the network.
-/

namespace X2XCoin

/-- While `block` is connected on `view`, its transaction `tx` spends an output of the entry `c`. -/
def SpendsFrom (crypto : Crypto) (p : Params) (fScriptChecks : Bool) (path : List CBlockIndex)
    (pindex : CBlockIndex) (view : CoinsView) (block : CBlock) (tx : CTransaction) (c : CCoins) :
    Prop :=
  ∃ pprev pre post st, path.head? = some pprev ∧ block.vtx = pre ++ tx :: post ∧
    connectTxs crypto fScriptChecks (blockScriptFlags p block) (pprev.nHeight + 1) pindex.nHeight
      { view := view } pre = .ok st ∧
    ∃ i ∈ tx.vin, st.view.accessCoins i.prevout.hash = some c

/-- The maturity rule for every block that `ConnectBlock` accepts at an entry one above its
predecessor.  The genesis block, whose transactions are not connected, is excepted. -/
def MatureBlocks (p : Params) : Prop :=
  ∀ (crypto : Crypto) (chainHeight : ℤ) (fScriptChecks : Bool) (path : List CBlockIndex)
    (pindex : CBlockIndex) (view : CoinsView) (block : CBlock) (r : ConnectResult),
    block.getHash crypto ≠ p.hashGenesisBlock →
    (∀ pprev ∈ path.head?, pindex.nHeight = pprev.nHeight + 1) →
    connectBlock crypto p chainHeight fScriptChecks path pindex view block false = .ok r →
    ∀ tx c, tx.isCoinBase = false → SpendsFrom crypto p fScriptChecks path pindex view block tx c →
      c.fCoinBase = true ∨ c.fCoinStake = true →
      p.nCoinbaseMaturity ≤ (pindex.nHeight : ℤ) - c.nHeight

/-- The maturity rule for every block on top of a chain reached from the genesis block. -/
def MatureChains (p : Params) : Prop :=
  ∀ (crypto : Crypto) (blocks : List CBlock) (s : ChainState) (block : CBlock) (s' : ChainState),
    block.getHash crypto ≠ p.hashGenesisBlock →
    ChainState.mainGenesis.connectAll crypto p blocks = .ok s →
    s.connectNext crypto p block = .ok s' →
    ∀ tx c, tx.isCoinBase = false →
      SpendsFrom crypto p true s.path (ChainState.newIndex crypto p s.path block) s.view block tx c →
      c.fCoinBase = true ∨ c.fCoinStake = true →
      p.nCoinbaseMaturity ≤ (s.path.length : ℤ) - c.nHeight

section

variable {crypto : Crypto} {p : Params} {chainHeight nSpendHeight : ℤ} {fScriptChecks : Bool}
  {flags : UInt32} {nHeight : ℕ} {view : CoinsView} {tx : CTransaction} {block : CBlock}
  {path : List CBlockIndex} {pindex : CBlockIndex} {st st' : ConnectState} {r : ConnectResult}

/-- What the general test does give: no output is spent below the height it was created at. -/
theorem connectTx_height_le {c : CCoins} {i : CTxIn} (hcb : tx.isCoinBase = false)
    (h : connectTx crypto fScriptChecks flags nSpendHeight nHeight st tx = .ok st')
    (hi : i ∈ tx.vin) (hc : st.view.accessCoins i.prevout.hash = some c)
    (hk : c.fCoinBase = true ∨ c.fCoinStake = true) : (c.nHeight : ℤ) ≤ nSpendHeight := by
  obtain ⟨st₁, txundo, -, hin, -⟩ := connectTx_ok h
  have hin := hin hcb
  simp only [checkTxInputs, check_bind_eq_ok] at hin
  obtain ⟨_, -, v, hv, -⟩ := hin
  suffices ∀ (vin : List CTxIn) (a b : CAmount),
      vin.foldlM (checkTxInput tx st.view nSpendHeight) a = .ok b → i ∈ vin →
      (c.nHeight : ℤ) ≤ nSpendHeight from this _ _ _ hv hi
  intro vin
  induction vin with
  | nil => simp
  | cons j vin ih =>
    intro a b hfold hmem
    rw [List.foldlM_cons, check_bind_eq_ok] at hfold
    obtain ⟨d, hd, hfold⟩ := hfold
    rcases List.mem_cons.mp hmem with rfl | hmem
    · obtain ⟨c', o, hc', -, -, -, -, hmat⟩ := checkTxInput_ok hd
      rw [hc] at hc'
      obtain rfl := Option.some.inj hc'
      exact hmat hk
    · exact ih d b hfold hmem

theorem connectTxs_append {pre post : List CTransaction}
    (h : connectTxs crypto fScriptChecks flags nSpendHeight nHeight st (pre ++ post) = .ok st') :
    ∃ st₁, connectTxs crypto fScriptChecks flags nSpendHeight nHeight st pre = .ok st₁ ∧
      connectTxs crypto fScriptChecks flags nSpendHeight nHeight st₁ post = .ok st' := by
  rwa [connectTxs, List.foldlM_append, check_bind_eq_ok] at h

/-- An accepted block spends coinbase and coinstake outputs at a depth of at least zero. -/
theorem connectBlock_depth_nonneg {c : CCoins}
    (hgen : block.getHash crypto ≠ p.hashGenesisBlock)
    (hlink : ∀ pprev ∈ path.head?, pindex.nHeight = pprev.nHeight + 1)
    (h : connectBlock crypto p chainHeight fScriptChecks path pindex view block false = .ok r)
    (hcb : tx.isCoinBase = false)
    (hspend : SpendsFrom crypto p fScriptChecks path pindex view block tx c)
    (hk : c.fCoinBase = true ∨ c.fCoinStake = true) : (c.nHeight : ℤ) ≤ pindex.nHeight := by
  obtain ⟨pprev, pre, post, st, hpprev, hvtx, hpre, i, hi, hc⟩ := hspend
  obtain ⟨-, pprev', st', hpprev', -, hloop, -⟩ := connectBlock_ok h hgen
  obtain rfl : pprev = pprev' := Option.some.inj (hpprev.symm.trans hpprev')
  rw [hvtx] at hloop
  obtain ⟨st₁, hpre', hpost⟩ := connectTxs_append hloop
  obtain rfl : st = st₁ := Except.ok.inj (hpre.symm.trans hpre')
  rw [connectTxs, List.foldlM_cons, check_bind_eq_ok] at hpost
  obtain ⟨st₂, htx, -⟩ := hpost
  have hle := connectTx_height_le hcb htx hi hc hk
  rw [hlink pprev hpprev]
  exact_mod_cast hle

/-- Nothing but the kernel test reads the maturity of the network. -/
theorem connectBlock_maturity (m : ℤ) (hk : block.stakeKernel = none) :
    connectBlock crypto { p with nCoinbaseMaturity := m } chainHeight fScriptChecks path pindex view
        block false =
      connectBlock crypto p chainHeight fScriptChecks path pindex view block false := by
  have hkernel : ∀ pprev, checkKernel crypto { p with nCoinbaseMaturity := m } pprev pindex view
      block = checkKernel crypto p pprev pindex view block := by
    intro pprev
    simp only [checkKernel, hk]
  unfold connectBlock connectBlockBody
  simp only [hkernel]
  rfl

end

/-- The premine block of the main net spends its own coinbase, at depth zero. -/
private theorem premine_spends (m : ℤ) :
    ∃ s' c, ChainState.mainGenesis.connectNext premineCrypto
        { mainParams with nCoinbaseMaturity := m } premineBlock = .ok s' ∧
      SpendsFrom premineCrypto { mainParams with nCoinbaseMaturity := m } true
        ChainState.mainGenesis.path
        (ChainState.newIndex premineCrypto mainParams ChainState.mainGenesis.path premineBlock)
        ChainState.mainGenesis.view premineBlock premineSpend c ∧
      c.fCoinBase = true ∧ c.nHeight = 1 := by
  have hconnect : okAnd (ChainState.mainGenesis.connectNext premineCrypto mainParams premineBlock)
      (fun _ => true) = true := by
    decide +kernel
  have hentry : okAnd (connectTxs premineCrypto true (blockScriptFlags mainParams premineBlock) 1 1
      { view := ChainState.mainGenesis.view } [premineCoinBase])
      (fun st => (st.view.accessCoins premineTxid).any fun c => c.fCoinBase && c.nHeight = 1) =
      true := by
    decide +kernel
  obtain ⟨s', hs', -⟩ := okAnd_eq_true.mp hconnect
  obtain ⟨st, hst, hc⟩ := okAnd_eq_true.mp hentry
  obtain ⟨c, hlookup, hc⟩ := (Option.any_eq_true _ _).mp hc
  obtain ⟨hcb, hheight⟩ := (Bool.and_eq_true _ _).mp hc
  refine ⟨s', c, ?_, ⟨_, [premineCoinBase], [premineStake], st, rfl, rfl, hst, _,
    List.mem_singleton_self _, hlookup⟩, hcb, of_decide_eq_true hheight⟩
  rw [← hs']
  unfold ChainState.connectNext
  rw [connectBlock_maturity m (by decide)]
  rfl

/-- The maturity rule holds on a network exactly when its maturity is not positive, block by block
as well as along chains from the genesis block. -/
theorem maturity_iff (m : ℤ) :
    (MatureBlocks { mainParams with nCoinbaseMaturity := m } ↔ m ≤ 0) ∧
      (MatureChains { mainParams with nCoinbaseMaturity := m } ↔ m ≤ 0) := by
  obtain ⟨s', c, hs', hspend, hcb, hheight⟩ := premine_spends m
  have hgen : premineBlock.getHash premineCrypto ≠ mainParams.hashGenesisBlock := by
    decide +kernel
  refine ⟨⟨fun h => ?_, fun hm => ?_⟩, ⟨fun h => ?_, fun hm => ?_⟩⟩
  · obtain ⟨r, hr, -⟩ := ChainState.connectNext_ok hs'
    have hdepth := h _ _ _ _ _ _ _ _ hgen
      (fun pprev hp => (ChainState.mainGenesis_numbered pprev hp).symm) hr premineSpend c (by decide)
      hspend (Or.inl hcb)
    rw [hheight] at hdepth
    exact hdepth
  · intro crypto chainHeight fScriptChecks path pindex view block r hgen hlink hr tx c hcb hspend hk
    have hle := connectBlock_depth_nonneg hgen hlink hr hcb hspend hk
    simp only
    omega
  · have hdepth := h _ [] _ _ _ hgen rfl hs' premineSpend c (by decide) hspend (Or.inl hcb)
    rw [hheight] at hdepth
    exact hdepth
  · intro crypto blocks s block s' hgen hs hs' tx c hcb hspend hk
    obtain ⟨r, hr, -⟩ := ChainState.connectNext_ok hs'
    have hnum := ChainState.connectAll_numbered ChainState.mainGenesis_numbered hs
    have hle := connectBlock_depth_nonneg hgen (fun pprev hp => (hnum pprev hp).symm) hr hcb hspend
      hk
    change (c.nHeight : ℤ) ≤ s.path.length at hle
    simp only
    omega

/-- On the main net, whose maturity is 24, a block at height 1 spends its own coinbase. -/
theorem premineBlock_spends_immature :
    ∃ s' c, ChainState.mainGenesis.connectNext premineCrypto mainParams premineBlock = .ok s' ∧
      SpendsFrom premineCrypto mainParams true ChainState.mainGenesis.path
        (ChainState.newIndex premineCrypto mainParams ChainState.mainGenesis.path premineBlock)
        ChainState.mainGenesis.view premineBlock premineSpend c ∧
      premineSpend.isCoinBase = false ∧ c.fCoinBase = true ∧
      (ChainState.mainGenesis.path.length : ℤ) - c.nHeight < mainParams.nCoinbaseMaturity := by
  obtain ⟨s', c, hs', hspend, hcb, hheight⟩ := premine_spends 24
  refine ⟨s', c, hs', hspend, by decide, hcb, ?_⟩
  rw [hheight]
  decide

end X2XCoin
