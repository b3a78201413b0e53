import X2XCoin.Coins.Value
import X2XCoin.Validation.ActiveChain

/-!
# What a block does to the total of the coins view

The loop of `ConnectBlock` keeps `view.total + nFees` from growing on an ordinary transaction
(`connectTxs_ordinary`), whatever the fees do at 64 bits.
-/

namespace X2XCoin

/-! ## Inputs -/

/-- The sum of the outputs a transaction spends. -/
def CoinsView.valueIn (view : CoinsView) (vin : List CTxIn) : ℤ :=
  (vin.map fun i => ((view.output i.prevout).map fun o => o.nValue.toInt).getD 0).sum

section

variable {crypto : Crypto} {view : CoinsView} {tx : CTransaction} {nSpendHeight : ℤ}

private theorem checkTxInput_foldlM {vin : List CTxIn} {a b : CAmount} (ha : 0 ≤ a.toInt)
    (h : vin.foldlM (checkTxInput tx view nSpendHeight) a = .ok b) :
    vin.foldlM (fun nResult i => (view.getOutputFor i).map fun o => nResult + o.nValue) a =
        some b ∧
      b.toInt = a.toInt + view.valueIn vin ∧ 0 ≤ b.toInt := by
  induction vin generalizing a with
  | nil =>
    obtain rfl : a = b := by simpa using h
    simp [CoinsView.valueIn, ha]
  | cons i vin ih =>
    rw [List.foldlM_cons, check_bind_eq_ok] at h
    obtain ⟨c, hc, h⟩ := h
    obtain ⟨-, o, -, hout, rfl, ho0, hc0, -⟩ := checkTxInput_ok hc
    obtain ⟨hfold, hb, hb0⟩ := ih hc0 h
    refine ⟨?_, ?_, hb0⟩
    · rw [List.foldlM_cons, CoinsView.getOutputFor_eq, hout]
      exact hfold
    · rw [hb, toInt_add_of_nonneg ha ho0 hc0]
      simp only [CoinsView.valueIn, List.map_cons, List.sum_cons, hout, Option.map_some,
        Option.getD_some]
      ring

/-- What `CheckTxInputs` establishes: the inputs are there, their sum is exact and is what
`GetValueIn` returns, and unless the transaction looks like a coinstake it covers the outputs. -/
theorem checkTxInputs_ok {u : Unit} (hcb : tx.isCoinBase = false)
    (h : checkTxInputs tx view nSpendHeight = .ok u) :
    ∃ v, view.getValueIn tx = some v ∧ v.toInt = view.valueIn tx.vin ∧ 0 ≤ v.toInt ∧
      (tx.isCoinStake = false → tx.valueOut ≤ view.valueIn tx.vin) := by
  simp only [checkTxInputs, check_bind_eq_ok, ensure_eq_ok, onlyIf_eq_ok, orFail_eq_ok] at h
  obtain ⟨-, -, v, hv, hcmp⟩ := h
  obtain ⟨hfold, hsum, hv0⟩ := checkTxInput_foldlM (le_refl 0) hv
  have hsum' : v.toInt = view.valueIn tx.vin := by simpa using hsum
  refine ⟨v, ?_, hsum', hv0, fun hns => ?_⟩
  · unfold CoinsView.getValueIn
    rw [hcb]
    exact hfold
  · obtain ⟨w, hw, -, hle, -⟩ := hcmp (by simp [hns])
    obtain ⟨hwe, -⟩ := CTransaction.getValueOut_eq_some hw
    rw [Int64.lt_iff_toInt_lt, not_lt] at hle
    rw [← hwe, ← hsum']
    exact hle

end

/-! ## Transactions -/

section

variable {crypto : Crypto} {tx : CTransaction} {st st' : ConnectState} {fScriptChecks : Bool}
  {flags : UInt32} {nSpendHeight : ℤ} {nHeight : ℕ}

/-- The records of a transaction with distinct inputs add up to what it spends. -/
theorem sum_txundo {view view' : CoinsView} {txundo : CTxUndo} (hcb : tx.isCoinBase = false)
    (hnodup : (tx.vin.map CTxIn.prevout).Nodup)
    (h : updateCoins crypto tx view nHeight = some (view', txundo)) :
    (txundo.map fun u => u.txout.nValue.toInt).sum = view.valueIn tx.vin := by
  obtain ⟨view₁, h₁, -⟩ := updateCoins_eq_some.mp h
  unfold spendTxInputs at h₁
  rw [hcb] at h₁
  have hmap := txout_spendInputs hnodup h₁
  have hsum := congrArg
    (fun l => (l.map fun o : Option CTxOut => (o.map fun o => o.nValue.toInt).getD 0).sum) hmap
  simp only [List.map_map, Function.comp_def, Option.map_some, Option.getD_some] at hsum
  exact hsum.symm

theorem connectTx_coinBase (hcb : tx.isCoinBase = true) (hok : TxOk tx) (hn : st.view.Nonneg)
    (h : connectTx crypto fScriptChecks flags nSpendHeight nHeight st tx = .ok st') :
    st'.view.total ≤ st.view.total + tx.valueOut ∧ st'.nFees = st.nFees ∧ st'.view.Nonneg := by
  obtain ⟨st₁, txundo, htally, -, hup, hfees, -⟩ := connectTx_ok h
  obtain ⟨htotal, hn'⟩ := total_updateCoins_le hn hok.nonneg hup
  have hundo : txundo = [] := by
    obtain ⟨view₁, h₁, -⟩ := updateCoins_eq_some.mp hup
    unfold spendTxInputs at h₁
    rw [if_pos hcb] at h₁
    obtain ⟨-, rfl⟩ := by simpa using h₁
    rfl
  obtain rfl : st = st₁ := by simpa [tallyReward, hcb] using htally
  refine ⟨?_, hfees, hn'⟩
  simpa [hundo] using htotal

/-- A transaction of the loop whose fee counts. -/
def Ordinary (tx : CTransaction) : Prop :=
  tx.isCoinBase = false ∧ tx.isCoinStake = false ∧ TxOk tx

/-- The fee of an ordinary transaction comes out of the total. -/
theorem connectTx_ordinary (hord : Ordinary tx) (hn : st.view.Nonneg)
    (h : connectTx crypto fScriptChecks flags nSpendHeight nHeight st tx = .ok st') :
    ∃ v w, st.view.getValueIn tx = some v ∧ tx.getValueOut = some w ∧ 0 ≤ (v - w).toInt ∧
      st'.view.total + (v - w).toInt ≤ st.view.total ∧ st'.nFees = st.nFees + (v - w) ∧
      st'.nActualStakeReward = st.nActualStakeReward ∧ st'.view.Nonneg := by
  obtain ⟨hcb, hcs, hok⟩ := hord
  obtain ⟨st₁, txundo, htally, hin, hup, hfees, hrew, -⟩ := connectTx_ok h
  obtain ⟨v, hv, hve, hv0, hle⟩ := checkTxInputs_ok hcb (hin hcb)
  obtain ⟨htotal, hn'⟩ := total_updateCoins_le hn hok.nonneg hup
  rw [sum_txundo hcb hok.nodup hup] at htotal
  simp only [tallyReward, hcb, hcs, Bool.false_eq_true, if_false, check_bind_eq_ok, orFail_eq_ok,
    check_pure_eq_ok, hv, Option.some.injEq] at htally
  obtain ⟨w, hw, v', rfl, rfl⟩ := htally
  obtain ⟨hwe, hwn⟩ := CTransaction.getValueOut_eq_some hw
  have hsub := toInt_sub_of_nonneg hv0 hwn
  have hcover := hle hcs
  exact ⟨v, w, hv, hw, by omega, by omega, hfees, hrew, hn'⟩

/-- A coinstake raises the total by at most the reward the loop records for it. -/
theorem connectTx_coinStake (hcb : tx.isCoinBase = false) (hcs : tx.isCoinStake = true)
    (hok : TxOk tx) (hn : st.view.Nonneg)
    (h : connectTx crypto fScriptChecks flags nSpendHeight nHeight st tx = .ok st') :
    st'.view.total ≤ st.view.total + st'.nActualStakeReward.toInt ∧ st'.nFees = st.nFees ∧
      st'.view.Nonneg := by
  obtain ⟨st₁, txundo, htally, hin, hup, hfees, hrew, -⟩ := connectTx_ok h
  obtain ⟨v, hv, hve, hv0, -⟩ := checkTxInputs_ok hcb (hin hcb)
  obtain ⟨htotal, hn'⟩ := total_updateCoins_le hn hok.nonneg hup
  rw [sum_txundo hcb hok.nodup hup] at htotal
  simp only [tallyReward, hcb, hcs, Bool.false_eq_true, if_false, if_true, check_bind_eq_ok,
    orFail_eq_ok, check_pure_eq_ok, hv, Option.some.injEq] at htally
  obtain ⟨w, hw, v', rfl, rfl⟩ := htally
  obtain ⟨hwe, hwn⟩ := CTransaction.getValueOut_eq_some hw
  have hsub := toInt_sub_of_nonneg hwn hv0
  refine ⟨?_, hfees, hn'⟩
  rw [hrew]
  simp only
  rw [hsub, hve, hwe]
  omega

/-- Ordinary transactions never raise the total and the fees together. -/
theorem connectTxs_ordinary {vtx : List CTransaction}
    (hord : ∀ tx ∈ vtx, Ordinary tx) (hn : st.view.Nonneg)
    (h : connectTxs crypto fScriptChecks flags nSpendHeight nHeight st vtx = .ok st') :
    st'.view.total + st'.nFees.toInt ≤ st.view.total + st.nFees.toInt ∧
      st'.nActualStakeReward = st.nActualStakeReward ∧ st'.view.Nonneg := by
  induction vtx generalizing st with
  | nil =>
    obtain rfl : st = st' := by simpa [connectTxs] using h
    exact ⟨le_rfl, rfl, hn⟩
  | cons tx vtx ih =>
    rw [connectTxs, List.foldlM_cons, check_bind_eq_ok] at h
    obtain ⟨st₁, h₁, h₂⟩ := h
    obtain ⟨htx, hord⟩ := List.forall_mem_cons.mp hord
    obtain ⟨v, w, -, -, hfee, htotal, hfees, hrew, hn₁⟩ := connectTx_ordinary htx hn h₁
    obtain ⟨hrun, hrew', hn'⟩ := ih hord hn₁ h₂
    have hadd : st₁.nFees.toInt ≤ st.nFees.toInt + (v - w).toInt := hfees ▸ toInt_add_le hfee
    exact ⟨by omega, hrew'.trans hrew, hn'⟩

end

/-! ## Blocks -/

/-- A proof-of-work block holds no transaction that looks like a coinstake. -/
def CBlock.NoStakeInWork (block : CBlock) : Prop :=
  block.isProofOfWork = true → ∀ tx ∈ block.vtx, tx.isCoinStake = false

instance (block : CBlock) : Decidable block.NoStakeInWork :=
  inferInstanceAs (Decidable (_ → _))

theorem getProofOfWorkSubsidy_bounds (h : ℤ) :
    0 ≤ (getProofOfWorkSubsidy h).toInt ∧ (getProofOfWorkSubsidy h).toInt < 2 ^ 62 := by
  rw [getProofOfWorkSubsidy]
  split_ifs <;> decide

theorem getProofOfStakeSubsidy_bounds (h : ℤ) :
    0 ≤ (getProofOfStakeSubsidy h).toInt ∧ (getProofOfStakeSubsidy h).toInt < 2 ^ 62 := by
  have hall : ∀ s ∈ stakeSubsidySteps, 0 ≤ (s.2 * COIN).toInt ∧ (s.2 * COIN).toInt < 2 ^ 62 := by
    decide
  rw [getProofOfStakeSubsidy]
  split_ifs
  · split
    · next s hs => exact hall s (List.mem_of_find?_eq_some hs)
    · decide
  · decide

theorem blockSubsidy_bounds (h : ℤ) (block : CBlock) :
    0 ≤ (blockSubsidy h block).toInt ∧ (blockSubsidy h block).toInt < 2 ^ 62 := by
  rw [blockSubsidy]
  split_ifs
  · exact getProofOfStakeSubsidy_bounds h
  · exact getProofOfWorkSubsidy_bounds h

/-- A run of the loop over a block: first the transactions that claim the reward, which pays at most
the fees and the subsidy, then ordinary transactions. -/
def RewardedRun (step : ConnectState → CTransaction → Check ConnectState) (subsidy : CAmount)
    (view : CoinsView) (vtx : List CTransaction) (st : ConnectState) : Prop :=
  ∃ first rest st₁, ∃ reward : CAmount, vtx = first ++ rest ∧
    (∀ tx ∈ first, tx.isCoinBase = true ∨ tx.isCoinStake = true) ∧ (∀ tx ∈ rest, Ordinary tx) ∧
    first.foldlM step { view := view } = .ok st₁ ∧ rest.foldlM step st₁ = .ok st ∧
    st₁.view.total ≤ view.total + reward.toInt ∧ st₁.nFees = 0 ∧ st₁.view.Nonneg ∧
    ¬ reward > st.nFees + subsidy

section

variable {crypto : Crypto} {p : Params} {chainHeight : ℤ} {fScriptChecks : Bool}
  {flags : UInt32} {nSpendHeight : ℤ} {nHeight : ℕ} {view : CoinsView} {block : CBlock}
  {st : ConnectState}

/-- A proof-of-work block without coinstakes: the coinbase claims the reward. -/
theorem workBlock_run (hblock : BlockOk block) (hn : view.Nonneg)
    (hpow : block.isProofOfWork = true) (hno : block.NoStakeInWork)
    (hloop : connectTxs crypto fScriptChecks flags nSpendHeight nHeight { view := view } block.vtx =
      .ok st)
    (hreward : checkReward p chainHeight block st = .ok ()) :
    RewardedRun (connectTx crypto fScriptChecks flags nSpendHeight nHeight)
      (getProofOfWorkSubsidy chainHeight) view block.vtx st := by
  obtain ⟨cb, rest, hvtx, hcb⟩ := hblock.coinBase
  have htxs := hblock.txs
  have hothers := hblock.others
  have hnostake := hno hpow
  simp only [checkReward, check_bind_eq_ok, onlyIf_eq_ok, orFail_eq_ok, ensure_eq_ok] at hreward
  obtain ⟨_, hwork, -⟩ := hreward
  obtain ⟨cb', hhead, v, hv, hle⟩ := hwork hpow
  obtain rfl : cb = cb' := by simpa [hvtx] using hhead
  rw [hvtx] at hloop htxs hothers hnostake
  rw [connectTxs, List.foldlM_cons, check_bind_eq_ok] at hloop
  obtain ⟨st₁, h₁, h₂⟩ := hloop
  obtain ⟨htotal₁, hfees₁, hn₁⟩ := connectTx_coinBase hcb (htxs cb (by simp)) hn h₁
  rw [← (CTransaction.getValueOut_eq_some hv).1] at htotal₁
  exact ⟨[cb], rest, st₁, v, hvtx, by simp [hcb], fun tx htx => ⟨hothers tx htx,
    hnostake tx (List.mem_cons_of_mem _ htx), htxs tx (List.mem_cons_of_mem _ htx)⟩, by simp [h₁], h₂,
    htotal₁, hfees₁, hn₁, hle⟩

theorem BlockOk.valueOut_coinBase (hblock : BlockOk block) (hpos : block.isProofOfStake = true)
    {cb : CTransaction} {rest : List CTransaction} (hvtx : block.vtx = cb :: rest) :
    cb.valueOut = 0 := by
  have hempty := hblock.coinBaseEmpty hpos
  rw [hvtx] at hempty
  have he : X2XCoin.coinBaseEmpty cb = true := by simpa using hempty
  unfold X2XCoin.coinBaseEmpty at he
  split at he
  · next o ho =>
    have hz : o.nValue = 0 := by simp [CTxOut.isEmpty] at he; exact he.1
    simp [CTransaction.valueOut, ho, hz]
  · exact absurd he (by simp)

/-- A proof-of-stake block of protocol version 3: the coinbase pays nothing and the coinstake claims
the reward. -/
theorem stakeBlock_run (hblock : BlockOk block) (hn : view.Nonneg)
    (hpos : block.isProofOfStake = true) (hv3 : p.isProtocolV3 block.getBlockTime = true)
    (hloop : connectTxs crypto fScriptChecks flags nSpendHeight nHeight { view := view } block.vtx =
      .ok st)
    (hreward : checkReward p chainHeight block st = .ok ()) :
    RewardedRun (connectTx crypto fScriptChecks flags nSpendHeight nHeight)
      (getProofOfStakeSubsidy chainHeight) view block.vtx st := by
  obtain ⟨cb, cs, rest, hvtx, hcs⟩ := CBlock.exists_of_isProofOfStake hpos
  obtain ⟨cb', _, hhead, hcb⟩ := hblock.coinBase
  have htxs := hblock.txs
  have hothers := hblock.others
  have hzero := hblock.valueOut_coinBase hpos hvtx
  have hnostake := hblock.noStake hpos
  simp only [checkReward, check_bind_eq_ok, onlyIf_eq_ok, ensure_eq_ok] at hreward
  obtain ⟨_, -, hstake⟩ := hreward
  rw [hvtx] at hloop htxs hothers hnostake hhead
  obtain ⟨rfl, -⟩ := List.cons.inj hhead
  rw [connectTxs, List.foldlM_cons, check_bind_eq_ok] at hloop
  obtain ⟨st₁, h₁, hloop⟩ := hloop
  rw [List.foldlM_cons, check_bind_eq_ok] at hloop
  obtain ⟨st₂, h₂, h₃⟩ := hloop
  obtain ⟨htotal₁, hfees₁, hn₁⟩ := connectTx_coinBase hcb (htxs cb (by simp)) hn h₁
  obtain ⟨htotal₂, hfees₂, hn₂⟩ :=
    connectTx_coinStake (hothers cs (by simp)) hcs (htxs cs (by simp)) hn₁ h₂
  have hord : ∀ tx ∈ rest, Ordinary tx := fun tx htx =>
    ⟨hothers tx (by simp [htx]), hnostake tx (by simpa using htx), htxs tx (by simp [htx])⟩
  have hrew := (connectTxs_ordinary hord hn₂ h₃).2.1
  refine ⟨[cb, cs], rest, st₂, st₂.nActualStakeReward, hvtx, by simp [hcb, hcs], hord,
    by simp [h₁, h₂], h₃, ?_, hfees₂.trans hfees₁, hn₂, hrew ▸ hstake ⟨hpos, hv3⟩⟩
  simp only at htotal₁
  omega

theorem block_run (hblock : BlockOk block) (hn : view.Nonneg)
    (hv3 : p.isProtocolV3 block.getBlockTime = true) (hno : block.NoStakeInWork)
    (hloop : connectTxs crypto fScriptChecks flags nSpendHeight nHeight { view := view } block.vtx =
      .ok st)
    (hreward : checkReward p chainHeight block st = .ok ()) :
    RewardedRun (connectTx crypto fScriptChecks flags nSpendHeight nHeight)
      (blockSubsidy chainHeight block) view block.vtx st := by
  rw [blockSubsidy]
  split_ifs with hpos
  · exact stakeBlock_run hblock hn hpos hv3 hloop hreward
  · exact workBlock_run hblock hn (by simpa [CBlock.isProofOfWork] using hpos) hno hloop hreward

/-- A connected block raises the total by at most its subsidy, unless it is a proof-of-work block
with a transaction that looks like a coinstake. -/
theorem connectBlock_total_le {path : List CBlockIndex} {pindex : CBlockIndex} {r : ConnectResult}
    (hn : view.Nonneg) (hv3 : p.isProtocolV3 block.getBlockTime = true)
    (hno : block.NoStakeInWork)
    (h : connectBlock crypto p chainHeight fScriptChecks path pindex view block false = .ok r) :
    r.view.total ≤ view.total + (blockSubsidy chainHeight block).toInt ∧ r.view.Nonneg := by
  by_cases hgen : block.getHash crypto = p.hashGenesisBlock
  · simp only [connectBlock, check_bind_eq_ok, if_pos hgen, check_pure_eq_ok, Bool.false_eq_true,
      if_false] at h
    obtain ⟨_, -, _, -, rfl⟩ := h
    refine ⟨?_, hn⟩
    have hs := (blockSubsidy_bounds chainHeight block).1
    change view.total ≤ _
    omega
  · obtain ⟨hblock, pprev, st, -, -, hloop, hreward, rfl⟩ := connectBlock_ok h hgen
    obtain ⟨first, rest, st₁, reward, -, -, hord, -, hrest, htotal₁, hfees₁, hn₁, hle⟩ :=
      block_run hblock hn hv3 hno hloop hreward
    obtain ⟨hrun, -, hn'⟩ := connectTxs_ordinary hord hn₁ hrest
    have hadd := toInt_add_le (a := st.nFees) (blockSubsidy_bounds chainHeight block).1
    rw [gt_iff_lt, Int64.lt_iff_toInt_lt, not_lt] at hle
    rw [hfees₁, Int64.toInt_zero] at hrun
    have htotal : st.view.total ≤ view.total + (blockSubsidy chainHeight block).toInt := by omega
    exact ⟨htotal, hn'⟩

end

/-! ## Chains -/

namespace ChainState

variable {crypto : Crypto} {p : Params} {s s' : ChainState}

/-- Every block of a run raises the total by at most its subsidy, when it is of protocol version 3
and no proof-of-work block holds a transaction that looks like a coinstake. -/
theorem connectAll_total_le {blocks : List CBlock} (hn : s.view.Nonneg)
    (hv3 : ∀ b ∈ blocks, p.isProtocolV3 b.getBlockTime = true)
    (hno : ∀ b ∈ blocks, b.NoStakeInWork) (h : s.connectAll crypto p blocks = .ok s') :
    s'.view.total ≤ s.view.total + granted s.height blocks ∧ s'.view.Nonneg := by
  induction blocks generalizing s with
  | nil =>
    obtain rfl : s = s' := by simpa [connectAll] using h
    simpa [granted] using hn
  | cons b blocks ih =>
    rw [connectAll, List.foldlM_cons, check_bind_eq_ok] at h
    obtain ⟨s₁, h₁, h₂⟩ := h
    obtain ⟨hv3b, hv3⟩ := List.forall_mem_cons.mp hv3
    obtain ⟨hnob, hno⟩ := List.forall_mem_cons.mp hno
    obtain ⟨r, hr, rfl⟩ := connectNext_ok h₁
    obtain ⟨hstep, hn₁⟩ := connectBlock_total_le hn hv3b hnob hr
    obtain ⟨hrun, hn'⟩ := ih hn₁ hv3 hno h₂
    refine ⟨?_, hn'⟩
    rw [connectNext_height h₁] at hrun
    rw [granted]
    simp only at hrun hstep
    omega

theorem mainGenesis_nonneg : mainGenesis.view.Nonneg := by
  intro txid c h
  have hnone : mainGenesis.view.accessCoins txid = none := rfl
  rw [hnone] at h
  cases h

/-- Monetary conservation, for chains in which no proof-of-work block holds a transaction that looks
like a coinstake: the unspent outputs never add up to more than the subsidies granted so far, and no
further such block raises their sum by more than its own subsidy. -/
theorem total_le_granted {blocks : List CBlock}
    (hv3 : ∀ b ∈ blocks, mainParams.isProtocolV3 b.getBlockTime = true)
    (hno : ∀ b ∈ blocks, b.NoStakeInWork)
    (h : mainGenesis.connectAll crypto mainParams blocks = .ok s) :
    s.view.total ≤ granted 0 blocks ∧
      ∀ b s', mainParams.isProtocolV3 b.getBlockTime = true → b.NoStakeInWork →
        s.connectNext crypto mainParams b = .ok s' →
        s'.view.total ≤ s.view.total + (blockSubsidy s.height b).toInt := by
  obtain ⟨htotal, hn⟩ := connectAll_total_le mainGenesis_nonneg hv3 hno h
  have hzero : mainGenesis.view.total = 0 := rfl
  have hheight : mainGenesis.height = 0 := rfl
  rw [hzero, hheight, zero_add] at htotal
  refine ⟨htotal, fun b s' hb hnob hs' => ?_⟩
  obtain ⟨r, hr, rfl⟩ := connectNext_ok hs'
  exact (connectBlock_total_le hn hb hnob hr).1

theorem plainPremineBlock_le_granted :
    ∃ s, mainGenesis.connectAll plainPremineCrypto mainParams [plainPremineBlock] = .ok s ∧
      s.view.total ≤ granted 0 [plainPremineBlock] := by
  have h : okAnd (mainGenesis.connectAll plainPremineCrypto mainParams [plainPremineBlock])
      (fun _ => true) = true := by
    decide +kernel
  obtain ⟨s, hs, -⟩ := okAnd_eq_true.mp h
  exact ⟨s, hs, (total_le_granted (by decide) (by decide) hs).1⟩

/-- A proof-of-work block of the main net that is accepted and creates `MAX_MONEY` out of half the
premine, in a transaction that looks like a coinstake. -/
theorem premineBlock_exceeds_granted :
    ∃ s, mainGenesis.connectAll premineCrypto mainParams [premineBlock] = .ok s ∧
      mainParams.isProtocolV3 premineBlock.getBlockTime = true ∧
      premineBlock.isProofOfWork = true ∧ granted 0 [premineBlock] < s.view.total := by
  have h : okAnd (mainGenesis.connectAll premineCrypto mainParams [premineBlock])
      (fun s => granted 0 [premineBlock] < s.view.total) = true := by
    decide +kernel
  obtain ⟨s, hs, hlt⟩ := okAnd_eq_true.mp h
  exact ⟨s, hs, by decide, by decide, of_decide_eq_true hlt⟩

end ChainState

end X2XCoin
