import X2XCoin.Wallet.CoinSelection
import X2XCoin.Wallet.CoinStake

/-!
# Selecting coins for a payment

`CWallet::AvailableCoins` and `CWallet::SelectCoins` with coin control.  What the functions read
besides the wallet is a `SpendEnv`.
-/

namespace X2XCoin

namespace Wallet

/-- `isminetype`. -/
inductive IsMine
  | no | watchUnsolvable | watchSolvable | spendable
  deriving DecidableEq

structure CFeeRate where
  nSatoshisPerK : CAmount

structure CCoinControl where
  /-- The outpoints in the order of the set. -/
  setSelected : List COutPoint
  nodup : setSelected.Nodup
  destChange : Option CScript
  fAllowOtherInputs : Bool
  fAllowWatchOnly : Bool
  nMinimumTotalFee : CAmount
  fOverrideFeeRate : Bool
  nFeeRate : CFeeRate

structure SpendEnv where
  p : Params
  node : NodeView
  /-- `CheckFinalTx` and `IsTrusted`. -/
  isTrusted : Uint256 → CWalletTx → Bool
  isMine : CScript → IsMine
  isLockedCoin : COutPoint → Bool
  isFromMe : Uint256 → Bool
  /-- The numbers of ancestors and descendants of a transaction in the mempool. -/
  chainLength : Uint256 → Option (ℕ × ℕ)
  bSpendZeroConfChange : Bool
  fRejectLongChains : Bool
  nMaxChainLength : ℕ
  /-- The random choices of a call of `SelectCoinsMinConf`, by the turn of the fee loop and the
  number of the call. -/
  choices : ℕ → ℕ → Choices

variable (env : SpendEnv) (coinControl : Option CCoinControl) (w : CWallet)

/-! ## The available coins -/

/-- Coin control lets an output be used. -/
def controlAllows (o : COutPoint) : Bool :=
  match coinControl with
  | none => true
  | some control => control.setSelected.isEmpty || control.fAllowOtherInputs ||
      o ∈ control.setSelected

def spendable (mine : IsMine) : Bool :=
  mine = .spendable || (coinControl.any CCoinControl.fAllowWatchOnly && mine = .watchSolvable)

/-- The outputs of one transaction that are available. -/
def spendableOutputs (wtxid : Uint256) (wtx : CWalletTx) : List COutput :=
  (wtx.tx.vout.zipIdx.filter fun (txout, i) =>
    !w.isSpent env.node ⟨wtxid, UInt32.ofNat i⟩ && env.isMine txout.scriptPubKey ≠ .no &&
      !env.isLockedCoin ⟨wtxid, UInt32.ofNat i⟩ && 0 < txout.nValue &&
      controlAllows coinControl ⟨wtxid, UInt32.ofNat i⟩).map fun (txout, i) =>
    { tx := wtxid
      i := i
      nValue := txout.nValue
      nDepth := wtx.getDepthInMainChain env.node
      fSpendable := spendable coinControl (env.isMine txout.scriptPubKey)
      isFromMe := env.isFromMe wtxid
      chainLength := env.chainLength wtxid }

def spendableFrom (entry : Sigma fun _ : Uint256 => CWalletTx) : List COutput :=
  if !env.isTrusted entry.1 entry.2 then []
  else if 0 < entry.2.getBlocksToMaturity env.p env.node then []
  else
    let nDepth := entry.2.getDepthInMainChain env.node
    if nDepth < 0 then []
    else if nDepth = 0 ∧ !env.node.inMempool entry.1 then []
    else spendableOutputs env coinControl w entry.1 entry.2

/-- `AvailableCoins(vCoins, true, coinControl)`. -/
def availableCoins : List COutput := (walletEntries w).flatMap (spendableFrom env coinControl w)

/-! ## The selection -/

/-- `mapWallet[hash].vout[n]`. -/
def walletOutput (coin : Uint256 × ℕ) : Option CTxOut :=
  match w.mapWallet.lookup coin.1 with
  | none => none
  | some wtx => wtx.tx.vout[coin.2]?

/-- The inputs that coin control asks for and their value, if they are outputs of the wallet. -/
def presetCoins :
    List COutPoint → List (Uint256 × ℕ) → CAmount → Option (List (Uint256 × ℕ) × CAmount)
  | [], setPresetCoins, nValue => some (setPresetCoins, nValue)
  | o :: vPresetInputs, setPresetCoins, nValue =>
    match walletOutput w (o.hash, o.n.toNat) with
    | none => none
    | some txout =>
      presetCoins vPresetInputs (setPresetCoins ++ [(o.hash, o.n.toNat)]) (nValue + txout.nValue)

/-- The calls of `SelectCoinsMinConf` in their order: the confirmations needed of coins of the
wallet and of others, and the limit for chains in the mempool. -/
def attempts : List (ℤ × ℤ × ℕ) :=
  [(1, 10, 0), (1, 1, 0)] ++
    if env.bSpendZeroConfChange then
      [(0, 1, 2), (0, 1, min 4 (env.nMaxChainLength / 3)), (0, 1, env.nMaxChainLength / 2),
        (0, 1, env.nMaxChainLength)] ++
        if env.fRejectLongChains then [] else [(0, 1, 2 ^ 64 - 1)]
    else []

def setSelected : List COutPoint := (coinControl.map CCoinControl.setSelected).getD []

def selectCoins (turn : ℕ) (vAvailableCoins : List COutput) (nTargetValue : CAmount) :
    Option (Finset (Uint256 × ℕ) × CAmount) :=
  if !(setSelected coinControl).isEmpty && !coinControl.any CCoinControl.fAllowOtherInputs then
    let result := collect (vAvailableCoins.filter COutput.fSpendable)
    if nTargetValue ≤ result.2 then some result else none
  else
    match presetCoins w (setSelected coinControl) [] 0 with
    | none => none
    | some (setPresetCoins, nValueFromPresetInputs) =>
      let vCoins := vAvailableCoins.filter fun output => output.coin ∉ setPresetCoins
      let found :=
        if nTargetValue ≤ nValueFromPresetInputs then some (∅, 0)
        else (attempts env).zipIdx.findSome? fun (attempt, call) =>
          selectCoinsMinConf (nTargetValue - nValueFromPresetInputs) attempt.1 attempt.2.1
            attempt.2.2 (env.choices turn call) vCoins
      found.map fun result =>
        (result.1 ∪ setPresetCoins.toFinset, result.2 + nValueFromPresetInputs)

/-! ## Available coins are outputs of the wallet -/

section

variable {env coinControl w}

variable {output : COutput} {coins : List COutput}

theorem mem_spendableOutputs {wtxid : Uint256} {wtx : CWalletTx}
    (h : output ∈ spendableOutputs env coinControl w wtxid wtx) :
    output.tx = wtxid ∧ 0 < output.nValue.toInt ∧
      ∃ txout, wtx.tx.vout[output.i]? = some txout ∧ txout.nValue = output.nValue := by
  obtain ⟨⟨txout, i⟩, hmem, rfl⟩ := List.mem_map.mp h
  obtain ⟨hzip, hcond⟩ := List.mem_filter.mp hmem
  simp only [Bool.and_eq_true, decide_eq_true_eq] at hcond
  exact ⟨rfl, Int64.lt_iff_toInt_lt.mp hcond.1.2, txout, List.mem_zipIdx_iff_getElem?.mp hzip, rfl⟩

theorem spendableFrom_subset (entry : Sigma fun _ : Uint256 => CWalletTx) :
    (spendableFrom env coinControl w entry).Sublist
      (spendableOutputs env coinControl w entry.1 entry.2) := by
  unfold spendableFrom
  simp only
  split_ifs
  · exact List.nil_sublist _
  · exact List.nil_sublist _
  · exact List.nil_sublist _
  · exact List.nil_sublist _
  · exact List.Sublist.refl _

theorem nodup_availableCoins : ((availableCoins env coinControl w).map COutput.coin).Nodup := by
  refine nodup_flatMap_walletEntries Prod.fst (fun entry hentry => ?_) fun entry output ho => ?_
  · refine List.Nodup.sublist ((spendableFrom_subset entry).map _) ?_
    rw [spendableOutputs, List.map_map]
    change (List.map ((fun i => (entry.1, i)) ∘ Prod.snd) _).Nodup
    rw [← List.map_map]
    refine List.Nodup.map (fun i j hij => (Prod.mk.inj hij).2) ?_
    refine List.Nodup.sublist (List.filter_sublist.map _) ?_
    rw [List.zipIdx_map_snd]
    exact List.nodup_range'
  · exact (mem_spendableOutputs ((spendableFrom_subset entry).subset ho)).1

/-- An available coin is worth what the output of the wallet is. -/
theorem mem_availableCoins (h : output ∈ availableCoins env coinControl w) :
    0 < output.nValue.toInt ∧
      ∃ txout, walletOutput w output.coin = some txout ∧ txout.nValue = output.nValue := by
  obtain ⟨entry, hentry, ho⟩ := List.mem_flatMap.mp h
  obtain ⟨htx, hpos, txout, hget, hvalue⟩ :=
    mem_spendableOutputs ((spendableFrom_subset entry).subset ho)
  refine ⟨hpos, txout, ?_, hvalue⟩
  have hlookup : w.mapWallet.lookup output.tx = some entry.2 :=
    htx ▸ AList.mem_lookup_iff.mpr ((List.mem_insertionSort _).mp hentry)
  rw [walletOutput, COutput.coin, hlookup]
  exact hget

/-! ## Selected coins are worth the value returned -/

variable (w) in
/-- The exact value of an output of the wallet. -/
def valueOf (coin : Uint256 × ℕ) : ℤ := ((walletOutput w coin).map fun o => o.nValue.toInt).getD 0

theorem valueOf_coin (h : output ∈ availableCoins env coinControl w) :
    valueOf w output.coin = output.nValue.toInt := by
  obtain ⟨-, txout, hout, hvalue⟩ := mem_availableCoins h
  rw [valueOf, hout, Option.map_some, Option.getD_some, hvalue]

/-- The coins in the set of `collect`, as outputs of the wallet. -/
theorem sum_valueOf_collect (hsub : coins.Subperm (availableCoins env coinControl w)) :
    ∑ coin ∈ (coins.map COutput.coin).toFinset, valueOf w coin = worth coins := by
  have hnodup : (coins.map COutput.coin).Nodup := by
    obtain ⟨l, hperm, hl⟩ := hsub
    exact (hperm.map _).nodup_iff.mp (nodup_availableCoins.sublist (hl.map _))
  rw [List.sum_toFinset _ hnodup, List.map_map, worth]
  congr 1
  exact List.map_congr_left fun output ho => valueOf_coin (hsub.subset ho)

theorem presetCoins_spec {vPresetInputs : List COutPoint}
    {setPresetCoins coins : List (Uint256 × ℕ)} {nValue nValueRet : CAmount}
    (h : presetCoins w vPresetInputs setPresetCoins nValue = some (coins, nValueRet)) :
    coins = setPresetCoins ++ vPresetInputs.map (fun o => (o.hash, o.n.toNat)) ∧
    nValueRet = nValue +
      Int64.ofInt ((vPresetInputs.map fun o => valueOf w (o.hash, o.n.toNat)).sum) ∧
    ∀ o ∈ vPresetInputs, (walletOutput w (o.hash, o.n.toNat)).isSome := by
  induction vPresetInputs generalizing setPresetCoins nValue with
  | nil =>
    obtain ⟨rfl, rfl⟩ := Prod.mk.inj (Option.some.inj h)
    exact ⟨by simp, by simp, by simp⟩
  | cons o vPresetInputs ih =>
    rw [presetCoins] at h
    split at h
    · cases h
    · rename_i txout hout
      obtain ⟨hcoins, hvalue, hsome⟩ := ih h
      have hvalueOf : valueOf w (o.hash, o.n.toNat) = txout.nValue.toInt := by
        rw [valueOf, hout]
        rfl
      refine ⟨by rw [hcoins, List.append_assoc]; rfl, ?_, ?_⟩
      · rw [hvalue, List.map_cons, List.sum_cons, Int64.ofInt_add, hvalueOf, Int64.ofInt_toInt,
          Int64.add_assoc]
      · exact List.forall_mem_cons.mpr ⟨by rw [hout]; rfl, hsome⟩

variable (coinControl w) in
/-- The value of the inputs that coin control asks for. -/
def presetWorth : ℤ := ((setSelected coinControl).map fun o => valueOf w (o.hash, o.n.toNat)).sum

variable (env coinControl w) in
/-- The outputs that coin control asks for are not negative, and they and the available coins are
together worth less than an amount can hold, with room for the minimal change. -/
structure Funds : Prop where
  nonneg : ∀ o ∈ setSelected coinControl, 0 ≤ valueOf w (o.hash, o.n.toNat)
  total : presetWorth coinControl w + worth (availableCoins env coinControl w) +
    MIN_CHANGE.toInt < 2 ^ 63

/-- The outputs are of the wallet and the value is theirs; it reaches the target unless that is too
close to the largest amount. -/
structure Selected (env : SpendEnv) (coinControl : Option CCoinControl) (w : CWallet)
    (nTargetValue : CAmount) (setCoins : Finset (Uint256 × ℕ)) (nValueIn : CAmount) : Prop where
  outputs : ∀ coin ∈ setCoins, (walletOutput w coin).isSome
  value : nValueIn.toInt = ∑ coin ∈ setCoins, valueOf w coin
  nonneg : 0 ≤ nValueIn.toInt
  room : nValueIn.toInt + MIN_CHANGE.toInt < 2 ^ 63
  reached : nTargetValue.toInt + MIN_CHANGE.toInt < 2 ^ 63 → nTargetValue.toInt ≤ nValueIn.toInt

namespace Funds

theorem preset_nonneg (h : Funds env coinControl w) : 0 ≤ presetWorth coinControl w := by
  refine List.sum_nonneg fun v hv => ?_
  obtain ⟨o, ho, rfl⟩ := List.mem_map.mp hv
  exact h.nonneg o ho

theorem worth_le {coins : List COutput} (hsub : coins.Subperm (availableCoins env coinControl w)) :
    0 ≤ worth coins ∧ worth coins ≤ worth (availableCoins env coinControl w) :=
  ⟨worth_nonneg fun output ho => (mem_availableCoins (hsub.subset ho)).1,
    worth_subperm hsub fun output ho => (mem_availableCoins ho).1⟩

end Funds

theorem isSome_of_collect (hsub : coins.Subperm (availableCoins env coinControl w)) :
    ∀ coin ∈ (coins.map COutput.coin).toFinset, (walletOutput w coin).isSome := by
  intro coin hcoin
  obtain ⟨output, ho, rfl⟩ := List.mem_map.mp (List.mem_toFinset.mp hcoin)
  obtain ⟨-, txout, hout, -⟩ := mem_availableCoins (hsub.subset ho)
  rw [hout]
  rfl

theorem found_spec (hfunds : Funds env coinControl w) {turn : ℕ} {nTargetValue nPreset : CAmount}
    (hpreset : nPreset.toInt = presetWorth coinControl w) {vCoins : List COutput}
    (hsub : vCoins.Subperm (availableCoins env coinControl w))
    {result : Finset (Uint256 × ℕ) × CAmount}
    (h : (if nTargetValue ≤ nPreset then some (∅, 0)
      else (attempts env).zipIdx.findSome? fun (attempt, call) =>
        selectCoinsMinConf (nTargetValue - nPreset) attempt.1 attempt.2.1 attempt.2.2
          (env.choices turn call) vCoins) = some result) :
    ∃ coins : List COutput, coins.Subperm vCoins ∧ result = collect coins ∧
      (nTargetValue.toInt + MIN_CHANGE.toInt < 2 ^ 63 →
        nTargetValue.toInt ≤ worth coins + presetWorth coinControl w) := by
  have hp := hfunds.preset_nonneg
  split_ifs at h with hle
  · refine ⟨[], List.nil_subperm, (Option.some.inj h).symm, fun _ => ?_⟩
    rw [Int64.le_iff_toInt_le, hpreset] at hle
    exact hle.trans_eq (zero_add _).symm
  · obtain ⟨⟨attempt, call⟩, -, hselect⟩ := List.exists_of_findSome?_eq_some h
    simp only at hselect
    have htotal := hfunds.total
    have hworth := Funds.worth_le hsub
    have hchange : MIN_CHANGE.toInt = 1000000 := by decide
    have hvalue : ∀ output ∈ vCoins, output.nValue < Int64.maxValue := fun output ho => by
      have hone := Funds.worth_le (List.singleton_subperm_iff.mpr (hsub.subset ho))
      rw [worth_singleton] at hone
      rw [Int64.lt_iff_toInt_lt, Int64.toInt_maxValue]
      omega
    by_cases hroom : nTargetValue.toInt + MIN_CHANGE.toInt < 2 ^ 63
    · -- the difference is positive and does not wrap
      rw [Int64.le_iff_toInt_le, hpreset, not_le] at hle
      have hsubtract : (nTargetValue - nPreset).toInt =
          nTargetValue.toInt - presetWorth coinControl w := by
        rw [Int64.toInt_sub, hpreset, Int.bmod_eq_of_le] <;> omega
      set shuffled := ((env.choices turn call).shuffle vCoins).filter
        (eligible attempt.1 attempt.2.1 attempt.2.2)
      have hshuffled : shuffled.Subperm vCoins :=
        List.filter_sublist.subperm.trans ((env.choices turn call).shuffle_perm vCoins).subperm
      have hlower := Funds.worth_le (hshuffled.trans hsub)
      have hpayable : Payable (nTargetValue - nPreset) shuffled :=
        ⟨fun output ho => (mem_availableCoins (hsub.subset (hshuffled.subset ho))).1,
          by omega, by omega, by omega⟩
      rcases selectCoinsMinConf_cases _ rfl hvalue hpayable with ⟨hnone, -⟩ | ⟨coins, hpays, hsome⟩
      · rw [hnone] at hselect
        cases hselect
      · have hreached := hpays.reached
        exact ⟨coins, hpays.subperm.trans hshuffled, Option.some.inj (hselect.symm.trans hsome),
          by omega⟩
    · obtain ⟨coins, hcoins, hresult⟩ := selectCoinsMinConf_collects hvalue hselect
      exact ⟨coins, hcoins, hresult, fun h => absurd h hroom⟩

theorem sum_valueOf_preset (control : Option CCoinControl) :
    ∑ coin ∈ ((setSelected control).map fun o => (o.hash, o.n.toNat)).toFinset, valueOf w coin =
      presetWorth control w := by
  have hnodup : (setSelected control).Nodup := by
    cases control with
    | none => exact List.nodup_nil
    | some control => exact control.nodup
  have hinj : Function.Injective fun o : COutPoint => (o.hash, o.n.toNat) := by
    rintro ⟨a, m⟩ ⟨b, n⟩ h
    obtain ⟨rfl, hn⟩ := Prod.mk.inj h
    obtain rfl := UInt32.toNat_inj.mp hn
    rfl
  rw [List.sum_toFinset _ (hnodup.map hinj), List.map_map, presetWorth]
  rfl

theorem Selected.of_coins (hfunds : Funds env coinControl w) {nTargetValue : CAmount}
    (hsub : coins.Subperm (availableCoins env coinControl w)) {preset : Finset (Uint256 × ℕ)}
    {p : ℤ} (houtputs : ∀ coin ∈ preset, (walletOutput w coin).isSome)
    (hsum : ∑ coin ∈ preset, valueOf w coin = p) (hp : 0 ≤ p ∧ p ≤ presetWorth coinControl w)
    (hdisjoint : Disjoint (coins.map COutput.coin).toFinset preset)
    (hreached : nTargetValue.toInt + MIN_CHANGE.toInt < 2 ^ 63 →
      nTargetValue.toInt ≤ worth coins + p) :
    Selected env coinControl w nTargetValue ((coins.map COutput.coin).toFinset ∪ preset)
      (Int64.ofInt (worth coins + p)) := by
  have htotal := hfunds.total
  have hchange : MIN_CHANGE.toInt = 1000000 := by decide
  have hworth := Funds.worth_le hsub
  have hexact : (Int64.ofInt (worth coins + p)).toInt = worth coins + p :=
    Int64.toInt_ofInt_of_le (by omega) (by omega)
  refine ⟨fun coin hcoin => ?_, ?_, by omega, by omega, by rwa [hexact]⟩
  · rcases Finset.mem_union.mp hcoin with hcoin | hcoin
    · exact isSome_of_collect hsub coin hcoin
    · exact houtputs coin hcoin
  · rw [hexact, Finset.sum_union hdisjoint, sum_valueOf_collect hsub, hsum]

theorem selectCoins_spec (hfunds : Funds env coinControl w) {turn : ℕ} {nTargetValue : CAmount}
    {setCoins : Finset (Uint256 × ℕ)} {nValueIn : CAmount}
    (h : selectCoins env coinControl w turn (availableCoins env coinControl w) nTargetValue =
      some (setCoins, nValueIn)) :
    Selected env coinControl w nTargetValue setCoins nValueIn := by
  have hp := hfunds.preset_nonneg
  have htotal := hfunds.total
  have hchange : MIN_CHANGE.toInt = 1000000 := by decide
  unfold selectCoins at h
  split_ifs at h with hcontrol
  · -- all outputs that were selected and nothing else
    simp only at h
    split_ifs at h with hreached
    rw [collect_eq] at h hreached
    obtain ⟨rfl, rfl⟩ := Prod.mk.inj (Option.some.inj h)
    have hsub : ((availableCoins env coinControl w).filter COutput.fSpendable).Subperm
        (availableCoins env coinControl w) := List.filter_sublist.subperm
    have hworth := Funds.worth_le hsub
    have hexact := Int64.toInt_ofInt_of_le (show -2 ^ 63 ≤ worth
      ((availableCoins env coinControl w).filter COutput.fSpendable) by omega) (by omega)
    rw [Int64.le_iff_toInt_le, hexact] at hreached
    have hselected := Selected.of_coins (p := 0) hfunds hsub
      (fun coin hcoin => absurd hcoin (Finset.notMem_empty coin)) Finset.sum_empty ⟨le_rfl, hp⟩
      (Finset.disjoint_empty_right _) fun _ => hreached.trans_eq (add_zero _).symm
    rwa [Finset.union_empty, add_zero] at hselected
  · split at h
    · cases h
    · rename_i setPresetCoins nPreset hpreset
      obtain ⟨hset, hvalue, houtputs⟩ := presetCoins_spec hpreset
      rw [List.nil_append] at hset
      rw [Int64.zero_add] at hvalue
      have hexact : nPreset.toInt = presetWorth coinControl w := by
        have hworth := Funds.worth_le (List.Subperm.refl (availableCoins env coinControl w))
        rw [hvalue]
        exact Int64.toInt_ofInt_of_le (by rw [← presetWorth]; omega) (by rw [← presetWorth]; omega)
      have hsub : ((availableCoins env coinControl w).filter fun output =>
          output.coin ∉ setPresetCoins).Subperm (availableCoins env coinControl w) :=
        List.filter_sublist.subperm
      obtain ⟨result, hfound, hresult⟩ := Option.map_eq_some_iff.mp h
      obtain ⟨coins, hcoins, rfl, hreached⟩ := found_spec hfunds hexact hsub hfound
      rw [collect_eq] at hresult
      obtain ⟨rfl, rfl⟩ := Prod.mk.inj hresult
      rw [hvalue, ← Int64.ofInt_add]
      refine Selected.of_coins hfunds (hcoins.trans hsub) (fun coin hcoin => ?_) ?_ ⟨hp, le_rfl⟩ ?_
        hreached
      · rw [hset] at hcoin
        obtain ⟨o, ho, rfl⟩ := List.mem_map.mp (List.mem_toFinset.mp hcoin)
        exact houtputs o ho
      · rw [hset]
        exact sum_valueOf_preset coinControl
      · rw [Finset.disjoint_left]
        intro coin hcoin hmem
        obtain ⟨output, ho, rfl⟩ := List.mem_map.mp (List.mem_toFinset.mp hcoin)
        have hnot := of_decide_eq_true (List.mem_filter.mp (hcoins.subset ho)).2
        exact hnot (List.mem_toFinset.mp hmem)

end

end Wallet

end X2XCoin
