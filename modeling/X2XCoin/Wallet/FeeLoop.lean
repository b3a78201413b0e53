import X2XCoin.Wallet.CreateTransaction

/-!
# The loop over the fee ends

Every turn of the loop of `CreateTransaction` that does not return goes on with a larger fee, and a
turn never starts with more than the largest fee that can be needed.
-/

namespace X2XCoin

namespace Wallet

section

variable (env : CreateEnv) (coinControl : Option CCoinControl) (w : CWallet)
  (vecSend : List CRecipient) (nChangePosRequest : ℤ) (nValue : CAmount)

/-- A turn goes on with another fee. -/
def Continues (turn : ℕ) (nFeeRet nFeeNeeded : CAmount) : Prop :=
  ∃ built, buildTurn env coinControl w vecSend nChangePosRequest nValue turn nFeeRet = .ok built ∧
    nextFee env coinControl turn built = .ok (some nFeeNeeded)

/-- The turns of the loop with the fees that they start with. -/
inductive Tried : ℕ → CAmount → Prop
  | start : Tried 0 0
  | next {turn : ℕ} {nFeeRet nFeeNeeded : CAmount} : Tried turn nFeeRet →
      Continues env coinControl w vecSend nChangePosRequest nValue turn nFeeRet nFeeNeeded →
      Tried (turn + 1) nFeeNeeded

/-- The largest of the limit for fees, the default fee and what coin control asks for. -/
def feeBound : ℤ :=
  max (max env.fees.maxTxFee.toInt DEFAULT_TRANSACTION_FEE.toInt)
    (match coinControl with
    | none => 0
    | some control => max control.nMinimumTotalFee.toInt
        (if control.fOverrideFeeRate then (control.nFeeRate.getFee MAX_STANDARD_TX_SIZE).toInt
        else 0))

/-- The rate of coin control, if it is used, is not negative and gives a fee for the largest
transaction. -/
def OverrideFits : Prop :=
  ∀ control ∈ coinControl, control.fOverrideFeeRate →
    0 ≤ control.nFeeRate.nSatoshisPerK.toInt ∧
      control.nFeeRate.nSatoshisPerK.toInt * MAX_STANDARD_TX_SIZE < 2 ^ 63

/-- The largest fee with an output that is dust fits. -/
def DustFits : Prop :=
  ∀ o : CTxOut,
    feeBound env coinControl + (o.getDustThreshold env.fees.minRelayTxFee).toInt ≤ 2 ^ 63

variable {env coinControl w vecSend nChangePosRequest nValue}

/-! ## The fee that is needed -/

theorem CFeeRate.getFee_mono {rate : CFeeRate} (hnonneg : 0 ≤ rate.nSatoshisPerK.toInt) {m n : ℕ}
    (hmn : m ≤ n) (hn : n < 2 ^ 63) (hlt : rate.nSatoshisPerK.toInt * n < 2 ^ 63) :
    (rate.getFee m).toInt ≤ (rate.getFee n).toInt := by
  have hle : rate.nSatoshisPerK.toInt * m ≤ rate.nSatoshisPerK.toInt * n := by gcongr
  have hprod : 0 ≤ rate.nSatoshisPerK.toInt * m := by positivity
  rw [toInt_getFee (by omega) hnonneg (by omega), toInt_getFee hn hnonneg hlt]
  split_ifs <;> omega

theorem getMinimumFee_le (policy : FeePolicy) (nTxBytes : ℕ) :
    (policy.getMinimumFee nTxBytes).toInt ≤
      max policy.maxTxFee.toInt DEFAULT_TRANSACTION_FEE.toInt := by
  rw [FeePolicy.getMinimumFee]
  simp only
  generalize max _ (policy.getRequiredFee nTxBytes) = nFeeNeeded
  split_ifs with hmax hdefault hdefault
  · exact le_max_right _ _
  · exact le_max_left _ _
  · exact le_max_right _ _
  · exact le_max_of_le_left (Int64.le_iff_toInt_le.mp (Int64.not_lt.mp hmax))

theorem feeNeeded_le (h : OverrideFits coinControl) {nBytes : ℕ}
    (hbytes : nBytes < MAX_STANDARD_TX_SIZE) :
    (feeNeeded env coinControl nBytes).toInt ≤ feeBound env coinControl := by
  have hmin := getMinimumFee_le env.fees nBytes
  cases coinControl with
  | none => exact le_max_of_le_left hmin
  | some control =>
    simp only [feeNeeded, feeBound]
    split_ifs with hoverride hmore
    · obtain ⟨hnonneg, hlt⟩ := h control rfl hoverride
      have hmono := CFeeRate.getFee_mono hnonneg hbytes.le (by decide) hlt
      exact le_max_of_le_right (le_max_of_le_right hmono)
    · exact le_max_of_le_right (le_max_left _ _)
    · exact le_max_of_le_left hmin

/-! ## A turn -/

theorem eq_of_raiseChange {o o' : CTxOut} {vout vout' : List CTxOut}
    (h : raiseChange env vecSend o vout = .ok (o', vout'))
    (hdust : o'.isDust env.fees.minRelayTxFee = true) : o' = o := by
  unfold raiseChange at h
  split_ifs at h with hraise
  · obtain ⟨rest, -, h⟩ := refusal_bind_eq_ok.mp h
    obtain ⟨rfl, rfl⟩ := Prod.mk.inj (Except.ok.inj h)
    have hvalue : o.nValue + (o.getDustThreshold env.fees.minRelayTxFee - o.nValue) =
        o.getDustThreshold env.fees.minRelayTxFee := by grind
    rw [CTxOut.isDust, decide_eq_true_eq] at hdust
    simp only [hvalue] at hdust
    rw [getDustThreshold_congr (show _ = o.scriptPubKey from rfl)] at hdust
    exact absurd hdust Int64.lt_irrefl
  · exact (Prod.mk.inj (Except.ok.inj h)).1.symm

theorem nFeeRet_placeChange {turn : ℕ} {nFeeRet nChange : CAmount} {o : CTxOut}
    {vout : List CTxOut} {outputs : Outputs}
    (h : placeChange env nChangePosRequest turn nFeeRet nChange o vout = .ok outputs) :
    outputs.nFeeRet = nFeeRet ∨
      outputs.nFeeRet = nFeeRet + nChange ∧ o.isDust env.fees.minRelayTxFee = true := by
  unfold placeChange at h
  by_cases hdust : o.isDust env.fees.minRelayTxFee = true
  · rw [if_pos hdust] at h
    exact .inr ⟨(Except.ok.inj h) ▸ rfl, hdust⟩
  · rw [if_neg hdust] at h
    simp only at h
    generalize (if nChangePosRequest = -1 then _ else nChangePosRequest) = pos at h
    split_ifs at h
    exact .inl ((Except.ok.inj h) ▸ rfl)

theorem nFeeRet_addChange {turn : ℕ} {nFeeRet nChange : CAmount} {vout : List CTxOut}
    {outputs : Outputs}
    (h : addChange env coinControl vecSend nChangePosRequest turn nFeeRet nChange vout =
      .ok outputs) :
    outputs.nFeeRet = nFeeRet ∨ outputs.nFeeRet = nFeeRet + nChange ∧ 0 < nChange.toInt ∧
      ∃ o : CTxOut, nChange.toInt < (o.getDustThreshold env.fees.minRelayTxFee).toInt := by
  unfold addChange at h
  split_ifs at h with hchange
  · obtain ⟨script, -, h⟩ := refusal_bind_eq_ok.mp h
    obtain ⟨⟨newTxOut, vout'⟩, hraise, h⟩ := refusal_bind_eq_ok.mp h
    refine (nFeeRet_placeChange h).imp id fun ⟨hfee, hdust⟩ => ?_
    obtain rfl := eq_of_raiseChange hraise hdust
    refine ⟨hfee, Int64.lt_iff_toInt_lt.mp hchange, ⟨nChange, script⟩, ?_⟩
    exact Int64.lt_iff_toInt_lt.mp (of_decide_eq_true hdust)
  · exact .inl ((Except.ok.inj h) ▸ rfl)

/-- A turn that goes on does so with a larger fee, at most the largest that can be needed. -/
theorem Continues.bounds (hoverride : OverrideFits coinControl) (hdust : DustFits env coinControl)
    {turn : ℕ} {nFeeRet nFeeNeeded : CAmount} (hfee : nFeeRet.toInt ≤ feeBound env coinControl)
    (h : Continues env coinControl w vecSend nChangePosRequest nValue turn nFeeRet nFeeNeeded) :
    nFeeRet.toInt < nFeeNeeded.toInt ∧ nFeeNeeded.toInt ≤ feeBound env coinControl := by
  obtain ⟨built, hbuilt, hnext⟩ := h
  obtain ⟨vout, setCoins, nValueIn, outputs, -, -, hchange, -, -, hfeeRet, hbytes⟩ :=
    buildTurn_cases hbuilt
  unfold nextFee at hnext
  split_ifs at hnext with hfree hrelay henough
  · cases Except.ok.inj hnext
  · cases Except.ok.inj hnext
  · obtain rfl := Option.some.inj (Except.ok.inj hnext)
    refine ⟨lt_of_le_of_lt ?_ (Int64.lt_iff_toInt_lt.mp (Int64.not_le.mp henough)),
      feeNeeded_le hoverride hbytes⟩
    rw [hfeeRet]
    obtain heq | ⟨heq, hpos, o, hlt⟩ := nFeeRet_addChange hchange
    · rw [heq]
    · have hfits := hdust o
      have hlow := nFeeRet.le_toInt
      rw [heq, Int64.toInt_add, Int.bmod_eq_of_le] <;> omega

theorem Tried.bounds (hoverride : OverrideFits coinControl) (hdust : DustFits env coinControl)
    {turn : ℕ} {nFeeRet : CAmount}
    (h : Tried env coinControl w vecSend nChangePosRequest nValue turn nFeeRet) :
    turn ≤ nFeeRet.toInt ∧ nFeeRet.toInt ≤ feeBound env coinControl := by
  induction h with
  | start =>
    exact ⟨le_rfl, le_max_of_le_left (le_max_of_le_right (by decide))⟩
  | next _ hnext ih =>
    obtain ⟨hlt, hle⟩ := hnext.bounds hoverride hdust ih.2
    exact ⟨by push_cast; omega, hle⟩

/-! ## The loop -/

/-- The result is not for want of turns. -/
def Settled {α : Type} (x : Except Refusal α) : Prop := x ≠ .error .turns

theorem settled_bind {α β : Type} {x : Except Refusal α} {k : α → Except Refusal β}
    (hx : Settled x) (hk : ∀ a, x = .ok a → Settled (k a)) : Settled (x >>= k) := by
  cases x with
  | error e => exact fun h => hx (congrArg Except.error (Except.error.inj h))
  | ok a => exact hk a rfl

theorem settled_ite {α : Type} {c : Prop} [Decidable c] {x y : Except Refusal α} (hx : Settled x)
    (hy : Settled y) : Settled (if c then x else y) := by
  split_ifs
  · exact hx
  · exact hy

theorem settled_payees {rate : CFeeRate} {nFeeRet nSubtract : CAmount} (fFirst : Bool)
    (vecSend : List CRecipient) : Settled (payees rate nFeeRet nSubtract fFirst vecSend) := by
  induction vecSend generalizing fFirst with
  | nil => exact nofun
  | cons r vecSend ih => exact settled_ite nofun (settled_bind (ih _) fun _ _ => nofun)

theorem settled_takeFromFirst {rate : CFeeRate} {nDust : CAmount} (vecSend : List CRecipient)
    (vout : List CTxOut) : Settled (takeFromFirst rate nDust vecSend vout) := by
  induction vecSend generalizing vout with
  | nil => exact nofun
  | cons r vecSend ih =>
    cases vout with
    | nil => exact nofun
    | cons o vout =>
      exact settled_ite (settled_ite nofun nofun) (settled_bind (ih vout) fun _ _ => nofun)

theorem settled_addChange (turn : ℕ) (nFeeRet nChange : CAmount) (vout : List CTxOut) :
    Settled (addChange env coinControl vecSend nChangePosRequest turn nFeeRet nChange vout) := by
  refine settled_ite (settled_bind ?_ fun script _ => settled_bind ?_ fun x _ => ?_) nofun
  · unfold changeScript
    split
    · exact nofun
    · split <;> exact nofun
  · exact settled_ite (settled_bind (settled_takeFromFirst vecSend vout) fun _ _ => nofun) nofun
  · exact settled_ite nofun (settled_ite nofun nofun)

theorem settled_signCoins (txNew : CTransaction) (coins : List (Uint256 × ℕ)) :
    Settled (signCoins env txNew coins) := by
  unfold signCoins
  induction coins.zipIdx with
  | nil => exact nofun
  | cons coin coins ih =>
    rw [List.mapM_cons]
    refine settled_bind ?_ fun _ _ => settled_bind ih fun _ _ => nofun
    obtain ⟨coin, nIn⟩ := coin
    dsimp only
    split <;> exact nofun

theorem settled_buildTurn (turn : ℕ) (nFeeRet : CAmount) :
    Settled (buildTurn env coinControl w vecSend nChangePosRequest nValue turn nFeeRet) := by
  refine settled_bind (settled_payees _ _) fun vout _ => ?_
  split
  · exact nofun
  · refine settled_ite nofun (settled_bind (settled_addChange _ _ _ _) fun outputs _ => ?_)
    exact settled_bind (settled_signCoins _ _) fun vin _ => settled_ite nofun nofun

theorem Continues.feeLoop_eq {turn : ℕ} {nFeeRet nFeeNeeded : CAmount}
    (h : Continues env coinControl w vecSend nChangePosRequest nValue turn nFeeRet nFeeNeeded)
    (turns : ℕ) :
    feeLoop env coinControl w vecSend nChangePosRequest nValue (turns + 1) turn nFeeRet =
      feeLoop env coinControl w vecSend nChangePosRequest nValue turns (turn + 1) nFeeNeeded := by
  obtain ⟨built, hbuilt, hnext⟩ := h
  rw [feeLoop, hbuilt]
  simp only [bind, Except.bind, hnext]

theorem settled_feeLoop (hoverride : OverrideFits coinControl) (hdust : DustFits env coinControl)
    {turns turn : ℕ} {nFeeRet : CAmount}
    (htried : Tried env coinControl w vecSend nChangePosRequest nValue turn nFeeRet)
    (hturns : feeBound env coinControl < turn + turns) :
    Settled (feeLoop env coinControl w vecSend nChangePosRequest nValue turns turn nFeeRet) := by
  induction turns generalizing turn nFeeRet with
  | zero =>
    have := htried.bounds hoverride hdust
    omega
  | succ turns ih =>
    have hnext : ∀ built, Settled (nextFee env coinControl turn built) := fun built =>
      settled_ite nofun (settled_ite nofun (settled_ite nofun nofun))
    refine settled_bind (settled_buildTurn _ _) fun built hbuilt =>
      settled_bind (hnext built) fun next hnext => ?_
    cases next with
    | none => exact nofun
    | some nFeeNeeded => exact ih (htried.next ⟨built, hbuilt, hnext⟩) (by push_cast; omega)

theorem settled_sumAmounts (nStart : CAmount) : Settled (sumAmounts vecSend nStart) := by
  induction vecSend generalizing nStart with
  | nil => exact nofun
  | cons r vecSend ih => exact settled_ite nofun (ih _)

variable (env coinControl w vecSend nChangePosRequest) in
/-- Each further turn starts with a larger fee, none with more than the bound, and the function
returns within that many turns and one. -/
theorem createTransaction_returns (hoverride : OverrideFits coinControl)
    (hdust : DustFits env coinControl) :
    (∀ nValue turn nFeeRet nFeeNeeded,
      Tried env coinControl w vecSend nChangePosRequest nValue turn nFeeRet →
      Continues env coinControl w vecSend nChangePosRequest nValue turn nFeeRet nFeeNeeded →
        nFeeRet.toInt < nFeeNeeded.toInt) ∧
    (∀ nValue turn nFeeRet, Tried env coinControl w vecSend nChangePosRequest nValue turn nFeeRet →
      nFeeRet.toInt ≤ feeBound env coinControl) ∧
    ∀ turns : ℕ, feeBound env coinControl < turns →
      createTransaction env coinControl w vecSend nChangePosRequest turns ≠ .error .turns := by
  refine ⟨fun nValue turn nFeeRet nFeeNeeded htried hnext => ?_,
    fun nValue turn nFeeRet htried => (htried.bounds hoverride hdust).2, fun turns hturns => ?_⟩
  · exact (hnext.bounds hoverride hdust (htried.bounds hoverride hdust).2).1
  · refine settled_bind (settled_sumAmounts _) fun nValue _ => settled_ite nofun ?_
    exact settled_bind (settled_feeLoop hoverride hdust .start (by omega)) fun built _ =>
      settled_ite nofun nofun

end

theorem createTransaction_returns_oneCoin :
    createTransaction threeCoinsEnv (some (feeOf 0)) threeCoins oneCoin (-1) 100000001 ≠
      .error .turns := by
  refine (createTransaction_returns threeCoinsEnv (some (feeOf 0)) threeCoins oneCoin (-1)
    (fun control hcontrol h => ?_) (fun o => ?_)).2.2 _ (by decide +kernel)
  · cases hcontrol
    cases h
  · have hsane : threeCoinsEnv.fees.minRelayTxFee.Sane := ⟨by decide, by decide⟩
    have hdust := getDustThreshold_bounds hsane o
    have hbound : feeBound threeCoinsEnv (some (feeOf 0)) = 100000000 := by decide +kernel
    omega

/-- A wallet with one output of the largest amount. -/
def oneOutput : CWallet where
  mapWallet :=
    AList.singleton 1 ⟨⟨1, 100, [⟨⟨7, 0⟩, [], 0⟩], [⟨MAX_MONEY, [OP_1]⟩], 0⟩, 5, 0, none⟩
  mapTxSpends := Multimap.empty

/-- The largest amount is sent with a fee of the largest amount: the amount to select wraps, the
change is dust, and the fee wraps too. -/
theorem endless_turn (turn : ℕ) :
    Continues threeCoinsEnv (some (feeOf MAX_MONEY)) oneOutput [⟨[OP_1], MAX_MONEY, false⟩] (-1)
      MAX_MONEY turn MAX_MONEY MAX_MONEY := by
  have hturn : Continues threeCoinsEnv (some (feeOf MAX_MONEY)) oneOutput
      [⟨[OP_1], MAX_MONEY, false⟩] (-1) MAX_MONEY 0 MAX_MONEY MAX_MONEY :=
    ⟨⟨⟨1, 200, [], [⟨MAX_MONEY, [OP_1]⟩], 100⟩, MAX_MONEY + 2, -1, 24⟩, by decide +kernel,
      by decide +kernel⟩
  exact hturn

theorem feeLoop_endless (turns turn : ℕ) :
    feeLoop threeCoinsEnv (some (feeOf MAX_MONEY)) oneOutput [⟨[OP_1], MAX_MONEY, false⟩] (-1)
      MAX_MONEY turns turn MAX_MONEY = .error .turns := by
  induction turns generalizing turn with
  | zero => rfl
  | succ turns ih => rw [(endless_turn turn).feeLoop_eq, ih]

/-- The loop need not end if the fee wraps, and dust can make the fee exceed the bound before the
test that ends the loop. -/
theorem createTransaction_endless :
    (∀ turns, createTransaction threeCoinsEnv (some (feeOf MAX_MONEY)) oneOutput
      [⟨[OP_1], MAX_MONEY, false⟩] (-1) turns = .error .turns) ∧
    ∃ built, createTransaction threeCoinsEnv (some (feeOf COIN)) threeCoins
        [⟨[OP_1], 2 * COIN - 100, false⟩] (-1) 2 = .ok built ∧
      feeBound threeCoinsEnv (some (feeOf COIN)) < built.nFeeRet.toInt := by
  refine ⟨fun turns => ?_, ⟨⟨1, 200, [⟨⟨1, 0⟩, [], 0xfffffffe⟩], [⟨2 * COIN - 100, [OP_1]⟩], 100⟩,
    COIN + 100, -1, 65⟩, by decide +kernel, by decide +kernel⟩
  have hfirst : Continues threeCoinsEnv (some (feeOf MAX_MONEY)) oneOutput
      [⟨[OP_1], MAX_MONEY, false⟩] (-1) MAX_MONEY 0 0 MAX_MONEY :=
    ⟨⟨⟨1, 200, [⟨⟨1, 0⟩, [], 0xfffffffe⟩], [⟨MAX_MONEY, [OP_1]⟩], 100⟩, 0, -1, 65⟩,
      by decide +kernel, by decide +kernel⟩
  have hloop : feeLoop threeCoinsEnv (some (feeOf MAX_MONEY)) oneOutput
      [⟨[OP_1], MAX_MONEY, false⟩] (-1) MAX_MONEY turns 0 0 = .error .turns := by
    cases turns with
    | zero => rfl
    | succ turns => rw [hfirst.feeLoop_eq, feeLoop_endless]
  rw [createTransaction]
  change (feeLoop threeCoinsEnv (some (feeOf MAX_MONEY)) oneOutput
    [⟨[OP_1], MAX_MONEY, false⟩] (-1) MAX_MONEY turns 0 0 >>= _) = _
  rw [hloop]
  rfl

end Wallet

end X2XCoin
