import X2XCoin.Wallet.SelectCoins

/-!
# Creating a payment

`CWallet::CreateTransaction` with `GetMinimumFee` and the dust threshold of an output.  The loop
over the fee is a recursion that stops after a number of turns.  The keys, the signatures, the
priority that would make a transaction free and the order in which a `std::set` holds pointers are
arbitrary (`CreateEnv`).
-/

open ByteCodec

namespace X2XCoin

namespace Wallet

/-! ## Fees and dust -/

def CFeeRate.getFee (rate : CFeeRate) (nBytes : ℕ) : CAmount :=
  let nSize := Int64.ofNat nBytes
  let nFee := rate.nSatoshisPerK * nSize / 1000
  if nFee = 0 ∧ nSize ≠ 0 then
    if 0 < rate.nSatoshisPerK then 1 else if rate.nSatoshisPerK < 0 then -1 else nFee
  else nFee

end Wallet

def CScript.isUnspendable (s : CScript) : Bool :=
  s.head? = some OP_RETURN || MAX_SCRIPT_SIZE < s.length

def CTxOut.getDustThreshold (minRelayTxFee : Wallet.CFeeRate) (o : CTxOut) : CAmount :=
  if CScript.isUnspendable o.scriptPubKey then 0
  else 3 * minRelayTxFee.getFee (o.serialize.length + 148)

def CTxOut.isDust (minRelayTxFee : Wallet.CFeeRate) (o : CTxOut) : Bool :=
  o.nValue < o.getDustThreshold minRelayTxFee

namespace Wallet

structure FeePolicy where
  payTxFee : CFeeRate
  /-- `estimateSmartFee` of the mempool for the confirmation target. -/
  smartFee : CFeeRate
  fallbackFee : CFeeRate
  minTxFee : CFeeRate
  minRelayTxFee : CFeeRate
  maxTxFee : CAmount

def DEFAULT_TRANSACTION_FEE : CAmount := 10000

def MAX_FREE_TRANSACTION_CREATE_SIZE : ℕ := 1000

namespace FeePolicy

variable (policy : FeePolicy) (nTxBytes : ℕ)

def getRequiredFee : CAmount :=
  max (policy.minTxFee.getFee nTxBytes) (policy.minRelayTxFee.getFee nTxBytes)

def getMinimumFee : CAmount :=
  let nFeeNeeded := policy.payTxFee.getFee nTxBytes
  let nFeeNeeded :=
    if nFeeNeeded = 0 then
      let nFeeNeeded := policy.smartFee.getFee nTxBytes
      if nFeeNeeded = 0 then policy.fallbackFee.getFee nTxBytes else nFeeNeeded
    else nFeeNeeded
  let nFeeNeeded := max nFeeNeeded (policy.getRequiredFee nTxBytes)
  let nFeeNeeded := if policy.maxTxFee < nFeeNeeded then policy.maxTxFee else nFeeNeeded
  if nFeeNeeded < DEFAULT_TRANSACTION_FEE then DEFAULT_TRANSACTION_FEE else nFeeNeeded

end FeePolicy

/-! ## The outputs to the payees -/

structure CRecipient where
  scriptPubKey : CScript
  nAmount : CAmount
  fSubtractFeeFromAmount : Bool
  deriving DecidableEq

structure CreateEnv extends SpendEnv where
  fees : FeePolicy
  nTime : UInt32
  nLockTime : UInt32
  sign : Bool
  fSendFreeTransactions : Bool
  /-- Whether the priority suffices for a free transaction, by the turn of the loop. -/
  freePriority : ℕ → Bool
  /-- `GetRandInt` for the position of the change, by the turn of the loop. -/
  randPosition : ℕ → ℕ
  /-- The script of the reserved key, by the turn of the loop. -/
  reservedScript : ℕ → Option CScript
  /-- The script that signs an input for the output it spends. -/
  produceSignature : CTransaction → ℕ → Uint256 × ℕ → Option CScript
  /-- `CalculateMemPoolAncestors` succeeds. -/
  withinChainLimits : CTransaction → Bool
  order : Finset (Uint256 × ℕ) → List (Uint256 × ℕ)
  order_nodup : ∀ setCoins, (order setCoins).Nodup
  mem_order : ∀ setCoins coin, coin ∈ order setCoins ↔ coin ∈ setCoins

/-- Why no transaction is created. -/
inductive Refusal
  /-- `strFailReason`. -/
  | reason (text : String)
  | assertion
  /-- The bound on the turns of the loop. -/
  | turns
  deriving DecidableEq

/-- The sum of the amounts, tested before each is added. -/
def sumAmounts : List CRecipient → CAmount → Except Refusal CAmount
  | [], nValue => .ok nValue
  | recipient :: vecSend, nValue =>
    if nValue < 0 ∨ recipient.nAmount < 0 then
      .error (.reason "Transaction amounts must be positive")
    else sumAmounts vecSend (nValue + recipient.nAmount)

def countSubtract (vecSend : List CRecipient) : ℕ :=
  vecSend.countP CRecipient.fSubtractFeeFromAmount

/-- The output to a recipient: the first that is marked pays the remainder. -/
def payee (nFeeRet nSubtract : CAmount) (fFirst : Bool) (recipient : CRecipient) : CTxOut :=
  if recipient.fSubtractFeeFromAmount then
    let nValue := recipient.nAmount - nFeeRet / nSubtract
    ⟨if fFirst then nValue - nFeeRet % nSubtract else nValue, recipient.scriptPubKey⟩
  else ⟨recipient.nAmount, recipient.scriptPubKey⟩

def dustReason (recipient : CRecipient) (nFeeRet nValue : CAmount) : String :=
  if recipient.fSubtractFeeFromAmount ∧ 0 < nFeeRet then
    if nValue < 0 then "The transaction amount is too small to pay the fee"
    else "The transaction amount is too small to send after the fee has been deducted"
  else "Transaction amount too small"

def payees (minRelayTxFee : CFeeRate) (nFeeRet nSubtract : CAmount) :
    Bool → List CRecipient → Except Refusal (List CTxOut)
  | _, [] => .ok []
  | fFirst, recipient :: vecSend =>
    let txout := payee nFeeRet nSubtract fFirst recipient
    if txout.isDust minRelayTxFee then .error (.reason (dustReason recipient nFeeRet txout.nValue))
    else do
      let vout ← payees minRelayTxFee nFeeRet nSubtract
        (fFirst && !recipient.fSubtractFeeFromAmount) vecSend
      pure (txout :: vout)

/-! ## The change -/

/-- The first recipient that is marked pays for raising the change. -/
def takeFromFirst (minRelayTxFee : CFeeRate) (nDust : CAmount) :
    List CRecipient → List CTxOut → Except Refusal (List CTxOut)
  | recipient :: vecSend, txout :: vout =>
    if recipient.fSubtractFeeFromAmount then
      let txout := { txout with nValue := txout.nValue - nDust }
      if txout.isDust minRelayTxFee then
        .error (.reason
          "The transaction amount is too small to send after the fee has been deducted")
      else .ok (txout :: vout)
    else do
      let vout ← takeFromFirst minRelayTxFee nDust vecSend vout
      pure (txout :: vout)
  | _, vout => .ok vout

/-- The outputs, the fee and the position of the change when the change is known. -/
structure Outputs where
  vout : List CTxOut
  nFeeRet : CAmount
  nChangePosInOut : ℤ

variable (env : CreateEnv) (coinControl : Option CCoinControl) (w : CWallet)
  (vecSend : List CRecipient) (nChangePosRequest : ℤ)

def changeScript (turn : ℕ) : Except Refusal CScript :=
  match coinControl.bind CCoinControl.destChange with
  | some script => .ok script
  | none =>
    match env.reservedScript turn with
    | some script => .ok script
    | none => .error (.reason "Keypool ran out, please call keypoolrefill first")

/-- Change that is dust is raised if some recipient pays the fee. -/
def raiseChange (newTxOut : CTxOut) (vout : List CTxOut) : Except Refusal (CTxOut × List CTxOut) :=
  if 0 < countSubtract vecSend ∧ newTxOut.isDust env.fees.minRelayTxFee then do
    let nDust := newTxOut.getDustThreshold env.fees.minRelayTxFee - newTxOut.nValue
    let vout ← takeFromFirst env.fees.minRelayTxFee nDust vecSend vout
    pure ({ newTxOut with nValue := newTxOut.nValue + nDust }, vout)
  else .ok (newTxOut, vout)

/-- Change that is still dust goes to the fee; else it is put somewhere among the outputs. -/
def placeChange (turn : ℕ) (nFeeRet nChange : CAmount) (newTxOut : CTxOut) (vout : List CTxOut) :
    Except Refusal Outputs :=
  if newTxOut.isDust env.fees.minRelayTxFee then .ok ⟨vout, nFeeRet + nChange, -1⟩
  else
    let nChangePosInOut : ℤ :=
      if nChangePosRequest = -1 then (env.randPosition turn % (vout.length + 1) : ℕ)
      else nChangePosRequest
    if nChangePosInOut < 0 ∨ (vout.length : ℤ) < nChangePosInOut then
      .error (.reason "Change index out of range")
    else .ok ⟨vout.insertIdx nChangePosInOut.toNat newTxOut, nFeeRet, nChangePosInOut⟩

def addChange (turn : ℕ) (nFeeRet nChange : CAmount) (vout : List CTxOut) :
    Except Refusal Outputs :=
  if 0 < nChange then do
    let scriptChange ← changeScript env coinControl turn
    let (newTxOut, vout) ← raiseChange env vecSend ⟨nChange, scriptChange⟩ vout
    placeChange env nChangePosRequest turn nFeeRet nChange newTxOut vout
  else .ok ⟨vout, nFeeRet, nChangePosRequest⟩

/-! ## The loop over the fee -/

/-- What a turn of the loop leaves. -/
structure Built where
  tx : CTransaction
  nFeeRet : CAmount
  nChangePosInOut : ℤ
  nBytes : ℕ
  deriving DecidableEq

def inputOf (coin : Uint256 × ℕ) : CTxIn := ⟨⟨coin.1, UInt32.ofNat coin.2⟩, [], 0xfffffffe⟩

/-- The inputs with their signatures. -/
def signCoins (txNew : CTransaction) (coins : List (Uint256 × ℕ)) : Except Refusal (List CTxIn) :=
  coins.zipIdx.mapM fun (coin, nIn) =>
    match env.produceSignature txNew nIn coin with
    | none => .error (.reason "Signing transaction failed")
    | some scriptSig => .ok { inputOf coin with scriptSig := scriptSig }

/-- The depth of the transaction of a coin. -/
def ageOf (coin : Uint256 × ℕ) : ℤ :=
  match w.mapWallet.lookup coin.1 with
  | none => 0
  | some wtx => wtx.getDepthInMainChain env.node

/-- What coins have to be worth. -/
def valueToSelect (nValue nFeeRet : CAmount) : CAmount :=
  if countSubtract vecSend = 0 then nValue + nFeeRet else nValue

def buildTurn (nValue : CAmount) (turn : ℕ) (nFeeRet : CAmount) : Except Refusal Built := do
  let nValueToSelect := valueToSelect vecSend nValue nFeeRet
  let vout ← payees env.fees.minRelayTxFee nFeeRet (Int64.ofNat (countSubtract vecSend)) true
    vecSend
  match selectCoins env.toSpendEnv coinControl w turn
      (availableCoins env.toSpendEnv coinControl w) nValueToSelect with
  | none => .error (.reason "Insufficient funds")
  | some (setCoins, nValueIn) =>
    let coins := env.order setCoins
    if coins.any fun coin => ageOf env w coin < 0 then .error .assertion
    else
      let outputs ← addChange env coinControl vecSend nChangePosRequest turn nFeeRet
        (nValueIn - nValueToSelect) vout
      let txNew := CTransaction.mk 1 env.nTime (coins.map inputOf) outputs.vout env.nLockTime
      let vin ← signCoins env txNew coins
      let txSigned := { txNew with vin := vin }
      let nBytes := txSigned.serialize.length
      if MAX_STANDARD_TX_SIZE ≤ nBytes then .error (.reason "Transaction too large")
      else
        .ok ⟨if env.sign then txSigned else txNew, outputs.nFeeRet, outputs.nChangePosInOut, nBytes⟩

/-- The fee that is needed, as far as coin control does not say otherwise. -/
def feeNeeded (nBytes : ℕ) : CAmount :=
  let nFeeNeeded := env.fees.getMinimumFee nBytes
  match coinControl with
  | none => nFeeNeeded
  | some control =>
    if control.fOverrideFeeRate then control.nFeeRate.getFee nBytes
    else if 0 < nFeeNeeded ∧ nFeeNeeded < control.nMinimumTotalFee then control.nMinimumTotalFee
    else nFeeNeeded

/-- The fee to try next, or none if the fee that is included is enough. -/
def nextFee (turn : ℕ) (built : Built) : Except Refusal (Option CAmount) :=
  if env.fSendFreeTransactions ∧ built.nBytes ≤ MAX_FREE_TRANSACTION_CREATE_SIZE ∧
      env.freePriority turn then .ok none
  else if feeNeeded env coinControl built.nBytes < env.fees.minRelayTxFee.getFee built.nBytes then
    .error (.reason "Transaction too large for fee policy")
  else if feeNeeded env coinControl built.nBytes ≤ built.nFeeRet then .ok none
  else .ok (some (feeNeeded env coinControl built.nBytes))

def feeLoop (nValue : CAmount) : ℕ → ℕ → CAmount → Except Refusal Built
  | 0, _, _ => .error .turns
  | turns + 1, turn, nFeeRet => do
    let built ← buildTurn env coinControl w vecSend nChangePosRequest nValue turn nFeeRet
    match ← nextFee env coinControl turn built with
    | none => pure built
    | some nFeeNeeded => feeLoop nValue turns (turn + 1) nFeeNeeded

def createTransaction (turns : ℕ) : Except Refusal Built := do
  let nValue ← sumAmounts vecSend 0
  if vecSend.isEmpty ∨ nValue < 0 then .error (.reason "Transaction amounts must be positive")
  else
    let built ← feeLoop env coinControl w vecSend nChangePosRequest nValue turns 0 0
    if env.fRejectLongChains ∧ !env.withinChainLimits built.tx then
      .error (.reason "Transaction has too long of a mempool chain")
    else pure built

theorem refusal_bind_eq_ok {α β : Type} {x : Except Refusal α} {k : α → Except Refusal β} {b : β} :
    (x >>= k) = .ok b ↔ ∃ a, x = .ok a ∧ k a = .ok b := by
  cases x with
  | error e => simp [bind, Except.bind]
  | ok a => simp [bind, Except.bind]

/-! ## Thresholds are not negative -/

/-- A fee rate of at most 100000 coins for a kilobyte. -/
def CFeeRate.Sane (rate : CFeeRate) : Prop :=
  0 ≤ rate.nSatoshisPerK.toInt ∧ rate.nSatoshisPerK.toInt ≤ 10 ^ 13

variable {rate : CFeeRate}

theorem CFeeRate.toInt_getFee {nBytes : ℕ} (hn : nBytes < 2 ^ 63)
    (hnonneg : 0 ≤ rate.nSatoshisPerK.toInt) (hlt : rate.nSatoshisPerK.toInt * nBytes < 2 ^ 63) :
    (rate.getFee nBytes).toInt = if rate.nSatoshisPerK.toInt * nBytes / 1000 = 0 ∧ nBytes ≠ 0 ∧
      0 < rate.nSatoshisPerK.toInt then 1 else rate.nSatoshisPerK.toInt * nBytes / 1000 := by
  have hprod : 0 ≤ rate.nSatoshisPerK.toInt * nBytes := by positivity
  have hsize : (Int64.ofNat nBytes).toInt = nBytes := Int64.toInt_ofNat_of_lt hn
  have hmul : (rate.nSatoshisPerK * Int64.ofNat nBytes).toInt =
      rate.nSatoshisPerK.toInt * nBytes := by
    rw [Int64.toInt_mul, hsize, Int.bmod_eq_of_le] <;> omega
  have hdiv : (rate.nSatoshisPerK * Int64.ofNat nBytes / 1000).toInt =
      rate.nSatoshisPerK.toInt * nBytes / 1000 := by
    rw [Int64.toInt_div, hmul, show (1000 : CAmount).toInt = 1000 by decide,
      Int.tdiv_eq_ediv_of_nonneg hprod, Int.bmod_eq_of_le] <;> omega
  have hzero : (0 : CAmount).toInt = 0 := rfl
  have hone : (1 : CAmount).toInt = 1 := by decide
  unfold CFeeRate.getFee
  simp only [← Int64.toInt_inj, Int64.lt_iff_toInt_lt, hzero, hdiv, hsize, Nat.cast_ne_zero, ne_eq]
  split_ifs <;> grind

theorem CFeeRate.getFee_bounds (h : rate.Sane) {nBytes : ℕ} (hn : nBytes ≤ 100000) :
    0 ≤ (rate.getFee nBytes).toInt ∧ (rate.getFee nBytes).toInt ≤ 10 ^ 15 := by
  obtain ⟨hnonneg, hle⟩ := h
  have hprod0 : 0 ≤ rate.nSatoshisPerK.toInt * nBytes := by positivity
  have hprod : rate.nSatoshisPerK.toInt * nBytes ≤ 10 ^ 13 * 100000 := by
    gcongr
    exact_mod_cast hn
  rw [CFeeRate.toInt_getFee (by omega) hnonneg (by omega)]
  split_ifs <;> omega

theorem getDustThreshold_bounds (h : rate.Sane) (o : CTxOut) :
    0 ≤ (o.getDustThreshold rate).toInt ∧ (o.getDustThreshold rate).toInt ≤ 3 * 10 ^ 15 := by
  unfold CTxOut.getDustThreshold
  split_ifs with hunspendable
  · exact ⟨le_rfl, by decide⟩
  · have hlen : o.scriptPubKey.length ≤ 10000 := by
      rw [CScript.isUnspendable, Bool.or_eq_true, not_or, decide_eq_true_eq, decide_eq_true_eq,
        not_lt] at hunspendable
      exact hunspendable.2
    have hsize : o.serialize.length + 148 ≤ 100000 := by
      simp only [CTxOut.serialize, writeBytes, writeCompactSize, List.length_append, length_leBytes]
      split_ifs <;> simp only [List.length_cons, length_leBytes] <;> omega
    obtain ⟨hnonneg, hle⟩ := CFeeRate.getFee_bounds h hsize
    have hthree : (3 : CAmount).toInt = 3 := by decide
    rw [Int64.toInt_mul, hthree, Int.bmod_eq_of_le] <;> omega

/-! ## What the recipients receive -/

/-- The output is to the recipient, of the amount requested if it is not marked. -/
def Receives (recipient : CRecipient) (o : CTxOut) : Prop :=
  o.scriptPubKey = recipient.scriptPubKey ∧
    (recipient.fSubtractFeeFromAmount = false → o.nValue = recipient.nAmount)

/-- The amounts of the marked recipients. -/
def requested (vecSend : List CRecipient) : ℤ :=
  (vecSend.map fun r => if r.fSubtractFeeFromAmount then r.nAmount.toInt else 0).sum

/-- What the outputs to the marked recipients are worth. -/
def received (vecSend : List CRecipient) (vout : List CTxOut) : ℤ :=
  ((vecSend.zip vout).map fun x => if x.1.fSubtractFeeFromAmount then x.2.nValue.toInt else 0).sum

def sumOut (vout : List CTxOut) : ℤ := (vout.map fun o => o.nValue.toInt).sum

section

variable {env coinControl w vecSend nChangePosRequest} {rate : CFeeRate} {vout : List CTxOut}

theorem requested_cons (r : CRecipient) :
    requested (r :: vecSend) =
      (if r.fSubtractFeeFromAmount then r.nAmount.toInt else 0) + requested vecSend :=
  List.sum_cons

theorem received_cons (r : CRecipient) (o : CTxOut) :
    received (r :: vecSend) (o :: vout) =
      (if r.fSubtractFeeFromAmount then o.nValue.toInt else 0) + received vecSend vout :=
  List.sum_cons

theorem sumOut_cons (o : CTxOut) : sumOut (o :: vout) = o.nValue.toInt + sumOut vout :=
  List.sum_cons

/-- What is not received by the marked recipients is missing from the outputs. -/
theorem sumOut_of_receives (h : List.Forall₂ Receives vecSend vout) :
    sumOut vout = (vecSend.map fun r => r.nAmount.toInt).sum - requested vecSend +
      received vecSend vout := by
  induction h with
  | nil => rfl
  | @cons r o vecSend vout hr h ih =>
    rw [sumOut_cons, requested_cons, received_cons, List.map_cons, List.sum_cons, ih]
    by_cases hm : r.fSubtractFeeFromAmount = true
    · rw [if_pos hm, if_pos hm]
      ring
    · rw [if_neg hm, if_neg hm, hr.2 (Bool.eq_false_iff.mpr hm)]
      ring

theorem countSubtract_cons (r : CRecipient) : countSubtract (r :: vecSend) =
    countSubtract vecSend + if r.fSubtractFeeFromAmount then 1 else 0 :=
  List.countP_cons

/-- A recipient receives the amount less the share of the fee, the first one less the remainder. -/
theorem payee_spec {nFeeRet nSubtract : CAmount} (hfee : 0 ≤ nFeeRet.toInt)
    (hsubtract : 0 < nSubtract.toInt) {fFirst : Bool} {r : CRecipient} (hr : 0 ≤ r.nAmount.toInt)
    (hm : r.fSubtractFeeFromAmount = true) :
    (payee nFeeRet nSubtract fFirst r).nValue.toInt = r.nAmount.toInt -
      nFeeRet.toInt / nSubtract.toInt - if fFirst then nFeeRet.toInt % nSubtract.toInt else 0 := by
  have hlt := nFeeRet.toInt_lt
  have hr' := r.nAmount.toInt_lt
  have hq : 0 ≤ nFeeRet.toInt / nSubtract.toInt := Int.ediv_nonneg hfee hsubtract.le
  have hmod : 0 ≤ nFeeRet.toInt % nSubtract.toInt := Int.emod_nonneg _ hsubtract.ne'
  have hsum : nFeeRet.toInt / nSubtract.toInt + nFeeRet.toInt % nSubtract.toInt ≤
      nFeeRet.toInt := by
    have hdiv := Int.mul_ediv_add_emod nFeeRet.toInt nSubtract.toInt
    have hone : 1 * (nFeeRet.toInt / nSubtract.toInt) ≤
        nSubtract.toInt * (nFeeRet.toInt / nSubtract.toInt) :=
      Int.mul_le_mul_of_nonneg_right hsubtract hq
    omega
  have hdiv : (nFeeRet / nSubtract).toInt = nFeeRet.toInt / nSubtract.toInt := by
    rw [Int64.toInt_div, Int.tdiv_eq_ediv_of_nonneg hfee, Int.bmod_eq_of_le] <;> omega
  have hrem : (nFeeRet % nSubtract).toInt = nFeeRet.toInt % nSubtract.toInt := by
    rw [Int64.toInt_mod, Int.tmod_eq_emod_of_nonneg hfee]
  have hshare : (r.nAmount - nFeeRet / nSubtract).toInt =
      r.nAmount.toInt - nFeeRet.toInt / nSubtract.toInt := by
    rw [toInt_sub_of_nonneg hr (by omega), hdiv]
  unfold payee
  rw [if_pos hm]
  cases fFirst with
  | false => simpa using hshare
  | true =>
    simp only [if_true]
    rw [Int64.toInt_sub, hshare, hrem, Int.bmod_eq_of_le] <;> omega

theorem receives_payee (nFeeRet nSubtract : CAmount) (fFirst : Bool) (r : CRecipient) :
    Receives r (payee nFeeRet nSubtract fFirst r) := by
  unfold payee
  by_cases hm : r.fSubtractFeeFromAmount = true
  · rw [if_pos hm]
    exact ⟨rfl, fun hf => absurd hm (by simp [hf])⟩
  · rw [if_neg hm]
    exact ⟨rfl, fun _ => rfl⟩

/-- No output is dust. -/
def NoDust (rate : CFeeRate) (vout : List CTxOut) : Prop := ∀ o ∈ vout, o.isDust rate = false

theorem payees_spec {nFeeRet nSubtract : CAmount} (hfee : 0 ≤ nFeeRet.toInt) {fFirst : Bool}
    (hamounts : ∀ r ∈ vecSend, 0 ≤ r.nAmount.toInt)
    (h : payees rate nFeeRet nSubtract fFirst vecSend = .ok vout) :
    List.Forall₂ Receives vecSend vout ∧ NoDust rate vout ∧
      (0 < nSubtract.toInt → received vecSend vout = requested vecSend -
        nFeeRet.toInt / nSubtract.toInt * countSubtract vecSend -
        if fFirst ∧ 0 < countSubtract vecSend then nFeeRet.toInt % nSubtract.toInt else 0) := by
  induction vecSend generalizing fFirst vout with
  | nil =>
    obtain rfl := Except.ok.inj h
    exact ⟨.nil, fun o ho => absurd ho List.not_mem_nil, fun _ => by
      simp [received, requested, countSubtract]⟩
  | cons r vecSend ih =>
    rw [payees] at h
    split_ifs at h with hdust
    obtain ⟨rest, hrest, h⟩ := refusal_bind_eq_ok.mp h
    obtain rfl := Except.ok.inj h
    obtain ⟨hreceives, hnodust, hsum⟩ :=
      ih (fun r hr => hamounts r (List.mem_cons_of_mem _ hr)) hrest
    refine ⟨.cons (receives_payee _ _ _ _) hreceives, ?_, fun hsubtract => ?_⟩
    · exact List.forall_mem_cons.mpr ⟨Bool.eq_false_iff.mpr hdust, hnodust⟩
    · rw [received_cons, requested_cons, countSubtract_cons, hsum hsubtract]
      by_cases hm : r.fSubtractFeeFromAmount = true
      · rw [if_pos hm, if_pos hm, if_pos hm,
          payee_spec hfee hsubtract (hamounts r List.mem_cons_self) hm]
        cases fFirst <;> simp [hm] <;> ring
      · rw [if_neg hm, if_neg hm, if_neg hm]
        simp [hm]

theorem takeFromFirst_spec (hrate : rate.Sane) {nDust : CAmount} (hpos : 0 ≤ nDust.toInt)
    {vout' : List CTxOut} (hreceives : List.Forall₂ Receives vecSend vout)
    (hnodust : NoDust rate vout) (hmarked : 0 < countSubtract vecSend)
    (h : takeFromFirst rate nDust vecSend vout = .ok vout') :
    List.Forall₂ Receives vecSend vout' ∧ NoDust rate vout' ∧
      received vecSend vout' = received vecSend vout - nDust.toInt := by
  induction hreceives generalizing vout' with
  | nil => cases hmarked
  | @cons r o vecSend vout hr hreceives ih =>
    obtain ⟨ho, hnodust'⟩ := List.forall_mem_cons.mp hnodust
    rw [takeFromFirst] at h
    by_cases hm : r.fSubtractFeeFromAmount = true
    · rw [if_pos hm] at h
      simp only at h
      split_ifs at h with hdust
      obtain rfl := Except.ok.inj h
      have hvalue : 0 ≤ o.nValue.toInt := by
        have hthreshold := (getDustThreshold_bounds hrate o).1
        rw [CTxOut.isDust, decide_eq_false_iff_not, Int64.not_lt, Int64.le_iff_toInt_le] at ho
        omega
      refine ⟨.cons ⟨hr.1, fun hf => absurd hm (by simp [hf])⟩ hreceives, ?_, ?_⟩
      · exact List.forall_mem_cons.mpr ⟨Bool.eq_false_iff.mpr hdust, hnodust'⟩
      · rw [received_cons, received_cons, if_pos hm, if_pos hm, toInt_sub_of_nonneg hvalue hpos]
        ring
    · rw [if_neg hm] at h
      obtain ⟨rest, hrest, h⟩ := refusal_bind_eq_ok.mp h
      obtain rfl := Except.ok.inj h
      rw [countSubtract_cons, if_neg hm, add_zero] at hmarked
      obtain ⟨hreceives', hrestdust, hsum⟩ := ih hnodust' hmarked hrest
      refine ⟨.cons hr hreceives', List.forall_mem_cons.mpr ⟨ho, hrestdust⟩, ?_⟩
      rw [received_cons, received_cons, hsum, if_neg hm]
      ring

/-! ## What the change does -/

/-- The outputs of a transaction: those to the recipients, with the change at some position. -/
structure Paid (rate : CFeeRate) (vecSend : List CRecipient) (vout : List CTxOut) (nFeeRet : ℤ)
    (outs : List CTxOut) (change : Option CTxOut) (nTopUp : ℤ) : Prop where
  outputs : match change with
    | none => vout = outs
    | some newTxOut => ∃ pos ≤ outs.length, vout = outs.insertIdx pos newTxOut
  receives : List.Forall₂ Receives vecSend outs
  /-- The marked recipients pay the fee and what raises the change. -/
  marked : 0 < countSubtract vecSend → received vecSend outs = requested vecSend - nFeeRet - nTopUp
  topUp : 0 ≤ nTopUp
  /-- Change is raised to the threshold only. -/
  raised : nTopUp ≠ 0 → ∃ newTxOut, change = some newTxOut ∧
    newTxOut.nValue = newTxOut.getDustThreshold rate
  noDust : NoDust rate vout

theorem getDustThreshold_congr {o o' : CTxOut} (h : o.scriptPubKey = o'.scriptPubKey) :
    o.getDustThreshold rate = o'.getDustThreshold rate := by
  have hlen : o.serialize.length = o'.serialize.length := by
    rw [CTxOut.serialize, CTxOut.serialize, h, List.length_append, List.length_append,
      length_leBytes, length_leBytes]
  rw [CTxOut.getDustThreshold, CTxOut.getDustThreshold, h, hlen]

theorem raiseChange_spec (hrate : env.fees.minRelayTxFee.Sane) {newTxOut newTxOut' : CTxOut}
    {vout' : List CTxOut} (hpos : 0 < newTxOut.nValue.toInt)
    (hreceives : List.Forall₂ Receives vecSend vout)
    (hnodust : NoDust env.fees.minRelayTxFee vout)
    (h : raiseChange env vecSend newTxOut vout = .ok (newTxOut', vout')) :
    ∃ nTopUp : ℤ, 0 ≤ nTopUp ∧ newTxOut'.nValue.toInt = newTxOut.nValue.toInt + nTopUp ∧
      List.Forall₂ Receives vecSend vout' ∧ NoDust env.fees.minRelayTxFee vout' ∧
      received vecSend vout' = received vecSend vout - nTopUp ∧
      (nTopUp ≠ 0 → newTxOut'.nValue = newTxOut'.getDustThreshold env.fees.minRelayTxFee) ∧
      (0 < countSubtract vecSend → newTxOut'.isDust env.fees.minRelayTxFee = false) ∧
      (countSubtract vecSend = 0 → vout' = vout) := by
  unfold raiseChange at h
  split_ifs at h with hraise
  · obtain ⟨rest, hrest, h⟩ := refusal_bind_eq_ok.mp h
    obtain ⟨rfl, rfl⟩ := Prod.mk.inj (Except.ok.inj h)
    have hdust := hraise.2
    rw [CTxOut.isDust, decide_eq_true_eq, Int64.lt_iff_toInt_lt] at hdust
    have hthreshold : (newTxOut.getDustThreshold env.fees.minRelayTxFee - newTxOut.nValue).toInt =
        (newTxOut.getDustThreshold env.fees.minRelayTxFee).toInt - newTxOut.nValue.toInt :=
      toInt_sub_of_nonneg ((getDustThreshold_bounds hrate _).1) hpos.le
    obtain ⟨hreceives', hnodust', hsum⟩ :=
      takeFromFirst_spec hrate (by omega) hreceives hnodust hraise.1 hrest
    have hvalue : newTxOut.nValue + (newTxOut.getDustThreshold env.fees.minRelayTxFee -
        newTxOut.nValue) = newTxOut.getDustThreshold env.fees.minRelayTxFee := by grind
    have hsame : newTxOut.getDustThreshold env.fees.minRelayTxFee =
        CTxOut.getDustThreshold env.fees.minRelayTxFee
          { newTxOut with nValue := newTxOut.getDustThreshold env.fees.minRelayTxFee } :=
      getDustThreshold_congr rfl
    refine ⟨_, by omega, ?_, hreceives', hnodust', hsum, fun _ => ?_, fun _ => ?_, fun h0 => ?_⟩
    · simp only [hvalue]
      omega
    · simp only [hvalue]
      exact hsame
    · simp only [hvalue, CTxOut.isDust, ← hsame, decide_eq_false_iff_not]
      exact Int64.lt_irrefl
    · exact absurd hraise.1 (by omega)
  · obtain ⟨rfl, rfl⟩ := Prod.mk.inj (Except.ok.inj h)
    refine ⟨0, le_rfl, (add_zero _).symm, hreceives, hnodust, (sub_zero _).symm,
      fun h => absurd rfl h, fun hmarked => ?_, fun _ => rfl⟩
    exact Bool.eq_false_iff.mpr fun hdust => hraise ⟨hmarked, hdust⟩

theorem sumOut_insertIdx {pos : ℕ} (hpos : pos ≤ vout.length) (o : CTxOut) :
    sumOut (vout.insertIdx pos o) = sumOut vout + o.nValue.toInt := by
  have hperm := (List.perm_insertIdx o vout hpos).map fun o => o.nValue.toInt
  rw [sumOut, hperm.sum_eq, List.map_cons, List.sum_cons, add_comm]
  rfl

variable {turn : ℕ} {nFeeRet : CAmount} {built : Built} {nValue : CAmount}

/-- There is no change, it goes to the fee, or it is an output. -/
theorem addChange_spec (hrate : env.fees.minRelayTxFee.Sane) {nFeeRet nChange : CAmount}
    (hreceives : List.Forall₂ Receives vecSend vout) (hnodust : NoDust env.fees.minRelayTxFee vout)
    (hmarked : 0 < countSubtract vecSend →
      received vecSend vout = requested vecSend - nFeeRet.toInt)
    {outputs : Outputs}
    (h : addChange env coinControl vecSend nChangePosRequest turn nFeeRet nChange vout =
      .ok outputs) :
    (∃ outs change nTopUp, Paid env.fees.minRelayTxFee vecSend outputs.vout
      outputs.nFeeRet.toInt outs change nTopUp) ∧
    ((nChange.toInt ≤ 0 ∧ outputs.nFeeRet = nFeeRet ∧ sumOut outputs.vout = sumOut vout) ∨
      (0 < nChange.toInt ∧ countSubtract vecSend = 0 ∧ outputs.nFeeRet = nFeeRet + nChange ∧
        sumOut outputs.vout = sumOut vout) ∨
      (0 < nChange.toInt ∧ outputs.nFeeRet = nFeeRet ∧
        sumOut outputs.vout = sumOut vout + nChange.toInt)) := by
  have hzero : (0 : CAmount).toInt = 0 := rfl
  unfold addChange at h
  split_ifs at h with hchange
  · rw [Int64.lt_iff_toInt_lt, hzero] at hchange
    obtain ⟨script, -, h⟩ := refusal_bind_eq_ok.mp h
    obtain ⟨⟨newTxOut, vout'⟩, hraise, h⟩ := refusal_bind_eq_ok.mp h
    obtain ⟨nTopUp, htop, hvalue, hreceives', hnodust', hsum, hraised, hnot, hsame⟩ :=
      raiseChange_spec hrate hchange hreceives hnodust hraise
    have hmarked' : 0 < countSubtract vecSend →
        received vecSend vout' = requested vecSend - nFeeRet.toInt - nTopUp := fun hm => by
      rw [hsum, hmarked hm]
    unfold placeChange at h
    simp only at h
    by_cases hdust : newTxOut.isDust env.fees.minRelayTxFee = true
    · -- the change is dust, so nobody is marked
      rw [if_pos hdust] at h
      obtain rfl := Except.ok.inj h
      have hcount : countSubtract vecSend = 0 := by
        by_contra hne
        rw [hnot (by omega)] at hdust
        cases hdust
      obtain rfl := hsame hcount
      exact ⟨⟨vout', none, 0, rfl, hreceives, fun hm => absurd hm (by omega), le_rfl,
        fun h => absurd rfl h, hnodust⟩, .inr (.inl ⟨hchange, hcount, rfl, rfl⟩)⟩
    · rw [if_neg hdust] at h
      generalize (if nChangePosRequest = -1 then
        ((env.randPosition turn % (vout'.length + 1) : ℕ) : ℤ) else nChangePosRequest) = pos at h
      split_ifs at h with hrange
      obtain rfl := Except.ok.inj h
      have hpos : pos.toNat ≤ vout'.length := by omega
      have hperm := List.perm_insertIdx newTxOut vout' hpos
      refine ⟨⟨vout', some newTxOut, nTopUp, ⟨_, hpos, rfl⟩, hreceives', hmarked', htop,
        fun hne => ⟨newTxOut, rfl, hraised hne⟩, fun o ho => ?_⟩, .inr (.inr ⟨hchange, rfl, ?_⟩)⟩
      · rcases List.mem_cons.mp (hperm.mem_iff.mp ho) with rfl | ho
        · exact Bool.eq_false_iff.mpr hdust
        · exact hnodust' o ho
      · rw [sumOut_insertIdx hpos, hvalue, sumOut_of_receives hreceives', hsum,
          sumOut_of_receives hreceives]
        ring
  · obtain rfl := Except.ok.inj h
    rw [Int64.lt_iff_toInt_lt, hzero, not_lt] at hchange
    exact ⟨⟨vout, none, 0, rfl, hreceives, fun hm => (hmarked hm).trans (sub_zero _).symm, le_rfl,
      fun h => absurd rfl h, hnodust⟩, .inl ⟨hchange, rfl, rfl⟩⟩

/-! ## A turn of the loop -/

theorem signCoins_spec {txNew : CTransaction} {coins : List (Uint256 × ℕ)} {vin : List CTxIn}
    (h : signCoins env txNew coins = .ok vin) :
    vin.map CTxIn.prevout = coins.map fun coin => (inputOf coin).prevout := by
  unfold signCoins at h
  generalize 0 = start at h
  induction coins generalizing vin start with
  | nil =>
    obtain rfl := Except.ok.inj h
    rfl
  | cons coin coins ih =>
    rw [List.zipIdx_cons, List.mapM_cons] at h
    obtain ⟨txin, hsign, h⟩ := refusal_bind_eq_ok.mp h
    obtain ⟨rest, hrest, h⟩ := refusal_bind_eq_ok.mp h
    obtain rfl := Except.ok.inj h
    rw [List.map_cons, List.map_cons, ih _ hrest]
    simp only at hsign
    split at hsign
    · cases hsign
    · obtain rfl := Except.ok.inj hsign
      rfl

/-- What has to be selected, without wrapping. -/
def toSelect (vecSend : List CRecipient) (nFeeRet : CAmount) : ℤ :=
  (vecSend.map fun r => r.nAmount.toInt).sum +
    if countSubtract vecSend = 0 then nFeeRet.toInt else 0

/-- The inputs of a transaction are different outputs of the wallet. -/
structure SpendsWallet (w : CWallet) (tx : CTransaction) : Prop where
  nodup : (tx.vin.map CTxIn.prevout).Nodup
  outputs : ∀ txin ∈ tx.vin, (walletOutput w (txin.prevout.hash, txin.prevout.n.toNat)).isSome

/-- What the inputs are worth. -/
def sumIn (w : CWallet) (tx : CTransaction) : ℤ :=
  (tx.vin.map fun txin => valueOf w (txin.prevout.hash, txin.prevout.n.toNat)).sum

theorem spendsWallet_of_coins (hw : Indexable w) {setCoins : Finset (Uint256 × ℕ)}
    (houtputs : ∀ coin ∈ setCoins, (walletOutput w coin).isSome) {tx : CTransaction}
    (hvin : tx.vin.map CTxIn.prevout =
      (env.order setCoins).map fun coin => (inputOf coin).prevout) :
    SpendsWallet w tx ∧ sumIn w tx = ∑ coin ∈ setCoins, valueOf w coin := by
  have hkey : ∀ coin ∈ env.order setCoins,
      ((inputOf coin).prevout.hash, (inputOf coin).prevout.n.toNat) = coin := by
    intro coin hcoin
    have hsome := houtputs coin ((env.mem_order _ _).mp hcoin)
    have hindex : coin.2 < 2 ^ 32 - 1 := by
      rw [walletOutput] at hsome
      split at hsome
      · cases hsome
      · rename_i wtx hlookup
        have hlen : wtx.tx.vout.length < 2 ^ 32 - 1 := hw _ (AList.mem_lookup_iff.mp hlookup)
        have hlt := (List.getElem?_eq_some_iff.mp (Option.isSome_iff_exists.mp hsome).choose_spec).1
        omega
    exact Prod.ext rfl (toNat_index hindex)
  have hkeys : (tx.vin.map CTxIn.prevout).map (fun o => (o.hash, o.n.toNat)) =
      env.order setCoins := by
    rw [hvin, List.map_map]
    exact (List.map_congr_left hkey).trans (List.map_id _)
  refine ⟨⟨List.Nodup.of_map (fun o : COutPoint => (o.hash, o.n.toNat)) ?_, fun txin htxin => ?_⟩,
    ?_⟩
  · rw [hkeys]
    exact env.order_nodup setCoins
  · refine houtputs _ ((env.mem_order _ _).mp ?_)
    rw [← hkeys, List.map_map]
    exact List.mem_map_of_mem htxin
  · have hset : (env.order setCoins).toFinset = setCoins := by
      ext coin
      rw [List.mem_toFinset, env.mem_order]
    have hsum : sumIn w tx = ((env.order setCoins).map (valueOf w)).sum := by
      rw [← hkeys, List.map_map, List.map_map]
      rfl
    rw [hsum, ← List.sum_toFinset _ (env.order_nodup setCoins), hset]

theorem received_of_unmarked (h : List.Forall₂ Receives vecSend vout)
    (hcount : countSubtract vecSend = 0) : received vecSend vout = requested vecSend := by
  induction h with
  | nil => rfl
  | @cons r o vecSend vout hr h ih =>
    rw [countSubtract_cons] at hcount
    rw [received_cons, requested_cons, ih (by omega)]
    by_cases hm : r.fSubtractFeeFromAmount = true
    · rw [if_pos hm] at hcount
      cases hcount
    · rw [if_neg hm, if_neg hm]

/-- The marked recipients pay the fee before there is change. -/
theorem received_payees (hlen : vecSend.length < 2 ^ 32) (hmarked : 0 < countSubtract vecSend)
    (h : 0 < (Int64.ofNat (countSubtract vecSend)).toInt → received vecSend vout =
      requested vecSend -
        nFeeRet.toInt / (Int64.ofNat (countSubtract vecSend)).toInt * countSubtract vecSend -
      if true ∧ 0 < countSubtract vecSend then
        nFeeRet.toInt % (Int64.ofNat (countSubtract vecSend)).toInt else 0) :
    received vecSend vout = requested vecSend - nFeeRet.toInt := by
  have hcount : countSubtract vecSend ≤ vecSend.length := List.countP_le_length
  have hint : (Int64.ofNat (countSubtract vecSend)).toInt = countSubtract vecSend := by
    rw [Int64.toInt_ofNat_of_lt (by omega)]
  rw [hint] at h
  rw [h (by omega), if_pos ⟨rfl, hmarked⟩]
  have hdiv := Int.ediv_mul_add_emod nFeeRet.toInt (countSubtract vecSend)
  omega

theorem buildTurn_cases
    (h : buildTurn env coinControl w vecSend nChangePosRequest nValue turn nFeeRet = .ok built) :
    ∃ vout setCoins nValueIn outputs,
      payees env.fees.minRelayTxFee nFeeRet (Int64.ofNat (countSubtract vecSend)) true vecSend =
        .ok vout ∧
      selectCoins env.toSpendEnv coinControl w turn (availableCoins env.toSpendEnv coinControl w)
        (valueToSelect vecSend nValue nFeeRet) = some (setCoins, nValueIn) ∧
      addChange env coinControl vecSend nChangePosRequest turn nFeeRet
        (nValueIn - valueToSelect vecSend nValue nFeeRet) vout = .ok outputs ∧
      built.tx.vin.map CTxIn.prevout =
        (env.order setCoins).map (fun coin => (inputOf coin).prevout) ∧
      built.tx.vout = outputs.vout ∧ built.nFeeRet = outputs.nFeeRet ∧
      built.nBytes < MAX_STANDARD_TX_SIZE := by
  unfold buildTurn at h
  obtain ⟨vout, hpayees, h⟩ := refusal_bind_eq_ok.mp h
  split at h
  · cases h
  · rename_i setCoins nValueIn hselect
    simp only at h
    by_cases hage : ((env.order setCoins).any fun coin => ageOf env w coin < 0) = true
    · rw [if_pos hage] at h
      cases h
    · rw [if_neg hage] at h
      obtain ⟨outputs, hchange, h⟩ := refusal_bind_eq_ok.mp h
      obtain ⟨vin, hsign, h⟩ := refusal_bind_eq_ok.mp h
      have hvin := signCoins_spec hsign
      by_cases hsize : MAX_STANDARD_TX_SIZE ≤ List.length (CTransaction.serialize
          ⟨1, env.nTime, vin, outputs.vout, env.nLockTime⟩)
      · rw [if_pos hsize] at h
        cases h
      · rw [if_neg hsize] at h
        obtain rfl := Except.ok.inj h
        refine ⟨vout, setCoins, nValueIn, outputs, hpayees, hselect, hchange, ?_, ?_, rfl,
          not_le.mp hsize⟩
        · cases env.sign with
          | true => exact hvin
          | false => exact List.map_map
        · cases env.sign <;> rfl

/-- Nobody pays the fee out of the amount: the amount and the fee are selected. -/
theorem balance_unmarked {I V : ℤ} {nValue nFeeRet nValueIn nFeeOut : CAmount}
    (hI : nValueIn.toInt = I) (hV : nValue.toInt = V) (hI0 : 0 ≤ I) (hV0 : 0 ≤ V)
    (hfee : 0 ≤ nFeeRet.toInt) (hroom : I + MIN_CHANGE.toInt < 2 ^ 63)
    (hreached : (nValue + nFeeRet).toInt + MIN_CHANGE.toInt < 2 ^ 63 →
      (nValue + nFeeRet).toInt ≤ I) {total : ℤ}
    (hcases : ((nValueIn - (nValue + nFeeRet)).toInt ≤ 0 ∧ nFeeOut = nFeeRet ∧ total = V) ∨
      (nFeeOut = nFeeRet + (nValueIn - (nValue + nFeeRet)) ∧ total = V) ∨
      (0 < (nValueIn - (nValue + nFeeRet)).toInt ∧ nFeeOut = nFeeRet ∧
        total = V + (nValueIn - (nValue + nFeeRet)).toInt)) :
    I = total + nFeeOut.toInt ↔ V + nFeeOut.toInt + MIN_CHANGE.toInt < 2 ^ 63 := by
  have hchange : MIN_CHANGE.toInt = 1000000 := by decide
  have hIlt := nValueIn.toInt_lt
  have hVlt := nValue.toInt_lt
  -- without wrapping the coins suffice and the change is exact
  have hexact : V + nFeeRet.toInt + MIN_CHANGE.toInt < 2 ^ 63 →
      (nValueIn - (nValue + nFeeRet)).toInt = I - V - nFeeRet.toInt ∧ V + nFeeRet.toInt ≤ I := by
    intro hlt
    have hadd : (nValue + nFeeRet).toInt = V + nFeeRet.toInt := by
      rw [Int64.toInt_add, hV, Int.bmod_eq_of_le] <;> omega
    have hle := hreached (by omega)
    rw [toInt_sub_of_nonneg (by omega) (by omega), hadd, hI]
    exact ⟨by ring, by omega⟩
  rcases hcases with ⟨hle, rfl, rfl⟩ | ⟨rfl, rfl⟩ | ⟨hpos, rfl, rfl⟩
  · exact ⟨fun h => by omega, fun h => by have := hexact h; omega⟩
  · -- the fee is what the coins are worth beyond the amount, whatever wrapped
    have hdust : nFeeRet + (nValueIn - (nValue + nFeeRet)) = nValueIn - nValue := by grind
    rw [hdust, toInt_sub_of_nonneg (by omega) (by omega), hI, hV]
    exact ⟨fun h => by omega, fun _ => by ring⟩
  · exact ⟨fun h => by omega, fun h => by have := hexact h; omega⟩

theorem buildTurn_spec (hw : Indexable w) (hfunds : Funds env.toSpendEnv coinControl w)
    (hrate : env.fees.minRelayTxFee.Sane) (hlen : vecSend.length < 2 ^ 32)
    (hamounts : ∀ r ∈ vecSend, 0 ≤ r.nAmount.toInt)
    (hvalue : nValue.toInt = (vecSend.map fun r => r.nAmount.toInt).sum) (hfee : 0 ≤ nFeeRet.toInt)
    (h : buildTurn env coinControl w vecSend nChangePosRequest nValue turn nFeeRet = .ok built) :
    built.nBytes < MAX_STANDARD_TX_SIZE ∧ SpendsWallet w built.tx ∧
      (∃ outs change nTopUp, Paid env.fees.minRelayTxFee vecSend built.tx.vout built.nFeeRet.toInt
        outs change nTopUp) ∧
      (sumIn w built.tx = sumOut built.tx.vout + built.nFeeRet.toInt ↔
        toSelect vecSend built.nFeeRet + MIN_CHANGE.toInt < 2 ^ 63) := by
  obtain ⟨vout, setCoins, nValueIn, outputs, hpayees, hselect, hchange, hvin, hvout, hfeeRet,
    hbytes⟩ := buildTurn_cases h
  obtain ⟨hreceives, hnodust, hreceived⟩ := payees_spec hfee hamounts hpayees
  have hselected := selectCoins_spec hfunds hselect
  obtain ⟨hspends, hsumIn⟩ := spendsWallet_of_coins hw hselected.outputs hvin
  have hmarked := fun hm => received_payees hlen hm hreceived
  obtain ⟨hpaid, hcases⟩ := addChange_spec hrate hreceives hnodust hmarked hchange
  rw [← hvout, ← hfeeRet] at hpaid hcases
  refine ⟨hbytes, hspends, hpaid, ?_⟩
  have hV0 : 0 ≤ nValue.toInt := by
    rw [hvalue]
    refine List.sum_nonneg fun v hv => ?_
    obtain ⟨r, hr, rfl⟩ := List.mem_map.mp hv
    exact hamounts r hr
  rw [hsumIn, ← hselected.value, toSelect, ← hvalue]
  have hsumOut := sumOut_of_receives hreceives
  rw [← hvalue] at hsumOut
  have hreached := hselected.reached
  have hroom := hselected.room
  have hnonneg := hselected.nonneg
  by_cases hcount : countSubtract vecSend = 0
  · rw [received_of_unmarked hreceives hcount, sub_add_cancel] at hsumOut
    rw [valueToSelect, if_pos hcount, hsumOut] at hcases
    rw [valueToSelect, if_pos hcount] at hreached
    rw [if_pos hcount]
    exact balance_unmarked rfl rfl hnonneg hV0 hfee hroom hreached
      (hcases.imp_right (Or.imp_left fun h => h.2.2))
  · rw [hmarked (by omega)] at hsumOut
    rw [valueToSelect, if_neg hcount, hsumOut, toInt_sub_of_nonneg hnonneg hV0] at hcases
    rw [valueToSelect, if_neg hcount] at hreached
    rw [if_neg hcount]
    rcases hcases with ⟨hle, hsame, hsum⟩ | ⟨-, h0, -⟩ | ⟨hpos, hsame, hsum⟩
    · rw [hsum, hsame]
      exact ⟨fun h => by omega, fun h => by omega⟩
    · exact absurd h0 hcount
    · rw [hsum, hsame]
      exact ⟨fun h => by omega, fun h => by omega⟩

/-! ## The whole loop -/

theorem nextFee_nonneg (hrate : env.fees.minRelayTxFee.Sane)
    (hbytes : built.nBytes < MAX_STANDARD_TX_SIZE) {nFeeNeeded : CAmount}
    (h : nextFee env coinControl turn built = .ok (some nFeeNeeded)) : 0 ≤ nFeeNeeded.toInt := by
  have hfee := (CFeeRate.getFee_bounds hrate hbytes.le).1
  unfold nextFee at h
  split_ifs at h with hfree hrelay
  · cases Except.ok.inj h
  · cases Except.ok.inj h
  · obtain rfl := Option.some.inj (Except.ok.inj h)
    rw [Int64.not_lt, Int64.le_iff_toInt_le] at hrelay
    omega

/-- The result of the loop is that of some turn with a fee that is not negative. -/
theorem feeLoop_spec (hrate : env.fees.minRelayTxFee.Sane) {turns turn : ℕ}
    (hfee : 0 ≤ nFeeRet.toInt)
    (h : feeLoop env coinControl w vecSend nChangePosRequest nValue turns turn nFeeRet = .ok built) :
    ∃ turn' nFee, 0 ≤ nFee.toInt ∧
      buildTurn env coinControl w vecSend nChangePosRequest nValue turn' nFee = .ok built := by
  induction turns generalizing turn nFeeRet with
  | zero => cases h
  | succ turns ih =>
    rw [feeLoop] at h
    obtain ⟨built', hbuilt, h⟩ := refusal_bind_eq_ok.mp h
    obtain ⟨next, hnext, h⟩ := refusal_bind_eq_ok.mp h
    cases next with
    | none =>
      obtain rfl := Except.ok.inj h
      exact ⟨turn, nFeeRet, hfee, hbuilt⟩
    | some nFeeNeeded =>
      obtain ⟨-, -, -, -, -, -, -, -, -, -, hbytes⟩ := buildTurn_cases hbuilt
      exact ih (nextFee_nonneg hrate hbytes hnext) h

theorem sumAmounts_spec {nStart nValue : CAmount}
    (h : sumAmounts vecSend nStart = .ok nValue) (hnonneg : 0 ≤ nValue.toInt) :
    (∀ r ∈ vecSend, 0 ≤ r.nAmount.toInt) ∧ 0 ≤ nStart.toInt ∧
      nValue.toInt = nStart.toInt + (vecSend.map fun r => r.nAmount.toInt).sum := by
  have hzero : (0 : CAmount).toInt = 0 := rfl
  induction vecSend generalizing nStart with
  | nil =>
    obtain rfl := Except.ok.inj h
    exact ⟨fun r hr => absurd hr List.not_mem_nil, hnonneg, by simp⟩
  | cons r vecSend ih =>
    rw [sumAmounts] at h
    split_ifs at h with hneg
    rw [not_or, Int64.not_lt, Int64.not_lt, Int64.le_iff_toInt_le, Int64.le_iff_toInt_le, hzero]
      at hneg
    obtain ⟨hamounts, hnext, hsum⟩ := ih h
    refine ⟨List.forall_mem_cons.mpr ⟨hneg.2, hamounts⟩, hneg.1, ?_⟩
    rw [hsum, toInt_add_of_nonneg hneg.1 hneg.2 hnext, List.map_cons, List.sum_cons]
    ring

/-- What a payment has to satisfy: its inputs are different outputs of the wallet, it balances, and
the recipients receive what they are due. -/
structure PaymentOf (env : CreateEnv) (w : CWallet) (vecSend : List CRecipient) (built : Built) :
    Prop where
  spends : SpendsWallet w built.tx
  balance : sumIn w built.tx = sumOut built.tx.vout + built.nFeeRet.toInt
  paid : ∃ outs change nTopUp, Paid env.fees.minRelayTxFee vecSend built.tx.vout
    built.nFeeRet.toInt outs change nTopUp

/-- A wallet with one transaction in the block with hash 5, with one output of three coins. -/
def threeCoins : CWallet where
  mapWallet := AList.singleton 1 ⟨⟨1, 100, [⟨⟨7, 0⟩, [], 0⟩], [⟨3 * COIN, [OP_1]⟩], 0⟩, 5, 0, none⟩
  mapTxSpends := Multimap.empty

noncomputable def threeCoinsEnv : CreateEnv where
  p := regTestParams
  node := ⟨100, fun hash => if hash = 5 then some 1 else none, fun _ => false⟩
  isTrusted := fun _ _ => true
  isMine := fun _ => .spendable
  isLockedCoin := fun _ => false
  isFromMe := fun _ => false
  chainLength := fun _ => none
  bSpendZeroConfChange := true
  fRejectLongChains := false
  nMaxChainLength := 25
  choices := fun _ _ => inOrder
  fees := ⟨⟨0⟩, ⟨0⟩, ⟨20000⟩, ⟨1000⟩, ⟨1000⟩, COIN⟩
  nTime := 200
  nLockTime := 100
  sign := true
  fSendFreeTransactions := false
  freePriority := fun _ => false
  randPosition := fun _ => 0
  reservedScript := fun _ => some [OP_1]
  produceSignature := fun _ _ _ => some []
  withinChainLimits := fun _ => true
  order := fun setCoins =>
    if setCoins = ∅ then [] else if setCoins = {(1, 0)} then [(1, 0)] else setCoins.toList
  order_nodup := fun setCoins => by
    split_ifs
    · exact List.nodup_nil
    · exact List.nodup_singleton _
    · exact setCoins.nodup_toList
  mem_order := fun setCoins coin => by
    split_ifs with h0 h1
    · simp [h0]
    · simp [h1]
    · exact Finset.mem_toList

/-- Coin control that asks for a fee only. -/
def feeOf (nMinimumTotalFee : CAmount) : CCoinControl :=
  ⟨[], List.nodup_nil, none, false, false, nMinimumTotalFee, false, ⟨0⟩⟩

/-- One coin is sent and the rest is change. -/
def oneCoin : List CRecipient := [⟨[OP_1], COIN, false⟩]

def oneCoinSent : Built :=
  ⟨⟨1, 200, [⟨⟨1, 0⟩, [], 0xfffffffe⟩], [⟨2 * COIN - 10000, [OP_1]⟩, ⟨COIN, [OP_1]⟩], 100⟩, 10000,
    0, 75⟩

/-- What is created if coin control asks for the largest fee. -/
def fromNothing : Built :=
  ⟨⟨1, 200, [], [⟨9223372036754775809, [OP_1]⟩, ⟨COIN, [OP_1]⟩], 100⟩, MAX_MONEY, 0, 34⟩

end

end Wallet

end X2XCoin
