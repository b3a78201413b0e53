import X2XCoin.Wallet.CreateTransaction

/-!
# Standard transactions

`IsStandard` and `IsStandardTx` of `policy.cpp`, with the reason of a rejection.
-/

open ByteCodec

namespace X2XCoin

def MAX_STANDARD_TX_SIZE : ℕ := 100000

/-- `CTransaction::MAX_STANDARD_VERSION`. -/
def MAX_STANDARD_VERSION : Int32 := 2

/-- The settings that the tests read. -/
structure StandardPolicy where
  fAcceptDatacarrier : Bool
  nMaxDatacarrierBytes : ℕ
  fIsBareMultisigStd : Bool
  minRelayTxFee : Wallet.CFeeRate

/-- A push that has a shorter form. -/
def hasShorterPush (opcode : UInt8) (data : Bytes) : Bool :=
  opcode ≤ OP_16 &&
    ((opcode < OP_PUSHDATA1 && OP_0 < opcode && data.length = 1 && data.all (· ≤ 16)) ||
      (opcode = OP_PUSHDATA1 && data.length < OP_PUSHDATA1.toNat) ||
      (opcode = OP_PUSHDATA2 && data.length ≤ 0xff) ||
      (opcode = OP_PUSHDATA4 && data.length ≤ 0xffff))

def CScript.hasCanonicalPushes (s : CScript) : Bool :=
  s.ops.2 && s.ops.1.all fun (opcode, data) => !hasShorterPush opcode data

namespace StandardPolicy

variable (policy : StandardPolicy)

/-- `IsStandard`, with the type that it finds. -/
def isStandard (scriptPubKey : CScript) : Option TxnOutType :=
  match solver scriptPubKey with
  | none => none
  | some (whichType, vSolutions) =>
    if whichType = .multisig then
      let m := (vSolutions.head?.bind List.head?).getD 0
      let n := (vSolutions.getLast?.bind List.head?).getD 0
      if n < 1 ∨ n > 3 then none else if m < 1 ∨ m > n then none else some whichType
    else if whichType = .nullData ∧
        (!policy.fAcceptDatacarrier ∨ scriptPubKey.length > policy.nMaxDatacarrierBytes) then none
    else if whichType ≠ .nonstandard then some whichType else none

/-- The tests on an output, which may be data. -/
def checkOutput (txout : CTxOut) : Except String TxnOutType :=
  match policy.isStandard txout.scriptPubKey with
  | none => .error "scriptpubkey"
  | some whichType =>
    if whichType ≠ .nullData ∧ txout.isDust policy.minRelayTxFee then .error "dust"
    else if !CScript.hasCanonicalPushes txout.scriptPubKey then
      .error "scriptpubkey-non-canonical-push"
    else if whichType = .multisig ∧ !policy.fIsBareMultisigStd then .error "bare-multisig"
    else if txout.isDust policy.minRelayTxFee then .error "dust"
    else .ok whichType

/-- The loop over the outputs, with the number of data outputs so far. -/
def checkOutputs : List CTxOut → ℕ → Except String ℕ
  | [], nDataOut => .ok nDataOut
  | txout :: vout, nDataOut =>
    match policy.checkOutput txout with
    | .error reason => .error reason
    | .ok whichType => checkOutputs vout (if whichType = .nullData then nDataOut + 1 else nDataOut)

/-- The tests on the inputs. -/
def checkInputs : List CTxIn → Except String Unit
  | [] => .ok ()
  | txin :: vin =>
    if txin.scriptSig.length > 1650 then .error "scriptsig-size"
    else if !CScript.isPushOnly txin.scriptSig then .error "scriptsig-not-pushonly"
    else checkInputs vin

def isStandardTx (tx : CTransaction) : Except String Unit :=
  if tx.nVersion > MAX_STANDARD_VERSION ∨ tx.nVersion < 1 then .error "version"
  else if tx.serialize.length ≥ MAX_STANDARD_TX_SIZE then .error "tx-size"
  else do
    checkInputs tx.vin
    let nDataOut ← policy.checkOutputs tx.vout 0
    if nDataOut > 1 ∧ nDataOut > tx.vout.length / 2 then .error "multi-op-return" else .ok ()

/-! ## Dust -/

variable {policy : StandardPolicy}

theorem checkOutput_ne_dust {txout : CTxOut} (h : txout.isDust policy.minRelayTxFee = false) :
    policy.checkOutput txout ≠ .error "dust" := by
  unfold checkOutput
  cases policy.isStandard txout.scriptPubKey with
  | none => simp
  | some whichType =>
    simp only [h]
    split_ifs <;> simp_all

theorem checkOutputs_ne_dust {vout : List CTxOut}
    (h : ∀ txout ∈ vout, txout.isDust policy.minRelayTxFee = false) (nDataOut : ℕ) :
    policy.checkOutputs vout nDataOut ≠ .error "dust" := by
  induction vout generalizing nDataOut with
  | nil => simp [checkOutputs]
  | cons txout vout ih =>
    rw [List.forall_mem_cons] at h
    rw [checkOutputs]
    cases hout : policy.checkOutput txout with
    | error reason =>
      rintro ⟨⟩
      exact checkOutput_ne_dust h.1 hout
    | ok whichType => exact ih h.2 _

theorem checkInputs_ne_dust (vin : List CTxIn) : checkInputs vin ≠ .error "dust" := by
  induction vin with
  | nil => simp [checkInputs]
  | cons txin vin ih =>
    rw [checkInputs]
    split_ifs
    · simp
    · simp
    · exact ih

theorem isStandardTx_ne_dust {tx : CTransaction}
    (h : ∀ txout ∈ tx.vout, txout.isDust policy.minRelayTxFee = false) :
    policy.isStandardTx tx ≠ .error "dust" := by
  unfold isStandardTx
  split_ifs
  · simp
  · simp
  · cases hin : checkInputs tx.vin with
    | error reason =>
      rintro ⟨⟩
      exact checkInputs_ne_dust tx.vin hin
    | ok _ =>
      cases hout : policy.checkOutputs tx.vout 0 with
      | error reason =>
        rintro ⟨⟩
        exact checkOutputs_ne_dust h 0 hout
      | ok nDataOut =>
        change (if nDataOut > 1 ∧ nDataOut > tx.vout.length / 2 then Except.error "multi-op-return"
          else Except.ok ()) ≠ Except.error "dust"
        split_ifs <;> simp

end StandardPolicy

end X2XCoin
