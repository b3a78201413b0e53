import X2XCoin.Script.Script

/-!
# The message that a signature signs

`CTransactionSignatureSerializer` and `SignatureHash` of `script/interpreter.cpp`.
-/

open ByteCodec

namespace X2XCoin

def OP_CODESEPARATOR : UInt8 := 0xab

/-- The hash types; `SIGHASH_ANYONECANPAY` is combined with one of the others. -/
def SIGHASH_ALL : BitVec 32 := 1
def SIGHASH_NONE : BitVec 32 := 2
def SIGHASH_SINGLE : BitVec 32 := 3
def SIGHASH_ANYONECANPAY : BitVec 32 := 0x80

namespace CScript

/-- Where `GetOp` leaves the iterator when it fails: behind the opcode and the operand size. -/
def getOpRest : CScript → CScript
  | [] => []
  | opcode :: s =>
    let k := if opcode = OP_PUSHDATA1 then 1 else if opcode = OP_PUSHDATA2 then 2
      else if opcode = OP_PUSHDATA4 then 4 else 0
    if s.length < k then s else s.drop k

/-- The second loop of `SerializeScriptCode`: the bytes from `itBegin` up to `it`, without the code
separators. -/
def withoutSeparators : ℕ → (itBegin it : CScript) → Bytes
  | 0, itBegin, _ => itBegin
  | fuel + 1, itBegin, it =>
    match getOp it with
    | none => itBegin.take (itBegin.length - (getOpRest it).length)
    | some (opcode, _, rest) =>
      if opcode = OP_CODESEPARATOR then
        itBegin.take (itBegin.length - rest.length - 1) ++ withoutSeparators fuel rest rest
      else withoutSeparators fuel itBegin rest

def serializeScriptCode (scriptCode : CScript) : Bytes :=
  let nCodeSeparators := (scriptCode.ops.1.filter fun o => o.1 = OP_CODESEPARATOR).length
  writeCompactSize (scriptCode.length - nCodeSeparators) ++
    withoutSeparators (scriptCode.length + 1) scriptCode scriptCode

/-! ### Scripts without separators -/

variable {s rest : CScript} {opcode : UInt8} {vch : Bytes}

theorem ops_of_getOp (h : getOp s = some (opcode, vch, rest)) :
    s.ops = ((opcode, vch) :: rest.ops.1, rest.ops.2) := by
  have hlt := getOp_length_lt h
  obtain ⟨b, t, rfl⟩ : ∃ b t, s = b :: t := by
    cases s with
    | nil => cases h
    | cons b t => exact ⟨b, t, rfl⟩
  rw [ops, List.length_cons, opsFuel]
  simp only [h]
  rw [opsFuel_eq_ops (by rw [List.length_cons] at hlt; omega)]

theorem withoutSeparators_eq {fuel : ℕ} {itBegin it : CScript} (hfuel : it.length < fuel)
    (hread : it.ops.2 = true) (hnone : ∀ o ∈ it.ops.1, o.1 ≠ OP_CODESEPARATOR) :
    withoutSeparators fuel itBegin it = itBegin := by
  induction fuel generalizing it with
  | zero => omega
  | succ fuel ih =>
    rw [withoutSeparators]
    cases hop : getOp it with
    | none =>
      cases it with
      | nil => exact List.take_length
      | cons b t =>
        rw [ops, List.length_cons, opsFuel] at hread
        simp only [hop] at hread
        cases hread
    | some o =>
      obtain ⟨opcode, vch, rest⟩ := o
      have hlt := getOp_length_lt hop
      rw [ops_of_getOp hop] at hread hnone
      rw [List.forall_mem_cons] at hnone
      simp only [if_neg hnone.1]
      exact ih (by omega) hread hnone.2

/-- A script that can be read to its end and has no separators is written as it is. -/
theorem serializeScriptCode_eq (hread : s.ops.2 = true)
    (hnone : ∀ o ∈ s.ops.1, o.1 ≠ OP_CODESEPARATOR) : s.serializeScriptCode = writeBytes s := by
  have hcount : s.ops.1.filter (fun o => o.1 = OP_CODESEPARATOR) = [] := by
    rw [List.filter_eq_nil_iff]
    intro o ho
    simpa using hnone o ho
  rw [serializeScriptCode, hcount, withoutSeparators_eq (by omega) hread hnone]
  rfl

theorem getOp_push (hlen : vch.length = opcode.toNat) (hop : opcode < OP_PUSHDATA1) :
    getOp (opcode :: (vch ++ rest)) = some (opcode, vch, rest) := by
  rw [getOp]
  simp only [if_pos hop, takePush, ← hlen]
  simp

theorem getOp_plain (hop : OP_PUSHDATA4 < opcode) : getOp (opcode :: rest) = some (opcode, [], rest) := by
  have hlt : OP_PUSHDATA4.toNat < opcode.toNat := hop
  have h4 : OP_PUSHDATA4.toNat = 0x4e := rfl
  rw [getOp]
  rw [if_neg, if_neg, if_neg, if_neg]
  · rfl
  · rintro rfl
    omega
  · rintro rfl
    exact absurd hlt (by decide)
  · rintro rfl
    exact absurd hlt (by decide)
  · intro h
    have hlt' : opcode.toNat < OP_PUSHDATA1.toNat := h
    have h1 : OP_PUSHDATA1.toNat = 0x4c := rfl
    omega

/-- Pay to a public key hash. -/
def payToPubKeyHash (keyHash : Bytes) : CScript :=
  [OP_DUP, OP_HASH160, UInt8.ofNat keyHash.length] ++ keyHash ++ [OP_EQUALVERIFY, OP_CHECKSIG]

theorem ops_payToPubKeyHash {keyHash : Bytes} (h : keyHash.length = 20) :
    (payToPubKeyHash keyHash).ops = ([(OP_DUP, []), (OP_HASH160, []), (20, keyHash),
      (OP_EQUALVERIFY, []), (OP_CHECKSIG, [])], true) := by
  have hpush : getOp ((20 : UInt8) :: (keyHash ++ [OP_EQUALVERIFY, OP_CHECKSIG])) =
      some (20, keyHash, [OP_EQUALVERIFY, OP_CHECKSIG]) := getOp_push h (by decide)
  rw [payToPubKeyHash, h]
  show ops (OP_DUP :: OP_HASH160 :: (20 : UInt8) :: (keyHash ++ [OP_EQUALVERIFY, OP_CHECKSIG])) = _
  rw [ops_of_getOp (getOp_plain (by decide)), ops_of_getOp (getOp_plain (by decide)),
    ops_of_getOp hpush, ops_of_getOp (getOp_plain (by decide)), ops_of_getOp (getOp_plain (by decide))]
  rfl

theorem serializeScriptCode_payToPubKeyHash {keyHash : Bytes} (h : keyHash.length = 20) :
    (payToPubKeyHash keyHash).serializeScriptCode = writeBytes (payToPubKeyHash keyHash) := by
  apply serializeScriptCode_eq
  · rw [ops_payToPubKeyHash h]
  · rw [ops_payToPubKeyHash h]
    simp [OP_CODESEPARATOR, OP_DUP, OP_HASH160, OP_EQUALVERIFY, OP_CHECKSIG]

end CScript

/-! ## `CTransactionSignatureSerializer` -/

structure SignatureSerializer where
  txTo : CTransaction
  scriptCode : CScript
  nIn : ℕ
  nHashType : BitVec 32

namespace SignatureSerializer

variable (ser : SignatureSerializer)

def fAnyoneCanPay : Bool := ser.nHashType &&& SIGHASH_ANYONECANPAY ≠ 0
def fHashSingle : Bool := ser.nHashType &&& 0x1f = SIGHASH_SINGLE
def fHashNone : Bool := ser.nHashType &&& 0x1f = SIGHASH_NONE

/-- `SerializeInput`; nothing is written for an input that is not there. -/
def serializeInput (nInput : ℕ) : Bytes :=
  let nInput := if ser.fAnyoneCanPay then ser.nIn else nInput
  match ser.txTo.vin[nInput]? with
  | none => []
  | some txin =>
    txin.prevout.serialize ++
      (if nInput ≠ ser.nIn then writeBytes [] else ser.scriptCode.serializeScriptCode) ++
      leBytes 4 (if nInput ≠ ser.nIn && (ser.fHashSingle || ser.fHashNone) then 0
        else txin.nSequence.toNat)

def serializeOutput (nOutput : ℕ) : Bytes :=
  if ser.fHashSingle && nOutput ≠ ser.nIn then CTxOut.null.serialize
  else
    match ser.txTo.vout[nOutput]? with
    | none => []
    | some txout => txout.serialize

/-- `Serialize`; the counts are 32-bit numbers. -/
def serialize : Bytes :=
  let nInputs := (if ser.fAnyoneCanPay then 1 else ser.txTo.vin.length) % 2 ^ 32
  let nOutputs := (if ser.fHashNone then 0 else if ser.fHashSingle then ser.nIn + 1
    else ser.txTo.vout.length) % 2 ^ 32
  leBytes 4 ser.txTo.nVersion.toUInt32.toNat ++ leBytes 4 ser.txTo.nTime.toNat ++
    writeCompactSize nInputs ++ (List.range nInputs).flatMap ser.serializeInput ++
    writeCompactSize nOutputs ++ (List.range nOutputs).flatMap ser.serializeOutput ++
    leBytes 4 ser.txTo.nLockTime.toNat

end SignatureSerializer

/-- The bytes that `SignatureHash` hashes; `none` where it returns `one` without hashing. -/
def signatureMessage (scriptCode : CScript) (txTo : CTransaction) (nIn : ℕ) (nHashType : BitVec 32) :
    Option Bytes :=
  if txTo.vin.length ≤ nIn then none
  else if nHashType &&& 0x1f = SIGHASH_SINGLE ∧ txTo.vout.length ≤ nIn then none
  else
    some ((SignatureSerializer.mk txTo scriptCode nIn nHashType).serialize ++
      leBytes 4 nHashType.toNat)

/-! ## `SIGHASH_ALL` -/

/-- All inputs with only the script of one of them, which is the script code. -/
def CTransaction.withScript (tx : CTransaction) (nIn : ℕ) (scriptCode : CScript) : CTransaction :=
  { tx with vin := tx.vin.mapIdx fun i txin =>
      { txin with scriptSig := if i = nIn then scriptCode else [] } }

variable {scriptCode : CScript} {tx : CTransaction} {nIn : ℕ}

theorem flatMap_range_getElem? {α β : Type} (g : ℕ → α → β) (write : β → Bytes) (l : List α) :
    ((List.range l.length).flatMap fun i =>
      match l[i]? with
      | none => []
      | some a => write (g i a)) = (l.mapIdx g).flatMap write := by
  induction l generalizing g with
  | nil => rfl
  | cons a l ih =>
    rw [List.length_cons, List.range_succ_eq_map, List.flatMap_cons, List.flatMap_map,
      List.mapIdx_cons, List.flatMap_cons, ← ih]
    rfl

/-- Under `SIGHASH_ALL` the message is the transaction with the script code in place of the script of
the input and no other scripts, and the hash type. -/
theorem signatureMessage_all (hscript : scriptCode.serializeScriptCode = writeBytes scriptCode)
    (hn : nIn < tx.vin.length) (hvin : tx.vin.length < 2 ^ 32) (hvout : tx.vout.length < 2 ^ 32) :
    signatureMessage scriptCode tx nIn SIGHASH_ALL =
      some ((tx.withScript nIn scriptCode).serialize ++ [1, 0, 0, 0]) := by
  have hsingle : ¬ (SIGHASH_ALL &&& 0x1f = SIGHASH_SINGLE) := by decide
  rw [signatureMessage, if_neg (by omega), if_neg (fun h => hsingle h.1)]
  have hflags : ∀ ser : SignatureSerializer, ser.nHashType = SIGHASH_ALL →
      ser.fAnyoneCanPay = false ∧ ser.fHashSingle = false ∧ ser.fHashNone = false := by
    intro ser h
    simp only [SignatureSerializer.fAnyoneCanPay, SignatureSerializer.fHashSingle,
      SignatureSerializer.fHashNone, h]
    decide
  obtain ⟨hany, hsing, hnone⟩ := hflags ⟨tx, scriptCode, nIn, SIGHASH_ALL⟩ rfl
  have hin : ((List.range tx.vin.length).flatMap
      (SignatureSerializer.mk tx scriptCode nIn SIGHASH_ALL).serializeInput) =
      (tx.withScript nIn scriptCode).vin.flatMap CTxIn.serialize := by
    rw [CTransaction.withScript, ← flatMap_range_getElem?]
    refine List.flatMap_congr fun i _ => ?_
    simp only [SignatureSerializer.serializeInput, hany, hsing, hnone, Bool.or_self,
      Bool.and_false, Bool.false_eq_true, if_false]
    cases tx.vin[i]? with
    | none => rfl
    | some txin =>
      simp only [CTxIn.serialize]
      by_cases hi : i = nIn
      · rw [if_neg (not_not.mpr hi), if_pos hi, hscript]
      · rw [if_pos hi, if_neg hi]
  have hout : ((List.range tx.vout.length).flatMap
      (SignatureSerializer.mk tx scriptCode nIn SIGHASH_ALL).serializeOutput) =
      tx.vout.flatMap CTxOut.serialize := by
    have hid : tx.vout.mapIdx (fun _ txout => txout) = tx.vout := by
      refine List.ext_getElem? fun i => ?_
      rw [List.getElem?_mapIdx, Option.map_id']
    rw [← hid, List.length_mapIdx, ← flatMap_range_getElem?]
    refine List.flatMap_congr fun i _ => ?_
    simp only [SignatureSerializer.serializeOutput, hsing, Bool.false_and, Bool.false_eq_true, if_false]
    cases tx.vout[i]? <;> rfl
  simp only [SignatureSerializer.serialize, hany, hsing, hnone, Bool.false_eq_true,
    if_false, Nat.mod_eq_of_lt hvin, Nat.mod_eq_of_lt hvout, hin, hout]
  simp only [CTransaction.serialize, writeVector, CTransaction.withScript, List.length_mapIdx,
    List.append_assoc]
  rfl

end X2XCoin
