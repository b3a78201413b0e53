import Mathlib.Data.List.TakeWhile
import X2XCoin.Script.SignatureHash

/-!
# Transactions of the Java wallet

`Transaction.java`, `CompactSize.java`, `HexUtils.java` and the message that
`TransactionSigner.signatureHash` hashes.  A `byte[]` has fewer than `2 ^ 31` bytes, as a `List` has
elements.  The node's transaction of a Java one is what a node reads with the hashes parsed by
`uint256S`.
-/

open ByteCodec

namespace X2XCoin

namespace JavaWallet

/-! ## Bytes -/

/-- The byte `(value >> n) & 0xFF`. -/
def shiftedByte {w : ℕ} (value : BitVec w) (n : ℕ) : UInt8 :=
  ⟨(value.sshiftRight n &&& 0xff#w).setWidth 8⟩

def writeInt32 (value : Int32) : Bytes := [0, 8, 16, 24].map (shiftedByte value.toBitVec)

def writeUint32 (value : Int64) : Bytes := [0, 8, 16, 24].map (shiftedByte value.toBitVec)

def writeInt64 (value : Int64) : Bytes :=
  (List.range 8).map fun i => shiftedByte value.toBitVec (8 * i)

def encodeCompactSize (value : Int64) : Option Bytes :=
  let shifted := fun n => shiftedByte value.toBitVec n
  if value < 0 then none
  else if value < 0xfd then some [shifted 0]
  else if value ≤ 0xffff then some (0xfd :: [0, 8].map shifted)
  else if value ≤ 0xffffffff then some (0xfe :: [0, 8, 16, 24].map shifted)
  else some (0xff :: [0, 8, 16, 24, 32, 40, 48, 56].map shifted)

/-- `Character.digit(c, 16)` of an ASCII character. -/
def hexDigit (c : Char) : Option ℕ :=
  if '0' ≤ c ∧ c ≤ '9' then some (c.toNat - '0'.toNat)
  else if 'a' ≤ c ∧ c ≤ 'f' then some (c.toNat - 'a'.toNat + 10)
  else if 'A' ≤ c ∧ c ≤ 'F' then some (c.toNat - 'A'.toNat + 10)
  else none

/-- `Integer.parseInt(hex, 16)` of two characters, the first of which may be a sign. -/
def parseHexByte (c d : Char) : Option ℤ :=
  if c = '-' then (hexDigit d).map fun n => -(n : ℤ)
  else if c = '+' then (hexDigit d).map fun n => (n : ℤ)
  else do
    let m ← hexDigit c
    let n ← hexDigit d
    pure (16 * m + n : ℕ)

/-- `HexUtils.fromHex`. -/
def fromHex : List Char → Option Bytes
  | [] => some []
  | [_] => none
  | c :: d :: hex => do
    let value ← parseHexByte c d
    let out ← fromHex hex
    pure (⟨BitVec.ofInt 8 value⟩ :: out)

/-! ## Transactions -/

structure OutPoint where
  txid : String
  index : Int32

structure TxInput where
  outPoint : OutPoint
  scriptSig : Bytes
  sequence : Int64
  length_lt : scriptSig.length < 2 ^ 31

structure TxOutput where
  amount : Int64
  scriptPubKey : Bytes
  length_lt : scriptPubKey.length < 2 ^ 31

structure Transaction where
  version : Int32
  time : Int64
  inputs : List TxInput
  outputs : List TxOutput
  lockTime : Int64
  inputs_lt : inputs.length < 2 ^ 31
  outputs_lt : outputs.length < 2 ^ 31

def writeVarBytes (data : Bytes) : Option Bytes := do
  let size ← encodeCompactSize (Int64.ofNat data.length)
  pure (size ++ data)

def TxInput.serialize (input : TxInput) : Option Bytes := do
  let txid ← fromHex input.outPoint.txid.toList
  let script ← writeVarBytes input.scriptSig
  pure (txid.reverse ++ writeUint32 input.outPoint.index.toInt64 ++ script ++
    writeUint32 input.sequence)

def TxOutput.serialize (output : TxOutput) : Option Bytes := do
  let script ← writeVarBytes output.scriptPubKey
  pure (writeInt64 output.amount ++ script)

namespace Transaction

def serialize (t : Transaction) : Option Bytes := do
  let inputCount ← encodeCompactSize (Int64.ofNat t.inputs.length)
  let inputs ← t.inputs.mapM TxInput.serialize
  let outputCount ← encodeCompactSize (Int64.ofNat t.outputs.length)
  let outputs ← t.outputs.mapM TxOutput.serialize
  pure (writeInt32 t.version ++ writeUint32 t.time ++ inputCount ++ inputs.flatten ++ outputCount ++
    outputs.flatten ++ writeUint32 t.lockTime)

theorem length_nil_lt : ([] : Bytes).length < 2 ^ 31 := by decide

def copyWithInputScript (source : Transaction) (inputIndex : ℕ) (scriptCode : Bytes)
    (h : scriptCode.length < 2 ^ 31) : Transaction :=
  { source with
    inputs := source.inputs.mapIdx fun i current =>
      if i = inputIndex then ⟨current.outPoint, scriptCode, current.sequence, h⟩
      else ⟨current.outPoint, [], current.sequence, length_nil_lt⟩
    inputs_lt := by rw [List.length_mapIdx]; exact source.inputs_lt }

end Transaction

/-- `AddressCodec.p2pkhScript`. -/
def p2pkhScript (hash160 : Bytes) : Bytes := [0x76, 0xa9, 0x14] ++ hash160 ++ [0x88, 0xac]

/-- The bytes that `TransactionSigner.signatureHash` hashes. -/
def signatureMessage (transaction : Transaction) (inputIndex : ℕ) (scriptCode : Bytes)
    (h : scriptCode.length < 2 ^ 31) : Option Bytes := do
  let out ← (transaction.copyWithInputScript inputIndex scriptCode h).serialize
  pure (out ++ [1, 0, 0, 0])

/-! ## The node's transaction -/

/-- The number that hexadecimal digits stand for. -/
def hexNat (digits : List Char) : ℕ := digits.foldl (fun n c => 16 * n + (hexDigit c).getD 0) 0

/-- `base_blob<256>::SetHex`: spaces, `0x` and then the hexadecimal digits, of which the last 64
count. -/
def setHex (psz : List Char) : Uint256 :=
  let psz := psz.dropWhile fun c => c = ' ' ∨ 9 ≤ c.toNat ∧ c.toNat ≤ 13
  let psz := match psz with
    | '0' :: 'x' :: rest => rest
    | '0' :: 'X' :: rest => rest
    | _ => psz
  BitVec.ofNat 256 (hexNat (psz.takeWhile fun c => (hexDigit c).isSome))

/-- Text of 32 bytes in hexadecimal. -/
def IsTxid (txid : String) : Prop :=
  txid.toList.length = 64 ∧ ∀ c ∈ txid.toList, (hexDigit c).isSome

namespace Transaction

def toNode (t : Transaction) : CTransaction where
  nVersion := t.version
  nTime := t.time.toUInt64.toUInt32
  vin := t.inputs.map fun i =>
    ⟨⟨setHex i.outPoint.txid.toList, i.outPoint.index.toUInt32⟩, i.scriptSig, i.sequence.toUInt64.toUInt32⟩
  vout := t.outputs.map fun o => ⟨o.amount, o.scriptPubKey⟩
  nLockTime := t.lockTime.toUInt64.toUInt32

end Transaction

/-! ## The same bytes -/

theorem leBytes_mod (k n : ℕ) : leBytes k (n % 256 ^ k) = leBytes k n := by
  induction k generalizing n with
  | zero => rfl
  | succ k ih =>
    have hlow : UInt8.ofNat (n % 256 ^ (k + 1)) = UInt8.ofNat n := by
      apply UInt8.toNat_inj.mp
      rw [UInt8.toNat_ofNat', UInt8.toNat_ofNat']
      exact Nat.mod_mod_of_dvd n (Dvd.intro_left (256 ^ k) rfl)
    have hhigh : n % 256 ^ (k + 1) / 256 = n / 256 % 256 ^ k := by
      rw [Nat.pow_succ, Nat.mul_comm, Nat.mod_mul_right_div_self]
    rw [leBytes, leBytes, hlow, hhigh, ih]

theorem shiftedByte_eq {w : ℕ} (value : BitVec w) {n : ℕ} (h : n + 8 ≤ w) :
    shiftedByte value n = UInt8.ofNat (value.toNat / 2 ^ n) := by
  apply UInt8.toBitVec_inj.mp
  refine BitVec.eq_of_getLsbD_eq fun i hi => ?_
  have hin : n + i < w := by omega
  have hmask : (0xff#w).getLsbD i = true := by
    rw [BitVec.getLsbD_ofNat]
    have : (255).testBit i = true := by
      interval_cases i <;> decide
    simp [this, show i < w by omega]
  have hofNat : (UInt8.ofNat (value.toNat / 2 ^ n)).toBitVec = BitVec.ofNat 8 (value.toNat / 2 ^ n) := rfl
  rw [hofNat, shiftedByte, BitVec.getLsbD_setWidth, BitVec.getLsbD_and, BitVec.getLsbD_sshiftRight, hmask,
    BitVec.getLsbD_ofNat, Nat.testBit_div_two_pow]
  simp [hi, hin, show ¬ w ≤ i by omega, BitVec.getLsbD, Nat.add_comm]

theorem map_shiftedByte {w : ℕ} (value : BitVec w) (k : ℕ) (h : 8 * k ≤ w) :
    ((List.range k).map fun i => shiftedByte value (8 * i)) = leBytes k value.toNat := by
  have hle : ∀ n k, leBytes k n = (List.range k).map fun i => UInt8.ofNat (n / 256 ^ i) := by
    intro n k
    induction k generalizing n with
    | zero => rfl
    | succ k ih =>
      rw [leBytes, ih, List.range_succ_eq_map, List.map_cons, List.map_map, pow_zero, Nat.div_one]
      congr 2
      funext i
      rw [Function.comp_apply, Nat.pow_succ', Nat.div_div_eq_div_mul]
  rw [hle]
  refine List.map_congr_left fun i hi => ?_
  rw [List.mem_range] at hi
  rw [shiftedByte_eq value (by omega), pow_mul]
  rfl

theorem writeInt32_eq (value : Int32) : writeInt32 value = leBytes 4 value.toUInt32.toNat :=
  map_shiftedByte value.toBitVec 4 (by decide)

theorem writeUint32_eq (value : Int64) :
    writeUint32 value = leBytes 4 value.toUInt64.toUInt32.toNat := by
  rw [UInt64.toNat_toUInt32, show (2 : ℕ) ^ 32 = 256 ^ 4 by decide, leBytes_mod]
  exact map_shiftedByte value.toBitVec 4 (by decide)

theorem writeInt64_eq (value : Int64) : writeInt64 value = leBytes 8 value.toUInt64.toNat :=
  map_shiftedByte value.toBitVec 8 (by decide)

theorem writeUint32_toInt64 (value : Int32) :
    writeUint32 value.toInt64 = leBytes 4 value.toUInt32.toNat := by
  rw [writeUint32_eq]
  congr 2
  apply UInt32.toBitVec_inj.mp
  refine BitVec.eq_of_getLsbD_eq fun i hi => ?_
  show ((value.toBitVec.signExtend 64).setWidth 32).getLsbD i = value.toBitVec.getLsbD i
  rw [BitVec.getLsbD_setWidth, BitVec.getLsbD_signExtend]
  simp [hi, show i < 64 by omega]

theorem encodeCompactSize_eq {n : ℕ} (h : n < 2 ^ 31) :
    encodeCompactSize (Int64.ofNat n) = some (writeCompactSize n) := by
  have hint : (Int64.ofNat n).toInt = n := Int64.toInt_ofNat_of_lt (by omega)
  have hnat : (Int64.ofNat n).toBitVec.toNat = n := by
    show (BitVec.ofNat 64 n).toNat = n
    rw [BitVec.toNat_ofNat, Nat.mod_eq_of_lt (by omega)]
  have hbytes : ∀ k, 8 * k ≤ 64 → ((List.range k).map fun i =>
      shiftedByte (Int64.ofNat n).toBitVec (8 * i)) = leBytes k n := by
    intro k hk
    rw [map_shiftedByte _ k hk, hnat]
  have h1 := hbytes 1 (by decide)
  have h2 := hbytes 2 (by decide)
  have h4 := hbytes 4 (by decide)
  have hneg : ¬ Int64.ofNat n < 0 := by
    rw [Int64.lt_iff_toInt_lt, hint]
    exact not_lt.mpr (Int.natCast_nonneg n)
  have hfd : Int64.ofNat n < 0xfd ↔ n < 253 := by
    rw [Int64.lt_iff_toInt_lt, hint]
    exact Int.ofNat_lt
  have hffff : Int64.ofNat n ≤ 0xffff ↔ n ≤ 0xffff := by
    rw [Int64.le_iff_toInt_le, hint]
    exact Int.ofNat_le
  have hmax : Int64.ofNat n ≤ 0xffffffff := by
    rw [Int64.le_iff_toInt_le, hint]
    exact Int.ofNat_le.mpr (by omega : n ≤ 0xffffffff)
  rw [encodeCompactSize, if_neg hneg, writeCompactSize]
  simp only [hfd, hffff, if_pos hmax, if_pos (show n ≤ 0xffffffff by omega)]
  split_ifs
  · exact congrArg some h1
  · exact congrArg (fun b => some (0xfd :: b)) h2
  · exact congrArg (fun b => some (0xfe :: b)) h4

theorem writeVarBytes_eq {data : Bytes} (h : data.length < 2 ^ 31) :
    writeVarBytes data = some (writeBytes data) := by
  rw [writeVarBytes, encodeCompactSize_eq h]
  rfl

theorem hexNat_cons (c : Char) (digits : List Char) :
    hexNat (c :: digits) = (hexDigit c).getD 0 * 16 ^ digits.length + hexNat digits := by
  have hfold : ∀ (digits : List Char) (n : ℕ),
      digits.foldl (fun n c => 16 * n + (hexDigit c).getD 0) n =
        n * 16 ^ digits.length + hexNat digits := by
    intro digits
    induction digits with
    | nil => simp [hexNat]
    | cons c digits ih =>
      intro n
      rw [hexNat, List.foldl_cons, List.foldl_cons, ih, ih, List.length_cons, pow_succ]
      ring
  rw [hexNat, List.foldl_cons, hfold, mul_zero, zero_add]

theorem hexDigit_lt {c : Char} {n : ℕ} (h : hexDigit c = some n) : n < 16 := by
  unfold hexDigit at h
  split_ifs at h with h1 h2 h3
  · have : c.toNat ≤ '9'.toNat := h1.2
    have h9 : '9'.toNat = 57 := rfl
    have h0 : '0'.toNat = 48 := rfl
    obtain rfl := Option.some.inj h
    omega
  · have : c.toNat ≤ 'f'.toNat := h2.2
    have hf : 'f'.toNat = 102 := rfl
    have ha : 'a'.toNat = 97 := rfl
    obtain rfl := Option.some.inj h
    omega
  · have : c.toNat ≤ 'F'.toNat := h3.2
    have hf : 'F'.toNat = 70 := rfl
    have ha : 'A'.toNat = 65 := rfl
    obtain rfl := Option.some.inj h
    omega

theorem hexNat_lt (digits : List Char) : hexNat digits < 16 ^ digits.length := by
  induction digits with
  | nil => decide
  | cons c digits ih =>
    have hc : (hexDigit c).getD 0 ≤ 15 := by
      cases h : hexDigit c with
      | none => decide
      | some n => exact Nat.le_of_lt_succ (hexDigit_lt h)
    have hmul := Nat.mul_le_mul_right (16 ^ digits.length) hc
    rw [hexNat_cons, List.length_cons, pow_succ]
    omega

theorem leBytes_append (k n b : ℕ) (h : n < 256 ^ k) :
    leBytes (k + 1) (b * 256 ^ k + n) = leBytes k n ++ [UInt8.ofNat b] := by
  induction k generalizing n with
  | zero =>
    obtain rfl : n = 0 := by omega
    simp [leBytes]
  | succ k ih =>
    have hdiv : (b * 256 ^ (k + 1) + n) / 256 = b * 256 ^ k + n / 256 := by
      rw [pow_succ, ← mul_assoc, Nat.add_comm, Nat.add_mul_div_right _ _ (by decide), Nat.add_comm]
    have hbyte : UInt8.ofNat (b * 256 ^ (k + 1) + n) = UInt8.ofNat n := by
      apply UInt8.toNat_inj.mp
      rw [UInt8.toNat_ofNat', UInt8.toNat_ofNat', pow_succ, ← mul_assoc, Nat.add_comm]
      exact Nat.add_mul_mod_self_right ..
    rw [leBytes, hdiv, ih _ (by rw [pow_succ] at h; omega), hbyte, leBytes, List.cons_append]

theorem parseHexByte_eq {c d : Char} {m n : ℕ} (hc : hexDigit c = some m) (hd : hexDigit d = some n) :
    parseHexByte c d = some ((16 * m + n : ℕ) : ℤ) := by
  have hminus : c ≠ '-' := by
    rintro rfl
    cases hc
  have hplus : c ≠ '+' := by
    rintro rfl
    cases hc
  rw [parseHexByte, if_neg hminus, if_neg hplus, hc, hd]
  rfl

/-- The bytes of hexadecimal text in reverse are the number it stands for. -/
theorem fromHex_reverse {digits : List Char} {k : ℕ} (hlen : digits.length = 2 * k)
    (hdigits : ∀ c ∈ digits, (hexDigit c).isSome) :
    ∃ out, fromHex digits = some out ∧ out.reverse = leBytes k (hexNat digits) := by
  induction k generalizing digits with
  | zero =>
    obtain rfl := List.eq_nil_of_length_eq_zero hlen
    exact ⟨[], rfl, rfl⟩
  | succ k ih =>
    match digits, hlen, hdigits with
    | c :: d :: rest, hlen, hdigits =>
      simp only [List.forall_mem_cons] at hdigits
      obtain ⟨hc, hd, hrest⟩ := hdigits
      obtain ⟨m, hm⟩ := Option.isSome_iff_exists.mp hc
      obtain ⟨n, hn⟩ := Option.isSome_iff_exists.mp hd
      have hlen' : rest.length = 2 * k := by
        simp only [List.length_cons] at hlen
        omega
      obtain ⟨out, hout, hrev⟩ := ih hlen' hrest
      refine ⟨⟨BitVec.ofInt 8 ((16 * m + n : ℕ) : ℤ)⟩ :: out, ?_, ?_⟩
      · rw [fromHex, parseHexByte_eq hm hn, hout]
        rfl
      · have hpow : (16 : ℕ) ^ rest.length = 256 ^ k := by
          rw [hlen', pow_mul]
          rfl
        have hlt := hexNat_lt rest
        have hnat : hexNat (c :: d :: rest) = (16 * m + n) * 256 ^ k + hexNat rest := by
          rw [hexNat_cons, hexNat_cons, List.length_cons, hm, hn, pow_succ, hpow, Option.getD_some,
            Option.getD_some]
          ring
        rw [hpow] at hlt
        rw [List.reverse_cons, hrev, hnat, leBytes_append k _ _ hlt]
        rfl

theorem setHex_eq {txid : String} (h : IsTxid txid) :
    setHex txid.toList = BitVec.ofNat 256 (hexNat txid.toList) := by
  obtain ⟨hlen, hdigits⟩ := h
  have hspace : ∀ c : Char, (hexDigit c).isSome → ¬ (c = ' ' ∨ 9 ≤ c.toNat ∧ c.toNat ≤ 13) := by
    rintro c hc (rfl | ⟨-, hle⟩)
    · cases hc
    · unfold hexDigit at hc
      have h0 : '0'.toNat = 48 := rfl
      have ha : 'a'.toNat = 97 := rfl
      have hA : 'A'.toNat = 65 := rfl
      split_ifs at hc with h1 h2 h3
      · have : '0'.toNat ≤ c.toNat := h1.1
        omega
      · have : 'a'.toNat ≤ c.toNat := h2.1
        omega
      · have : 'A'.toNat ≤ c.toNat := h3.1
        omega
      · cases hc
  have hx : (hexDigit 'x').isSome = false ∧ (hexDigit 'X').isSome = false := ⟨rfl, rfl⟩
  have htake : (txid.toList.takeWhile fun c => (hexDigit c).isSome) = txid.toList :=
    List.takeWhile_eq_self_iff.mpr hdigits
  rw [setHex]
  cases hlist : txid.toList with
  | nil =>
    rw [hlist] at hlen
    cases hlen
  | cons c rest =>
    rw [hlist] at hdigits htake
    rw [List.dropWhile_cons_of_neg (by simpa using hspace c (hdigits c List.mem_cons_self))]
    split
    · next heq =>
      have := hdigits 'x' (by rw [heq]; simp)
      rw [hx.1] at this
      cases this
    · next heq =>
      have := hdigits 'X' (by rw [heq]; simp)
      rw [hx.2] at this
      cases this
    · rw [htake]

theorem TxInput.serialize_eq {input : TxInput} (h : IsTxid input.outPoint.txid) :
    input.serialize = some (CTxIn.serialize ⟨⟨setHex input.outPoint.txid.toList,
      input.outPoint.index.toUInt32⟩, input.scriptSig, input.sequence.toUInt64.toUInt32⟩) := by
  obtain ⟨out, hout, hrev⟩ := fromHex_reverse (k := 32) h.1 h.2
  have hlt := hexNat_lt input.outPoint.txid.toList
  rw [h.1, show (16 : ℕ) ^ 64 = 2 ^ 256 by decide] at hlt
  rw [TxInput.serialize, hout, writeVarBytes_eq input.length_lt]
  simp only [Option.bind_eq_bind, Option.bind_some, Option.pure_def, hrev, CTxIn.serialize,
    COutPoint.serialize, writeUint256, setHex_eq h, BitVec.toNat_ofNat, Nat.mod_eq_of_lt hlt,
    writeUint32_toInt64]
  rw [writeUint32_eq]

theorem TxOutput.serialize_eq (output : TxOutput) :
    output.serialize = some (CTxOut.serialize ⟨output.amount, output.scriptPubKey⟩) := by
  rw [TxOutput.serialize, writeVarBytes_eq output.length_lt, writeInt64_eq]
  rfl

theorem mapM_eq_some_map {α β : Type} {f : α → Option β} {g : α → β} {l : List α}
    (h : ∀ a ∈ l, f a = some (g a)) : l.mapM f = some (l.map g) := by
  induction l with
  | nil => rfl
  | cons a l ih =>
    rw [List.forall_mem_cons] at h
    rw [List.mapM_cons, h.1, ih h.2]
    rfl

namespace Transaction

variable {t : Transaction}

theorem serialize_toNode (h : ∀ i ∈ t.inputs, IsTxid i.outPoint.txid) :
    t.serialize = some t.toNode.serialize := by
  have hin := mapM_eq_some_map fun i hi => TxInput.serialize_eq (h i hi)
  have hout := mapM_eq_some_map (l := t.outputs) fun o _ => TxOutput.serialize_eq o
  rw [serialize, encodeCompactSize_eq t.inputs_lt, encodeCompactSize_eq t.outputs_lt, hin, hout]
  simp only [Option.bind_eq_bind, Option.bind_some, Option.pure_def, CTransaction.serialize, toNode,
    writeVector, List.length_map, writeInt32_eq, writeUint32_eq, List.append_assoc, List.flatMap_def,
    List.map_map, Function.comp_def]

theorem toNode_copyWithInputScript {inputIndex : ℕ} {scriptCode : Bytes}
    (h : scriptCode.length < 2 ^ 31) : (t.copyWithInputScript inputIndex scriptCode h).toNode =
      t.toNode.withScript inputIndex scriptCode := by
  simp only [toNode, CTransaction.withScript, copyWithInputScript, CTransaction.mk.injEq, true_and,
    and_true]
  refine List.ext_getElem? fun i => ?_
  simp only [List.getElem?_map, List.getElem?_mapIdx, Option.map_map]
  congr 1
  funext input
  simp only [Function.comp_apply]
  split_ifs <;> rfl

theorem isTxid_copyWithInputScript (h : ∀ i ∈ t.inputs, IsTxid i.outPoint.txid) {inputIndex : ℕ}
    {scriptCode : Bytes} (hcode : scriptCode.length < 2 ^ 31) :
    ∀ i ∈ (t.copyWithInputScript inputIndex scriptCode hcode).inputs, IsTxid i.outPoint.txid := by
  intro i hi
  obtain ⟨k, hk, rfl⟩ := List.mem_mapIdx.mp hi
  have hmem := h _ (List.getElem_mem hk)
  split_ifs <;> exact hmem

end Transaction

theorem length_p2pkhScript {hash160 : Bytes} (h : hash160.length = 20) :
    (p2pkhScript hash160).length < 2 ^ 31 := by
  simp [p2pkhScript, h]

/-- What the wallet writes and signs is what the node reads and verifies. -/
theorem Transaction.signs_what_node_verifies (t : Transaction)
    (h : ∀ i ∈ t.inputs, IsTxid i.outPoint.txid) :
    t.serialize = some t.toNode.serialize ∧
      ∀ n < t.inputs.length, ∀ (hash160 : Bytes) (hlen : hash160.length = 20),
        signatureMessage t n (p2pkhScript hash160) (length_p2pkhScript hlen) =
          X2XCoin.signatureMessage (CScript.payToPubKeyHash hash160) t.toNode n SIGHASH_ALL := by
  refine ⟨serialize_toNode h, fun n hn hash160 hlen => ?_⟩
  have hscript : CScript.payToPubKeyHash hash160 = p2pkhScript hash160 := by
    rw [CScript.payToPubKeyHash, hlen]
    rfl
  have hcode := CScript.serializeScriptCode_payToPubKeyHash hlen
  have hin := t.inputs_lt
  have hout := t.outputs_lt
  rw [signatureMessage, serialize_toNode (isTxid_copyWithInputScript h _), toNode_copyWithInputScript,
    signatureMessage_all hcode (by rwa [toNode, List.length_map])
      (by rw [toNode, List.length_map]; omega) (by rw [toNode, List.length_map]; omega), hscript]
  rfl

/-- A payment of one output to two. -/
def samplePayment : Transaction where
  version := 1
  time := 1769817664
  inputs := [⟨⟨"b8de62389e39c348390738d47516a7e9ef8fad2c904c68694e45841dd318656b", 1⟩, [],
    0xffffffff, by decide⟩]
  outputs := [⟨150000000, p2pkhScript (List.replicate 20 1), by decide⟩,
    ⟨49990000, p2pkhScript (List.replicate 20 2), by decide⟩]
  lockTime := 0
  inputs_lt := by decide
  outputs_lt := by decide

theorem samplePayment_txids : ∀ i ∈ samplePayment.inputs, IsTxid i.outPoint.txid := by
  simp only [samplePayment, List.mem_singleton, forall_eq, IsTxid]
  exact ⟨by decide +kernel, List.all_eq_true.mp (by decide +kernel)⟩

theorem samplePayment_signed :
    samplePayment.serialize = some samplePayment.toNode.serialize ∧
      signatureMessage samplePayment 0 (p2pkhScript (List.replicate 20 3)) (by decide) =
        X2XCoin.signatureMessage (CScript.payToPubKeyHash (List.replicate 20 3)) samplePayment.toNode 0
          SIGHASH_ALL := by
  obtain ⟨hser, hmsg⟩ := Transaction.signs_what_node_verifies samplePayment samplePayment_txids
  exact ⟨hser, hmsg 0 (by decide) (List.replicate 20 3) (by decide)⟩

end JavaWallet

end X2XCoin
