import Mathlib.Data.Nat.Size
import X2XCoin.JavaWallet.Transaction
import X2XCoin.Node.ProcessBlock

/-!
# Signatures of the Java wallet

`signDer`, `encodeDer` and `unsigned` of `Secp256k1.java` and `buildScriptSig` of
`TransactionSigner.java`, and on the side of the node `CheckMinimalPush` and `IsLowDERSignature` of
`script/interpreter.cpp` with the parser `ecdsa_signature_parse_der_lax` of `pubkey.cpp`.
-/

open ByteCodec

namespace X2XCoin

/-- The order of the group of secp256k1. -/
def secp256k1Order : ℕ := 0xfffffffffffffffffffffffffffffffebaaedce6af48a03bbfd25e8cd0364141

/-- The `k` low bytes of `n`, most significant first. -/
def beBytes (k n : ℕ) : Bytes := (leBytes k n).reverse

/-- The number a big-endian byte string stands for. -/
def beNat (b : Bytes) : ℕ := leNat b.reverse

/-! ## The node's parser -/

namespace DerLax

/-- The length of an integer: one byte, or a long form whose leading zeros do not count. -/
def readLength : Bytes → Option (ℕ × Bytes)
  | [] => none
  | b :: input =>
    if b < 0x80 then some (b.toNat, input)
    else
      let lenbyte := b.toNat - 0x80
      if input.length < lenbyte then none
      else
        let digits := (input.take lenbyte).dropWhile (· = 0)
        if 8 ≤ digits.length then none else some (beNat digits, input.drop lenbyte)

/-- The tag, the length and the bytes of an integer. -/
def readInteger : Bytes → Option (Bytes × Bytes)
  | [] => none
  | tag :: input => do
    if tag ≠ 0x02 then none
    else
      let (len, input) ← readLength input
      if input.length < len then none else some (input.take len, input.drop len)

/-- The tag of the sequence and its length, whose value is not looked at. -/
def readSequence : Bytes → Option Bytes
  | tag :: lenbyte :: input =>
    if tag ≠ 0x30 then none
    else if lenbyte < 0x80 then some input
    else if input.length < lenbyte.toNat - 0x80 then none
    else some (input.drop (lenbyte.toNat - 0x80))
  | _ => none

/-- `ecdsa_signature_parse_der_lax`; an integer that does not fit gives the pair of zeros. -/
def parse (input : Bytes) : Option (ℕ × ℕ) := do
  let input ← readSequence input
  let (r, input) ← readInteger input
  let (s, _) ← readInteger input
  let r := r.dropWhile (· = 0)
  let s := s.dropWhile (· = 0)
  if 32 < r.length ∨ 32 < s.length then some (0, 0)
  else if secp256k1Order ≤ beNat r ∨ secp256k1Order ≤ beNat s then some (0, 0)
  else some (beNat r, beNat s)

end DerLax

/-- `CPubKey::CheckLowS`. -/
def checkLowS (vchSig : Bytes) : Bool :=
  match DerLax.parse vchSig with
  | none => false
  | some (_, s) => decide (s ≤ secp256k1Order / 2)

/-- `IsLowDERSignature` of a signature with its hash type. -/
def isLowDERSignature (vchSig : Bytes) : Bool :=
  isValidSignatureEncoding vchSig true && checkLowS vchSig.dropLast

def OP_1NEGATE : UInt8 := 0x4f

def checkMinimalPush (data : Bytes) (opcode : UInt8) : Bool :=
  match data with
  | [] => opcode = OP_0
  | [b] =>
    if 1 ≤ b ∧ b ≤ 16 then opcode = OP_1 + (b - 1)
    else if b = 0x81 then opcode = OP_1NEGATE
    else opcode = 1
  | _ =>
    if data.length ≤ 75 then opcode.toNat = data.length
    else if data.length ≤ 255 then opcode = OP_PUSHDATA1
    else if data.length ≤ 65535 then opcode = OP_PUSHDATA2
    else true

/-! ## The wallet -/

namespace JavaWallet

/-- `BigInteger.toByteArray` of a number that is not negative: the shortest two's complement form. -/
def toByteArray (value : ℕ) : Bytes := beBytes (value.size / 8 + 1) value

def unsigned (value : ℕ) : Bytes :=
  let bytes := toByteArray value
  let bytes := if 1 < bytes.length ∧ bytes.head? = some 0 then bytes.tail else bytes
  if bytes.head?.any (fun b => b &&& 0x80 ≠ 0) then 0 :: bytes else bytes

def encodeDer (r s : ℕ) : Bytes :=
  let rb := unsigned r
  let sb := unsigned s
  let total := 2 + rb.length + 2 + sb.length
  [0x30, UInt8.ofNat total, 0x02, UInt8.ofNat rb.length] ++ rb ++
    [0x02, UInt8.ofNat sb.length] ++ sb

/-- `signDer` of the pair that the signer returned. -/
def signDer (r s : ℕ) : Bytes :=
  encodeDer r (if s > secp256k1Order / 2 then secp256k1Order - s else s)

/-- `writeVarBytes` of `TransactionSigner`. -/
def writeShortBytes (data : Bytes) : Option Bytes :=
  if 0xfd ≤ data.length then none else some (UInt8.ofNat data.length :: data)

def sigWithHashType (derSignature : Bytes) : Bytes := derSignature ++ [1]

def buildScriptSig (derSignature publicKey : Bytes) : Option Bytes := do
  let sig ← writeShortBytes (sigWithHashType derSignature)
  let key ← writeShortBytes publicKey
  pure (sig ++ key)

/-! ## Big-endian numbers -/

theorem beBytes_succ (k n : ℕ) : beBytes (k + 1) n = UInt8.ofNat (n / 256 ^ k) :: beBytes k n := by
  have hmod := Nat.div_add_mod' n (256 ^ k)
  have happ := leBytes_append k (n % 256 ^ k) (n / 256 ^ k) (Nat.mod_lt _ (by positivity))
  rw [hmod, leBytes_mod] at happ
  rw [beBytes, happ, List.reverse_append, beBytes]
  rfl

theorem length_beBytes (k n : ℕ) : (beBytes k n).length = k := by
  rw [beBytes, List.length_reverse, length_leBytes]

theorem beNat_beBytes {k n : ℕ} (h : n < 256 ^ k) : beNat (beBytes k n) = n := by
  rw [beNat, beBytes, List.reverse_reverse, leNat_leBytes_of_lt h]

theorem beNat_cons (x : UInt8) (b : Bytes) : beNat (x :: b) = x.toNat * 256 ^ b.length + beNat b := by
  rw [beNat, List.reverse_cons, leNat_append, List.length_reverse, beNat]
  simp [leNat]
  ring

theorem beNat_dropWhile (b : Bytes) : beNat (b.dropWhile (· = 0)) = beNat b := by
  induction b with
  | nil => rfl
  | cons x b ih =>
    by_cases hx : x = 0
    · subst hx
      rw [List.dropWhile_cons_of_pos (by simp), ih, beNat_cons]
      simp
    · rw [List.dropWhile_cons_of_neg (by simpa using hx)]

/-- Without leading zeros a number has no more bytes than it needs. -/
theorem length_dropWhile_le {b : Bytes} {k : ℕ} (h : beNat b < 256 ^ k) :
    (b.dropWhile (· = 0)).length ≤ k := by
  rw [← beNat_dropWhile] at h
  cases hd : b.dropWhile (· = 0) with
  | nil => exact Nat.zero_le k
  | cons x d =>
    have hx : x ≠ 0 := by
      have := List.head_dropWhile_not (· = (0 : UInt8)) (l := b) (by rw [hd]; exact List.cons_ne_nil _ _)
      simpa [hd] using this
    have hpos : 0 < x.toNat := Nat.pos_of_ne_zero fun h0 => hx (UInt8.toNat_inj.mp h0)
    rw [hd, beNat_cons] at h
    have hle : 256 ^ d.length ≤ x.toNat * 256 ^ d.length := Nat.le_mul_of_pos_left _ hpos
    exact (Nat.pow_lt_pow_iff_right (by decide)).mp (by omega : 256 ^ d.length < 256 ^ k)

/-! ## The integers of a signature -/

/-- The shortest form of a positive number: the sign bit is clear, and a leading zero is there only
to keep it clear. -/
structure DerInteger (b : Bytes) (value : ℕ) : Prop where
  ne_nil : b ≠ []
  value_eq : beNat b = value
  positive : (b[0]?.getD 0).toNat < 0x80
  shortest : 1 < b.length → b[0]?.getD 0 = 0 → 0x80 ≤ (b[1]?.getD 0).toNat
  length_le : b.length ≤ 33

theorem toByteArray_eq (value : ℕ) : toByteArray value =
    UInt8.ofNat (value / 256 ^ (value.size / 8)) :: beBytes (value.size / 8) value :=
  beBytes_succ _ _

theorem derInteger_toByteArray {value : ℕ} (hlt : value < 2 ^ 256) :
    DerInteger (toByteArray value) value := by
  have hpow : ∀ k, (256 : ℕ) ^ k = 2 ^ (8 * k) := fun k => by rw [pow_mul]; rfl
  obtain ⟨k, hk⟩ : ∃ k, value.size / 8 = k := ⟨_, rfl⟩
  have htop : value < 2 ^ (8 * k + 7) :=
    (Nat.lt_size_self value).trans_le (Nat.pow_le_pow_right (by decide) (by omega))
  have hdiv : value / 256 ^ k < 0x80 := by
    rw [hpow, Nat.div_lt_iff_lt_mul (by positivity)]
    rw [pow_add, mul_comm] at htop
    exact htop
  have hbyte : ∀ n < 256, (UInt8.ofNat n).toNat = n := fun n hn => by
    rw [UInt8.toNat_ofNat', Nat.mod_eq_of_lt hn]
  rw [toByteArray_eq, hk]
  refine ⟨List.cons_ne_nil _ _, ?_, ?_, ?_, ?_⟩
  · rw [← beBytes_succ, beNat_beBytes]
    rw [hpow]
    exact htop.trans_le (Nat.pow_le_pow_right (by decide) (by omega))
  · show (UInt8.ofNat (value / 256 ^ k)).toNat < 0x80
    rw [hbyte _ (by omega)]
    exact hdiv
  · intro hlen hzero
    rw [List.length_cons, length_beBytes] at hlen
    obtain ⟨m, rfl⟩ : ∃ m, k = m + 1 := ⟨k - 1, by omega⟩
    have hq : value / 256 ^ (m + 1) = 0 := by
      change UInt8.ofNat (value / 256 ^ (m + 1)) = 0 at hzero
      have := congrArg UInt8.toNat hzero
      rwa [hbyte _ (by omega)] at this
    have hsmall : value < 256 ^ (m + 1) :=
      (Nat.div_eq_zero_iff_lt (by positivity)).mp hq
    have hlarge : 2 ^ (8 * m + 7) ≤ value := by
      by_contra hcon
      have := Nat.size_le.mpr (not_le.mp hcon)
      omega
    have hdiv1 : value / 256 ^ m < 256 := by
      rw [Nat.div_lt_iff_lt_mul (by positivity), mul_comm, ← pow_succ]
      exact hsmall
    rw [beBytes_succ]
    show 0x80 ≤ (UInt8.ofNat (value / 256 ^ m)).toNat
    rw [hbyte _ hdiv1, Nat.le_div_iff_mul_le (by positivity), hpow]
    rw [pow_add, mul_comm] at hlarge
    exact hlarge
  · have := Nat.size_le.mpr hlt
    rw [List.length_cons, length_beBytes]
    omega

theorem unsigned_eq {value : ℕ} (hlt : value < 2 ^ 256) : unsigned value = toByteArray value := by
  obtain ⟨hne, -, hpos, hshort, -⟩ := derInteger_toByteArray hlt
  have hsign : ∀ b : UInt8, b &&& 0x80 ≠ 0 ↔ 0x80 ≤ b.toNat := by
    intro b
    have hnat : ∀ n < 256, n &&& 0x80 ≠ 0 ↔ 0x80 ≤ n := by decide +kernel
    rw [← hnat _ b.toNat_lt, ne_eq, ne_eq, ← UInt8.toNat_inj, UInt8.toNat_and]
    rfl
  rw [unsigned]
  cases hb : toByteArray value with
  | nil => exact absurd hb hne
  | cons x rest =>
    rw [hb] at hpos hshort
    simp only [List.getElem?_cons_zero, Option.getD_some] at hpos hshort
    by_cases hx : 1 < (x :: rest).length ∧ (x :: rest).head? = some 0
    · rw [if_pos hx]
      obtain ⟨hlen, hhead⟩ := hx
      obtain rfl : x = 0 := Option.some.inj hhead
      obtain ⟨y, rest, rfl⟩ : ∃ y rest', rest = y :: rest' := by
        cases rest with
        | nil => exact absurd hlen (by decide)
        | cons y rest => exact ⟨y, rest, rfl⟩
      have hy := hshort hlen rfl
      rw [if_pos]
      · rfl
      · simp only [List.tail_cons, List.head?_cons, Option.any_some, decide_eq_true_eq]
        exact (hsign y).mpr hy
    · rw [if_neg hx, if_neg]
      simp only [List.head?_cons, Option.any_some, decide_eq_true_eq]
      rw [hsign]
      omega

theorem derInteger_unsigned {value : ℕ} (hlt : value < 2 ^ 256) :
    DerInteger (unsigned value) value := by
  rw [unsigned_eq hlt]
  exact derInteger_toByteArray hlt

/-! ## The signature as a whole -/

section

variable {rb sb : Bytes} {r s : ℕ}

/-- Two integers in their frame, before the hash type. -/
def derFrame (rb sb : Bytes) : Bytes :=
  0x30 :: UInt8.ofNat (2 + rb.length + 2 + sb.length) :: 0x02 :: UInt8.ofNat rb.length ::
    (rb ++ 0x02 :: UInt8.ofNat sb.length :: sb)

theorem encodeDer_eq : encodeDer r s = derFrame (unsigned r) (unsigned s) := by
  simp [encodeDer, derFrame]

theorem length_derFrame : (derFrame rb sb).length = rb.length + sb.length + 6 := by
  simp only [derFrame, List.length_cons, List.length_append]
  omega

theorem isValidSignatureEncoding_derFrame (hr : DerInteger rb r) (hs : DerInteger sb s) (t : UInt8) :
    isValidSignatureEncoding (derFrame rb sb ++ [t]) true = true := by
  have hrpos := List.length_pos_iff.mpr hr.ne_nil
  have hspos := List.length_pos_iff.mpr hs.ne_nil
  have hrle := hr.length_le
  have hsle := hs.length_le
  have hbyte : ∀ n < 256, (UInt8.ofNat n).toNat = n := fun n hn => by
    rw [UInt8.toNat_ofNat', Nat.mod_eq_of_lt hn]
  have hlen : (derFrame rb sb ++ [t]).length = rb.length + sb.length + 7 := by
    rw [List.length_append, length_derFrame, List.length_singleton]
  -- The bytes that the checker looks at.
  obtain ⟨frame, hframe⟩ : ∃ frame, derFrame rb sb ++ [t] = frame := ⟨_, rfl⟩
  have happ : frame = [0x30, UInt8.ofNat (2 + rb.length + 2 + sb.length), 0x02, UInt8.ofNat rb.length] ++
      (rb ++ ([0x02, UInt8.ofNat sb.length] ++ (sb ++ [t]))) := by
    rw [← hframe, derFrame]
    simp
  have hR : ∀ i < rb.length, frame[4 + i]?.getD 0 = rb[i]?.getD 0 := by
    intro i hi
    rw [happ, List.getElem?_append_right (by simp), List.getElem?_append_left (by simpa using hi)]
    simp
  have htail : ∀ i, frame[rb.length + 4 + i]? = ([0x02, UInt8.ofNat sb.length] ++ (sb ++ [t]))[i]? := by
    intro i
    rw [happ, List.getElem?_append_right (by simp; omega), List.getElem?_append_right (by simp; omega)]
    congr 1
    simp
    omega
  have hS : ∀ i < sb.length, frame[rb.length + 6 + i]?.getD 0 = sb[i]?.getD 0 := by
    intro i hi
    rw [show rb.length + 6 + i = rb.length + 4 + (2 + i) by omega, htail,
      List.getElem?_append_right (by simp), List.getElem?_append_left (by simpa using hi)]
    simp
  have h0 : frame[0]?.getD 0 = 0x30 := by rw [happ]; rfl
  have h1 : (frame[1]?.getD 0).toNat = rb.length + sb.length + 4 := by
    rw [happ]
    exact (hbyte _ (by omega)).trans (by omega)
  have h2 : frame[2]?.getD 0 = 0x02 := by rw [happ]; rfl
  have h3 : (frame[3]?.getD 0).toNat = rb.length := by
    rw [happ]
    exact hbyte _ (by omega)
  have htag : frame[rb.length + 4]?.getD 0 = 0x02 := by
    rw [show rb.length + 4 = rb.length + 4 + 0 from rfl, htail]
    rfl
  have hlenS : (frame[5 + rb.length]?.getD 0).toNat = sb.length := by
    rw [show 5 + rb.length = rb.length + 4 + 1 by omega, htail]
    exact hbyte _ (by omega)
  -- Neither integer is negative or has a zero too many.
  have hinteger : ∀ {b : Bytes} {value i : ℕ}, DerInteger b value →
      (∀ j < b.length, frame[i + j]?.getD 0 = b[j]?.getD 0) → (frame[i]?.getD 0).toNat < 128 ∧
        ((¬ b.length > 1 ∨ ¬ (frame[i]?.getD 0).toNat = 0) ∨ ¬ (frame[i + 1]?.getD 0).toNat < 128) := by
    intro b value i hb hget
    have hpos := List.length_pos_iff.mpr hb.ne_nil
    have hzero : frame[i]?.getD 0 = b[0]?.getD 0 := hget 0 hpos
    rw [hzero]
    refine ⟨hb.positive, ?_⟩
    by_contra hcon
    simp only [not_or, not_not] at hcon
    obtain ⟨⟨hlen, hz⟩, hlt⟩ := hcon
    rw [hget 1 hlen] at hlt
    have := hb.shortest hlen (UInt8.toNat_inj.mp hz)
    omega
  obtain ⟨hr4, hr5⟩ := hinteger hr hR
  obtain ⟨hs6, hs7⟩ := hinteger hs hS
  rw [hframe] at hlen ⊢
  simp only [isValidSignatureEncoding, if_true, Bool.and_eq_true, decide_eq_true_eq,
    Bool.not_eq_true', Bool.and_eq_false_iff, decide_eq_false_iff_not, h0, h1, h2, h3, hlenS, htag, hlen]
  refine ⟨⟨⟨⟨⟨⟨⟨⟨⟨⟨⟨⟨⟨?_, ?_⟩, rfl⟩, ?_⟩, ?_⟩, trivial⟩, rfl⟩, ?_⟩, hr4⟩, hr5⟩, rfl⟩, ?_⟩, hs6⟩,
    hs7⟩ <;> omega

theorem parse_derFrame (hr : DerInteger rb r) (hs : DerInteger sb s) (hr' : r < secp256k1Order)
    (hs' : s < secp256k1Order) : DerLax.parse (derFrame rb sb) = some (r, s) := by
  have hrle := hr.length_le
  have hsle := hs.length_le
  have hbyte : ∀ n < 256, (UInt8.ofNat n).toNat = n := fun n hn => by
    rw [UInt8.toNat_ofNat', Nat.mod_eq_of_lt hn]
  have hshort : ∀ n < 128, UInt8.ofNat n < 0x80 := fun n hn => by
    show (UInt8.ofNat n).toNat < 128
    rw [hbyte n (by omega)]
    exact hn
  have hseq : DerLax.readSequence (derFrame rb sb) = some (0x02 :: UInt8.ofNat rb.length ::
      (rb ++ 0x02 :: UInt8.ofNat sb.length :: sb)) := by
    rw [derFrame, DerLax.readSequence, if_neg (by decide), if_pos (hshort _ (by omega))]
  have hint : ∀ (b rest : Bytes), b.length < 128 →
      DerLax.readInteger (0x02 :: UInt8.ofNat b.length :: (b ++ rest)) = some (b, rest) := by
    intro b rest hb
    rw [DerLax.readInteger, if_neg (by decide), DerLax.readLength, if_pos (hshort _ hb)]
    simp [Nat.mod_eq_of_lt (show b.length < 256 by omega)]
  have hsmall : ∀ {b : Bytes} {value : ℕ}, DerInteger b value → value < secp256k1Order →
      (b.dropWhile (· = 0)).length ≤ 32 ∧ beNat (b.dropWhile (· = 0)) = value := by
    intro b value hb hlt
    refine ⟨length_dropWhile_le ?_, by rw [beNat_dropWhile, hb.value_eq]⟩
    rw [hb.value_eq]
    exact hlt.trans (by decide)
  obtain ⟨hrlen, hrval⟩ := hsmall hr hr'
  obtain ⟨hslen, hsval⟩ := hsmall hs hs'
  have hS := hint sb [] (by omega)
  rw [List.append_nil] at hS
  rw [DerLax.parse, hseq]
  simp only [Option.bind_eq_bind, Option.bind_some, hint rb _ (by omega), hS]
  rw [if_neg (by omega), hrval, hsval, if_neg (by omega)]

end

theorem checkMinimalPush_direct {data : Bytes} {opcode : UInt8} (h2 : 2 ≤ data.length)
    (h75 : data.length ≤ 75) (hop : opcode.toNat = data.length) :
    checkMinimalPush data opcode = true := by
  unfold checkMinimalPush
  split
  · exact absurd h2 (by simp)
  · exact absurd h2 (by simp)
  · rw [if_pos h75]
    exact decide_eq_true hop

/-- The script of an input that the wallet signed: two shortest pushes, the first a signature in the
form the node asks for, with its lower `s`, from which the node reads the signer's numbers. -/
theorem buildScriptSig_passes {r s : ℕ} (hr : 1 ≤ r) (hr' : r < secp256k1Order) (hs : 1 ≤ s)
    (hs' : s < secp256k1Order) {publicKey : Bytes} (hkey : publicKey.length = 33) :
    ∃ scriptSig opcode, buildScriptSig (signDer r s) publicKey = some scriptSig ∧
      CScript.ops scriptSig =
        ([(opcode, sigWithHashType (signDer r s)), (33, publicKey)], true) ∧
      checkMinimalPush (sigWithHashType (signDer r s)) opcode = true ∧
      checkMinimalPush publicKey 33 = true ∧
      isValidSignatureEncoding (sigWithHashType (signDer r s)) true = true ∧
      isLowDERSignature (sigWithHashType (signDer r s)) = true ∧
      DerLax.parse (signDer r s) = some (r, min s (secp256k1Order - s)) ∧
      min s (secp256k1Order - s) ≤ secp256k1Order / 2 := by
  have hlow : (if s > secp256k1Order / 2 then secp256k1Order - s else s) =
      min s (secp256k1Order - s) := by
    split_ifs <;> omega
  have hhalf : min s (secp256k1Order - s) ≤ secp256k1Order / 2 := by omega
  have hlt : min s (secp256k1Order - s) < secp256k1Order := by omega
  have h256 : secp256k1Order < 2 ^ 256 := by decide
  have hR := derInteger_unsigned (hr'.trans h256)
  have hS := derInteger_unsigned (hlt.trans h256)
  have hder : signDer r s = derFrame (unsigned r) (unsigned (min s (secp256k1Order - s))) := by
    rw [signDer, hlow, encodeDer_eq]
  have hparse : DerLax.parse (signDer r s) = some (r, min s (secp256k1Order - s)) := by
    rw [hder]
    exact parse_derFrame hR hS hr' hlt
  have hvalid : isValidSignatureEncoding (sigWithHashType (signDer r s)) true = true := by
    rw [sigWithHashType, hder]
    exact isValidSignatureEncoding_derFrame hR hS 1
  have hlen : (sigWithHashType (signDer r s)).length ≤ 73 ∧ 2 ≤ (sigWithHashType (signDer r s)).length := by
    have h1 := hR.length_le
    have h2 := hS.length_le
    rw [sigWithHashType, List.length_append, hder, length_derFrame, List.length_singleton]
    omega
  have hbyte : ∀ n < 256, (UInt8.ofNat n).toNat = n := fun n hn => by
    rw [UInt8.toNat_ofNat', Nat.mod_eq_of_lt hn]
  refine ⟨UInt8.ofNat (sigWithHashType (signDer r s)).length :: (sigWithHashType (signDer r s) ++
    33 :: publicKey), UInt8.ofNat (sigWithHashType (signDer r s)).length, ?_, ?_, ?_, ?_, hvalid, ?_,
    hparse, hhalf⟩
  · rw [buildScriptSig, writeShortBytes, if_neg (by omega), writeShortBytes, if_neg (by omega), hkey]
    rfl
  · have hlast : CScript.getOp ((33 : UInt8) :: (publicKey ++ [])) = some (33, publicKey, []) :=
      CScript.getOp_push hkey (by decide)
    rw [List.append_nil] at hlast
    have hfirst : ∀ rest, CScript.getOp (UInt8.ofNat (sigWithHashType (signDer r s)).length ::
        (sigWithHashType (signDer r s) ++ rest)) =
        some (UInt8.ofNat (sigWithHashType (signDer r s)).length, sigWithHashType (signDer r s), rest) := by
      intro rest
      refine CScript.getOp_push (hbyte _ (by omega)).symm ?_
      show (UInt8.ofNat (sigWithHashType (signDer r s)).length).toNat < 76
      rw [hbyte _ (by omega)]
      omega
    rw [CScript.ops_of_getOp (hfirst _), CScript.ops_of_getOp hlast]
    rfl
  · exact checkMinimalPush_direct hlen.2 (by omega) (hbyte _ (by omega))
  · exact checkMinimalPush_direct (by omega) (by omega) hkey.symm
  · rw [isLowDERSignature, hvalid, Bool.true_and, sigWithHashType, List.dropLast_concat, checkLowS,
      hparse]
    exact decide_eq_true hhalf

theorem buildScriptSig_one_one :
    ∃ scriptSig opcode, buildScriptSig (signDer 1 (secp256k1Order - 1)) (List.replicate 33 2) =
        some scriptSig ∧
      CScript.ops scriptSig = ([(opcode, sigWithHashType (signDer 1 (secp256k1Order - 1))),
        (33, List.replicate 33 2)], true) ∧
      DerLax.parse (signDer 1 (secp256k1Order - 1)) = some (1, 1) := by
  obtain ⟨scriptSig, opcode, hbuild, hops, -, -, -, -, hparse, -⟩ :=
    @buildScriptSig_passes 1 (secp256k1Order - 1) le_rfl (by decide) (by decide) (by decide)
      (List.replicate 33 2) (by decide)
  exact ⟨scriptSig, opcode, hbuild, hops, hparse⟩

end JavaWallet

end X2XCoin
