import Mathlib.Data.Nat.Bitwise
import X2XCoin.Lib.VarInt

/-!
# `WriteVarInt` and `ReadVarInt`

The loops of `serialize.h` over words of `w` bits.  The reader does not notice when a number no
longer
fits into a word.
-/

open ByteCodec

namespace X2XCoin

variable {w : ℕ}

/-! ## The loops -/

theorem toNat_shiftRight_sub_one {n : BitVec w} (h : 127 < n.toNat) :
    (n >>> 7 - 1).toNat = n.toNat / 128 - 1 := by
  have hlt := n.isLt
  have hshift : (n >>> 7).toNat = n.toNat / 128 := by
    rw [BitVec.toNat_ushiftRight, Nat.shiftRight_eq_div_pow]
  have hone : (1 : BitVec w).toNat = 1 := by
    change 1 % 2 ^ w = 1
    exact Nat.mod_eq_of_lt (by omega)
  rw [BitVec.toNat_sub_of_le (BitVec.le_def.mpr (by omega)), hshift, hone]

theorem le_mask_iff {n : BitVec w} : n ≤ 0x7F#w ↔ n.toNat ≤ 127 := by
  have hlt := n.isLt
  rw [BitVec.le_def, BitVec.toNat_ofNat]
  by_cases hw : 127 < 2 ^ w
  · rw [Nat.mod_eq_of_lt hw]
  · -- a word of at most seven bits is never above the mask
    have hle : w ≤ 7 := by
      by_contra hlarge
      exact hw (Nat.lt_of_lt_of_le (by norm_num) (Nat.pow_le_pow_right (n := 2) (by norm_num)
        (by omega : 8 ≤ w)))
    interval_cases w <;> omega

/-- The loop of `WriteVarInt`: what is stored in `tmp` from the index `len` on. -/
def varIntDigits (n : BitVec w) (len : ℕ) : Bytes :=
  let digit := UInt8.ofBitVec (n.setWidth 8 &&& 0x7F ||| if len = 0 then 0x00 else 0x80)
  if n ≤ 0x7F#w then [digit] else digit :: varIntDigits (n >>> 7 - 1) (len + 1)
termination_by n.toNat
decreasing_by
  have hlarge : 127 < n.toNat := not_le.mp (mt le_mask_iff.mpr (by assumption))
  rw [toNat_shiftRight_sub_one hlarge]
  omega

/-- `WriteVarInt`: `tmp` from its last element to its first. -/
def writeVarInt (n : BitVec w) : Bytes := (varIntDigits n 0).reverse

/-- The loop of `ReadVarInt`. -/
def readVarIntFrom (n : BitVec w) : Bytes → Option (BitVec w × Bytes)
  | [] => none
  | chData :: is =>
    let n := n <<< 7 ||| (chData &&& 0x7F).toBitVec.setWidth w
    if chData &&& 0x80 ≠ 0 then readVarIntFrom (n + 1) is else some (n, is)

def readVarInt (w : ℕ) : Reader (BitVec w) := fun is => readVarIntFrom 0 is

/-! ## Digits of words -/

theorem and_mask (b : UInt8) : (b &&& 0x7F).toNat = b.toNat % 128 := by
  rw [UInt8.toNat_and]
  exact Nat.and_two_pow_sub_one_eq_mod b.toNat 7

theorem and_flag_ne_zero_iff (b : UInt8) : b &&& 0x80 ≠ 0 ↔ 128 ≤ b.toNat := by
  have hlt := b.toNat_lt
  have hbit : (b &&& 0x80).toNat = (b.toNat.testBit 7).toNat * 2 ^ 7 := by
    rw [UInt8.toNat_and]
    exact Nat.and_two_pow b.toNat 7
  rw [Ne, ← UInt8.toNat_inj, hbit, Nat.testBit_eq_decide_div_mod_eq]
  by_cases hflag : b.toNat / 2 ^ 7 % 2 = 1
  · rw [decide_eq_true hflag]
    exact iff_of_true (by decide) (by omega)
  · rw [decide_eq_false hflag]
    exact iff_of_false (by decide) (by omega)

theorem toNat_append_digit (n : BitVec w) (b : UInt8) :
    (n <<< 7 ||| (b &&& 0x7F).toBitVec.setWidth w).toNat =
      (n.toNat * 128 + b.toNat % 128) % 2 ^ w := by
  have hdisjoint : n <<< 7 &&& (b &&& 0x7F).toBitVec.setWidth w = 0#w := by
    ext i hi
    by_cases hlow : i < 7
    · simp [hlow]
    · have hhigh : ((b &&& 0x7F).toBitVec.setWidth w)[i] = false := by
        rw [BitVec.getElem_setWidth]
        change (b &&& 0x7F).toNat.testBit i = false
        rw [and_mask]
        exact Nat.testBit_lt_two_pow ((Nat.mod_lt _ (by norm_num)).trans_le
          (Nat.pow_le_pow_right (n := 2) (by norm_num) (not_lt.mp hlow)))
      rw [BitVec.getElem_and, hhigh, Bool.and_false, BitVec.getElem_zero]
  rw [← BitVec.add_eq_or_of_and_eq_zero _ _ hdisjoint, BitVec.toNat_add, BitVec.toNat_shiftLeft,
    BitVec.toNat_setWidth, Nat.shiftLeft_eq]
  change (n.toNat * 2 ^ 7 % 2 ^ w + (b &&& 0x7F).toNat % 2 ^ w) % 2 ^ w = _
  rw [and_mask, ← Nat.add_mod]

theorem ofBitVec_digit (n : BitVec w) (len : ℕ) :
    UInt8.ofBitVec (n.setWidth 8 &&& 0x7F ||| if len = 0 then 0x00 else 0x80) =
      UInt8.ofNat (n.toNat % 128 + if len = 0 then 0 else 128) := by
  have hlow : (n.setWidth 8 &&& 0x7F).toNat = n.toNat % 128 := by
    rw [BitVec.toNat_and, BitVec.toNat_setWidth]
    refine (Nat.and_two_pow_sub_one_eq_mod _ 7).trans ?_
    omega
  apply UInt8.toNat_inj.mp
  change (n.setWidth 8 &&& 0x7F ||| if len = 0 then 0x00 else 0x80).toNat = _
  rw [BitVec.toNat_or, hlow, UInt8.toNat_ofNat']
  split_ifs
  · rw [add_zero]
    change n.toNat % 128 ||| 0 = _
    rw [Nat.or_zero]
    omega
  · change n.toNat % 128 ||| 2 ^ 7 = _
    rw [Nat.or_comm, ← mul_one (2 ^ 7), ← Nat.two_pow_add_eq_or_of_lt (Nat.mod_lt _ (by norm_num))]
    omega

/-! ## The functions on words are those on numbers -/

theorem reverse_varIntDigits (k : ℕ) (n : BitVec w) (hk : n.toNat < 128 ^ (k + 1)) (len : ℕ) :
    (varIntDigits n len).reverse = VarInt.digits k n.toNat (if len = 0 then 0 else 128) := by
  induction k generalizing n len with
  | zero =>
    rw [varIntDigits, ofBitVec_digit, if_pos (le_mask_iff.mpr (by omega))]
    rfl
  | succ k ih =>
    rw [varIntDigits, ofBitVec_digit, VarInt.digits]
    by_cases hsmall : n.toNat ≤ 127
    · rw [if_pos (le_mask_iff.mpr hsmall), if_pos hsmall]
      rfl
    · have hquot := toNat_shiftRight_sub_one (not_le.mp hsmall)
      have hlt : n.toNat / 128 < 128 ^ (k + 1) := Nat.div_lt_of_lt_mul (by rwa [pow_succ'] at hk)
      rw [if_neg (mt le_mask_iff.mp hsmall), if_neg hsmall, List.reverse_cons,
        ih _ (by omega) (len + 1), hquot, if_neg (Nat.succ_ne_zero len)]

theorem writeVarInt_eq (n : BitVec w) : writeVarInt n = VarInt.write w n.toNat :=
  reverse_varIntDigits (w / 7) n (VarInt.lt_pow_of_lt_two_pow n.isLt) 0

theorem readVarIntFrom_eq (n : BitVec w) (is : Bytes) :
    VarInt.readFrom w n.toNat is = (readVarIntFrom n is).map fun p => (p.1.toNat, p.2) := by
  induction is generalizing n with
  | nil => rfl
  | cons chData is ih =>
    rw [readVarIntFrom, VarInt.readFrom, ← toNat_append_digit]
    by_cases hflag : 128 ≤ chData.toNat
    · rw [if_pos hflag, if_pos ((and_flag_ne_zero_iff chData).mpr hflag), ← ih, BitVec.toNat_add]
      change _ = VarInt.readFrom w ((_ + 1 % 2 ^ w) % 2 ^ w) is
      rw [Nat.add_mod_mod]
    · rw [if_neg hflag, if_neg (mt (and_flag_ne_zero_iff chData).mp hflag)]
      rfl

/-! ## One encoding for each number -/

/-- The number that the comment in the source says a sequence of bytes encodes. -/
def encodedNumber (a : Bytes) : ℕ :=
  (a.getLastD 0).toNat % 128 +
    ∑ i ∈ Finset.Ico 1 a.length, 128 ^ i * ((a.getD (a.length - i - 1) 0).toNat % 128 + 1)

theorem sum_digits (init tail : Bytes) :
    ∑ i ∈ Finset.range init.length,
      128 ^ i * (((init ++ tail).getD (init.length - 1 - i) 0).toNat % 128 + 1) =
        VarInt.prefixValue init := by
  induction init using List.reverseRecOn generalizing tail with
  | nil => rfl
  | append_singleton init b ih =>
    rw [VarInt.prefixValue_append_singleton, List.length_append, List.length_singleton,
      Finset.sum_range_succ', ← ih (b :: tail), Finset.sum_mul, List.append_assoc]
    have hhead : (init ++ ([b] ++ tail)).getD (init.length + 1 - 1 - 0) 0 = b := by simp
    rw [hhead, pow_zero, one_mul, ← add_assoc]
    congr 2
    refine Finset.sum_congr rfl fun i _ => ?_
    rw [show init.length + 1 - 1 - (i + 1) = init.length - 1 - i by omega, pow_succ, mul_right_comm]
    rfl

theorem encodedNumber_append_singleton (init : Bytes) (last : UInt8) :
    encodedNumber (init ++ [last]) = VarInt.value (init ++ [last]) := by
  rw [encodedNumber, VarInt.value_append_singleton, ← sum_digits init [last], List.getLastD_concat,
    Finset.sum_mul, add_comm, List.length_append, List.length_singleton,
    Finset.sum_Ico_eq_sum_range, Nat.add_sub_cancel]
  congr 1
  refine Finset.sum_congr rfl fun i _ => ?_
  rw [show init.length + 1 - (1 + i) - 1 = init.length - 1 - i by omega, pow_add, pow_one,
    mul_comm 128, mul_right_comm]

/-- What is written is read back, and a sequence that is read is the one that is written exactly if
the number that it encodes fits the word. -/
theorem varInt_unique_iff (w : ℕ) :
    (∀ n : BitVec w, Reads (readVarInt w) (writeVarInt n) n) ∧
    ∀ (bs : Bytes) (n : BitVec w), (readVarInt w).run bs = some (n, []) →
      (bs = writeVarInt n ↔ encodedNumber bs < 2 ^ w) := by
  have hread : ∀ is, VarInt.readFrom w 0 is =
      ((readVarInt w).run is).map fun p => (p.1.toNat, p.2) := readVarIntFrom_eq 0
  constructor
  · intro n rest
    have hnat := VarInt.reads_read n.isLt rest
    rw [← writeVarInt_eq] at hnat
    obtain ⟨⟨n', rest'⟩, hrun, heq⟩ := Option.map_eq_some_iff.mp ((hread _).symm.trans hnat)
    obtain ⟨hn, hrest⟩ := Prod.mk.inj heq
    rw [hrun]
    exact congrArg some (Prod.ext (BitVec.eq_of_toNat_eq hn) hrest)
  · intro bs n hrun
    have hnat : VarInt.readFrom w 0 bs = some (n.toNat, []) := by rw [hread, hrun]; rfl
    obtain ⟨init, last, rfl, hinit, hlast, hn⟩ := VarInt.readFrom_eq_some hnat
    rw [encodedNumber_append_singleton, writeVarInt_eq]
    change n.toNat = (VarInt.prefixValue init * 128 + last.toNat % 128) % 2 ^ w at hn
    rw [← VarInt.value_append_singleton] at hn
    constructor
    · intro hwrite
      rw [hwrite, VarInt.value_write n.isLt]
      exact n.isLt
    · intro hlt
      rw [hn, Nat.mod_eq_of_lt hlt, VarInt.write_value hinit hlast hlt]

/-- The two bytes of 128, and the only ones. -/
theorem varInt_unique_twoBytes :
    (readVarInt 32).run [0x80, 0x00] = some (128#32, []) ∧ [0x80, 0x00] = writeVarInt 128#32 := by
  have hread : (readVarInt 32).run [0x80, 0x00] = some (128#32, []) := by decide
  exact ⟨hread, ((varInt_unique_iff 32).2 _ _ hread).mpr (by decide)⟩

/-- The bytes that encode `2 ^ 32` and `2 ^ 64` are read as zero. -/
theorem varInt_overflow_zero :
    ((readVarInt 32).run [0x8E, 0xFE, 0xFE, 0xFF, 0x00] = some (0, []) ∧
      writeVarInt (0 : BitVec 32) = [0x00]) ∧
    (readVarInt 64).run [0x80, 0xFE, 0xFE, 0xFE, 0xFE, 0xFE, 0xFE, 0xFE, 0xFF, 0x00] =
      some (0, []) ∧ writeVarInt (0 : BitVec 64) = [0x00] := by
  rw [writeVarInt_eq, writeVarInt_eq]
  decide

end X2XCoin
