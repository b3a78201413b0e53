import X2XCoin.Lib.SignMagnitude
import X2XCoin.Primitives.Amount
import X2XCoin.Primitives.VarInt

/-!
# Script numbers

`CScriptNum` of `script/script.h`: the constructor from bytes, `set_vch` and `serialize`.
-/

namespace X2XCoin

open ByteCodec SignMagnitude

namespace CScriptNum

/-- The loop of `set_vch` from byte `i` on. -/
def orBytes (i : ℕ) (result : BitVec 64) : Bytes → BitVec 64
  | [] => result
  | b :: vch => orBytes (i + 1) (result ||| b.toBitVec.setWidth 64 <<< (8 * i)) vch

def setVch (vch : Bytes) : Int64 :=
  if vch = [] then 0
  else
    let result := orBytes 0 0 vch
    if vch.getLastD 0 &&& 0x80 ≠ 0 then
      .ofBitVec (-(result &&& ~~~(0x80#64 <<< (8 * (vch.length - 1)))))
    else .ofBitVec result

/-- The constructor from bytes; an exception is its text. -/
def ofVch (vch : Bytes) (fRequireMinimal : Bool) (nMaxNumSize : ℕ) : Except String Int64 :=
  if vch.length > nMaxNumSize then .error "script number overflow"
  else if fRequireMinimal ∧ vch.length > 0 ∧ vch.getLastD 0 &&& 0x7f = 0 ∧
      (vch.length ≤ 1 ∨ vch.getD (vch.length - 2) 0 &&& 0x80 = 0) then
    .error "non-minimally encoded script number"
  else .ok (setVch vch)

/-- The loop of `serialize`. -/
def absBytes (absvalue : UInt64) : Bytes :=
  if absvalue = 0 then []
  else (absvalue &&& 0xff).toUInt8 :: absBytes (absvalue >>> 8)
termination_by absvalue.toNat
decreasing_by
  rename_i h
  have hpos : absvalue.toNat ≠ 0 := fun heq => h (UInt64.toNat_inj.mp heq)
  have hlt : absvalue.toNat / 2 ^ 8 < absvalue.toNat :=
    Nat.div_lt_self (Nat.pos_of_ne_zero hpos) (by decide)
  rw [UInt64.toNat_shiftRight, Nat.shiftRight_eq_div_pow]
  exact hlt

def serialize (value : Int64) : Bytes :=
  if value = 0 then []
  else
    let absvalue := if value < 0 then (-value).toUInt64 else value.toUInt64
    let result := absBytes absvalue
    if result.getLastD 0 &&& 0x80 ≠ 0 then result ++ [if value < 0 then 0x80 else 0]
    else if value < 0 then result.dropLast ++ [result.getLastD 0 ||| 0x80]
    else result

/-! ## Reading -/

theorem toNat_orBytes {i : ℕ} {result : BitVec 64} {vch : Bytes} (hi : i + vch.length ≤ 8)
    (hresult : result.toNat < 256 ^ i) :
    (orBytes i result vch).toNat = result.toNat + 256 ^ i * leNat vch := by
  induction vch generalizing i result with
  | nil => simp [orBytes, leNat]
  | cons b vch ih =>
    rw [List.length_cons] at hi
    have hb := b.toNat_lt
    have hpow : 2 ^ (8 * i) = 256 ^ i := pow_mul 2 8 i
    have hmul : 256 ^ i * b.toNat ≤ 256 ^ i * 255 := Nat.mul_le_mul_left _ (by omega)
    have hsucc : 256 ^ (i + 1) = 256 ^ i * 256 := pow_succ 256 i
    have hle : 256 ^ (i + 1) ≤ 256 ^ 8 := Nat.pow_le_pow_right (by decide) (by omega)
    have hbyte : (b.toBitVec.setWidth 64).toNat = b.toNat := by
      rw [BitVec.toNat_setWidth]
      exact Nat.mod_eq_of_lt (hb.trans (by decide))
    have hor : (result ||| b.toBitVec.setWidth 64 <<< (8 * i)).toNat =
        result.toNat + 256 ^ i * b.toNat := by
      rw [BitVec.toNat_or, BitVec.toNat_shiftLeft, hbyte, Nat.mod_eq_of_lt, Nat.or_comm,
        ← Nat.shiftLeft_add_eq_or_of_lt (hpow ▸ hresult), Nat.shiftLeft_eq, hpow]
      · ring
      · rw [Nat.shiftLeft_eq, hpow, mul_comm]
        omega
    rw [orBytes, ih (by omega) (by omega), hor, leNat, hsucc]
    ring

theorem toNat_and_not {x y : BitVec 64} {k m : ℕ} (hm : m < 2 ^ k) (hx : x.toNat = 2 ^ k + m)
    (hy : y.toNat = 2 ^ k) : (x &&& ~~~y).toNat = m := by
  apply Nat.eq_of_testBit_eq
  intro i
  have hlt : x.toNat < 2 ^ 64 := x.isLt
  rw [BitVec.toNat_and, Nat.testBit_and, BitVec.testBit_toNat (~~~y), BitVec.getLsbD_not,
    ← BitVec.testBit_toNat y, hy, Nat.testBit_two_pow, hx]
  obtain hik | rfl | hik := lt_trichotomy i k
  · have hk : 2 ^ k < 2 ^ 64 := by omega
    have hk64 : k < 64 := (Nat.pow_lt_pow_iff_right (by decide)).mp hk
    simp [Nat.testBit_two_pow_add_gt hik, hik.ne', hik.trans hk64]
  · simp [Nat.testBit_lt_two_pow hm]
  · have hle : 2 ^ (k + 1) ≤ 2 ^ i := Nat.pow_le_pow_right (by decide) hik
    rw [pow_succ] at hle
    rw [Nat.testBit_lt_two_pow (show 2 ^ k + m < 2 ^ i by omega),
      Nat.testBit_lt_two_pow (show m < 2 ^ i by omega), Bool.false_and]

theorem toInt_ofBitVec_of_lt {x : BitVec 64} (h : x.toNat < 2 ^ 63) :
    (Int64.ofBitVec x).toInt = x.toNat := by
  rw [Int64.toInt_ofBitVec, BitVec.toInt_eq_toNat_of_lt (by omega)]

/-- `set_vch` computes the number that up to eight bytes denote. -/
theorem toInt_setVch {vch : Bytes} (h : vch.length ≤ 8) : (setVch vch).toInt = value vch := by
  obtain rfl | ⟨init, b, rfl⟩ := List.eq_nil_or_concat' vch
  · rfl
  rw [List.length_append, List.length_singleton] at h
  have hlt := leNat_lt init
  have hb := b.toNat_lt
  have hle : 256 ^ (init.length + 1) ≤ 256 ^ 8 := Nat.pow_le_pow_right (by decide) h
  have hresult : (orBytes 0 0 (init ++ [b])).toNat =
      leNat init + 256 ^ init.length * b.toNat := by
    rw [toNat_orBytes (by simpa using h) (by decide), leNat_concat]
    simp
  rw [pow_succ] at hle
  rw [setVch, if_neg (by simp), List.getLastD_concat, value_concat]
  simp only [and_flag_ne_zero_iff]
  by_cases hsign : b.toNat < 128
  · have hmul : 256 ^ init.length * b.toNat ≤ 256 ^ init.length * 127 :=
      Nat.mul_le_mul_left _ (by omega)
    rw [if_neg (by omega), if_pos hsign, toInt_ofBitVec_of_lt (by omega), hresult]
    push_cast
    rfl
  · obtain ⟨c, hc⟩ := Nat.exists_eq_add_of_le (not_lt.mp hsign)
    have hmul : 256 ^ init.length * c ≤ 256 ^ init.length * 127 :=
      Nat.mul_le_mul_left _ (by omega)
    have hbit : 2 ^ (8 * init.length + 7) = 256 ^ init.length * 128 := by
      rw [pow_add, pow_mul]
      norm_num
    have hmask : (0x80#64 <<< (8 * init.length)).toNat = 2 ^ (8 * init.length + 7) := by
      rw [BitVec.toNat_shiftLeft, Nat.shiftLeft_eq, pow_add, mul_comm]
      refine Nat.mod_eq_of_lt ?_
      rw [pow_mul]
      change 256 ^ init.length * 128 < 2 ^ 64
      omega
    have hclear : (orBytes 0 0 (init ++ [b]) &&& ~~~(0x80#64 <<< (8 * init.length))).toNat =
        leNat init + 256 ^ init.length * c := by
      refine toNat_and_not (by omega) ?_ hmask
      rw [hresult, hc, hbit]
      ring
    have hvalue : (leNat init : ℤ) + 256 ^ init.length * (b.toNat - 128 : ℤ) =
        (leNat init + 256 ^ init.length * c : ℕ) := by
      rw [hc]
      push_cast
      ring
    have hm : leNat init + 256 ^ init.length * c < 2 ^ 63 := by omega
    rw [if_pos (by omega), if_neg hsign, hvalue, List.length_append, List.length_singleton,
      Nat.add_sub_cancel, Int64.toInt_ofBitVec, BitVec.toInt_neg,
      BitVec.toInt_eq_toNat_of_lt (by omega), hclear, Int.bmod_def]
    omega

/-- The test for the shortest form. -/
theorem ofVch_eq {vch : Bytes} {fRequireMinimal : Bool} {nMaxNumSize : ℕ}
    (h : vch.length ≤ nMaxNumSize) [Decidable (Shortest vch)] :
    ofVch vch fRequireMinimal nMaxNumSize =
      if fRequireMinimal ∧ ¬ Shortest vch then .error "non-minimally encoded script number"
      else .ok (setVch vch) := by
  rw [ofVch, if_neg (by omega)]
  refine if_congr (and_congr_right fun _ => ?_) rfl rfl
  obtain rfl | ⟨init, b, rfl⟩ := List.eq_nil_or_concat' vch
  · simp [Shortest]
  have hmask : b &&& 0x7f = 0 ↔ b.toNat % 128 = 0 := by
    rw [← UInt8.toNat_inj, and_mask]
    rfl
  rw [shortest_concat, not_or, not_not, List.getLastD_concat, hmask]
  obtain rfl | ⟨init', c, rfl⟩ := List.eq_nil_or_concat' init
  · simp
  · have hflag : c &&& 0x80 = 0 ↔ ¬ 128 ≤ c.toNat := by
      rw [← and_flag_ne_zero_iff, not_not]
    simp [hflag]

/-! ## Writing -/

theorem leNat_absBytes (a : UInt64) : leNat (absBytes a) = a.toNat := by
  induction a using absBytes.induct with
  | case1 => rw [absBytes, if_pos rfl]; rfl
  | case2 a h ih =>
    rw [absBytes, if_neg h, leNat, ih, UInt64.toNat_shiftRight]
    have hbyte : (a &&& 0xff).toUInt8.toNat = a.toNat % 256 := by
      rw [UInt64.toNat_toUInt8, UInt64.toNat_and]
      change (a.toNat &&& 2 ^ 8 - 1) % 256 = _
      rw [Nat.and_two_pow_sub_one_eq_mod]
      omega
    rw [hbyte, show (8 : UInt64).toNat % 64 = 8 by rfl, Nat.shiftRight_eq_div_pow]
    omega

/-- The bytes of a number end with one that is not zero. -/
theorem exists_absBytes {a : UInt64} (ha : a ≠ 0) :
    ∃ init b, absBytes a = init ++ [b] ∧ 0 < b.toNat := by
  induction a using absBytes.induct with
  | case1 => exact absurd rfl ha
  | case2 a h ih =>
    by_cases hnext : a >>> 8 = 0
    · have hnat := leNat_absBytes a
      have hpos : a.toNat ≠ 0 := fun heq => h (UInt64.toNat_inj.mp heq)
      rw [absBytes, if_neg h, hnext, absBytes, if_pos rfl] at hnat ⊢
      refine ⟨[], _, rfl, ?_⟩
      simp only [leNat] at hnat
      omega
    · obtain ⟨init, b, heq, hb⟩ := ih hnext
      rw [absBytes, if_neg h, heq]
      exact ⟨_ :: init, b, rfl, hb⟩

theorem natAbs_toInt_lt {n : Int64} (hn : n ≠ Int64.minValue) : n.toInt.natAbs < 2 ^ 63 := by
  have hmin := Int64.minValue_le_toInt n
  have hmax := Int64.toInt_lt n
  have hne : n.toInt ≠ Int64.minValue.toInt := fun h => hn (Int64.toInt_inj.mp h)
  rw [Int64.toInt_minValue] at hmin hne
  omega

theorem toNat_or_flag {b : UInt8} (hb : b.toNat < 128) : (b ||| 0x80).toNat = b.toNat + 128 := by
  rw [UInt8.toNat_or, Nat.or_comm]
  change 1 <<< 7 ||| b.toNat = _
  rw [← Nat.shiftLeft_add_eq_or_of_lt hb]
  omega

/-- `serialize` writes the shortest form. -/
theorem serialize_spec {n : Int64} (hn : n ≠ Int64.minValue) :
    value (serialize n) = n.toInt ∧ Shortest (serialize n) := by
  by_cases hzero : n = 0
  · rw [hzero]
    exact ⟨rfl, .inl rfl⟩
  have hlt := natAbs_toInt_lt hn
  have hneg : n < 0 ↔ n.toInt < 0 := Int64.lt_iff_toInt_lt
  rw [serialize, if_neg hzero]
  set a := if n < 0 then (-n).toUInt64 else n.toUInt64 with ha
  have habs : (a.toNat : ℤ) = |n.toInt| := by
    rw [ha]
    split_ifs with hsign
    · have htoInt : (-n).toInt = -n.toInt := by
        rw [Int64.toInt_neg, Int.bmod_def]
        omega
      rw [hneg] at hsign
      rw [toNat_toUInt64 (by omega), htoInt, abs_of_neg hsign]
      omega
    · rw [hneg] at hsign
      rw [toNat_toUInt64 (by omega), abs_of_nonneg (by omega)]
      omega
  have hane : a ≠ 0 := by
    rintro h
    rw [h] at habs
    exact hzero (Int64.toInt_inj.mp (abs_eq_zero.mp habs.symm))
  obtain ⟨init, b, heq, hb⟩ := exists_absBytes hane
  have hnat := leNat_absBytes a
  have hblt := b.toNat_lt
  rw [heq] at hnat
  simp only [heq, List.getLastD_concat, List.dropLast_concat, and_flag_ne_zero_iff]
  rw [leNat_concat] at hnat
  by_cases hflag : 128 ≤ b.toNat
  · rw [if_pos hflag]
    refine ⟨?_, (shortest_concat _ _).mpr (.inr ⟨init, b, rfl, hflag⟩)⟩
    by_cases hsign : n < 0
    · rw [if_pos hsign, value_concat, if_neg (by decide), leNat_concat, hnat, habs,
        abs_of_neg (hneg.mp hsign)]
      simp
    · rw [if_neg hsign, value_concat, if_pos (by decide), leNat_concat, hnat, habs,
        abs_of_nonneg (not_lt.mp (mt hneg.mpr hsign))]
      simp
  · have hvalue : (leNat init : ℤ) + 256 ^ init.length * b.toNat = |n.toInt| := by
      rw [← habs, ← hnat]
      push_cast
      rfl
    rw [if_neg hflag]
    split_ifs with hsign
    · have hor := toNat_or_flag (not_le.mp hflag)
      refine ⟨?_, (shortest_concat _ _).mpr (.inl (by omega))⟩
      rw [value_concat, hor, if_neg (by omega)]
      rw [hneg] at hsign
      rw [abs_of_neg hsign] at hvalue
      push_cast
      linarith
    · refine ⟨?_, (shortest_concat _ _).mpr (.inl (by omega))⟩
      rw [hneg] at hsign
      rw [value_concat, if_pos (not_le.mp hflag), hvalue, abs_of_nonneg (by omega)]

theorem length_serialize_le {n : Int64} (hn : n ≠ Int64.minValue) : (serialize n).length ≤ 8 := by
  obtain ⟨hvalue, hshort⟩ := serialize_spec hn
  have hlt := natAbs_toInt_lt hn
  by_contra hlong
  have hle := hshort.resolve_left fun h => by simp [h] at hlong
  have hmono : signBit 8 ≤ signBit ((serialize n).length - 1) := signBit_mono (by omega)
  rw [hvalue] at hle
  have hbit : signBit 8 = 2 ^ 63 := rfl
  omega

/-- Every number but the least is read back from what is written, and from up to eight bytes the
constructor reads the number they denote, with `fRequireMinimal` only if they are what is written
for it. -/
theorem scriptNum_canonical :
    (∀ n : Int64, n ≠ Int64.minValue → (serialize n).length ≤ 8 ∧
      ∀ nMaxNumSize ≥ (serialize n).length, ofVch (serialize n) true nMaxNumSize = .ok n) ∧
    ∀ vch : Bytes, vch.length ≤ 8 → ∃ m : Int64, m.toInt = value vch ∧
      ∀ nMaxNumSize ≥ vch.length, ofVch vch false nMaxNumSize = .ok m ∧
        ofVch vch true nMaxNumSize =
          if vch = serialize m then .ok m else .error "non-minimally encoded script number" := by
  classical
  have hread : ∀ {n : Int64}, n ≠ Int64.minValue → setVch (serialize n) = n := fun hn =>
    Int64.toInt_inj.mp ((toInt_setVch (length_serialize_le hn)).trans (serialize_spec hn).1)
  refine ⟨fun n hn => ⟨length_serialize_le hn, fun nMaxNumSize hsize => ?_⟩, fun vch h =>
    ⟨setVch vch, toInt_setVch h, fun nMaxNumSize hsize => ⟨?_, ?_⟩⟩⟩
  · rw [ofVch_eq hsize, if_neg fun h => h.2 (serialize_spec hn).2, hread hn]
  · rw [ofVch_eq hsize, if_neg (by simp)]
  · have hne : setVch vch ≠ Int64.minValue := by
      intro hmin
      have hvalue := toInt_setVch h
      rw [hmin, Int64.toInt_minValue] at hvalue
      obtain rfl | hvch := eq_or_ne vch []
      · cases hvalue
      · have hlt := (natAbs_value_lt hvch).trans_le (signBit_mono h)
        rw [← hvalue] at hlt
        exact absurd hlt (by decide)
    obtain ⟨hvalue, hshort⟩ := serialize_spec hne
    have hiff : Shortest vch ↔ vch = serialize (setVch vch) := by
      constructor
      · intro hv
        exact eq_of_value_eq hv hshort ((toInt_setVch h).symm.trans hvalue.symm)
      · intro heq
        rw [heq]
        exact hshort
    rw [ofVch_eq hsize, hiff]
    by_cases heq : vch = serialize (setVch vch)
    · rw [if_neg fun h => h.2 heq, if_pos heq]
    · rw [if_pos ⟨rfl, heq⟩, if_neg heq]

/-- The number 255 needs a second byte for its sign. -/
theorem scriptNum_canonical_255 :
    ofVch (serialize 255) true 8 = .ok 255 ∧ ∃ m : Int64, m.toInt = value [0xff, 0x00] ∧
      ofVch [0xff, 0x00] false 8 = .ok m := by
  obtain ⟨hlength, hread⟩ := scriptNum_canonical.1 255 (by decide)
  obtain ⟨m, hm, hbytes⟩ := scriptNum_canonical.2 [0xff, 0x00] (by decide)
  exact ⟨hread 8 hlength, m, hm, (hbytes 8 (by decide)).1⟩

end CScriptNum

end X2XCoin
