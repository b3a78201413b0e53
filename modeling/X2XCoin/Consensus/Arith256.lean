import X2XCoin.Chain.Index
import X2XCoin.Lib.Limbs
import X2XCoin.Lib.Truncation

/-!
# Loops of `arith_uint256`

The multiplication by a `uint32_t`, the shifts and the search for the highest bit over the eight
limbs, the division, and the compact form of a number.
-/

namespace X2XCoin

/-! ## Multiplication and division -/

/-- `operator*=(uint32_t)`. -/
def mulAssign (a : Uint256) (b32 : UInt32) : Uint256 :=
  BitVec.ofNat 256 (Nat.ofDigits (2 ^ 32)
    (Limbs.mulSmall (2 ^ 32) b32.toNat 0 (Limbs.toLimbs (2 ^ 32) 8 a.toNat)))

theorem mulAssign_eq (a : Uint256) (b32 : UInt32) :
    mulAssign a b32 = a * BitVec.ofNat 256 b32.toNat := by
  have hlimbs := Limbs.toLimbs_lt (B := 2 ^ 32) (by decide) 8 a.toNat
  rw [mulAssign, Limbs.ofDigits_mulSmall b32.toNat_lt (by decide) hlimbs, Limbs.length_toLimbs,
    Limbs.ofDigits_toLimbs, ← pow_mul, Nat.mod_eq_of_lt a.isLt, add_zero]
  apply BitVec.eq_of_toNat_eq
  rw [BitVec.toNat_ofNat, Nat.mod_mod, BitVec.toNat_mul, BitVec.toNat_ofNat, Nat.mul_mod_mod]

/-- The loop of `operator/=`. -/
def divideLoop : ℕ → Uint256 → Uint256 → Uint256 → Uint256
  | 0, _, _, quotient => quotient
  | shift + 1, num, div, quotient =>
    if div ≤ num then
      divideLoop shift (num - div) (div >>> 1) (quotient ||| (1 : Uint256) <<< shift)
    else divideLoop shift num (div >>> 1) quotient

/-- `operator/=`; `none` if it throws. -/
def divAssign (num div : Uint256) : Option Uint256 :=
  if bits div = 0 then none
  else if bits num < bits div then some 0
  else
    let shift := bits num - bits div
    some (divideLoop (shift + 1) num (div <<< shift) 0)

variable {x : Uint256} {k : ℕ}

theorem toNat_divideLoop (hk : k ≤ 256) (num div quotient : Uint256) :
    (divideLoop k num div quotient).toNat =
      Limbs.shiftSubtract k num.toNat div.toNat quotient.toNat := by
  induction k generalizing num div quotient with
  | zero => rfl
  | succ k ih =>
    have hshift : ((1 : Uint256) <<< k).toNat = 2 ^ k := by
      rw [BitVec.toNat_shiftLeft, Nat.shiftLeft_eq]
      exact (congrArg (· % 2 ^ 256) (one_mul _)).trans
        (Nat.mod_eq_of_lt (Nat.pow_lt_pow_right (by decide) (by omega)))
    have hdiv : (div >>> 1).toNat = div.toNat / 2 := by
      rw [BitVec.toNat_ushiftRight, Nat.shiftRight_eq_div_pow, pow_one]
    rw [divideLoop, Limbs.shiftSubtract]
    split_ifs with hle hle' hle'
    · rw [ih (by omega), hdiv, BitVec.toNat_or, hshift, BitVec.toNat_sub_of_le hle]
    · exact absurd hle hle'
    · exact absurd hle' hle
    · rw [ih (by omega), hdiv]

theorem lt_pow_bits (x : Uint256) : x.toNat < 2 ^ bits x := by
  rw [bits]
  split_ifs with h
  · rw [h]
    decide
  · exact Nat.lt_log2_self

theorem pow_bits_le (hx : x ≠ 0) : 2 ^ (bits x - 1) ≤ x.toNat := by
  rw [bits, if_neg hx, Nat.add_sub_cancel]
  exact Nat.log2_self_le fun h => hx (BitVec.eq_of_toNat_eq h)

theorem bits_le (x : Uint256) : bits x ≤ 256 := by
  by_cases hx : x = 0
  · rw [bits, if_pos hx]
    omega
  · by_contra hlt
    have hle := pow_bits_le hx
    have hpow : 2 ^ 256 ≤ 2 ^ (bits x - 1) := Nat.pow_le_pow_right (by decide) (by omega)
    exact absurd x.isLt (by omega)

theorem bits_eq_zero_iff : bits x = 0 ↔ x = 0 := by
  by_cases h : x = 0
  · rw [bits, if_pos h]
    exact iff_of_true rfl h
  · rw [bits, if_neg h]
    exact iff_of_false (Nat.succ_ne_zero _) h

theorem divAssign_eq {num div : Uint256} (hdiv : div ≠ 0) :
    divAssign num div = some (num / div) := by
  have hpos : 0 < div.toNat := Nat.pos_of_ne_zero fun h => hdiv (BitVec.eq_of_toNat_eq h)
  rw [divAssign, if_neg (mt bits_eq_zero_iff.mp hdiv)]
  have hnum := lt_pow_bits num
  have hle := pow_bits_le hdiv
  split_ifs with hlt
  · have hpow : 2 ^ bits num ≤ 2 ^ (bits div - 1) := Nat.pow_le_pow_right (by decide) (by omega)
    rw [Option.some_inj]
    apply BitVec.eq_of_toNat_eq
    rw [BitVec.toNat_udiv, Nat.div_eq_of_lt (by omega)]
    rfl
  · have hbits := bits_le num
    have hdivbits := bits_eq_zero_iff.not.mpr hdiv
    -- the shifted divisor has as many bits as the number
    have hshifted : (div <<< (bits num - bits div)).toNat =
        div.toNat * 2 ^ (bits num - bits div) := by
      rw [BitVec.toNat_shiftLeft, Nat.shiftLeft_eq]
      refine Nat.mod_eq_of_lt ?_
      calc div.toNat * 2 ^ (bits num - bits div)
          < 2 ^ bits div * 2 ^ (bits num - bits div) :=
            Nat.mul_lt_mul_of_pos_right (lt_pow_bits div) (by positivity)
        _ = 2 ^ bits num := by rw [← pow_add, Nat.add_sub_cancel' (not_lt.mp hlt)]
        _ ≤ 2 ^ 256 := Nat.pow_le_pow_right (by decide) hbits
    have hbound : num.toNat < div.toNat * 2 ^ (bits num - bits div + 1) := by
      calc num.toNat < 2 ^ bits num := hnum
        _ = 2 ^ (bits div - 1) * 2 ^ (bits num - bits div + 1) := by
          rw [← pow_add]
          congr 1
          omega
        _ ≤ div.toNat * 2 ^ (bits num - bits div + 1) := Nat.mul_le_mul_right _ hle
    have hhalf : div.toNat * 2 ^ (bits num - bits div + 1) / 2 =
        div.toNat * 2 ^ (bits num - bits div) := by
      rw [pow_succ, ← mul_assoc, Nat.mul_div_cancel _ (by decide)]
    simp only [Option.some_inj]
    apply BitVec.eq_of_toNat_eq
    have hzero : (0 : Uint256).toNat = 0 := rfl
    rw [toNat_divideLoop (by omega), hshifted, ← hhalf, hzero,
      Limbs.shiftSubtract_eq hpos hbound (dvd_zero _), BitVec.toNat_udiv, zero_add]

/-! ## Shifts and the highest bit -/

/-- The limb `pn[i]`. -/
def limb (a : Uint256) (i : ℕ) : BitVec 32 := a.extractLsb' (32 * i) 32

/-- The number with the limbs `pn`. -/
def ofLimbs (pn : ℕ → BitVec 32) : Uint256 :=
  pn 7 ++ pn 6 ++ pn 5 ++ pn 4 ++ pn 3 ++ pn 2 ++ pn 1 ++ pn 0

theorem getLsbD_ofLimbs (pn : ℕ → BitVec 32) {m b : ℕ} (hm : m < 8) (hb : b < 32) :
    (ofLimbs pn).getLsbD (32 * m + b) = (pn m).getLsbD b := by
  rw [ofLimbs]
  interval_cases m <;> simp <;> grind

/-- `pn[i] |= limb` for each of `writes` in turn, from limbs that are zero. -/
def orLimbs (writes : List (ℕ × BitVec 32)) : ℕ → BitVec 32 :=
  writes.foldl (fun pn w => Function.update pn w.1 (pn w.1 ||| w.2)) fun _ => 0

theorem getLsbD_orLimbs (writes : List (ℕ × BitVec 32)) (m b : ℕ) :
    (orLimbs writes m).getLsbD b = true ↔ ∃ w ∈ writes, w.1 = m ∧ w.2.getLsbD b = true := by
  induction writes using List.reverseRecOn with
  | nil => simp [orLimbs]
  | append_singleton writes w ih =>
    rw [orLimbs, List.foldl_append, ← orLimbs, List.foldl_cons, List.foldl_nil]
    by_cases h : m = w.1
    · subst h
      simp [ih, or_and_right, exists_or]
    · rw [Function.update_of_ne h, ih]
      simp [or_and_right, exists_or, Ne.symm h]

/-- `operator<<=`. -/
def shiftLeftAssign (a : Uint256) (shift : ℕ) : Uint256 :=
  let k := shift / 32
  let s := shift % 32
  ofLimbs (orLimbs ((List.range 8).flatMap fun i =>
    (if i + k + 1 < 8 ∧ s ≠ 0 then [(i + k + 1, limb a i >>> (32 - s))] else []) ++
      if i + k < 8 then [(i + k, limb a i <<< s)] else []))

/-- `operator>>=`. -/
def shiftRightAssign (a : Uint256) (shift : ℕ) : Uint256 :=
  let k := shift / 32
  let s := shift % 32
  ofLimbs (orLimbs ((List.range 8).flatMap fun i =>
    (if k + 1 ≤ i ∧ s ≠ 0 then [(i - k - 1, limb a i <<< (32 - s))] else []) ++
      if k ≤ i then [(i - k, limb a i >>> s)] else []))

theorem getLsbD_limb_shiftLeft (a : Uint256) (i s b : ℕ) :
    (limb a i <<< s).getLsbD b = true ↔ b < 32 ∧ s ≤ b ∧ a.getLsbD (32 * i + b - s) = true := by
  rw [BitVec.getLsbD_shiftLeft, limb, BitVec.getLsbD_extractLsb']
  grind

theorem getLsbD_limb_ushiftRight (a : Uint256) (i s b : ℕ) :
    (limb a i >>> s).getLsbD b = true ↔ s + b < 32 ∧ a.getLsbD (32 * i + b + s) = true := by
  rw [BitVec.getLsbD_ushiftRight, limb, BitVec.getLsbD_extractLsb']
  grind

theorem shiftLeftAssign_eq (a : Uint256) (shift : ℕ) : shiftLeftAssign a shift = a <<< shift := by
  refine BitVec.eq_of_getLsbD_eq fun j hj => Bool.eq_iff_iff.mpr ?_
  obtain ⟨k, s, hs, rfl⟩ : ∃ k s, s < 32 ∧ shift = 32 * k + s :=
    ⟨shift / 32, shift % 32, by omega, by omega⟩
  obtain ⟨m, b, hb, rfl⟩ : ∃ m b, b < 32 ∧ j = 32 * m + b := ⟨j / 32, j % 32, by omega, by omega⟩
  rw [shiftLeftAssign, show (32 * k + s) / 32 = k by omega, show (32 * k + s) % 32 = s by omega,
    getLsbD_ofLimbs _ (by omega) hb, getLsbD_orLimbs, BitVec.getLsbD_shiftLeft]
  simp only [List.mem_flatMap, List.mem_range, List.mem_append, List.mem_ite_nil_right,
    List.mem_singleton]
  constructor
  · rintro ⟨w, ⟨i, -, ⟨-, rfl⟩ | ⟨-, rfl⟩⟩, rfl, hbit⟩
    · grind [getLsbD_limb_ushiftRight]
    · grind [getLsbD_limb_shiftLeft]
  · intro hbit
    have hle : 32 * k + s ≤ 32 * m + b := by grind
    by_cases hbs : b < s
    · refine ⟨_, ⟨m - k - 1, by omega, .inl ⟨⟨by omega, by omega⟩, rfl⟩⟩, by grind, ?_⟩
      grind [getLsbD_limb_ushiftRight]
    · refine ⟨_, ⟨m - k, by omega, .inr ⟨by omega, rfl⟩⟩, by grind, ?_⟩
      grind [getLsbD_limb_shiftLeft]

theorem shiftRightAssign_eq (a : Uint256) (shift : ℕ) :
    shiftRightAssign a shift = a >>> shift := by
  refine BitVec.eq_of_getLsbD_eq fun j hj => Bool.eq_iff_iff.mpr ?_
  obtain ⟨k, s, hs, rfl⟩ : ∃ k s, s < 32 ∧ shift = 32 * k + s :=
    ⟨shift / 32, shift % 32, by omega, by omega⟩
  obtain ⟨m, b, hb, rfl⟩ : ∃ m b, b < 32 ∧ j = 32 * m + b := ⟨j / 32, j % 32, by omega, by omega⟩
  rw [shiftRightAssign, show (32 * k + s) / 32 = k by omega, show (32 * k + s) % 32 = s by omega,
    getLsbD_ofLimbs _ (by omega) hb, getLsbD_orLimbs, BitVec.getLsbD_ushiftRight]
  simp only [List.mem_flatMap, List.mem_range, List.mem_append, List.mem_ite_nil_right,
    List.mem_singleton]
  constructor
  · rintro ⟨w, ⟨i, -, ⟨hi, rfl⟩ | ⟨hi, rfl⟩⟩, rfl, hbit⟩
    · grind [getLsbD_limb_shiftLeft]
    · grind [getLsbD_limb_ushiftRight]
  · intro hbit
    have hlt : 32 * k + s + (32 * m + b) < 256 := BitVec.lt_of_getLsbD hbit
    by_cases hbs : b + s < 32
    · refine ⟨_, ⟨m + k, by omega, .inr ⟨by omega, rfl⟩⟩, by grind, ?_⟩
      grind [getLsbD_limb_ushiftRight]
    · refine ⟨_, ⟨m + k + 1, by omega, .inl ⟨⟨by omega, by omega⟩, rfl⟩⟩, by grind, ?_⟩
      grind [getLsbD_limb_shiftLeft]

/-- The inner loop of `bits`, from bit `k` of a limb that is not zero. -/
def limbBits (w : BitVec 32) : ℕ → ℕ
  | 0 => 1
  | k + 1 => if w.getLsbD (k + 1) then k + 2 else limbBits w k

/-- The loop of `bits` over the limbs below `pos`. -/
def bitsLoop (a : Uint256) : ℕ → ℕ
  | 0 => 0
  | pos + 1 => if limb a pos ≠ 0 then 32 * pos + limbBits (limb a pos) 31 else bitsLoop a pos

theorem limbBits_eq {w : BitVec 32} (hw : w ≠ 0) (hlt : w.toNat < 2 ^ (k + 1)) :
    limbBits w k = w.toNat.log2 + 1 := by
  have hne : w.toNat ≠ 0 := fun h => hw (BitVec.eq_of_toNat_eq h)
  induction k with
  | zero =>
    rw [show w.toNat = 1 by omega]
    rfl
  | succ k ih =>
    rw [limbBits]
    split_ifs with hbit
    · have hge : 2 ^ (k + 1) ≤ w.toNat := Nat.ge_two_pow_of_testBit hbit
      rw [(Nat.log2_eq_iff hne).mpr ⟨hge, hlt⟩]
    · refine ih (Nat.lt_pow_two_of_testBit _ fun j hj => ?_)
      obtain rfl | hj := eq_or_lt_of_le hj
      · exact Bool.not_eq_true _ ▸ hbit
      · exact Nat.testBit_lt_two_pow (hlt.trans_le (Nat.pow_le_pow_right (by decide) hj))

theorem bitsLoop_eq {a : Uint256} {pos : ℕ} (hlt : a.toNat < 2 ^ (32 * pos)) :
    bitsLoop a pos = bits a := by
  induction pos with
  | zero =>
    have ha : a = 0 := BitVec.eq_of_toNat_eq (by simpa using hlt)
    rw [bitsLoop, bits, if_pos ha]
  | succ pos ih =>
    have hpow : 2 ^ (32 * (pos + 1)) = 2 ^ 32 * 2 ^ (32 * pos) := by ring
    have hlimb : (limb a pos).toNat = a.toNat / 2 ^ (32 * pos) := by
      rw [limb, BitVec.extractLsb'_toNat, Nat.shiftRight_eq_div_pow]
      exact Nat.mod_eq_of_lt ((Nat.div_lt_iff_lt_mul (by positivity)).mpr (hpow ▸ hlt))
    rw [bitsLoop]
    split_ifs with h
    · have hne : a.toNat / 2 ^ (32 * pos) ≠ 0 :=
        fun h0 => h (BitVec.eq_of_toNat_eq (hlimb.trans h0))
      have hle : 2 ^ (32 * pos) ≤ a.toNat := not_lt.mp fun hlt => hne (Nat.div_eq_of_lt hlt)
      have ha : a.toNat ≠ 0 := fun h0 => hne (by rw [h0, Nat.zero_div])
      have hlog := (Nat.le_log2 ha).mpr hle
      rw [Nat.log2_eq_log_two] at hlog
      rw [limbBits_eq h (limb a pos).isLt, hlimb, bits, if_neg fun h0 => ha (by rw [h0]; rfl),
        Nat.log2_eq_log_two, Nat.log2_eq_log_two, Nat.log_div_base_pow]
      omega
    · have h0 := hlimb.symm.trans (congrArg BitVec.toNat (not_not.mp h))
      exact ih ((Nat.div_eq_zero_iff_lt (by positivity)).mp h0)

/-! ## The compact form -/

open Truncation

theorem two_pow_eight_mul (k : ℕ) : 2 ^ (8 * k) = 256 ^ k := by
  rw [pow_mul]
  norm_num

theorem toNat_setCompact (nCompact : UInt32) :
    (setCompact nCompact).target.toNat =
      if nCompact.toNat / 2 ^ 24 ≤ 3 then
        nCompact.toNat % 2 ^ 23 / 256 ^ (3 - nCompact.toNat / 2 ^ 24)
      else nCompact.toNat % 2 ^ 23 * 256 ^ (nCompact.toNat / 2 ^ 24 - 3) % 2 ^ 256 := by
  have hword : nCompact.toNat % 2 ^ 23 < 2 ^ 256 :=
    (Nat.mod_lt _ (by decide)).trans (by decide)
  rw [setCompact]
  split_ifs with hsize
  · simp only [BitVec.toNat_ofNat, two_pow_eight_mul]
    exact Nat.mod_eq_of_lt ((Nat.div_le_self _ _).trans_lt hword)
  · simp only [BitVec.toNat_shiftLeft, BitVec.toNat_ofNat, Nat.mod_eq_of_lt hword,
      Nat.shiftLeft_eq, two_pow_eight_mul]

theorem toNat_lt_bytes (x : Uint256) : x.toNat < 256 ^ ((bits x + 7) / 8) := by
  rw [← two_pow_eight_mul]
  exact (lt_pow_bits x).trans_le (Nat.pow_le_pow_right (by decide) (by omega))

theorem bytes_le_toNat (hx : x ≠ 0) : 256 ^ ((bits x + 7) / 8 - 1) ≤ x.toNat := by
  have hbits := bits_eq_zero_iff.not.mpr hx
  rw [← two_pow_eight_mul]
  exact (Nat.pow_le_pow_right (by decide) (by omega)).trans (pow_bits_le hx)

theorem toNat_compact {mantissa size : ℕ} (hmantissa : mantissa < 2 ^ 23) (hsize : size ≤ 33) :
    (UInt32.ofNat (mantissa + size * 2 ^ 24)).toNat = mantissa + size * 2 ^ 24 := by
  rw [UInt32.toNat_ofNat']
  omega

theorem getCompact_spec (x : Uint256) : ∃ mantissa size,
    (getCompact x).toNat = mantissa + size * 2 ^ 24 ∧ mantissa < 2 ^ 23 ∧
      exponent 256 (2 ^ 23) x.toNat = size - 3 ∧
      mantissa = if size ≤ 3 then x.toNat * 256 ^ (3 - size) else x.toNat / 256 ^ (size - 3) := by
  have hlt := toNat_lt_bytes x
  have hbits := bits_le x
  have hexp : ∀ {k : ℕ}, x.toNat / 256 ^ k < 2 ^ 23 → (k = 0 ∨ 2 ^ 23 ≤ x.toNat / 256 ^ (k - 1)) →
      exponent 256 (2 ^ 23) x.toNat = k := exponent_eq (by decide) (by decide)
  rw [getCompact]
  generalize hn : (bits x + 7) / 8 = n at hlt ⊢
  have hn32 : n ≤ 32 := by omega
  simp only [two_pow_eight_mul]
  by_cases hsmall : n ≤ 3
  · have hmantissa : x.toNat * 256 ^ (3 - n) < 2 ^ 24 := by
      calc x.toNat * 256 ^ (3 - n) < 256 ^ n * 256 ^ (3 - n) :=
            Nat.mul_lt_mul_of_pos_right hlt (by positivity)
        _ = 2 ^ 24 := by
          rw [← pow_add, Nat.add_sub_cancel' hsmall]
          rfl
    have hle : x.toNat ≤ x.toNat * 256 ^ (3 - n) := Nat.le_mul_of_pos_right _ (by positivity)
    have hmod : x.toNat % 2 ^ 64 * 256 ^ (3 - n) % 2 ^ 32 = x.toNat * 256 ^ (3 - n) := by
      rw [Nat.mod_eq_of_lt (by omega : x.toNat < 2 ^ 64), Nat.mod_eq_of_lt (by omega)]
    rw [if_pos hsmall, hmod]
    split_ifs with hsign
    · by_cases hthree : n = 3
      · rw [hthree, Nat.sub_self, pow_zero, mul_one] at hmantissa hsign ⊢
        refine ⟨x.toNat / 2 ^ 8, 4, toNat_compact (by omega) (by omega), by omega,
          hexp (by omega) (.inr ?_), rfl⟩
        rw [Nat.sub_self, pow_zero, Nat.div_one]
        omega
      · have hdrop : x.toNat * 256 ^ (3 - n) / 2 ^ 8 = x.toNat * 256 ^ (3 - (n + 1)) := by
          rw [show 3 - n = 3 - (n + 1) + 1 by omega, pow_succ, ← mul_assoc]
          exact Nat.mul_div_cancel _ (by decide)
        have hbyte : x.toNat < 2 ^ 16 :=
          hlt.trans_le (Nat.pow_le_pow_right (by decide) (by omega : n ≤ 2))
        refine ⟨x.toNat * 256 ^ (3 - n) / 2 ^ 8, n + 1, toNat_compact (by omega) (by omega),
          by omega, ?_, ?_⟩
        · rw [show n + 1 - 3 = 0 by omega]
          exact hexp (by rw [pow_zero, Nat.div_one]; omega) (.inl rfl)
        · rw [if_pos (by omega), hdrop]
    · refine ⟨x.toNat * 256 ^ (3 - n), n, toNat_compact (by omega) (by omega), by omega, ?_, ?_⟩
      · rw [show n - 3 = 0 by omega]
        exact hexp (by rw [pow_zero, Nat.div_one]; omega) (.inl rfl)
      · rw [if_pos hsmall]
  · have hx : x ≠ 0 := by
      rintro rfl
      exact hsmall (by rw [← hn, bits_eq_zero_iff.mpr rfl]; decide)
    have hmantissa : x.toNat / 256 ^ (n - 3) < 2 ^ 24 := by
      rw [Nat.div_lt_iff_lt_mul (by positivity)]
      calc x.toNat < 256 ^ n := hlt
        _ = 2 ^ 24 * 256 ^ (n - 3) := by
          rw [show (2 : ℕ) ^ 24 = 256 ^ 3 by rfl, ← pow_add, Nat.add_sub_cancel' (by omega)]
    have hdrop : x.toNat / 256 ^ (n - 3) / 2 ^ 8 = x.toNat / 256 ^ (n + 1 - 3) := by
      rw [Nat.div_div_eq_div_mul, show (2 : ℕ) ^ 8 = 256 by rfl, ← pow_succ,
        show n - 3 + 1 = n + 1 - 3 by omega]
    have hmod : x.toNat / 256 ^ (n - 3) % 2 ^ 32 = x.toNat / 256 ^ (n - 3) :=
      Nat.mod_eq_of_lt (by omega)
    rw [if_neg hsmall, hmod]
    split_ifs with hsign
    · refine ⟨x.toNat / 256 ^ (n - 3) / 2 ^ 8, n + 1, toNat_compact (by omega) (by omega), by omega,
        hexp (by omega) (.inr ?_), ?_⟩
      · rw [show n + 1 - 3 - 1 = n - 3 by omega]
        omega
      · rw [if_neg (by omega), hdrop]
    · refine ⟨x.toNat / 256 ^ (n - 3), n, toNat_compact (by omega) (by omega), by omega,
        hexp (by omega) (.inr ?_), ?_⟩
      · have hle := bytes_le_toNat hx
        rw [hn] at hle
        rw [Nat.le_div_iff_mul_le (by positivity)]
        calc 2 ^ 23 * 256 ^ (n - 3 - 1) ≤ 256 ^ 3 * 256 ^ (n - 3 - 1) :=
              Nat.mul_le_mul_right _ (by decide)
          _ = 256 ^ (n - 1) := by
            rw [← pow_add]
            congr 1
            omega
          _ ≤ x.toNat := hle
      · rw [if_neg hsmall]

theorem toNat_setCompact_getCompact (x : Uint256) :
    (setCompact (getCompact x)).target.toNat = truncate 256 (2 ^ 23) x.toNat := by
  obtain ⟨mantissa, size, heq, hmantissa, hexp, hval⟩ := getCompact_spec x
  have hsize : (mantissa + size * 2 ^ 24) / 2 ^ 24 = size := by omega
  have hword : (mantissa + size * 2 ^ 24) % 2 ^ 23 = mantissa := by omega
  rw [toNat_setCompact, heq, hsize, hword, truncate, hexp, hval]
  split_ifs with hsmall
  · rw [Nat.mul_div_cancel _ (by positivity), show size - 3 = 0 by omega, pow_zero, Nat.div_one,
      mul_one]
  · exact Nat.mod_eq_of_lt ((Nat.div_mul_le_self _ _).trans_lt x.isLt)

/-- A target that is not too large was written without an overflow. -/
theorem exists_setCompact_eq {nCompact : UInt32} (hpos : 0 < (setCompact nCompact).target.toNat)
    (hlt : (setCompact nCompact).target.toNat < 2 ^ 240) :
    ∃ mantissa < 2 ^ 23, ∃ j, (setCompact nCompact).target.toNat = mantissa * 256 ^ j := by
  rw [toNat_setCompact] at hpos hlt ⊢
  have hword : nCompact.toNat % 2 ^ 23 < 2 ^ 23 := Nat.mod_lt _ (by decide)
  generalize nCompact.toNat % 2 ^ 23 = word at hpos hlt hword ⊢
  generalize nCompact.toNat / 2 ^ 24 = size at hpos hlt ⊢
  split_ifs at hpos hlt ⊢ with hsmall
  · exact ⟨_, (Nat.div_le_self _ _).trans_lt hword, 0, by rw [pow_zero, mul_one]⟩
  · refine ⟨word, hword, size - 3, Nat.mod_eq_of_lt ?_⟩
    by_cases hbig : size - 3 < 30
    · calc word * 256 ^ (size - 3) < 2 ^ 23 * 256 ^ (size - 3) :=
            Nat.mul_lt_mul_of_pos_right hword (by positivity)
        _ ≤ 2 ^ 23 * 256 ^ 29 :=
          Nat.mul_le_mul_left _ (Nat.pow_le_pow_right (by decide) (by omega))
        _ ≤ 2 ^ 256 := by decide
    · -- every multiple of `256 ^ 30` that is left is too large
      have hdvd : 2 ^ 240 ∣ word * 256 ^ (size - 3) % 2 ^ 256 := by
        refine (Nat.dvd_mod_iff (by decide)).mpr ?_
        rw [show (2 : ℕ) ^ 240 = 256 ^ 30 by decide]
        exact (pow_dvd_pow 256 (by omega)).mul_left word
      exact absurd (Nat.le_of_dvd hpos hdvd) (by omega)

/-! ## Canonical encodings -/

theorem bits_le_iff : bits x ≤ k ↔ x.toNat < 2 ^ k := by
  constructor
  · exact fun h => (lt_pow_bits x).trans_le (Nat.pow_le_pow_right (by decide) h)
  · intro h
    by_contra hgt
    have hx : x ≠ 0 := bits_eq_zero_iff.not.mp (by omega)
    have hpow : 2 ^ k ≤ 2 ^ (bits x - 1) := Nat.pow_le_pow_right (by decide) (by omega)
    exact absurd (hpow.trans (pow_bits_le hx)) (by omega)

/-- `x` with all but its top `k` significant bits cleared. -/
def keepTop (k : ℕ) (x : Uint256) : Uint256 := x >>> (bits x - k) <<< (bits x - k)

theorem toNat_keepTop (k : ℕ) (x : Uint256) :
    (keepTop k x).toNat = x.toNat / 2 ^ (bits x - k) * 2 ^ (bits x - k) := by
  rw [keepTop, BitVec.toNat_shiftLeft, BitVec.toNat_ushiftRight, Nat.shiftRight_eq_div_pow,
    Nat.shiftLeft_eq]
  exact Nat.mod_eq_of_lt ((Nat.div_mul_le_self _ _).trans_lt x.isLt)

/-- The mantissa has at least 16 bits unless nothing was dropped. -/
theorem exists_keepTop (x : Uint256) : ∃ k, 16 ≤ k ∧ k ≤ 23 ∧
    (setCompact (getCompact x)).target = keepTop k x := by
  have hlt := Nat.lt_mul_of_div_lt
    (div_pow_exponent_lt (B := 256) (M := 2 ^ 23) (by decide) (by decide) x.toNat) (by positivity)
  suffices h : ∃ k, 16 ≤ k ∧ k ≤ 23 ∧ bits x - k = 8 * exponent 256 (2 ^ 23) x.toNat by
    obtain ⟨k, hge, hle, hk⟩ := h
    refine ⟨k, hge, hle, BitVec.eq_of_toNat_eq ?_⟩
    rw [toNat_setCompact_getCompact, truncate, toNat_keepTop, hk, two_pow_eight_mul]
  rw [← two_pow_eight_mul, ← pow_add, ← bits_le_iff] at hlt
  cases he : exponent 256 (2 ^ 23) x.toNat with
  | zero => exact ⟨23, by omega⟩
  | succ e =>
    have hge := le_div_of_lt_exponent (B := 256) (M := 2 ^ 23) (by decide) (by decide)
      (show e < exponent 256 (2 ^ 23) x.toNat by omega)
    rw [Nat.le_div_iff_mul_le (by positivity), ← two_pow_eight_mul, ← pow_add, ← not_lt,
      ← bits_le_iff] at hge
    exact ⟨bits x - 8 * (e + 1), by omega⟩

theorem getCompact_setCompact_getCompact (x : Uint256) :
    getCompact (setCompact (getCompact x)).target = getCompact x := by
  have heq := toNat_setCompact_getCompact x
  generalize (setCompact (getCompact x)).target = y at heq ⊢
  have hexp : exponent 256 (2 ^ 23) y.toNat = exponent 256 (2 ^ 23) x.toNat := by
    rw [heq, exponent_truncate (by decide) (by decide) (by decide)]
  obtain hzero | hpos := Nat.eq_zero_or_pos (exponent 256 (2 ^ 23) x.toNat)
  · rw [truncate, hzero, pow_zero, Nat.div_one, mul_one] at heq
    rw [BitVec.eq_of_toNat_eq heq]
  · obtain ⟨mantissa, size, hx, -, hsize, hmantissa⟩ := getCompact_spec x
    obtain ⟨mantissa', size', hy, -, hsize', hmantissa'⟩ := getCompact_spec y
    obtain rfl : size' = size := by omega
    rw [if_neg (by omega)] at hmantissa hmantissa'
    have hdiv : mantissa' = mantissa := by
      rw [hmantissa', hmantissa, heq, truncate, hsize, Nat.mul_div_cancel _ (by positivity)]
    exact UInt32.toNat_inj.mp (by rw [hx, hy, hdiv])

theorem flags_getCompact (x : Uint256) :
    (setCompact (getCompact x)).fNegative = false ∧
      (setCompact (getCompact x)).fOverflow = false := by
  obtain ⟨mantissa, size, heq, hlt, hexp, hval⟩ := getCompact_spec x
  have hx : x.toNat / 256 ^ 30 < 2 ^ 16 := by
    rw [Nat.div_lt_iff_lt_mul (by positivity)]
    exact x.isLt.trans_le (by decide)
  have hsize : size - 3 ≤ 30 := hexp ▸ exponent_le (hx.trans (by decide))
  have hsmall : size = 33 → mantissa < 2 ^ 16 := by
    rintro rfl
    rwa [hval]
  have hdiv : (mantissa + size * 2 ^ 24) / 2 ^ 24 = size := by omega
  have hmod : (mantissa + size * 2 ^ 24) % 2 ^ 23 = mantissa := by omega
  have hbit : (mantissa + size * 2 ^ 24) / 2 ^ 23 % 2 ≠ 1 := by omega
  rw [setCompact, heq, hdiv, hmod]
  split_ifs with h3
  · exact ⟨decide_eq_false fun h => hbit h.2, rfl⟩
  · refine ⟨decide_eq_false fun h => hbit h.2, decide_eq_false ?_⟩
    omega

theorem exists_mantissa {nCompact : UInt32} (h : (setCompact nCompact).fOverflow = false) :
    ∃ mantissa < 2 ^ 23, ∃ j, (setCompact nCompact).target.toNat = mantissa * 256 ^ j := by
  rw [toNat_setCompact]
  rw [setCompact] at h
  have hword : nCompact.toNat % 2 ^ 23 < 2 ^ 23 := Nat.mod_lt _ (by decide)
  generalize nCompact.toNat % 2 ^ 23 = word at h hword ⊢
  generalize nCompact.toNat / 2 ^ 24 = size at h ⊢
  split_ifs at h ⊢ with hsmall
  · exact ⟨_, (Nat.div_le_self _ _).trans_lt hword, 0, by rw [pow_zero, mul_one]⟩
  · refine ⟨word, hword, size - 3, Nat.mod_eq_of_lt ?_⟩
    have hsize : word ≠ 0 → size ≤ 34 ∧ (0xff < word → size ≤ 33) ∧ (0xffff < word → size ≤ 32) := by
      have := of_decide_eq_false h
      omega
    have hbound : ∀ {b e : ℕ}, word < 2 ^ b → size - 3 ≤ e → b + 8 * e ≤ 256 →
        word * 256 ^ (size - 3) < 2 ^ 256 := by
      intro b e hb he hle
      calc word * 256 ^ (size - 3) < 2 ^ b * 256 ^ (size - 3) :=
            Nat.mul_lt_mul_of_pos_right hb (by positivity)
        _ ≤ 2 ^ b * 256 ^ e := Nat.mul_le_mul_left _ (Nat.pow_le_pow_right (by decide) he)
        _ = 2 ^ (b + 8 * e) := by rw [pow_add, two_pow_eight_mul]
        _ ≤ 2 ^ 256 := Nat.pow_le_pow_right (by decide) hle
    by_cases hzero : word = 0
    · rw [hzero, zero_mul]
      decide
    · obtain ⟨h34, h33, h32⟩ := hsize hzero
      by_cases hff : word ≤ 0xff
      · exact hbound (b := 8) (e := 31) (by omega) (by omega) (by decide)
      · by_cases hffff : word ≤ 0xffff
        · exact hbound (b := 16) (e := 30) (by omega) (by omega) (by decide)
        · exact hbound (b := 23) (e := 29) (by omega) (by omega) (by decide)

/-- Compact targets are canonical: encoding and decoding clears all but the top 16 to 23 bits, is
monotone and changes neither an encoding nor a number that was decoded without a flag.  The shifts
and the highest bit are what the loops over the limbs compute. -/
theorem compact_canonical :
    (∀ (a : Uint256) (shift : ℕ), shiftLeftAssign a shift = a <<< shift ∧
      shiftRightAssign a shift = a >>> shift ∧ bitsLoop a 8 = bits a) ∧
    (∀ x : Uint256, let decoded := setCompact (getCompact x)
      (∃ k, 16 ≤ k ∧ k ≤ 23 ∧ decoded.target = keepTop k x) ∧ decoded.target ≤ x ∧
        (bits x ≤ 16 → decoded.target = x) ∧ getCompact decoded.target = getCompact x ∧
        decoded.fNegative = false ∧ decoded.fOverflow = false) ∧
      (∀ x y : Uint256, x ≤ y →
        (setCompact (getCompact x)).target ≤ (setCompact (getCompact y)).target) ∧
      ∀ c : UInt32, (setCompact c).fNegative = false → (setCompact c).fOverflow = false →
        (setCompact (getCompact (setCompact c).target)).target = (setCompact c).target := by
  refine ⟨fun a shift => ⟨shiftLeftAssign_eq a shift, shiftRightAssign_eq a shift,
    bitsLoop_eq a.isLt⟩, fun x => ⟨exists_keepTop x, ?_, fun h => ?_,
    getCompact_setCompact_getCompact x, flags_getCompact x⟩, fun x y hxy => ?_, fun c _ h => ?_⟩
  · rw [BitVec.le_def, toNat_setCompact_getCompact]
    exact truncate_le _ _ _
  · obtain ⟨k, hk, -, heq⟩ := exists_keepTop x
    rw [heq, keepTop, Nat.sub_eq_zero_of_le (h.trans hk), BitVec.ushiftRight_zero,
      BitVec.shiftLeft_zero]
  · rw [BitVec.le_def, toNat_setCompact_getCompact, toNat_setCompact_getCompact]
    exact truncate_mono (by decide) (by decide) (by decide) hxy
  · obtain ⟨mantissa, hlt, j, heq⟩ := exists_mantissa h
    refine BitVec.eq_of_toNat_eq ?_
    rw [toNat_setCompact_getCompact, heq, truncate_mul_pow (by decide) (by decide) hlt]

/-- The proof-of-work limit written in the genesis block. -/
theorem compact_canonical_genesis :
    (setCompact (getCompact (setCompact 0x1e0fffff).target)).target =
      (setCompact 0x1e0fffff).target :=
  compact_canonical.2.2.2 0x1e0fffff (by decide) (by decide)

end X2XCoin
