import X2XCoin.Coins.Compressor
import X2XCoin.Primitives.Amount

/-!
# Compressed amounts

`CompressAmount` and `DecompressAmount` compute modulo `2 ^ 64`.  As maps of natural numbers they
are inverse to each other.
-/

namespace X2XCoin

/-- The compressed form of `m * 10 ^ e`, as a natural number. -/
def compressedForm (m e : ℕ) : ℕ :=
  if e < 9 then 1 + (m / 10 * 9 + m % 10 - 1) * 10 + e else 1 + (m - 1) * 10 + 9

/-- The amount with compressed form `x`, as a natural number. -/
def decompressedForm (x : ℕ) : ℕ :=
  if x = 0 then 0
  else
    let e := (x - 1) % 10
    let x := (x - 1) / 10
    (if e < 9 then x / 9 * 10 + (x % 9 + 1) else x + 1) * 10 ^ e

/-- The number of trailing zeros was chosen as `CompressAmount` does. -/
structure Stripped (m e : ℕ) : Prop where
  pos : 0 < m
  le : e ≤ 9
  digit : e < 9 → m % 10 ≠ 0

theorem Stripped.decompressedForm_compressedForm {m e : ℕ} (h : Stripped m e) :
    decompressedForm (compressedForm m e) = m * 10 ^ e := by
  have hpos := h.pos
  rcases lt_or_ge e 9 with he | he
  · have hdigit := h.digit he
    have hform : compressedForm m e = 1 + (m / 10 * 9 + m % 10 - 1) * 10 + e := if_pos he
    have hexp : (compressedForm m e - 1) % 10 = e := by omega
    have hrest : (compressedForm m e - 1) / 10 = m / 10 * 9 + m % 10 - 1 := by omega
    rw [decompressedForm, if_neg (by omega)]
    simp only [hexp, hrest, if_pos he]
    congr 1
    omega
  · obtain rfl : e = 9 := le_antisymm h.le he
    have hform : compressedForm m 9 = 1 + (m - 1) * 10 + 9 := rfl
    have hexp : (compressedForm m 9 - 1) % 10 = 9 := by omega
    have hrest : (compressedForm m 9 - 1) / 10 = m - 1 := by omega
    rw [decompressedForm, if_neg (by omega)]
    simp only [hexp, hrest]
    norm_num
    omega

/-! ## The functions on 64 bits -/

theorem stripZeros_spec (k : ℕ) (n : UInt64) (e : ℕ) (hn : n ≠ 0) :
    ∃ m j, stripZeros k n e = (m, e + j) ∧ j ≤ k ∧ m ≠ 0 ∧ n.toNat = m.toNat * 10 ^ j ∧
      (j < k → m.toNat % 10 ≠ 0) := by
  induction k generalizing n e with
  | zero => exact ⟨n, 0, rfl, le_rfl, hn, by simp, by simp⟩
  | succ k ih =>
    have hten : (n % 10 = 0) ↔ n.toNat % 10 = 0 := by
      rw [← UInt64.toNat_inj]
      simp
    by_cases hzero : n % 10 = 0
    · have hmod := hten.mp hzero
      have hdiv : (n / 10).toNat = n.toNat / 10 := by simp
      have hpos : n.toNat ≠ 0 := fun h => hn (UInt64.toNat_inj.mp h)
      have hne : n / 10 ≠ 0 := by
        intro h
        have := congrArg UInt64.toNat h
        simp only [hdiv, UInt64.toNat_zero] at this
        omega
      obtain ⟨m, j, hstrip, hj, hm, hval, hdigit⟩ := ih (n / 10) (e + 1) hne
      refine ⟨m, j + 1, ?_, by omega, hm, ?_, fun h => hdigit (by omega)⟩
      · rw [stripZeros, if_pos hzero, hstrip, Nat.add_right_comm, Nat.add_assoc]
      · rw [pow_succ, ← mul_assoc, ← hval, hdiv]
        omega
    · refine ⟨n, 0, by rw [stripZeros, if_neg hzero]; rfl, by omega, hn, by simp, fun _ => ?_⟩
      exact fun h => hzero (hten.mpr h)

theorem toNat_compressAmount (n : UInt64) (hn : n ≠ 0) :
    ∃ m e, Stripped m e ∧ n.toNat = m * 10 ^ e ∧
      (compressAmount n).toNat = compressedForm m e % 2 ^ 64 := by
  obtain ⟨m, e, hstrip, he, hm, hval, hdigit⟩ := stripZeros_spec 9 n 0 hn
  rw [Nat.zero_add] at hstrip
  have hpos : 0 < m.toNat := Nat.pos_of_ne_zero fun h => hm (UInt64.toNat_inj.mp h)
  have hlt := m.toNat_lt
  refine ⟨m.toNat, e, ⟨hpos, he, hdigit⟩, hval, ?_⟩
  rw [compressAmount, if_neg hn, hstrip]
  simp only [compressedForm]
  split_ifs with hlast
  · have hdigit := hdigit hlast
    simp only [UInt64.toNat_add, UInt64.toNat_mul, UInt64.toNat_sub, UInt64.toNat_div,
      UInt64.toNat_mod, UInt64.toNat_ofNat, UInt64.toNat_ofNat', Nat.reducePow, Nat.reduceMod]
    omega
  · simp only [UInt64.toNat_add, UInt64.toNat_mul, UInt64.toNat_sub, UInt64.toNat_ofNat,
      Nat.reducePow, Nat.reduceMod]
    omega

theorem toNat_ten_pow (k : ℕ) : ((10 : UInt64) ^ k).toNat = 10 ^ k % 2 ^ 64 := by
  induction k with
  | zero => rfl
  | succ k ih => rw [UInt64.pow_succ, UInt64.toNat_mul, ih, pow_succ, Nat.mod_mul_mod]; rfl

theorem toNat_decompressAmount (x : UInt64) :
    (decompressAmount x).toNat = decompressedForm x.toNat % 2 ^ 64 := by
  by_cases hx : x = 0
  · subst hx
    rfl
  · have hpos : x.toNat ≠ 0 := fun h => hx (UInt64.toNat_inj.mp h)
    have hlt := x.toNat_lt
    have hpred : (x - 1).toNat = x.toNat - 1 := by
      simp only [UInt64.toNat_sub, UInt64.toNat_one]
      omega
    have hlast : ((x - 1) % 10 < 9) ↔ (x.toNat - 1) % 10 < 9 := by
      rw [UInt64.lt_iff_toNat_lt]
      simp [hpred]
    have hexp : ((x - 1) % 10).toNat = (x.toNat - 1) % 10 := by simp [hpred]
    rw [decompressAmount, if_neg hx, decompressedForm, if_neg hpos]
    simp only [UInt64.toNat_mul, hexp, hlast, toNat_ten_pow, Nat.mul_mod_mod]
    congr 2
    split_ifs
    · simp only [UInt64.toNat_add, UInt64.toNat_mul, UInt64.toNat_div, UInt64.toNat_mod, hpred,
        UInt64.toNat_ofNat, Nat.reducePow, Nat.reduceMod]
      omega
    · simp only [UInt64.toNat_add, UInt64.toNat_div, hpred, UInt64.toNat_ofNat, Nat.reducePow,
        Nat.reduceMod]
      omega

/-! ## Which amounts are stored without loss -/

theorem Stripped.compressedForm_lt_iff {m e : ℕ} (h : Stripped m e) (hlt : m * 10 ^ e < 2 ^ 63) :
    compressedForm m e < 2 ^ 64 ↔
      m * 10 ^ e % 10 = 0 ∨ 9 * (m * 10 ^ e) + m * 10 ^ e % 10 < 2 ^ 64 + 9 := by
  have hpos := h.pos
  cases e with
  | zero =>
    have hdigit := h.digit (by norm_num)
    have hform : compressedForm m 0 = 1 + (m / 10 * 9 + m % 10 - 1) * 10 + 0 := rfl
    rw [hform, pow_zero, mul_one]
    omega
  | succ e =>
    have hten : m * 10 ^ (e + 1) = m * 10 ^ e * 10 := by ring
    have hle : m ≤ m * 10 ^ e := Nat.le_mul_of_pos_right m (by positivity)
    have he := h.le
    refine iff_of_true ?_ (.inl (by omega))
    rw [compressedForm]
    split_ifs <;> omega

/-- The congruence that an amount with last digit `d` has to satisfy to come back after its
compressed form was reduced, solved with the inverse `i`: the solution is not an amount in range.
`E` is the power of ten and `v` the offset that the reduced form has. -/
def NoReturn (E v d i : ℤ) : Prop :=
  let K := d - (10 * (v / 9) + v % 9 + 1) * E
  K % 2 = 1 ∨ (i * (K / 2)) % 2 ^ 63 < -(v / 9) ∨ 2 ^ 63 ≤ 10 * ((i * (K / 2)) % 2 ^ 63) + d

theorem NoReturn.ne {E v d i s q t : ℤ} (hbad : NoReturn E v d i)
    (hinv : i * (5 * (E - 1)) = 1 + s * 2 ^ 63) (hd : 0 ≤ d) (hv : v ≤ 0) (hq : -(v / 9) ≤ q)
    (hm : 10 * q + d < 2 ^ 63) :
    ((q + v / 9) * 10 + (v % 9 + 1)) * E ≠ 10 * q + d + 2 ^ 64 * t := by
  intro h
  simp only [NoReturn] at hbad
  generalize hK : d - (10 * (v / 9) + v % 9 + 1) * E = K at hbad
  have hlin : 10 * (E - 1) * q = K + 2 ^ 64 * t := by
    rw [← hK]
    linear_combination h
  have heven : K % 2 = 0 := by
    have : K = 2 * (5 * (E - 1) * q - 2 ^ 63 * t) := by linear_combination -hlin
    omega
  obtain ⟨b, rfl⟩ : ∃ b, K = 2 * b := ⟨K / 2, by omega⟩
  have hhalf : 2 * b / 2 = b := by omega
  rw [hhalf] at hbad
  have hsol : q = i * b + 2 ^ 63 * (i * t - s * q) := by
    have : 5 * (E - 1) * q = b + 2 ^ 63 * t := by linarith
    linear_combination i * this - q * hinv
  have hmod : q % 2 ^ 63 = (i * b) % 2 ^ 63 := by
    conv_lhs => rw [hsol]
    exact Int.add_mul_emod_self_left ..
  have hself : q % 2 ^ 63 = q := Int.emod_eq_of_lt (by omega) (by omega)
  rw [← hmod, hself] at hbad
  omega

theorem decompressedForm_reduced {m x e T : ℕ} {i s : ℤ} (hm : m < 2 ^ 63) (hdigit : m % 10 ≠ 0)
    (he : e < 9) (hx : x + T * 10 = 1 + (m / 10 * 9 + m % 10 - 1) * 10 + e) (hx0 : x ≠ 0)
    (hexp : (x - 1) % 10 = e) (hT : 9 ≤ T) (hinv : i * (5 * (10 ^ e - 1)) = 1 + s * 2 ^ 63)
    (hbad : ∀ d : ℤ, 1 ≤ d → d ≤ 9 → NoReturn (10 ^ e) (d - 1 - T) d i) :
    decompressedForm x % 2 ^ 64 ≠ m := by
  obtain ⟨q, d, hq, hd, hd9⟩ : ∃ q d : ℕ, m = 10 * q + d ∧ 1 ≤ d ∧ d ≤ 9 :=
    ⟨m / 10, m % 10, by omega, by omega, by omega⟩
  have hrest : (((x - 1) / 10 : ℕ) : ℤ) = 9 * q + ((d : ℤ) - 1 - T) := by omega
  rw [decompressedForm, if_neg hx0]
  simp only [hexp, if_pos he]
  have hquot : (((x - 1) / 10 / 9 : ℕ) : ℤ) = q + ((d : ℤ) - 1 - T) / 9 := by omega
  have hrem : (((x - 1) / 10 % 9 : ℕ) : ℤ) = ((d : ℤ) - 1 - T) % 9 := by omega
  generalize (x - 1) / 10 / 9 = a at hquot ⊢
  generalize (x - 1) / 10 % 9 = b at hrem ⊢
  intro h
  have hdiv := Nat.mod_add_div ((a * 10 + (b + 1)) * 10 ^ e) (2 ^ 64)
  rw [h, hq] at hdiv
  refine (hbad d (by omega) (by omega)).ne hinv (by omega) (by omega)
    (q := q) (t := ((a * 10 + (b + 1)) * 10 ^ e / 2 ^ 64 : ℕ)) (by omega) (by omega) ?_
  rw [← hquot, ← hrem]
  exact_mod_cast hdiv.symm

/-- A compressed form that does not fit decompresses to another amount.  Subtracting `k * 2 ^ 64`
moves the last digit of the form, so the decompressed amount ends in zeros. -/
theorem decompressedForm_wrapped {m : ℕ} (hm : m < 2 ^ 63) (hdigit : m % 10 ≠ 0)
    (hbig : 2 ^ 64 ≤ compressedForm m 0) :
    decompressedForm (compressedForm m 0 % 2 ^ 64) % 2 ^ 64 ≠ m := by
  have hform : compressedForm m 0 = 1 + (m / 10 * 9 + m % 10 - 1) * 10 := rfl
  rw [hform] at hbig ⊢
  have hk : ∃ k, 1 ≤ k ∧ k ≤ 4 ∧ (1 + (m / 10 * 9 + m % 10 - 1) * 10) % 2 ^ 64 + k * 2 ^ 64 =
      1 + (m / 10 * 9 + m % 10 - 1) * 10 :=
    ⟨(1 + (m / 10 * 9 + m % 10 - 1) * 10) / 2 ^ 64, by omega, by omega, by omega⟩
  obtain ⟨k, hk1, hk4, hk⟩ := hk
  generalize (1 + (m / 10 * 9 + m % 10 - 1) * 10) % 2 ^ 64 = x at hk
  interval_cases k
  · refine decompressedForm_reduced (e := 4) (T := 1844674407370955162) (i := 6380997940008660579)
      (s := 34588) hm hdigit (by norm_num) (by omega) (by omega) (by omega) (by norm_num)
      (by norm_num) fun d h1 h9 => ?_
    interval_cases d <;> simp [NoReturn]
  · refine decompressedForm_reduced (e := 8) (T := 3689348814741910324) (i := 5594053834762946099)
      (s := 303254263) hm hdigit (by norm_num) (by omega) (by omega) (by omega) (by norm_num)
      (by norm_num) fun d h1 h9 => ?_
    interval_cases d <;> simp [NoReturn]
  · refine decompressedForm_reduced (e := 2) (T := 5534023222112865485) (i := 8068121397895187727)
      (s := 433) hm hdigit (by norm_num) (by omega) (by omega) (by omega) (by norm_num)
      (by norm_num) fun d h1 h9 => ?_
    interval_cases d <;> simp [NoReturn]
  · refine decompressedForm_reduced (e := 6) (T := 7378697629483820647) (i := 5868474094666536435)
      (s := 3181303) hm hdigit (by norm_num) (by omega) (by omega) (by omega) (by norm_num)
      (by norm_num) fun d h1 h9 => ?_
    interval_cases d <;> simp [NoReturn]

/-- The compressed form of the amount fits into 64 bits. -/
def CAmount.Fits (n : CAmount) : Prop :=
  n.toInt % 10 = 0 ∨ 9 * n.toInt + n.toInt % 10 < 2 ^ 64 + 9

theorem decompressAmount_compressAmount_iff {n : UInt64} (hn : n.toNat < 2 ^ 63) :
    decompressAmount (compressAmount n) = n ↔
      n.toNat % 10 = 0 ∨ 9 * n.toNat + n.toNat % 10 < 2 ^ 64 + 9 := by
  by_cases hzero : n = 0
  · subst hzero
    exact iff_of_true rfl (.inl rfl)
  · obtain ⟨m, e, hm, hval, hform⟩ := toNat_compressAmount n hzero
    rw [hval] at hn
    rw [hval, ← hm.compressedForm_lt_iff hn, ← UInt64.toNat_inj, toNat_decompressAmount, hform, hval]
    constructor
    · intro h
      by_contra hbig
      cases e with
      | zero =>
        rw [pow_zero, mul_one] at h hn
        exact decompressedForm_wrapped hn (hm.digit (by norm_num)) (not_lt.mp hbig) h
      | succ e =>
        refine hbig ((hm.compressedForm_lt_iff hn).mpr (.inl ?_))
        rw [pow_succ, ← mul_assoc]
        exact Nat.mul_mod_left ..
    · intro h
      rw [Nat.mod_eq_of_lt h, hm.decompressedForm_compressedForm]
      exact Nat.mod_eq_of_lt (by omega)

theorem roundTrip_iff_fits {n : CAmount} (hn : moneyRange n = true) :
    decompressAmount (compressAmount n.toUInt64) = n.toUInt64 ↔ CAmount.Fits n := by
  have h0 := moneyRange_iff.mp hn
  have hmax := n.toInt_lt
  have hval := toNat_toUInt64 h0
  rw [decompressAmount_compressAmount_iff (by omega), hval, CAmount.Fits]
  omega

/-- An amount in range survives compression exactly when its compressed form fits, and on the
amounts whose form fits `CompressAmount` is injective. -/
theorem compressAmount_lossless (n : CAmount) (hn : moneyRange n = true) :
    (decompressAmount (compressAmount n.toUInt64) = n.toUInt64 ↔ CAmount.Fits n) ∧
    ∀ m, moneyRange m = true → CAmount.Fits n → CAmount.Fits m →
      compressAmount n.toUInt64 = compressAmount m.toUInt64 → n = m := by
  refine ⟨roundTrip_iff_fits hn, fun m hm hfn hfm h => ?_⟩
  have hbits : n.toUInt64 = m.toUInt64 := by
    rw [← (roundTrip_iff_fits hn).mpr hfn, ← (roundTrip_iff_fits hm).mpr hfm, h]
  exact Int64.toBitVec_inj.mp (congrArg UInt64.toBitVec hbits)

/-- The premine survives and is not stored like a single coin. -/
theorem premine_compressAmount_lossless :
    decompressAmount (compressAmount (11000000 * COIN).toUInt64) = (11000000 * COIN).toUInt64 ∧
      compressAmount (11000000 * COIN).toUInt64 ≠ compressAmount COIN.toUInt64 := by
  have hpremine : moneyRange (11000000 * COIN) = true ∧ CAmount.Fits (11000000 * COIN) :=
    ⟨by decide, .inl (by decide)⟩
  have hcoin : moneyRange COIN = true ∧ CAmount.Fits COIN := ⟨by decide, .inl (by decide)⟩
  have hpair := compressAmount_lossless _ hpremine.1
  refine ⟨hpair.1.mpr hpremine.2, fun h => ?_⟩
  have heq := hpair.2 _ hcoin.1 hpremine.2 hcoin.2 h
  exact absurd heq (by decide)

/-- The least amount that does not fit, 20496382304.12172403 coins, is stored like 0.0001 coins and
read back as that. -/
theorem compressAmount_collision :
    moneyRange 2049638230412172403 = true ∧ moneyRange 10000 = true ∧
      compressAmount (2049638230412172403 : CAmount).toUInt64 =
        compressAmount (10000 : CAmount).toUInt64 ∧
      decompressAmount (compressAmount (2049638230412172403 : CAmount).toUInt64) =
        (10000 : CAmount).toUInt64 := by
  decide +kernel

end X2XCoin
