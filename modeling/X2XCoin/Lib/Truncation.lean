import Mathlib.Tactic

/-!
# Numbers with a short mantissa

`truncate B M x` drops as many digits of `x` in radix `B` as it takes to leave a number below `M`,
and puts zeros in their place.
-/

namespace Truncation

variable {B M : ℕ}

/-- The number of digits that are dropped. -/
noncomputable def exponent (B M x : ℕ) : ℕ := sInf {k | x / B ^ k < M}

noncomputable def truncate (B M x : ℕ) : ℕ := x / B ^ exponent B M x * B ^ exponent B M x

theorem exponent_le {x k : ℕ} (h : x / B ^ k < M) : exponent B M x ≤ k :=
  Nat.sInf_le h

theorem truncate_le (B M x : ℕ) : truncate B M x ≤ x := Nat.div_mul_le_self _ _

section

variable (hB : 1 < B) (hM : 0 < M)

include hB hM

theorem div_pow_exponent_lt (x : ℕ) : x / B ^ exponent B M x < M := by
  have hne : {k | x / B ^ k < M}.Nonempty := by
    refine ⟨x, ?_⟩
    change x / B ^ x < M
    rw [Nat.div_eq_of_lt (Nat.lt_pow_self hB)]
    exact hM
  exact Nat.sInf_mem hne

theorem le_div_of_lt_exponent {x k : ℕ} (h : k < exponent B M x) : M ≤ x / B ^ k :=
  not_lt.mp fun hlt => h.not_ge (exponent_le hlt)

theorem exponent_eq {x k : ℕ} (hlt : x / B ^ k < M) (hle : k = 0 ∨ M ≤ x / B ^ (k - 1)) :
    exponent B M x = k := by
  refine le_antisymm (exponent_le hlt) (not_lt.mp fun h => ?_)
  obtain rfl | hle := hle
  · exact absurd h (Nat.not_lt_zero _)
  · have hdiv : x / B ^ (k - 1) ≤ x / B ^ exponent B M x :=
      Nat.div_le_div_left (Nat.pow_le_pow_right (by omega) (by omega)) (by positivity)
    exact absurd (div_pow_exponent_lt hB hM x) (not_lt.mpr (hle.trans hdiv))

theorem truncate_pos (hBM : B ≤ M) {x : ℕ} (hx : 0 < x) : 0 < truncate B M x := by
  refine Nat.mul_pos ?_ (by positivity)
  cases hk : exponent B M x with
  | zero => simpa using hx
  | succ k =>
    -- one digit less would leave at least `M`
    have hle : B ≤ x / B ^ k := hBM.trans (le_div_of_lt_exponent hB hM (by omega))
    rw [pow_succ, ← Nat.div_div_eq_div_mul]
    exact Nat.div_pos hle (by omega)

theorem truncate_mul_pow {m : ℕ} (hm : m < M) (j : ℕ) : truncate B M (m * B ^ j) = m * B ^ j := by
  have hle : exponent B M (m * B ^ j) ≤ j := by
    refine exponent_le ?_
    rwa [Nat.mul_div_cancel _ (by positivity)]
  exact Nat.div_mul_cancel ((pow_dvd_pow B hle).mul_left m)

theorem truncate_mono (hdvd : B ∣ M) {x y : ℕ} (hxy : x ≤ y) :
    truncate B M x ≤ truncate B M y := by
  have hle : exponent B M x ≤ exponent B M y :=
    exponent_le ((Nat.div_le_div_right hxy).trans_lt (div_pow_exponent_lt hB hM y))
  obtain heq | hlt := hle.eq_or_lt
  · rw [truncate, truncate, heq]
    exact Nat.mul_le_mul_right _ (Nat.div_le_div_right hxy)
  · -- the larger number is at least `M` at the next scale, where the smaller one is below it
    obtain ⟨k, hk⟩ : ∃ k, exponent B M y = k + 1 := ⟨exponent B M y - 1, by omega⟩
    obtain ⟨c, rfl⟩ := hdvd
    have hpow : 0 < B ^ k := by positivity
    have hbelow : x < B * c * B ^ k := by
      have hx := Nat.lt_mul_of_div_lt (div_pow_exponent_lt hB hM x) (by positivity)
      have hscale : B ^ exponent B (B * c) x ≤ B ^ k :=
        Nat.pow_le_pow_right (by omega) (by omega)
      exact hx.trans_le (Nat.mul_le_mul_left _ hscale)
    have habove : B * c * B ^ k ≤ y := by
      have hy := le_div_of_lt_exponent hB hM (show k < exponent B (B * c) y by omega)
      exact (Nat.mul_le_mul_right _ hy).trans (Nat.div_mul_le_self _ _)
    have hscale : B * c * B ^ k = c * B ^ (k + 1) := by ring
    calc truncate B (B * c) x ≤ x := truncate_le _ _ _
      _ ≤ c * B ^ (k + 1) := by omega
      _ ≤ y / B ^ (k + 1) * B ^ (k + 1) := by
        refine Nat.mul_le_mul_right _ ?_
        rw [Nat.le_div_iff_mul_le (by positivity)]
        omega
      _ = truncate B (B * c) y := by rw [truncate, hk]

theorem exponent_truncate (hdvd : B ∣ M) (x : ℕ) :
    exponent B M (truncate B M x) = exponent B M x := by
  have hlt : truncate B M x / B ^ exponent B M x < M := by
    rw [truncate, Nat.mul_div_cancel _ (by positivity)]
    exact div_pow_exponent_lt hB hM x
  refine exponent_eq hB hM hlt ?_
  cases hk : exponent B M x with
  | zero => exact .inl rfl
  | succ k =>
    -- `M * B ^ k` is at most the number and is left as it is
    obtain ⟨c, rfl⟩ := hdvd
    have hle : B * c * B ^ k ≤ x := by
      have hx := le_div_of_lt_exponent hB hM (show k < exponent B (B * c) x by omega)
      exact (Nat.mul_le_mul_right _ hx).trans (Nat.div_mul_le_self _ _)
    have hfixed : truncate B (B * c) (c * B ^ (k + 1)) = c * B ^ (k + 1) :=
      truncate_mul_pow hB hM (by nlinarith [Nat.pos_of_mul_pos_left hM]) _
    have hmono := truncate_mono hB hM ⟨c, rfl⟩ hle
    rw [show B * c * B ^ k = c * B ^ (k + 1) by ring, hfixed] at hmono
    refine .inr ?_
    rw [Nat.add_sub_cancel, Nat.le_div_iff_mul_le (by positivity)]
    exact (by ring : B * c * B ^ k = c * B ^ (k + 1)) ▸ hmono

end

end Truncation
