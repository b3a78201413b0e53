import Mathlib.Tactic

/-!
# Arithmetic on limbs

Numbers as lists of limbs in radix `B`, the least significant one first.
-/

namespace Limbs

variable {B : ℕ}

/-- The lowest limbs of a number. -/
def toLimbs (B : ℕ) : ℕ → ℕ → List ℕ
  | 0, _ => []
  | k + 1, x => x % B :: toLimbs B k (x / B)

theorem length_toLimbs (B k x : ℕ) : (toLimbs B k x).length = k := by
  induction k generalizing x with
  | zero => rfl
  | succ k ih => rw [toLimbs, List.length_cons, ih]

theorem toLimbs_lt (hB : 0 < B) (k x : ℕ) : ∀ limb ∈ toLimbs B k x, limb < B := by
  induction k generalizing x with
  | zero => simp [toLimbs]
  | succ k ih =>
    intro limb hlimb
    obtain rfl | hlimb := List.mem_cons.mp hlimb
    · exact Nat.mod_lt _ hB
    · exact ih _ limb hlimb

theorem ofDigits_toLimbs (B k x : ℕ) : Nat.ofDigits B (toLimbs B k x) = x % B ^ k := by
  induction k generalizing x with
  | zero => rw [pow_zero, Nat.mod_one, toLimbs, Nat.ofDigits_nil]
  | succ k ih => rw [toLimbs, Nat.ofDigits_cons, ih, pow_succ', Nat.mod_mul]

/-! ## Multiplication -/

/-- Multiply by `b` and add a carry. -/
def mulSmall (B b : ℕ) : ℕ → List ℕ → List ℕ
  | _, [] => []
  | carry, limb :: limbs =>
    let n := (carry + b * limb) % B ^ 2
    n % B :: mulSmall B b (n / B) limbs

theorem carry_add_mul_lt {b carry limb : ℕ} (hb : b < B) (hcarry : carry < B) (hlimb : limb < B) :
    carry + b * limb < B ^ 2 := by
  have hmul : b * limb ≤ (B - 1) * (B - 1) := Nat.mul_le_mul (by omega) (by omega)
  obtain ⟨c, rfl⟩ : ∃ c, B = c + 1 := ⟨B - 1, by omega⟩
  rw [Nat.add_sub_cancel] at hmul
  nlinarith

theorem ofDigits_mulSmall {b carry : ℕ} (hb : b < B) (hcarry : carry < B) {limbs : List ℕ}
    (hlimbs : ∀ limb ∈ limbs, limb < B) :
    Nat.ofDigits B (mulSmall B b carry limbs) =
      (Nat.ofDigits B limbs * b + carry) % B ^ limbs.length := by
  induction limbs generalizing carry with
  | nil => rw [mulSmall, Nat.ofDigits_nil, List.length_nil, pow_zero, Nat.mod_one]
  | cons limb limbs ih =>
    have hlt := carry_add_mul_lt hb hcarry (hlimbs limb List.mem_cons_self)
    have hnext : (carry + b * limb) / B < B := by
      rw [Nat.div_lt_iff_lt_mul (by omega), ← pow_two]
      exact hlt
    have hsum : Nat.ofDigits B (limb :: limbs) * b + carry =
        carry + b * limb + B * (Nat.ofDigits B limbs * b) := by
      rw [Nat.ofDigits_cons]
      ring
    rw [mulSmall, Nat.mod_eq_of_lt hlt, Nat.ofDigits_cons,
      ih hnext fun l hl => hlimbs l (List.mem_cons_of_mem _ hl), hsum, List.length_cons, pow_succ',
      Nat.mod_mul, Nat.add_mul_mod_self_left, Nat.add_mul_div_left _ _ (by omega), add_comm (_ / B)]

/-! ## Division -/

/-- Subtract the shifted divisor where it fits and set the bit of the quotient. -/
def shiftSubtract : ℕ → ℕ → ℕ → ℕ → ℕ
  | 0, _, _, quotient => quotient
  | k + 1, num, div, quotient =>
    if div ≤ num then shiftSubtract k (num - div) (div / 2) (quotient ||| 2 ^ k)
    else shiftSubtract k num (div / 2) quotient

theorem shiftSubtract_eq {d : ℕ} (hd : 0 < d) {k num quotient : ℕ} (hnum : num < d * 2 ^ k)
    (hquotient : 2 ^ k ∣ quotient) :
    shiftSubtract k num (d * 2 ^ k / 2) quotient = quotient + num / d := by
  induction k generalizing num quotient with
  | zero =>
    rw [pow_zero, mul_one] at hnum
    rw [shiftSubtract, Nat.div_eq_of_lt hnum, add_zero]
  | succ k ih =>
    have hhalf : d * 2 ^ (k + 1) / 2 = d * 2 ^ k := by
      rw [pow_succ, ← mul_assoc, Nat.mul_div_cancel _ (by omega)]
    have hdouble : d * 2 ^ (k + 1) = d * 2 ^ k + d * 2 ^ k := by ring
    rw [shiftSubtract, hhalf]
    split_ifs with hle
    · obtain ⟨q, rfl⟩ := hquotient
      have hor : 2 ^ (k + 1) * q ||| 2 ^ k = 2 ^ (k + 1) * q + 2 ^ k := by
        rw [Nat.two_pow_add_eq_or_of_lt (Nat.pow_lt_pow_right (by omega) (by omega))]
      have hdvd : 2 ^ k ∣ 2 ^ (k + 1) * q + 2 ^ k :=
        Nat.dvd_add ((pow_dvd_pow 2 k.le_succ).mul_right q) dvd_rfl
      have hdiv : num / d = (num - d * 2 ^ k) / d + 2 ^ k := by
        rw [← Nat.add_mul_div_left _ _ hd, Nat.sub_add_cancel hle]
      rw [hor, ih (by omega) hdvd, hdiv]
      ring
    · rw [ih (by omega) ((pow_dvd_pow 2 k.le_succ).trans hquotient)]

end Limbs
