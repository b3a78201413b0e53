import Mathlib.Data.Nat.Digits.Lemmas
import Mathlib.Data.List.TakeWhile

/-!
# Conversion between radices

`transcode a b` reads a string in radix `a`, most significant digit first, and writes the number in
radix `b`, and copies the leading zeros one for one.  `mulAdd` is the loop that multiplies a number
by a constant and adds a carry in place, and `accumulate` repeats it for every digit of the input.
-/

namespace Radix

variable {a b : ℕ}

/-- The number that digits stand for. -/
def horner (a : ℕ) (digits : List ℕ) : ℕ := digits.foldl (fun n d => n * a + d) 0

theorem horner_eq (digits : List ℕ) : horner a digits = Nat.ofDigits a digits.reverse := by
  induction digits using List.reverseRecOn with
  | nil => rfl
  | append_singleton digits d ih =>
    rw [List.reverse_append, List.reverse_singleton, List.singleton_append, Nat.ofDigits_cons, ← ih,
      horner, List.foldl_append, List.foldl_cons, List.foldl_nil, ← horner, mul_comm, add_comm]

theorem horner_append (digits more : List ℕ) :
    horner a (digits ++ more) = horner a digits * a ^ more.length + horner a more := by
  rw [horner_eq, horner_eq, horner_eq, List.reverse_append, Nat.ofDigits_append, List.length_reverse]
  ring

theorem horner_append_singleton (digits : List ℕ) (d : ℕ) :
    horner a (digits ++ [d]) = horner a digits * a + d := by
  rw [horner, List.foldl_append]
  rfl

variable {digits : List ℕ} {ds : List ℕ}

theorem horner_lt (ha : 1 < a) (h : ∀ d ∈ digits, d < a) : horner a digits < a ^ digits.length := by
  rw [horner_eq, ← List.length_reverse]
  exact Nat.ofDigits_lt_base_pow_length ha fun d hd => h d (List.mem_reverse.mp hd)

/-! ## Leading zeros -/

/-- The number of leading zeros. -/
def zeros (digits : List ℕ) : ℕ := (digits.takeWhile (· = 0)).length

theorem zeros_append_dropWhile (digits : List ℕ) :
    List.replicate (zeros digits) 0 ++ digits.dropWhile (· = 0) = digits := by
  have htake : digits.takeWhile (· = 0) = List.replicate (zeros digits) 0 :=
    List.eq_replicate_of_mem fun d hd => by simpa using List.mem_takeWhile_imp hd
  rw [← htake, List.takeWhile_append_dropWhile]

theorem zeros_replicate_append {k : ℕ} (h : digits.head? ≠ some 0) :
    zeros (List.replicate k 0 ++ digits) = k := by
  have htail : digits.takeWhile (· = 0) = [] := by
    cases digits with
    | nil => rfl
    | cons d digits =>
      rw [List.takeWhile_cons_of_neg]
      simpa using h
  rw [zeros, List.takeWhile_append_of_pos (by simp), htail, List.append_nil, List.length_replicate]

theorem horner_replicate_append (k : ℕ) (digits : List ℕ) :
    horner a (List.replicate k 0 ++ digits) = horner a digits := by
  rw [horner_eq, List.reverse_append, List.reverse_replicate, Nat.ofDigits_append_replicate_zero,
    horner_eq]

theorem horner_replicate (k : ℕ) : horner a (List.replicate k 0) = 0 := by
  rw [← List.append_nil (List.replicate k 0), horner_replicate_append]
  rfl

theorem horner_dropWhile (digits : List ℕ) :
    horner a (digits.dropWhile (· = 0)) = horner a digits := by
  conv_rhs => rw [← zeros_append_dropWhile digits, horner_replicate_append]

theorem head_dropWhile_ne (digits : List ℕ) : (digits.dropWhile (· = 0)).head? ≠ some 0 := by
  intro h
  have := List.head?_dropWhile_not (fun d => decide (d = 0)) digits
  rw [h] at this
  simp at this

theorem head_reverse_digits_ne (n : ℕ) : (Nat.digits b n).reverse.head? ≠ some 0 := by
  rw [List.head?_reverse]
  intro h
  have hne : Nat.digits b n ≠ [] := by
    rintro heq
    rw [heq] at h
    cases h
  have hn := Nat.digits_ne_nil_iff_ne_zero.mp hne
  rw [List.getLast?_eq_some_getLast hne] at h
  exact Nat.getLast_digit_ne_zero b hn (Option.some.inj h)

/-- Digits without leading zeros are the digits of their number. -/
theorem dropWhile_eq_digits (hb : 1 < b) (h : ∀ d ∈ digits, d < b) :
    digits.dropWhile (· = 0) = (Nat.digits b (horner b digits)).reverse := by
  rw [← horner_dropWhile, horner_eq, Nat.digits_ofDigits b hb, List.reverse_reverse]
  · intro d hd
    exact h d ((List.dropWhile_sublist _).mem (List.mem_reverse.mp hd))
  · intro hne hzero
    apply head_dropWhile_ne digits
    rw [← List.getLast?_reverse, List.getLast?_eq_some_getLast hne, hzero]

/-! ## Conversion -/

/-- A number with its leading zeros in another radix. -/
def transcode (a b : ℕ) (digits : List ℕ) : List ℕ :=
  List.replicate (zeros digits) 0 ++ (Nat.digits b (horner a digits)).reverse

theorem transcode_lt (hb : 1 < b) (digits : List ℕ) : ∀ d ∈ transcode a b digits, d < b := by
  intro d hd
  rcases List.mem_append.mp hd with hd | hd
  · rw [List.eq_of_mem_replicate hd]
    omega
  · exact Nat.digits_lt_base hb (List.mem_reverse.mp hd)

theorem transcode_transcode (ha : 1 < a) (h : ∀ d ∈ digits, d < a) :
    transcode b a (transcode a b digits) = digits := by
  have hzeros : zeros (transcode a b digits) = zeros digits :=
    zeros_replicate_append (head_reverse_digits_ne _)
  have hnum : horner b (transcode a b digits) = horner a digits := by
    rw [transcode, horner_replicate_append, horner_eq, List.reverse_reverse, Nat.ofDigits_digits]
  rw [transcode, hzeros, hnum, ← dropWhile_eq_digits ha h, zeros_append_dropWhile]

/-! ## Conversion in place -/

/-- `carry += m * digit; digit = carry % b; carry /= b`, over digits from the least significant. -/
def mulAdd (b m : ℕ) : List ℕ → ℕ → List ℕ × ℕ
  | [], carry => ([], carry)
  | d :: ds, carry =>
    let next := mulAdd b m ds ((carry + m * d) / b)
    ((carry + m * d) % b :: next.1, next.2)

theorem length_mulAdd (m : ℕ) (ds : List ℕ) (carry : ℕ) :
    (mulAdd b m ds carry).1.length = ds.length := by
  induction ds generalizing carry with
  | nil => rfl
  | cons d ds ih => rw [mulAdd, List.length_cons, ih, List.length_cons]

theorem mulAdd_lt (hb : 0 < b) (m : ℕ) (ds : List ℕ) (carry : ℕ) :
    ∀ d ∈ (mulAdd b m ds carry).1, d < b := by
  induction ds generalizing carry with
  | nil => simp [mulAdd]
  | cons d ds ih =>
    rw [mulAdd, List.forall_mem_cons]
    exact ⟨Nat.mod_lt _ hb, ih _⟩

theorem ofDigits_mulAdd (m : ℕ) (ds : List ℕ) (carry : ℕ) :
    Nat.ofDigits b (mulAdd b m ds carry).1 + b ^ ds.length * (mulAdd b m ds carry).2 =
      m * Nat.ofDigits b ds + carry := by
  induction ds generalizing carry with
  | nil => simp [mulAdd]
  | cons d ds ih =>
    have hstep := ih ((carry + m * d) / b)
    have hdiv := Nat.mod_add_div (carry + m * d) b
    simp only [mulAdd, Nat.ofDigits_cons, List.length_cons, pow_succ]
    calc (carry + m * d) % b + b * Nat.ofDigits b (mulAdd b m ds ((carry + m * d) / b)).1 +
          b ^ ds.length * b * (mulAdd b m ds ((carry + m * d) / b)).2
        = (carry + m * d) % b + b * (Nat.ofDigits b (mulAdd b m ds ((carry + m * d) / b)).1 +
            b ^ ds.length * (mulAdd b m ds ((carry + m * d) / b)).2) := by ring
      _ = (carry + m * d) % b + b * ((carry + m * d) / b) + b * (m * Nat.ofDigits b ds) := by
        rw [hstep]
        ring
      _ = m * (d + b * Nat.ofDigits b ds) + carry := by
        rw [hdiv]
        ring

theorem mulAdd_of_lt {m : ℕ} {carry : ℕ} (h : m * Nat.ofDigits b ds + carry < b ^ ds.length) :
    (mulAdd b m ds carry).2 = 0 ∧
      Nat.ofDigits b (mulAdd b m ds carry).1 = m * Nat.ofDigits b ds + carry := by
  have heq := ofDigits_mulAdd (b := b) m ds carry
  have hzero : (mulAdd b m ds carry).2 = 0 := by
    by_contra hne
    have := Nat.le_mul_of_pos_right (b ^ ds.length) (Nat.pos_of_ne_zero hne)
    omega
  rw [hzero, mul_zero, add_zero] at heq
  exact ⟨hzero, heq⟩

/-- The same loop, ended at the first digit that is not in use once there is no carry; `length`
digits are in use.  Returns the digits, the carry and the number of digits then in use. -/
def mulAddUsed (b m length : ℕ) : ℕ → List ℕ → ℕ → List ℕ × ℕ × ℕ
  | i, [], carry => ([], carry, i)
  | i, d :: ds, carry =>
    if carry ≠ 0 ∨ i < length then
      let next := mulAddUsed b m length (i + 1) ds ((carry + m * d) / b)
      ((carry + m * d) % b :: next.1, next.2)
    else (d :: ds, carry, i)

theorem mulAdd_zeros (m k : ℕ) : mulAdd b m (List.replicate k 0) 0 = (List.replicate k 0, 0) := by
  induction k with
  | zero => rfl
  | succ k ih => simp [List.replicate_succ, mulAdd, ih]

/-- If the digits that are not in use are zero, nothing is left out, and they are so afterwards. -/
theorem mulAddUsed_eq (m length i carry : ℕ) (h : ∀ d ∈ ds.drop (length - i), d = 0) :
    let next := mulAddUsed b m length i ds carry
    (next.1, next.2.1) = mulAdd b m ds carry ∧ i ≤ next.2.2 ∧
      ∀ d ∈ next.1.drop (next.2.2 - i), d = 0 := by
  induction ds generalizing i carry with
  | nil => simp [mulAddUsed, mulAdd]
  | cons d ds ih =>
    rw [mulAddUsed]
    split_ifs with hgo
    · have hdrop : ∀ d ∈ ds.drop (length - (i + 1)), d = 0 := by
        by_cases hlt : i < length
        · rwa [show length - i = length - (i + 1) + 1 by omega, List.drop_succ_cons] at h
        · rw [show length - i = 0 by omega, List.drop_zero] at h
          rw [show length - (i + 1) = 0 by omega, List.drop_zero]
          exact fun d hd => h d (List.mem_cons_of_mem _ hd)
      obtain ⟨heq, hle, hzero⟩ := ih (i + 1) ((carry + m * d) / b) hdrop
      refine ⟨?_, Nat.le_of_succ_le hle, ?_⟩
      · rw [mulAdd, ← heq]
      · rwa [show ∀ k, i + 1 ≤ k → k - i = k - (i + 1) + 1 by omega, List.drop_succ_cons]
        exact hle
    · obtain ⟨rfl, hlen⟩ : carry = 0 ∧ length ≤ i := by omega
      rw [show length - i = 0 by omega, List.drop_zero] at h
      have hrep := List.eq_replicate_of_mem h
      refine ⟨?_, le_rfl, by rwa [Nat.sub_self, List.drop_zero]⟩
      rw [hrep, mulAdd_zeros]

/-- The digits of `input` in radix `a` one after the other, into an array of `size` digits in radix
`b`, least significant first; `none` if a carry is left. -/
def accumulate (a b size : ℕ) (input : List ℕ) : Option (List ℕ) :=
  input.foldlM (fun ds d => if (mulAdd b a ds d).2 = 0 then some (mulAdd b a ds d).1 else none)
    (List.replicate size 0)

theorem accumulate_eq (ha : 1 < a) (hb : 1 < b) {size : ℕ} {input : List ℕ}
    (hinput : ∀ d ∈ input, d < a) (hfit : a ^ input.length ≤ b ^ size) :
    ∃ ds, accumulate a b size input = some ds ∧ ds.length = size ∧ (∀ d ∈ ds, d < b) ∧
      Nat.ofDigits b ds = horner a input := by
  induction input using List.reverseRecOn with
  | nil =>
    refine ⟨List.replicate size 0, rfl, List.length_replicate, fun d hd => ?_,
      Nat.ofDigits_replicate_zero⟩
    rw [List.eq_of_mem_replicate hd]
    omega
  | append_singleton input d ih =>
    have hlt := (horner_lt ha hinput).trans_le hfit
    rw [List.length_append, List.length_singleton, pow_succ] at hfit
    obtain ⟨ds, hds, hlen, -, hval⟩ := ih (fun d hd => hinput d (List.mem_append_left _ hd))
      ((Nat.le_mul_of_pos_right _ (by omega)).trans hfit)
    rw [horner_append_singleton, mul_comm, ← hval, ← hlen] at hlt
    obtain ⟨hzero, hnext⟩ := mulAdd_of_lt hlt
    refine ⟨(mulAdd b a ds d).1, ?_, (length_mulAdd ..).trans hlen, mulAdd_lt (by omega) a ds d, ?_⟩
    · rw [accumulate, List.foldlM_append]
      rw [accumulate] at hds
      rw [hds]
      simp [hzero]
    · rw [hnext, hval, horner_append_singleton, mul_comm]

/-- `accumulate` with the loop that is ended early, and the number of digits in use. -/
def accumulateUsed (a b size : ℕ) (input : List ℕ) : Option (List ℕ × ℕ) :=
  input.foldlM (fun ds d =>
    let next := mulAddUsed b a ds.2 0 ds.1 d
    if next.2.1 = 0 then some (next.1, next.2.2) else none) (List.replicate size 0, 0)

theorem accumulateUsed_eq (size : ℕ) (input : List ℕ) :
    (accumulateUsed a b size input).map Prod.fst = accumulate a b size input ∧
      ∀ ds ∈ accumulateUsed a b size input, ∀ d ∈ ds.1.drop ds.2, d = 0 := by
  induction input using List.reverseRecOn with
  | nil =>
    refine ⟨rfl, ?_⟩
    rintro _ ⟨⟩ d hd
    exact List.eq_of_mem_replicate hd
  | append_singleton input d ih =>
    rw [accumulateUsed, accumulate, List.foldlM_append, List.foldlM_append, ← accumulateUsed,
      ← accumulate, ← ih.1]
    cases hused : accumulateUsed a b size input with
    | none => exact ⟨rfl, fun _ h => nomatch h⟩
    | some ds =>
      have hstep := mulAddUsed_eq (b := b) a ds.2 0 d (ih.2 ds hused)
      simp only [Nat.sub_zero, Nat.zero_le, true_and] at hstep
      obtain ⟨heq, hzero⟩ := hstep
      have hdigits := congrArg Prod.fst heq
      have hcarry := congrArg Prod.snd heq
      simp only at hdigits hcarry
      simp only [Option.bind_eq_bind, Option.bind_some, Option.map_some, List.foldlM_cons,
        List.foldlM_nil, Option.pure_def, ← hcarry, ← hdigits]
      split_ifs
      · refine ⟨rfl, ?_⟩
        rintro _ ⟨⟩
        exact hzero
      · exact ⟨rfl, fun _ h => nomatch h⟩

/-- The array read from its most significant digit, without leading zeros. -/
theorem dropWhile_accumulate (hb : 1 < b) (h : ∀ d ∈ ds, d < b) :
    ds.reverse.dropWhile (· = 0) = (Nat.digits b (Nat.ofDigits b ds)).reverse := by
  rw [dropWhile_eq_digits hb (fun d hd => h d (List.mem_reverse.mp hd)), horner_eq,
    List.reverse_reverse]

/-- A rational bound on a logarithm gives an array that is large enough. -/
theorem pow_le_pow_of_ratio {p q : ℕ} (hq : 0 < q) (hb : 0 < b) (h : a ^ q ≤ b ^ p) (n : ℕ) :
    a ^ n ≤ b ^ (n * p / q + 1) := by
  have hle : n * p ≤ q * (n * p / q + 1) := by
    have := Nat.div_add_mod (n * p) q
    have := Nat.mod_lt (n * p) hq
    rw [mul_add, mul_one]
    omega
  refine (Nat.pow_le_pow_iff_left hq.ne').mp ?_
  calc (a ^ n) ^ q = (a ^ q) ^ n := by rw [← pow_mul, ← pow_mul, mul_comm]
    _ ≤ (b ^ p) ^ n := Nat.pow_le_pow_left h n
    _ = b ^ (n * p) := by rw [← pow_mul, mul_comm]
    _ ≤ b ^ (q * (n * p / q + 1)) := Nat.pow_le_pow_right hb hle
    _ = (b ^ (n * p / q + 1)) ^ q := by rw [← pow_mul, mul_comm]

end Radix
