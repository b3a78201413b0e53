import Mathlib.Tactic
import X2XCoin.Lib.Radix

/-!
# Amounts typed by the user

`toSatoshis` and `fromSatoshis` of `Amount.java`.  A Java string is a list of UTF-16 code units, and
`Character.digit` is a table of which the ASCII part is known.
-/

namespace X2XCoin

namespace JavaWallet

abbrev JavaString := List UInt16

/-- `Character.digit(c, 10)`. -/
structure CharacterTable where
  digit : UInt16 → Option ℕ
  digit_lt : ∀ {c n}, digit c = some n → n < 10
  ascii : ∀ {c : UInt16}, c < 128 → digit c = if 48 ≤ c ∧ c ≤ 57 then some (c.toNat - 48) else none

namespace Amount

def plus : UInt16 := 43
def minus : UInt16 := 45
def dot : UInt16 := 46
def zero : UInt16 := 48

def COIN : ℤ := 100000000

/-! ## Parsing -/

section

variable (t : CharacterTable)

/-- The number that digits stand for. -/
def digitsValue (s : JavaString) : ℕ := s.foldl (fun n c => 10 * n + (t.digit c).getD 0) 0

def AllDigits (s : JavaString) : Prop := ∀ c ∈ s, (t.digit c).isSome

instance (s : JavaString) : Decidable (AllDigits t s) := List.decidableBAll _ s

def inLong (v : ℤ) : Prop := -2 ^ 63 ≤ v ∧ v < 2 ^ 63

instance (v : ℤ) : Decidable (inLong v) := inferInstanceAs (Decidable (_ ∧ _))

/-- The digits of `Long.parseLong` after the sign. -/
def parseDigits (negative : Bool) (s : JavaString) : Option ℤ :=
  let value : ℤ := if negative then -digitsValue t s else digitsValue t s
  if s ≠ [] ∧ AllDigits t s ∧ inLong value then some value else none

def parseLong : JavaString → Option ℤ
  | [] => none
  | c :: s =>
    if c < zero then
      if c = minus then parseDigits t true s
      else if c = plus then parseDigits t false s
      else none
    else parseDigits t false (c :: s)

/-- `trim`: characters up to the space are taken off both ends. -/
def trim (s : JavaString) : JavaString :=
  ((s.dropWhile (· ≤ 32)).reverse.dropWhile (· ≤ 32)).reverse

/-- The parts between the dots. -/
def splitDots : JavaString → List JavaString
  | [] => [[]]
  | c :: s =>
    match splitDots s with
    | [] => [[c]]
    | part :: parts => if c = dot then [] :: part :: parts else (c :: part) :: parts

/-- `split("\\.")`: empty parts at the end are left out, unless there is no dot at all. -/
def split (s : JavaString) : List JavaString :=
  if dot ∈ s then ((splitDots s).reverse.dropWhile List.isEmpty).reverse else [s]

/-- The first eight characters of a fraction, filled up with zeros. -/
def padded (part : JavaString) : JavaString := (part ++ List.replicate 8 zero).take 8

/-- `Amount.toSatoshis`. -/
def toSatoshis (decimal : JavaString) : Option Int64 := do
  let parts := split (trim decimal)
  let first ← parts[0]?
  let whole ← parseLong t first
  let fraction ←
    match parts[1]? with
    | none => some 0
    | some part => parseLong t (padded part)
  pure (Int64.ofInt whole * 100000000 + Int64.ofInt fraction)

end

/-! ## Printing -/

/-- The digit character of a number below ten. -/
def digitChar (n : ℕ) : UInt16 := UInt16.ofNat (48 + n)

/-- A number without leading zeros. -/
def decimalString (n : ℕ) : JavaString :=
  if n = 0 then [zero] else (Nat.digits 10 n).reverse.map digitChar

/-- `Amount.fromSatoshis`: the quotient by `COIN` with eight fractional digits. -/
def fromSatoshis (satoshis : Int64) : JavaString :=
  let n := satoshis.toInt.natAbs
  (if satoshis < 0 then [minus] else []) ++ decimalString (n / 100000000) ++ [dot] ++
    [7, 6, 5, 4, 3, 2, 1, 0].map fun i => digitChar (n % 100000000 / 10 ^ i % 10)

/-! ## Numerals -/

section

variable (t : CharacterTable)

/-- The text is a decimal numeral with at most eight fractional digits that stands for the given
number of satoshis. -/
def Denotes (s : JavaString) (v : ℤ) : Prop :=
  ∃ (sign whole fraction : JavaString) (dotted : JavaString),
    (sign = [] ∨ sign = [plus] ∨ sign = [minus]) ∧ (dotted = [dot] ∨ dotted = [] ∧ fraction = []) ∧
    s = sign ++ whole ++ dotted ++ fraction ∧ whole ≠ [] ∧ AllDigits t whole ∧ AllDigits t fraction ∧
    fraction.length ≤ 8 ∧
    v = (if sign = [minus] then -1 else 1) *
      (digitsValue t whole * COIN + digitsValue t fraction * 10 ^ (8 - fraction.length))

/-- One dot at most, a fraction of at most eight characters without a sign, which is zero if the
amount has a minus sign, and a number that fits. -/
def Plain (s : JavaString) : Prop :=
  ∃ whole fraction, (splitDots (trim s) = [whole] ∧ fraction = [] ∨
      splitDots (trim s) = [whole, fraction]) ∧ fraction.length ≤ 8 ∧
    fraction.head? ≠ some plus ∧ fraction.head? ≠ some minus ∧
    (whole.head? = some minus → digitsValue t (padded fraction) = 0) ∧
    ∀ n, parseLong t whole = some n → inLong (n * COIN + digitsValue t (padded fraction))

end

/-! ## Splitting -/

theorem splitDots_of_not_mem {s : JavaString} (h : dot ∉ s) : splitDots s = [s] := by
  induction s with
  | nil => rfl
  | cons c s ih =>
    rw [List.mem_cons, not_or] at h
    rw [splitDots, ih h.2]
    exact if_neg (Ne.symm h.1)

theorem splitDots_append {a : JavaString} (h : dot ∉ a) (b : JavaString) :
    splitDots (a ++ dot :: b) = a :: splitDots b := by
  induction a with
  | nil =>
    rw [List.nil_append, splitDots]
    cases hb : splitDots b with
    | nil =>
      cases b with
      | nil => cases hb
      | cons c b =>
        rw [splitDots] at hb
        split at hb
        · cases hb
        · split_ifs at hb
    | cons part parts => exact if_pos rfl
  | cons c a ih =>
    rw [List.mem_cons, not_or] at h
    rw [List.cons_append, splitDots, ih h.2]
    exact if_neg (Ne.symm h.1)

theorem splitDots_cases (s : JavaString) : (dot ∉ s ∧ splitDots s = [s]) ∨
    ∃ a b, dot ∉ a ∧ s = a ++ dot :: b ∧ splitDots s = a :: splitDots b := by
  by_cases h : dot ∈ s
  · obtain ⟨a, b, rfl, ha⟩ := List.eq_append_cons_of_mem h
    exact .inr ⟨a, b, ha, rfl, splitDots_append ha b⟩
  · exact .inl ⟨h, splitDots_of_not_mem h⟩

theorem splitDots_eq_singleton {s whole : JavaString} (h : splitDots s = [whole]) :
    s = whole ∧ dot ∉ s := by
  obtain ⟨hs, heq⟩ | ⟨a, b, ha, rfl, heq⟩ := splitDots_cases s
  · exact ⟨(List.cons.inj (heq.symm.trans h)).1, hs⟩
  · obtain ⟨-, hb⟩ := List.cons.inj (heq.symm.trans h)
    obtain ⟨-, hb'⟩ | ⟨_, _, -, -, hb'⟩ := splitDots_cases b <;> rw [hb'] at hb <;> cases hb

theorem splitDots_eq_pair {s whole fraction : JavaString} (h : splitDots s = [whole, fraction]) :
    s = whole ++ dot :: fraction ∧ dot ∉ whole ∧ dot ∉ fraction := by
  obtain ⟨hs, heq⟩ | ⟨a, b, ha, rfl, heq⟩ := splitDots_cases s
  · cases heq.symm.trans h
  · obtain ⟨rfl, hb⟩ := List.cons.inj (heq.symm.trans h)
    obtain ⟨rfl, hb'⟩ := splitDots_eq_singleton hb
    exact ⟨rfl, ha, hb'⟩

theorem split_singleton {s whole : JavaString} (h : splitDots s = [whole]) : split s = [whole] := by
  obtain ⟨rfl, hs⟩ := splitDots_eq_singleton h
  exact if_neg hs

theorem split_pair {s whole fraction : JavaString} (h : splitDots s = [whole, fraction])
    (hwhole : whole ≠ []) : split s = if fraction = [] then [whole] else [whole, fraction] := by
  obtain ⟨hs, -⟩ := splitDots_eq_pair h
  rw [split, if_pos (by rw [hs]; simp), h]
  cases whole with
  | nil => exact absurd rfl hwhole
  | cons a whole =>
    cases fraction with
    | nil => rfl
    | cons b fraction => rfl

/-! ## Digits -/

section

variable {t : CharacterTable} {s : JavaString}

theorem digitsValue_eq (s : JavaString) :
    digitsValue t s = Radix.horner 10 (s.map fun c => (t.digit c).getD 0) := by
  simp only [digitsValue, Radix.horner, List.foldl_map, mul_comm]

theorem digitsValue_append (a b : JavaString) :
    digitsValue t (a ++ b) = digitsValue t a * 10 ^ b.length + digitsValue t b := by
  simp only [digitsValue_eq, List.map_append, Radix.horner_append, List.length_map]

theorem digit_zero : t.digit zero = some 0 := by
  rw [t.ascii (by decide)]
  rfl

theorem digitsValue_zeros (k : ℕ) : digitsValue t (List.replicate k zero) = 0 := by
  rw [digitsValue_eq, List.map_replicate, digit_zero]
  exact Radix.horner_replicate k

variable {part : JavaString} {n : ℤ}

theorem padded_eq (h : part.length ≤ 8) :
    padded part = part ++ List.replicate (8 - part.length) zero := by
  rw [padded, List.take_append, List.take_of_length_le h, List.take_replicate]
  congr 2
  omega

theorem digitsValue_padded (h : part.length ≤ 8) :
    digitsValue t (padded part) = digitsValue t part * 10 ^ (8 - part.length) := by
  rw [padded_eq h, digitsValue_append, digitsValue_zeros, List.length_replicate, add_zero]

theorem digitsValue_lt (s : JavaString) : digitsValue t s < 10 ^ s.length := by
  rw [digitsValue_eq, ← List.length_map (f := fun c => (t.digit c).getD 0)]
  refine Radix.horner_lt (by decide) fun d hd => ?_
  obtain ⟨c, -, rfl⟩ := List.mem_map.mp hd
  cases h : t.digit c with
  | none => decide
  | some n => exact t.digit_lt h

/-- Neither a dot nor a sign is a digit, and no digit comes before the zero. -/
theorem not_digit {c : UInt16} (h : c < zero) : (t.digit c).isSome = false := by
  have hlt : c.toNat < 48 := h
  rw [t.ascii (show c.toNat < 128 by omega), if_neg]
  · rfl
  · rintro ⟨hle, -⟩
    have : 48 ≤ c.toNat := hle
    omega

theorem AllDigits.dot_not_mem (h : AllDigits t s) : dot ∉ s := by
  intro hmem
  have := h dot hmem
  rw [not_digit (by decide)] at this
  cases this

/-- The sign of a numeral as a factor. -/
def signFactor (sign : JavaString) : ℤ := if sign = [minus] then -1 else 1

theorem parseDigits_eq_some {negative : Bool} : parseDigits t negative s = some n ↔
    s ≠ [] ∧ AllDigits t s ∧ inLong n ∧
      n = (if negative then -1 else 1) * (digitsValue t s : ℤ) := by
  have hvalue : (if negative then -(digitsValue t s : ℤ) else digitsValue t s) =
      (if negative then -1 else 1) * (digitsValue t s : ℤ) := by
    cases negative <;> simp
  rw [parseDigits, hvalue]
  generalize (if negative then (-1 : ℤ) else 1) * (digitsValue t s : ℤ) = value
  constructor
  · intro h
    split_ifs at h with hcond
    obtain rfl := Option.some.inj h
    exact ⟨hcond.1, hcond.2.1, hcond.2.2, rfl⟩
  · rintro ⟨hne, hdigits, hlong, rfl⟩
    exact if_pos ⟨hne, hdigits, hlong⟩

theorem parseLong_eq_some : parseLong t s = some n ↔
    ∃ sign digits, (sign = [] ∨ sign = [plus] ∨ sign = [minus]) ∧ s = sign ++ digits ∧ digits ≠ [] ∧
      AllDigits t digits ∧ inLong n ∧ n = signFactor sign * (digitsValue t digits : ℤ) := by
  constructor
  · intro h
    cases s with
    | nil => cases h
    | cons c s =>
      rw [parseLong] at h
      split_ifs at h with hlt hminus hplus
      · obtain ⟨hne, hdigits, hlong, hn⟩ := parseDigits_eq_some.mp h
        exact ⟨[minus], s, .inr (.inr rfl), by rw [hminus]; rfl, hne, hdigits, hlong, hn⟩
      · obtain ⟨hne, hdigits, hlong, hn⟩ := parseDigits_eq_some.mp h
        exact ⟨[plus], s, .inr (.inl rfl), by rw [hplus]; rfl, hne, hdigits, hlong, hn⟩
      · obtain ⟨hne, hdigits, hlong, hn⟩ := parseDigits_eq_some.mp h
        exact ⟨[], c :: s, .inl rfl, rfl, hne, hdigits, hlong, hn⟩
  · rintro ⟨sign, digits, hsign, rfl, hne, hdigits, hlong, hn⟩
    obtain rfl | rfl | rfl := hsign
    · cases digits with
      | nil => exact absurd rfl hne
      | cons c digits =>
        have hc : ¬ c < zero := fun hlt => by
          have := hdigits c List.mem_cons_self
          rw [not_digit hlt] at this
          cases this
        rw [List.nil_append, parseLong, if_neg hc]
        exact parseDigits_eq_some.mpr ⟨hne, hdigits, hlong, hn⟩
    · exact parseDigits_eq_some.mpr ⟨hne, hdigits, hlong, hn⟩
    · exact parseDigits_eq_some.mpr ⟨hne, hdigits, hlong, hn⟩

/-- What is read of the part after the dot. -/
def parseFraction (t : CharacterTable) (fraction : JavaString) : Option ℤ :=
  if fraction = [] then some 0 else parseLong t (padded fraction)

/-- What `toSatoshis` computes of a text with at most one dot. -/
theorem toSatoshis_eq_some {decimal whole fraction : JavaString} {v : Int64}
    (hsplit : splitDots (trim decimal) = [whole] ∧ fraction = [] ∨
      splitDots (trim decimal) = [whole, fraction]) :
    toSatoshis t decimal = some v ↔ ∃ n f, parseLong t whole = some n ∧
      parseFraction t fraction = some f ∧ Int64.ofInt (n * COIN + f) = v := by
  have hsum : ∀ n f, Int64.ofInt n * 100000000 + Int64.ofInt f = Int64.ofInt (n * COIN + f) := by
    intro n f
    rw [Int64.ofInt_add, Int64.ofInt_mul]
    rfl
  have hparts : split (trim decimal) = (if fraction = [] then [whole] else [whole, fraction]) →
      (toSatoshis t decimal = some v ↔ ∃ n f, parseLong t whole = some n ∧
        parseFraction t fraction = some f ∧ Int64.ofInt (n * COIN + f) = v) := by
    intro hsplit
    have hread : toSatoshis t decimal = (parseLong t whole).bind fun n =>
        (parseFraction t fraction).bind fun f => some (Int64.ofInt (n * COIN + f)) := by
      rw [toSatoshis, hsplit, parseFraction]
      simp only [← hsum]
      split_ifs <;> rfl
    simp only [hread, Option.bind_eq_some_iff, Option.some.injEq, exists_and_left]
  obtain ⟨hone, rfl⟩ | hpair := hsplit
  · exact hparts (split_singleton hone)
  · by_cases hw : whole = []
    · -- Nothing stands before the dot, so that there is no number to read.
      subst hw
      obtain ⟨hs, -, -⟩ := splitDots_eq_pair hpair
      refine iff_of_false ?_ fun ⟨n, f, hn, _⟩ => by cases hn
      have hmem : dot ∈ trim decimal := by rw [hs]; simp
      rw [toSatoshis, split, if_pos hmem, hpair]
      cases fraction <;> exact nofun
    · exact hparts (split_pair hpair hw)

theorem toInt_ofInt_of_inLong (h : inLong n) : (Int64.ofInt n).toInt = n := by
  rw [Int64.toInt_ofInt]
  exact Int.bmod_eq_of_le h.1 h.2

theorem head_digits_ne {c : UInt16} (h : AllDigits t s) (hc : c < zero) : s.head? ≠ some c := by
  intro hhead
  have := h c (List.mem_of_mem_head? hhead)
  rw [not_digit hc] at this
  cases this

theorem digitsValue_padded_lt (part : JavaString) : (digitsValue t (padded part) : ℤ) < 10 ^ 8 := by
  have h := digitsValue_lt (t := t) (padded part)
  rw [padded, List.length_take, List.length_append, List.length_replicate] at h
  exact_mod_cast h.trans_le (Nat.pow_le_pow_right (by decide) (min_le_left _ _))

theorem parseLong_padded (hlen : part.length ≤ 8) (hne : part ≠ []) (hplus : part.head? ≠ some plus)
    (hminus : part.head? ≠ some minus) {f : ℤ} :
    parseLong t (padded part) = some f ↔ AllDigits t part ∧ f = digitsValue t (padded part) := by
  have hhead : (padded part).head? = part.head? := by
    rw [padded_eq hlen, List.head?_append_of_ne_nil _ hne]
  have hlt := digitsValue_padded_lt (t := t) part
  rw [parseLong_eq_some]
  constructor
  · rintro ⟨sign, digits, hsign, hpad, -, hdigits, -, rfl⟩
    obtain rfl | rfl | rfl := hsign
    · rw [List.nil_append] at hpad
      rw [hpad]
      refine ⟨fun c hc => hdigits c ?_, one_mul _⟩
      rw [← hpad, padded_eq hlen]
      exact List.mem_append_left _ hc
    · rw [hpad] at hhead
      exact absurd hhead.symm hplus
    · rw [hpad] at hhead
      exact absurd hhead.symm hminus
  · rintro ⟨hdigits, rfl⟩
    refine ⟨[], padded part, .inl rfl, rfl, ?_, ?_, ⟨?_, ?_⟩, (one_mul _).symm⟩
    · rw [padded_eq hlen]
      exact List.append_ne_nil_of_left_ne_nil hne _
    · rw [padded_eq hlen]
      intro c hc
      obtain hc | hc := List.mem_append.mp hc
      · exact hdigits c hc
      · rw [List.eq_of_mem_replicate hc, digit_zero]
        rfl
    · omega
    · omega

theorem parseFraction_eq_some (hlen : part.length ≤ 8) (hplus : part.head? ≠ some plus)
    (hminus : part.head? ≠ some minus) {f : ℤ} :
    parseFraction t part = some f ↔ AllDigits t part ∧ f = digitsValue t (padded part) := by
  rw [parseFraction]
  split_ifs with hnil
  · subst hnil
    have hzero : digitsValue t (padded []) = 0 := digitsValue_zeros 8
    rw [Option.some.injEq, hzero, Nat.cast_zero, eq_comm]
    exact (and_iff_right (List.forall_mem_nil _)).symm
  · exact parseLong_padded hlen hnil hplus hminus

/-- The two readings of an amount agree only if no fraction is taken off and nothing overflows. -/
theorem eq_of_bmod {sign : JavaString} {n f : ℤ} (hf : 0 ≤ f) (hf' : f < 10 ^ 8)
    (h : (Int64.ofInt (signFactor sign * n * COIN + f)).toInt = signFactor sign * (n * COIN + f)) :
    (sign = [minus] → f = 0) ∧ inLong (signFactor sign * n * COIN + f) := by
  have hlo := Int64.le_toInt (Int64.ofInt (signFactor sign * n * COIN + f))
  have hhi := Int64.toInt_lt (Int64.ofInt (signFactor sign * n * COIN + f))
  have hb := Int.bmod_add_bdiv (signFactor sign * n * COIN + f) (2 ^ 64)
  rw [h] at hlo hhi
  rw [Int64.toInt_ofInt, show Int64.size = 2 ^ 64 from rfl] at h
  rw [h] at hb
  unfold signFactor at *
  split_ifs at * with hminus
  · generalize Int.bdiv (-1 * n * COIN + f) (2 ^ 64) = k at hb
    have hzero : f = 0 := by
      unfold COIN at hb
      have : ((2 : ℕ) ^ 64 : ℕ) = 18446744073709551616 := by norm_num
      push_cast at hb
      omega
    refine ⟨fun _ => hzero, ?_⟩
    unfold inLong COIN at *
    rw [hzero] at hlo hhi ⊢
    constructor <;> linarith
  · refine ⟨fun h => absurd h hminus, ?_⟩
    unfold inLong COIN at *
    constructor <;> linarith

theorem plain_of_denotes {v : Int64} (h : toSatoshis t s = some v)
    (hv : Denotes t (trim s) v.toInt) : Plain t s := by
  obtain ⟨sign, whole, fraction, dotted, hsign, hdotted, htrim, hne, hwhole, hfraction, hlen, hv⟩ := hv
  have hdot : dot ∉ sign ++ whole := by
    rw [List.mem_append, not_or]
    refine ⟨?_, hwhole.dot_not_mem⟩
    obtain rfl | rfl | rfl := hsign <;> decide
  have hsplit : splitDots (trim s) = [sign ++ whole] ∧ fraction = [] ∨
      splitDots (trim s) = [sign ++ whole, fraction] := by
    obtain rfl | ⟨rfl, rfl⟩ := hdotted
    · right
      rw [htrim, List.append_assoc, List.singleton_append, splitDots_append hdot,
        splitDots_of_not_mem hfraction.dot_not_mem]
    · left
      rw [htrim, List.append_nil, List.append_nil]
      exact ⟨splitDots_of_not_mem hdot, rfl⟩
  obtain ⟨n, f, hn, hf, rfl⟩ := (toSatoshis_eq_some hsplit).mp h
  have hplus := head_digits_ne (c := plus) hfraction (by decide)
  have hminus := head_digits_ne (c := minus) hfraction (by decide)
  obtain ⟨-, hfval⟩ := (parseFraction_eq_some hlen hplus hminus).mp hf
  have hf0 : 0 ≤ f := by rw [hfval]; exact Int.natCast_nonneg _
  have hf8 : f < 10 ^ 8 := by rw [hfval]; exact digitsValue_padded_lt fraction
  have hv' : (Int64.ofInt (n * COIN + f)).toInt =
      signFactor sign * (digitsValue t whole * COIN + f) := by
    rw [hv, hfval, digitsValue_padded hlen, signFactor]
    push_cast
    rfl
  have hnval : n = signFactor sign * (digitsValue t whole : ℤ) := by
    have hlo := Int64.le_toInt (Int64.ofInt (n * COIN + f))
    have hhi := Int64.toInt_lt (Int64.ofInt (n * COIN + f))
    rw [hv'] at hlo hhi
    have hlong : inLong (signFactor sign * (digitsValue t whole : ℤ)) := by
      have hD : (0 : ℤ) ≤ digitsValue t whole := Int.natCast_nonneg _
      unfold signFactor inLong COIN at *
      split_ifs at hlo hhi ⊢ <;> omega
    have hparse := parseLong_eq_some.mpr ⟨sign, whole, hsign, rfl, hne, hwhole, hlong, rfl⟩
    exact Option.some.inj (hn.symm.trans hparse)
  rw [hnval] at hv'
  obtain ⟨hzero, hlong⟩ := eq_of_bmod hf0 hf8 hv'
  refine ⟨sign ++ whole, fraction, hsplit, hlen, hplus, hminus, fun hhead => ?_, fun m hm => ?_⟩
  · obtain rfl | rfl | rfl := hsign
    · exact absurd hhead (head_digits_ne hwhole (by decide))
    · exact absurd (Option.some.inj hhead) (by decide)
    · have hfz := hzero rfl
      rw [hfval] at hfz
      exact_mod_cast hfz
  · obtain rfl := Option.some.inj (hn.symm.trans hm)
    rw [← hfval, hnval]
    exact hlong

theorem denotes_of_plain {v : Int64} (h : toSatoshis t s = some v) (hplain : Plain t s) :
    Denotes t (trim s) v.toInt := by
  obtain ⟨whole, fraction, hsplit, hlen, hplus, hminus, hneg, hlong⟩ := hplain
  obtain ⟨n, f, hn, hf, rfl⟩ := (toSatoshis_eq_some hsplit).mp h
  obtain ⟨sign, digits, hsign, hw, hne, hdigits, -, hval⟩ := parseLong_eq_some.mp hn
  obtain ⟨hfdigits, rfl⟩ := (parseFraction_eq_some hlen hplus hminus).mp hf
  rw [toInt_ofInt_of_inLong (hlong n hn)]
  refine ⟨sign, digits, fraction, if splitDots (trim s) = [whole] then [] else [dot], hsign, ?_, ?_,
    hne, hdigits, hfdigits, hlen, ?_⟩
  · obtain ⟨hone, hnil⟩ | hpair := hsplit
    · exact .inr ⟨if_pos hone, hnil⟩
    · exact .inl (if_neg (by rw [hpair]; simp))
  · obtain ⟨hone, rfl⟩ | hpair := hsplit
    · rw [if_pos hone, (splitDots_eq_singleton hone).1, hw]
      simp
    · rw [if_neg (by rw [hpair]; simp), (splitDots_eq_pair hpair).1, hw]
      simp
  · rw [hval, signFactor]
    split_ifs with hm
    · have hzero := hneg (by rw [hw, hm]; rfl)
      rw [digitsValue_padded hlen] at hzero ⊢
      have hzero' : (digitsValue t fraction : ℤ) * 10 ^ (8 - fraction.length) = 0 := by
        exact_mod_cast hzero
      push_cast
      rw [hzero']
      ring
    · rw [digitsValue_padded hlen]
      push_cast
      ring

/-! ## There and back -/

theorem digit_digitChar {n : ℕ} (h : n < 10) : t.digit (digitChar n) = some n := by
  have hn : (digitChar n).toNat = 48 + n := by
    rw [digitChar, UInt16.toNat_ofNat', Nat.mod_eq_of_lt (by omega)]
  rw [t.ascii (show (digitChar n).toNat < 128 by omega), if_pos, hn]
  · simp
  · constructor
    · show 48 ≤ (digitChar n).toNat
      omega
    · show (digitChar n).toNat ≤ 57
      omega

theorem allDigits_decimalString (n : ℕ) : AllDigits t (decimalString n) := by
  rw [decimalString]
  split_ifs
  · intro c hc
    rw [List.mem_singleton.mp hc, digit_zero]
    rfl
  · intro c hc
    obtain ⟨d, hd, rfl⟩ := List.mem_map.mp hc
    rw [digit_digitChar (Nat.digits_lt_base (by decide) (List.mem_reverse.mp hd))]
    rfl

theorem digitsValue_singleton (c : UInt16) : digitsValue t [c] = (t.digit c).getD 0 := by
  simp [digitsValue]

theorem digitsValue_decimalString (n : ℕ) : digitsValue t (decimalString n) = n := by
  rw [decimalString]
  split_ifs with h
  · rw [digitsValue_singleton, digit_zero, h]
    rfl
  · have hmap : ((Nat.digits 10 n).reverse.map digitChar).map (fun c => (t.digit c).getD 0) =
        (Nat.digits 10 n).reverse := by
      rw [List.map_map]
      refine (List.map_congr_left fun d hd => ?_).trans (List.map_id _)
      simp [digit_digitChar (Nat.digits_lt_base (by decide) (List.mem_reverse.mp hd))]
    rw [digitsValue_eq, hmap, Radix.horner_eq, List.reverse_reverse, Nat.ofDigits_digits]

theorem digitsValue_digits (m k : ℕ) : digitsValue t
    ((List.range k).reverse.map fun i => digitChar (m / 10 ^ i % 10)) = m % 10 ^ k := by
  induction k with
  | zero => rw [pow_zero, Nat.mod_one]; rfl
  | succ k ih =>
    rw [List.range_succ, List.reverse_append, List.reverse_singleton, List.singleton_append,
      List.map_cons, ← List.singleton_append, digitsValue_append, digitsValue_singleton, ih,
      digit_digitChar (Nat.mod_lt _ (by decide)), Option.getD_some, List.length_map,
      List.length_reverse, List.length_range, Nat.mod_pow_succ]
    ring

theorem allDigits_digits (m : ℕ) (L : List ℕ) :
    AllDigits t (L.map fun i => digitChar (m / 10 ^ i % 10)) := by
  intro c hc
  obtain ⟨i, -, rfl⟩ := List.mem_map.mp hc
  rw [digit_digitChar (Nat.mod_lt _ (by decide))]
  rfl

theorem decimalString_ne_nil (n : ℕ) : decimalString n ≠ [] := by
  rw [decimalString]
  split_ifs with h
  · exact List.cons_ne_nil _ _
  · rw [Ne, List.map_eq_nil_iff, List.reverse_eq_nil_iff, Nat.digits_eq_nil_iff_eq_zero]
    exact h

/-- A text that begins and ends with digits has nothing to trim. -/
theorem trim_digits {a b c : JavaString} (ha : AllDigits t a) (hane : a ≠ []) (hc : AllDigits t c)
    (hcne : c ≠ []) : trim (a ++ b ++ c) = a ++ b ++ c := by
  have hdigit : ∀ {d : UInt16}, (t.digit d).isSome → (decide (d ≤ 32)) = false := by
    intro d hd
    by_contra hle
    rw [Bool.not_eq_false, decide_eq_true_iff] at hle
    have hle' : d.toNat ≤ 32 := hle
    rw [not_digit (show d.toNat < 48 by omega)] at hd
    cases hd
  obtain ⟨d, a, rfl⟩ := List.exists_cons_of_ne_nil hane
  obtain ⟨c, e, rfl⟩ := List.eq_nil_or_concat c |>.resolve_left hcne
  rw [List.concat_eq_append] at *
  have hd := hdigit (ha d List.mem_cons_self)
  have he := hdigit (hc e (by simp))
  have hfront : ((d :: a) ++ b ++ (c ++ [e])).dropWhile (· ≤ 32) = (d :: a) ++ b ++ (c ++ [e]) := by
    rw [List.cons_append, List.cons_append, List.dropWhile_cons, hd]
    rfl
  rw [trim, hfront, ← List.append_assoc, List.reverse_append, List.reverse_singleton,
    List.singleton_append, List.dropWhile_cons, he]
  simp

theorem toSatoshis_fromSatoshis {n : Int64} (hn : 0 ≤ n) :
    toSatoshis t (fromSatoshis n) = some n := by
  have h0 : 0 ≤ n.toInt := Int64.le_iff_toInt_le.mp hn
  have hlt := Int64.toInt_lt n
  generalize hm : n.toInt.natAbs = m
  have hmn : n.toInt = m := by omega
  generalize hfraction : (List.range 8).reverse.map
    (fun i => digitChar (m % 100000000 / 10 ^ i % 10)) = fraction
  have htext : fromSatoshis n = decimalString (m / 100000000) ++ [dot] ++ fraction := by
    rw [fromSatoshis, if_neg (Int64.not_lt.mpr hn), hm, ← hfraction]
    rfl
  have hlen : fraction.length = 8 := by rw [← hfraction]; rfl
  have hne : fraction ≠ [] := by
    rintro rfl
    cases hlen
  have hdigits : AllDigits t fraction := by rw [← hfraction]; exact allDigits_digits _ _
  have hwhole := allDigits_decimalString (t := t) (m / 100000000)
  have hvalue : digitsValue t fraction = m % 100000000 := by
    rw [← hfraction, digitsValue_digits]
    exact Nat.mod_mod _ _
  have hpadded : padded fraction = fraction := by rw [padded_eq hlen.le, hlen]; simp
  have hsplit : splitDots (trim (fromSatoshis n)) = [decimalString (m / 100000000), fraction] := by
    rw [htext, trim_digits hwhole (decimalString_ne_nil _) hdigits hne, List.append_assoc,
      List.singleton_append, splitDots_append hwhole.dot_not_mem,
      splitDots_of_not_mem hdigits.dot_not_mem]
  rw [toSatoshis_eq_some (.inr hsplit)]
  refine ⟨m / 100000000, m % 100000000, ?_, ?_, ?_⟩
  · rw [parseLong_eq_some]
    refine ⟨[], decimalString (m / 100000000), .inl rfl, rfl, decimalString_ne_nil _, hwhole,
      ⟨by omega, by omega⟩, ?_⟩
    rw [digitsValue_decimalString]
    simp [signFactor, minus]
  · rw [parseFraction_eq_some hlen.le (head_digits_ne hdigits (by decide))
      (head_digits_ne hdigits (by decide)), hpadded, hvalue]
    exact ⟨hdigits, rfl⟩
  · rw [COIN, ← Int.mul_comm, Int.mul_ediv_add_emod, ← hmn, Int64.ofInt_toInt]

end

/-- A returned value is the one the text denotes exactly for plain texts, and what is printed is
read back. -/
theorem toSatoshis_exact (t : CharacterTable) :
    (∀ s v, toSatoshis t s = some v → (Denotes t (trim s) v.toInt ↔ Plain t s)) ∧
      ∀ n : Int64, 0 ≤ n → toSatoshis t (fromSatoshis n) = some n :=
  ⟨fun _ _ h => ⟨plain_of_denotes h, denotes_of_plain h⟩, fun _ hn => toSatoshis_fromSatoshis hn⟩

/-- The digits of ASCII and no others. -/
def asciiTable : CharacterTable where
  digit c := if 48 ≤ c ∧ c ≤ 57 then some (c.toNat - 48) else none
  digit_lt {c n} h := by
    split_ifs at h with hc
    · have hle : c.toNat ≤ 57 := hc.2
      cases h
      omega
  ascii _ := rfl

/-- The text `1.-5`. -/
def signedFraction : JavaString := [49, 46, 45, 53]

/-- A sign inside the fraction is subtracted: 0.95 coins. -/
theorem toSatoshis_signedFraction : toSatoshis asciiTable signedFraction = some 95000000 ∧
    ¬ ∃ v, Denotes asciiTable (trim signedFraction) v := by
  refine ⟨by decide, ?_⟩
  rintro ⟨v, sign, whole, fraction, dotted, hsign, hdotted, htext, -, hwhole, hfraction, -⟩
  change [49, 46, 45, 53] = _ at htext
  -- the minus sign is neither a digit nor the dot, so it would be the sign in front
  have hmem : minus ∈ sign ++ whole ++ dotted ++ fraction := by rw [← htext]; decide
  have hnot : ∀ {s}, AllDigits asciiTable s → minus ∉ s := by
    intro s hs hm
    exact absurd (hs minus hm) (by decide)
  have hsigned : minus ∈ sign := by
    simp only [List.mem_append, hnot hwhole, hnot hfraction, or_false] at hmem
    refine hmem.resolve_right fun hm => ?_
    obtain rfl | ⟨rfl, -⟩ := hdotted
    · exact absurd hm (by decide)
    · exact absurd hm (by decide)
  obtain rfl | rfl | rfl := hsign
  · exact absurd hsigned (by decide)
  · exact absurd hsigned (by decide)
  · rw [List.append_assoc, List.append_assoc, List.singleton_append] at htext
    exact absurd (List.cons.inj htext).1 (by decide)

end Amount

end JavaWallet

end X2XCoin
