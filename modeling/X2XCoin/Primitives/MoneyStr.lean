import X2XCoin.Lib.Radix
import X2XCoin.Primitives.Amount

/-!
# Amounts as text

`FormatMoney` and `ParseMoney` of `utilmoneystr.cpp`, on strings of bytes.  `ParseMoney` works on
`c_str()`.
-/

open ByteCodec

namespace X2XCoin

namespace MoneyStr

def dot : UInt8 := 46

def zeroDigit : UInt8 := 48

/-- `isdigit`. -/
def isDigit (c : UInt8) : Bool := 48 ≤ c && c ≤ 57

/-- `isspace` in the C locale. -/
def isSpace (c : UInt8) : Bool := c = 32 || (9 ≤ c && c ≤ 13)

/-- `c - '0'`. -/
def digitValue (c : UInt8) : ℕ := c.toNat - 48

def digitChar (d : ℕ) : UInt8 := UInt8.ofNat (48 + d)

/-! ## `FormatMoney` -/

/-- `%d` of a number that is not negative. -/
def decimal (n : ℕ) : Bytes := if n = 0 then [zeroDigit] else (Nat.digits 10 n).reverse.map digitChar

/-- `%08d` of a number below `COIN`. -/
def eightDigits (n : ℕ) : Bytes := [7, 6, 5, 4, 3, 2, 1, 0].map fun i => digitChar (n / 10 ^ i % 10)

/-- `nTrim`, from the last character on: zeros with a digit two places before them. -/
def trimCount : Bytes → ℕ
  | c :: c₁ :: c₂ :: str =>
    if c = zeroDigit && isDigit c₂ then trimCount (c₁ :: c₂ :: str) + 1 else 0
  | _ => 0

/-- `FormatMoney`; the negation overflows for the least amount only. -/
def formatMoney (n : CAmount) : Bytes :=
  let nAbs := n.toInt.natAbs
  let quotient := nAbs / COIN.toInt.toNat
  let remainder := nAbs % COIN.toInt.toNat
  let str := decimal quotient ++ dot :: eightDigits remainder
  let str := (str.reverse.drop (trimCount str.reverse)).reverse
  if n < 0 then 45 :: str else str

/-! ## `ParseMoney` -/

/-- The loop after the dot: `nUnits` and what is left. -/
def parseUnits : Bytes → (nMult nUnits : ℤ) → ℤ × Bytes
  | [], _, nUnits => (nUnits, [])
  | c :: p, nMult, nUnits =>
    if isDigit c && decide (nMult > 0) then
      parseUnits p (nMult / 10) (nUnits + nMult * digitValue c)
    else (nUnits, c :: p)

/-- The first loop: `strWhole`, `nUnits` and what is left. -/
def parseWhole : Bytes → Bytes → Option (Bytes × ℤ × Bytes)
  | [], strWhole => some (strWhole, 0, [])
  | c :: p, strWhole =>
    if c = dot then some (strWhole, parseUnits p (CENT.toInt * 10) 0)
    else if isSpace c then some (strWhole, 0, c :: p)
    else if isDigit c then parseWhole p (strWhole ++ [c])
    else none

/-- `atoi64` of digits that fit. -/
def atoi64 (str : Bytes) : ℤ := Radix.horner 10 (str.map digitValue)

def parseMoney (str : Bytes) : Option CAmount := do
  let p := (str.takeWhile (· ≠ 0)).dropWhile isSpace
  let (strWhole, nUnits, p) ← parseWhole p []
  if !p.all isSpace then none
  else if strWhole.length > 10 then none
  else if nUnits < 0 || nUnits > COIN.toInt then none
  else pure (Int64.ofInt (atoi64 strWhole * COIN.toInt + nUnits))

/-! ## Numerals -/

/-- White space taken off both ends. -/
def trim (str : Bytes) : Bytes := ((str.dropWhile isSpace).reverse.dropWhile isSpace).reverse

def AllDigits (str : Bytes) : Prop := ∀ c ∈ str, isDigit c = true

/-- The number that digits stand for. -/
def value (str : Bytes) : ℕ := Radix.horner 10 (str.map digitValue)

/-- Without the white space around it the text is digits, perhaps none, and perhaps a dot with at most
eight digits after it, and the amount is the number it stands for times `COIN`. -/
def Denotes (str : Bytes) (v : CAmount) : Prop :=
  ∃ whole fraction, AllDigits whole ∧ AllDigits fraction ∧ fraction.length ≤ 8 ∧
    (trim str = whole ∧ fraction = [] ∨ trim str = whole ++ dot :: fraction) ∧
    (v.toInt : ℚ) = (value whole + value fraction / 10 ^ fraction.length) * COIN.toInt

/-! ## Characters -/

variable {c : UInt8} {str : Bytes}

theorem isDigit_iff : isDigit c = true ↔ 48 ≤ c.toNat ∧ c.toNat ≤ 57 := by
  rw [isDigit, Bool.and_eq_true, decide_eq_true_eq, decide_eq_true_eq]
  rfl

theorem isSpace_iff : isSpace c = true ↔ c = 32 ∨ 9 ≤ c.toNat ∧ c.toNat ≤ 13 := by
  rw [isSpace, Bool.or_eq_true, Bool.and_eq_true, decide_eq_true_eq, decide_eq_true_eq,
    decide_eq_true_eq]
  rfl

theorem not_isSpace_of_isDigit (h : isDigit c = true) : isSpace c = false := by
  rw [isDigit_iff] at h
  refine Bool.eq_false_iff.mpr fun hspace => ?_
  rcases isSpace_iff.mp hspace with rfl | hrange
  · exact absurd h (by decide)
  · omega

theorem ne_dot_of_isDigit (h : isDigit c = true) : c ≠ dot := by
  rintro rfl
  cases h

theorem ne_zero_of_isDigit (h : isDigit c = true) : c ≠ 0 := by
  rintro rfl
  cases h

/-- The characters of a numeral. -/
theorem numeral_chars {whole fraction core : Bytes} (hwhole : AllDigits whole)
    (hfraction : AllDigits fraction)
    (hcore : core = whole ∧ fraction = [] ∨ core = whole ++ dot :: fraction) :
    ∀ c ∈ core, c ≠ 0 ∧ isSpace c = false := by
  have hdigit : ∀ {c}, isDigit c = true → c ≠ 0 ∧ isSpace c = false := fun h =>
    ⟨ne_zero_of_isDigit h, not_isSpace_of_isDigit h⟩
  intro c hc
  rcases hcore with ⟨rfl, -⟩ | rfl
  · exact hdigit (hwhole c hc)
  · rw [List.mem_append, List.mem_cons] at hc
    rcases hc with hc | rfl | hc
    · exact hdigit (hwhole c hc)
    · exact ⟨by decide, rfl⟩
    · exact hdigit (hfraction c hc)

theorem dropWhile_isSpace (h : ∀ c ∈ str, isSpace c = false) : str.dropWhile isSpace = str := by
  rw [List.dropWhile_eq_self_iff]
  intro hpos
  rw [h _ (List.getElem_mem hpos)]
  exact Bool.false_ne_true

theorem digitChar_spec {d : ℕ} (h : d < 10) :
    isDigit (digitChar d) = true ∧ digitValue (digitChar d) = d := by
  have hnat : (digitChar d).toNat = 48 + d := by
    rw [digitChar, UInt8.toNat_ofNat']
    exact Nat.mod_eq_of_lt (by omega)
  rw [isDigit_iff, digitValue, hnat]
  omega

/-! ## Values -/

theorem value_append (a b : Bytes) : value (a ++ b) = value a * 10 ^ b.length + value b := by
  rw [value, List.map_append, Radix.horner_append, List.length_map]
  rfl

theorem value_cons (c : UInt8) (b : Bytes) :
    value (c :: b) = digitValue c * 10 ^ b.length + value b := by
  have hone : value [c] = digitValue c := by simp [value, Radix.horner]
  rw [← List.singleton_append, value_append, hone]

theorem value_replicate (k : ℕ) : value (List.replicate k zeroDigit) = 0 := by
  rw [value, List.map_replicate]
  exact Radix.horner_replicate k

theorem value_lt (h : AllDigits str) : value str < 10 ^ str.length := by
  have hlt : ∀ d ∈ str.map digitValue, d < 10 := by
    intro d hd
    obtain ⟨c, hc, rfl⟩ := List.mem_map.mp hd
    have := isDigit_iff.mp (h c hc)
    rw [digitValue]
    omega
  rw [← List.length_map (f := digitValue)]
  exact Radix.horner_lt (by decide) hlt

theorem map_digitValue_digitChar {ds : List ℕ} (h : ∀ d ∈ ds, d < 10) :
    (ds.map digitChar).map digitValue = ds := by
  rw [List.map_map]
  conv_rhs => rw [← List.map_id ds]
  exact List.map_congr_left fun d hd => (digitChar_spec (h d hd)).2

theorem decimal_spec (n : ℕ) : AllDigits (decimal n) ∧ value (decimal n) = n ∧
    ∀ k, 0 < k → ((decimal n).length ≤ k ↔ n < 10 ^ k) := by
  rw [decimal]
  split_ifs with hzero
  · subst hzero
    exact ⟨by simp [AllDigits, isDigit, zeroDigit], by decide,
      fun k hk => iff_of_true hk (Nat.pow_pos (by decide))⟩
  · have hlt : ∀ d ∈ (Nat.digits 10 n).reverse, d < 10 := fun d hd =>
      Nat.digits_lt_base (by decide) (List.mem_reverse.mp hd)
    refine ⟨?_, ?_, fun k _ => ?_⟩
    · intro c hc
      obtain ⟨d, hd, rfl⟩ := List.mem_map.mp hc
      exact (digitChar_spec (hlt d hd)).1
    · rw [value, map_digitValue_digitChar hlt, Radix.horner_eq, List.reverse_reverse,
        Nat.ofDigits_digits]
    · rw [List.length_map, List.length_reverse, Nat.digits_length_le_iff (by decide)]

theorem eightDigits_spec {n : ℕ} (h : n < 10 ^ 8) :
    AllDigits (eightDigits n) ∧ value (eightDigits n) = n ∧ (eightDigits n).length = 8 := by
  have hlt : ∀ i, n / 10 ^ i % 10 < 10 := fun i => Nat.mod_lt _ (by decide)
  refine ⟨?_, ?_, rfl⟩
  · intro c hc
    obtain ⟨i, -, rfl⟩ := List.mem_map.mp hc
    exact (digitChar_spec (hlt i)).1
  · have hmap : (eightDigits n).map digitValue =
        [7, 6, 5, 4, 3, 2, 1, 0].map fun i => n / 10 ^ i % 10 := by
      rw [eightDigits, List.map_map]
      exact List.map_congr_left fun i _ => (digitChar_spec (hlt i)).2
    rw [value, hmap]
    simp only [Radix.horner, List.map_cons, List.map_nil, List.foldl_cons, List.foldl_nil]
    omega

/-! ## The zeros that are taken off -/

theorem trimCount_spec {R T : Bytes} (h : AllDigits R) (hlen : 2 ≤ R.length) :
    trimCount (R ++ dot :: T) + 2 ≤ R.length ∧
      R.take (trimCount (R ++ dot :: T)) = List.replicate (trimCount (R ++ dot :: T)) zeroDigit := by
  induction R with
  | nil => cases hlen
  | cons c R ih =>
    match R, hlen with
    | [c₁], _ =>
      have hzero : trimCount ([c, c₁] ++ dot :: T) = 0 := by
        rw [List.cons_append, List.cons_append, List.nil_append, trimCount,
          if_neg (by rw [show isDigit dot = false from rfl, Bool.and_false]; exact Bool.false_ne_true)]
      rw [hzero]
      exact ⟨le_rfl, rfl⟩
    | c₁ :: c₂ :: R, _ =>
      obtain ⟨hle, htake⟩ := ih (fun x hx => h x (List.mem_cons_of_mem _ hx)) (by simp)
      simp only [List.cons_append] at hle htake ⊢
      rw [trimCount]
      split_ifs with hcond
      · rw [Bool.and_eq_true, decide_eq_true_eq] at hcond
        rw [List.take_succ_cons, htake, List.replicate_succ, hcond.1]
        exact ⟨by simpa using hle, rfl⟩
      · exact ⟨by simp, rfl⟩

/-- What `FormatMoney` prints of an amount that is not negative. -/
theorem formatMoney_spec {n : CAmount} (hn : 0 ≤ n.toInt) : ∃ fraction k,
    formatMoney n = decimal (n.toInt.toNat / 10 ^ 8) ++ dot :: fraction ∧
      eightDigits (n.toInt.toNat % 10 ^ 8) = fraction ++ List.replicate k zeroDigit := by
  have hnat : n.toInt.natAbs = n.toInt.toNat := by omega
  have hpos : ¬ n < 0 := by
    rw [Int64.lt_iff_toInt_lt]
    exact not_lt.mpr hn
  have hcoin : COIN.toInt.toNat = 10 ^ 8 := by decide
  obtain ⟨hdigits, -, hlen⟩ := eightDigits_spec (Nat.mod_lt n.toInt.toNat (by decide : 0 < 10 ^ 8))
  simp only [formatMoney, hnat, hcoin, if_neg hpos]
  generalize decimal (n.toInt.toNat / 10 ^ 8) = whole
  generalize eightDigits (n.toInt.toNat % 10 ^ 8) = F at *
  have hrev : (whole ++ dot :: F).reverse = F.reverse ++ dot :: whole.reverse := by simp
  obtain ⟨hle, htake⟩ := trimCount_spec (R := F.reverse) (T := whole.reverse)
    (fun c hc => hdigits c (List.mem_reverse.mp hc)) (by rw [List.length_reverse]; omega)
  rw [hrev]
  generalize trimCount (F.reverse ++ dot :: whole.reverse) = k at *
  refine ⟨(F.reverse.drop k).reverse, k, ?_, ?_⟩
  · rw [List.drop_append_of_le_length (by omega)]
    simp
  · rw [← List.reverse_replicate, ← htake, ← List.reverse_append, List.take_append_drop,
      List.reverse_reverse]

/-! ## The loops of `ParseMoney` -/

/-- The value of a digit after the dot when `k` digits are left. -/
def unit (k : ℕ) : ℤ := if k = 0 then 0 else 10 ^ (k - 1)

theorem unit_succ (k : ℕ) : unit (k + 1) = 10 ^ k := by
  rw [unit, if_neg k.succ_ne_zero, Nat.add_sub_cancel]

theorem unit_succ_div (k : ℕ) : unit (k + 1) / 10 = unit k := by
  rw [unit_succ]
  cases k with
  | zero => decide
  | succ k => rw [unit_succ, pow_succ, Int.mul_ediv_cancel _ (by decide)]

theorem parseUnits_append {f : Bytes} (hf : AllDigits f) (rest : Bytes) {k : ℕ}
    (hk : f.length ≤ k) (nUnits : ℤ) :
    parseUnits (f ++ rest) (unit k) nUnits =
      parseUnits rest (unit (k - f.length)) (nUnits + value f * 10 ^ (k - f.length)) := by
  induction f generalizing k nUnits with
  | nil => simp [value, Radix.horner]
  | cons c f ih =>
    obtain ⟨k, rfl⟩ : ∃ m, k = m + 1 := ⟨k - 1, by simp at hk; omega⟩
    rw [List.length_cons, Nat.add_le_add_iff_right] at hk
    have hpos : decide (unit (k + 1) > 0) = true := by
      rw [unit_succ]
      exact decide_eq_true (by positivity)
    have hpow : (10 : ℤ) ^ k = 10 ^ f.length * 10 ^ (k - f.length) := by
      rw [← pow_add, Nat.add_sub_cancel' hk]
    rw [List.cons_append, parseUnits, if_pos (by rw [hf c List.mem_cons_self, hpos]; rfl),
      unit_succ_div, ih (fun x hx => hf x (List.mem_cons_of_mem _ hx)) hk, List.length_cons,
      Nat.add_sub_add_right, value_cons, unit_succ, hpow]
    congr 1
    push_cast
    ring

theorem parseUnits_stop {rest : Bytes} {k : ℕ} (h : k = 0 ∨ ∀ c ∈ rest.head?, isDigit c = false)
    (nUnits : ℤ) : parseUnits rest (unit k) nUnits = (nUnits, rest) := by
  cases rest with
  | nil => rfl
  | cons c rest =>
    rw [parseUnits, if_neg]
    rw [Bool.and_eq_true, not_and_or]
    rcases h with rfl | h
    · exact .inr (by decide)
    · exact .inl (by rw [h c rfl]; exact Bool.false_ne_true)

theorem parseWhole_append {w : Bytes} (hw : AllDigits w) (rest strWhole : Bytes) :
    parseWhole (w ++ rest) strWhole = parseWhole rest (strWhole ++ w) := by
  induction w generalizing strWhole with
  | nil => rw [List.nil_append, List.append_nil]
  | cons c w ih =>
    have hc := hw c List.mem_cons_self
    rw [List.cons_append, parseWhole, if_neg (ne_dot_of_isDigit hc),
      if_neg (by rw [not_isSpace_of_isDigit hc]; exact Bool.false_ne_true), if_pos hc,
      ih fun x hx => hw x (List.mem_cons_of_mem _ hx), List.append_assoc, List.singleton_append]

theorem exists_digits (p : Bytes) : ∃ w rest, p = w ++ rest ∧ AllDigits w ∧
    ∀ c ∈ rest.head?, isDigit c = false := by
  refine ⟨p.takeWhile isDigit, p.dropWhile isDigit, List.takeWhile_append_dropWhile.symm,
    fun c hc => List.mem_takeWhile_imp hc, fun c hc => ?_⟩
  have := List.head?_dropWhile_not isDigit p
  rw [hc] at this
  simpa using this

theorem CENT_mul_ten : CENT.toInt * 10 = unit 8 := by decide

theorem parseWhole_eq_some {p : Bytes} {result : Bytes × ℤ × Bytes}
    (h : parseWhole p [] = some result) : ∃ whole fraction core rest,
      AllDigits whole ∧ AllDigits fraction ∧ fraction.length ≤ 8 ∧
      (core = whole ∧ fraction = [] ∨ core = whole ++ dot :: fraction) ∧ p = core ++ rest ∧
      result = (whole, (value fraction : ℤ) * 10 ^ (8 - fraction.length), rest) := by
  obtain ⟨whole, rest, rfl, hwhole, hstop⟩ := exists_digits p
  rw [parseWhole_append hwhole, List.nil_append] at h
  cases rest with
  | nil =>
    obtain rfl := Option.some.inj h
    exact ⟨whole, [], whole, [], hwhole, by simp [AllDigits], by simp, .inl ⟨rfl, rfl⟩, rfl,
      by simp [value, Radix.horner]⟩
  | cons c rest =>
    rw [parseWhole] at h
    split_ifs at h with hdot hspace hdigit
    · obtain rfl := Option.some.inj h
      subst hdot
      obtain ⟨digits, tail, rfl, hdigits, htail⟩ := exists_digits rest
      have hfraction : AllDigits (digits.take 8) := fun x hx => hdigits x (List.mem_of_mem_take hx)
      refine ⟨whole, digits.take 8, whole ++ dot :: digits.take 8, digits.drop 8 ++ tail, hwhole,
        hfraction, List.length_take_le _ _, .inr rfl, ?_, ?_⟩
      · rw [List.append_assoc, List.cons_append, ← List.append_assoc (digits.take 8),
          List.take_append_drop]
      · have hsplit : digits ++ tail = digits.take 8 ++ (digits.drop 8 ++ tail) := by
          rw [← List.append_assoc, List.take_append_drop]
        rw [CENT_mul_ten, hsplit, parseUnits_append hfraction _ (List.length_take_le _ _), zero_add,
          parseUnits_stop]
        by_cases hlen : digits.length ≤ 8
        · rw [List.drop_of_length_le hlen, List.nil_append]
          exact .inr htail
        · exact .inl (by rw [List.length_take]; omega)
    · obtain rfl := Option.some.inj h
      exact ⟨whole, [], whole, c :: rest, hwhole, by simp [AllDigits], by simp, .inl ⟨rfl, rfl⟩, rfl,
        by simp [value, Radix.horner]⟩
    · rw [hstop c rfl] at hdigit
      cases hdigit

theorem parseMoney_numeral {whole fraction : Bytes} (hwhole : AllDigits whole)
    (hfraction : AllDigits fraction) (hlen : fraction.length ≤ 8) :
    parseMoney (whole ++ dot :: fraction) =
      if whole.length ≤ 10 then
        some (Int64.ofInt (value whole * 10 ^ 8 + value fraction * 10 ^ (8 - fraction.length) : ℕ))
      else none := by
  have hchar := numeral_chars hwhole hfraction (.inr rfl)
  have htake : (whole ++ dot :: fraction).takeWhile (· ≠ 0) = whole ++ dot :: fraction :=
    List.takeWhile_eq_self_iff.mpr fun c hc => decide_eq_true (hchar c hc).1
  have hdrop : (whole ++ dot :: fraction).dropWhile isSpace = whole ++ dot :: fraction :=
    dropWhile_isSpace fun c hc => (hchar c hc).2
  have hunits : parseUnits fraction (CENT.toInt * 10) 0 =
      (((value fraction * 10 ^ (8 - fraction.length) : ℕ) : ℤ), []) := by
    have happ := parseUnits_append hfraction [] hlen 0
    rw [List.append_nil, zero_add] at happ
    rw [CENT_mul_ten, happ]
    push_cast
    rfl
  have hrange : value fraction * 10 ^ (8 - fraction.length) ≤ 10 ^ 8 := by
    have hpow : 10 ^ fraction.length * 10 ^ (8 - fraction.length) = 10 ^ 8 := by
      rw [← pow_add, Nat.add_sub_cancel' hlen]
    rw [← hpow]
    exact Nat.mul_le_mul_right _ (value_lt hfraction).le
  have hcoin : COIN.toInt = 10 ^ 8 := by decide
  simp only [parseMoney, htake, hdrop, parseWhole_append hwhole, parseWhole, hunits, if_true,
    List.nil_append, Option.bind_eq_bind, Option.bind_some, List.all_nil, Bool.not_true,
    Bool.false_eq_true, if_false, hcoin]
  by_cases hten : whole.length ≤ 10
  · rw [if_neg (by omega), if_neg, if_pos hten]
    · push_cast
      rfl
    · simp only [Bool.or_eq_true, decide_eq_true_eq, not_or, not_lt]
      exact ⟨by positivity, by exact_mod_cast hrange⟩
  · rw [if_pos (by omega), if_neg hten]

/-- `ParseMoney(FormatMoney(n))` is `n` exactly below ten digits before the dot. -/
theorem parseMoney_formatMoney_iff {n : CAmount} (hn : 0 ≤ n.toInt) :
    parseMoney (formatMoney n) = some n ↔ n.toInt < 10 ^ 18 := by
  obtain ⟨fraction, k, hformat, hpad⟩ := formatMoney_spec hn
  obtain ⟨hwhole, hvalue, hlength⟩ := decimal_spec (n.toInt.toNat / 10 ^ 8)
  obtain ⟨hdigits, hvalue8, hlen8⟩ :=
    eightDigits_spec (Nat.mod_lt n.toInt.toNat (by decide : 0 < 10 ^ 8))
  rw [hpad] at hdigits hvalue8 hlen8
  rw [value_append, value_replicate, add_zero, List.length_replicate] at hvalue8
  rw [List.length_append, List.length_replicate] at hlen8
  have hfraction : AllDigits fraction := fun c hc => hdigits c (List.mem_append_left _ hc)
  have hk : 8 - fraction.length = k := by omega
  rw [hformat, parseMoney_numeral hwhole hfraction (by omega), hvalue, hk, hvalue8]
  have hsum : n.toInt.toNat / 10 ^ 8 * 10 ^ 8 + n.toInt.toNat % 10 ^ 8 = n.toInt.toNat :=
    Nat.div_add_mod' _ _
  have hten : (decimal (n.toInt.toNat / 10 ^ 8)).length ≤ 10 ↔ n.toInt < 10 ^ 18 := by
    rw [hlength 10 (by decide)]
    omega
  rw [hsum, Int.toNat_of_nonneg hn, Int64.ofInt_toInt, ← hten]
  split_ifs with hlt
  · exact iff_of_true rfl hlt
  · exact iff_of_false nofun hlt

/-! ## What is accepted -/

theorem trim_eq {a core b : Bytes} (ha : ∀ c ∈ a, isSpace c = true)
    (hcore : ∀ c ∈ core, isSpace c = false) (hb : ∀ c ∈ b, isSpace c = true) :
    trim (a ++ core ++ b) = core := by
  have hskip : ∀ {l : Bytes} (r : Bytes), (∀ c ∈ l, isSpace c = true) →
      (l ++ r).dropWhile isSpace = r.dropWhile isSpace := fun r hl =>
    List.dropWhile_append_of_pos hl
  rw [trim, List.append_assoc, hskip _ ha]
  cases core with
  | nil =>
    have hnil : b.dropWhile isSpace = [] := List.dropWhile_eq_nil_iff.mpr hb
    rw [List.nil_append, hnil]
    rfl
  | cons c core =>
    rw [List.cons_append, List.dropWhile_cons_of_neg
      (by rw [hcore c List.mem_cons_self]; exact Bool.false_ne_true), ← List.cons_append,
      List.reverse_append, hskip _ (fun x hx => hb x (List.mem_reverse.mp hx)),
      dropWhile_isSpace fun x hx => hcore x (List.mem_reverse.mp hx), List.reverse_reverse]

theorem mem_trim (hc : c ∈ str) (hspace : isSpace c = false) : c ∈ trim str := by
  have hdrop : ∀ {l : Bytes}, c ∈ l → c ∈ l.dropWhile isSpace := by
    intro l hl
    rw [← List.takeWhile_append_dropWhile (p := isSpace) (l := l), List.mem_append] at hl
    refine hl.resolve_left fun htake => ?_
    rw [List.mem_takeWhile_imp htake] at hspace
    cases hspace
  exact List.mem_reverse.mpr (hdrop (List.mem_reverse.mpr (hdrop hc)))

/-- What `ParseMoney` accepts of a text up to its first zero byte. -/
theorem denotes_of_parseMoney {v : CAmount} (h : parseMoney str = some v) :
    Denotes (str.takeWhile (· ≠ 0)) v := by
  simp only [parseMoney, Option.bind_eq_bind, Option.bind_eq_some_iff] at h
  obtain ⟨result, hparse, h⟩ := h
  obtain ⟨whole, fraction, core, rest, hwhole, hfraction, hlen, hcore, hp, rfl⟩ :=
    parseWhole_eq_some hparse
  simp only at h
  split_ifs at h with hrest hten hrange
  rw [Bool.not_eq_true, Bool.not_eq_false', List.all_eq_true] at hrest
  simp only [Bool.or_eq_true, decide_eq_true_eq, not_or, not_lt] at hrange
  obtain rfl := Option.some.inj h
  have hchars := numeral_chars hwhole hfraction hcore
  have htrim : trim (str.takeWhile (· ≠ 0)) = core := by
    rw [← List.takeWhile_append_dropWhile (p := isSpace) (l := str.takeWhile (· ≠ 0)), hp,
      ← List.append_assoc]
    exact trim_eq (fun c hc => List.mem_takeWhile_imp hc) (fun c hc => (hchars c hc).2) hrest
  refine ⟨whole, fraction, hwhole, hfraction, hlen, htrim ▸ hcore, ?_⟩
  have hcoin : COIN.toInt = 10 ^ 8 := by decide
  have hwhole10 : value whole < 10 ^ 10 :=
    (value_lt hwhole).trans_le (Nat.pow_le_pow_right (by decide) (not_lt.mp hten))
  rw [hcoin] at hrange ⊢
  have hexact : (Int64.ofInt (atoi64 whole * 10 ^ 8 +
      (value fraction : ℤ) * 10 ^ (8 - fraction.length))).toInt =
      (value whole : ℤ) * 10 ^ 8 + (value fraction : ℤ) * 10 ^ (8 - fraction.length) := by
    have hatoi : atoi64 whole = (value whole : ℤ) := rfl
    have hcast : (value whole : ℤ) < 10 ^ 10 := by exact_mod_cast hwhole10
    have hnonneg : (0 : ℤ) ≤ value whole := Int.natCast_nonneg _
    generalize (value fraction : ℤ) * 10 ^ (8 - fraction.length) = units at *
    have hsize : Int64.size = 2 ^ 64 := rfl
    rw [hatoi, Int64.toInt_ofInt, hsize, Int.bmod_eq_of_le (by omega) (by omega)]
  have hpow : (10 : ℚ) ^ (8 - fraction.length) * 10 ^ fraction.length = 10 ^ 8 := by
    rw [← pow_add, Nat.sub_add_cancel hlen]
  rw [hexact]
  push_cast
  field_simp
  rw [add_mul, mul_assoc, mul_assoc, hpow]
  ring

/-- An accepted text that goes on after a zero byte is no numeral. -/
theorem not_denotes_of_mem (h : 0 ∈ str) (v : CAmount) : ¬ Denotes str v := by
  rintro ⟨whole, fraction, hwhole, hfraction, -, hcore, -⟩
  exact (numeral_chars hwhole hfraction hcore 0 (mem_trim h rfl)).1 rfl

/-- Amounts round-trip, and what is accepted is a numeral, exactly if the amount has at most ten
digits before the dot and the text that is accepted has no zero byte. -/
theorem moneyStr_iff (n : CAmount) (hn : 0 ≤ n.toInt) (str : Bytes) :
    (parseMoney (formatMoney n) = some n ∧ ∀ v, parseMoney str = some v → Denotes str v) ↔
      n.toInt < 10 ^ 18 ∧ (parseMoney str ≠ none → 0 ∉ str) := by
  rw [parseMoney_formatMoney_iff hn]
  refine and_congr_right fun _ => ⟨fun h hsome hmem => ?_, fun h v hv => ?_⟩
  · obtain ⟨v, hv⟩ := Option.ne_none_iff_exists'.mp hsome
    exact not_denotes_of_mem hmem v (h v hv)
  · have hnul : str.takeWhile (· ≠ 0) = str := List.takeWhile_eq_self_iff.mpr fun c hc =>
      decide_eq_true fun hzero => h (by rw [hv]; exact nofun) (hzero ▸ hc)
    rw [← hnul]
    exact denotes_of_parseMoney hv

/-- One and a half coins, and ` 1.5` as a text. -/
theorem moneyStr_oneAndHalf :
    parseMoney (formatMoney 150000000) = some 150000000 ∧
      ∀ v, parseMoney [32, 49, 46, 53] = some v → Denotes [32, 49, 46, 53] v :=
  (moneyStr_iff 150000000 (by decide) [32, 49, 46, 53]).mpr ⟨by decide, fun _ => by decide⟩

/-- The least amount with eleven digits before the dot is not read back, and a text that goes on
after a zero byte is accepted. -/
theorem moneyStr_elevenDigits :
    parseMoney (formatMoney 1000000000000000000) ≠ some 1000000000000000000 ∧
      parseMoney [49, 0, 120] = some 100000000 ∧ ¬ Denotes [49, 0, 120] 100000000 := by
  refine ⟨fun h => ?_, by decide +kernel, not_denotes_of_mem (by decide) _⟩
  have := (parseMoney_formatMoney_iff (by decide)).mp h
  exact absurd this (by decide)

end MoneyStr

end X2XCoin
