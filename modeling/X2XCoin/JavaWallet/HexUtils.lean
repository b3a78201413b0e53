import X2XCoin.JavaWallet.Amount
import X2XCoin.JavaWallet.Transaction

/-!
# Hexadecimal text

`HexUtils.fromHex` and `toHex` on all Java strings.  `Integer.parseInt` takes a sign for its first
character, and `Character.digit` has digits beyond ASCII.
-/

open ByteCodec

namespace X2XCoin

namespace JavaWallet

namespace HexUtils

open Amount

/-- The digits of hexadecimal text. -/
def asciiDigit (c : UInt16) : Option ℕ :=
  if 48 ≤ c ∧ c ≤ 57 then some (c.toNat - 48)
  else if 97 ≤ c ∧ c ≤ 102 then some (c.toNat - 87)
  else if 65 ≤ c ∧ c ≤ 70 then some (c.toNat - 55)
  else none

/-- `Character.digit(c, 16)`. -/
structure HexTable where
  digit : UInt16 → Option ℕ
  digit_lt : ∀ {c n}, digit c = some n → n < 16
  ascii : ∀ {c : UInt16}, c < 128 → digit c = asciiDigit c

/-! ## The functions -/

section

variable (t : HexTable)

/-- The number that digits stand for. -/
def digitsValue (s : JavaString) : ℕ := s.foldl (fun n c => 16 * n + (t.digit c).getD 0) 0

/-- The digits of `Integer.parseInt` after the sign. -/
def parseDigits (negative : Bool) (s : JavaString) : Option ℤ :=
  let value : ℤ := if negative then -digitsValue t s else digitsValue t s
  if s ≠ [] ∧ (s.all fun c => (t.digit c).isSome) ∧ -2 ^ 31 ≤ value ∧ value < 2 ^ 31 then some value
  else none

/-- `Integer.parseInt(s, 16)`. -/
def parseInt : JavaString → Option ℤ
  | [] => none
  | c :: s =>
    if c < zero then
      if c = minus then parseDigits t true s
      else if c = plus then parseDigits t false s
      else none
    else parseDigits t false (c :: s)

/-- The loop of `fromHex`; a number is cast to a byte. -/
def decodePairs : JavaString → Option Bytes
  | c :: d :: hex => do
    let value ← parseInt t [c, d]
    let out ← decodePairs hex
    pure (⟨BitVec.ofInt 8 value⟩ :: out)
  | _ => some []

def fromHex (hex : JavaString) : Option Bytes :=
  if hex.length % 2 ≠ 0 then none else decodePairs t hex

/-- A digit of `%02x`. -/
def hexUnit (n : ℕ) : UInt16 := if n < 10 then UInt16.ofNat (48 + n) else UInt16.ofNat (87 + n)

def toHex (bytes : Bytes) : JavaString :=
  bytes.flatMap fun b => [hexUnit (b.toNat / 16), hexUnit (b.toNat % 16)]

/-- `toLowerCase` of a character.  Beyond ASCII it has no hexadecimal digit as its result. -/
def toLowerCase (c : UInt16) : UInt16 := if 65 ≤ c ∧ c ≤ 90 then c + 32 else c

end

/-! ## Pairs of digits -/

variable {t : HexTable}

theorem asciiDigit_eq_some {c : UInt16} {n : ℕ} (h : asciiDigit c = some n) :
    n < 16 ∧ zero ≤ c ∧ c < 128 ∧ hexUnit n = toLowerCase c := by
  unfold asciiDigit at h
  unfold hexUnit toLowerCase zero
  simp only [UInt16.le_iff_toNat_le, UInt16.lt_iff_toNat_lt, UInt16.reduceToNat] at h ⊢
  split_ifs at h with hdigit hlower hupper <;> cases h
  · refine ⟨by omega, by omega, by omega, ?_⟩
    rw [if_pos (by omega), if_neg (by omega), Nat.add_sub_cancel' hdigit.1, UInt16.ofNat_toNat]
  · refine ⟨by omega, by omega, by omega, ?_⟩
    rw [if_neg (by omega), if_neg (by omega), Nat.add_sub_cancel' (by omega), UInt16.ofNat_toNat]
  · refine ⟨by omega, by omega, by omega, ?_⟩
    rw [if_neg (by omega), if_pos (by omega), show 87 + (c.toNat - 55) = c.toNat + 32 by omega,
      UInt16.ofNat_add, UInt16.ofNat_toNat]
    rfl

variable {c d : UInt16}

theorem parseInt_ascii (hzero : ¬ c < zero) (hc : c < 128) (hd : d < 128) :
    parseInt t [c, d] = (asciiDigit c).bind fun m => (asciiDigit d).map fun n =>
      ((16 * m + n : ℕ) : ℤ) := by
  have hvalue : digitsValue t [c, d] = 16 * (asciiDigit c).getD 0 + (asciiDigit d).getD 0 := by
    simp [digitsValue, t.ascii hc, t.ascii hd]
  rw [parseInt, if_neg hzero, parseDigits, hvalue]
  cases hm : asciiDigit c with
  | none => exact if_neg fun h => by simp [t.ascii hc, hm] at h
  | some m =>
    cases hn : asciiDigit d with
    | none => exact if_neg fun h => by simp [t.ascii hd, hn] at h
    | some n =>
      have hmlt := (asciiDigit_eq_some hm).1
      have hnlt := (asciiDigit_eq_some hn).1
      refine if_pos ⟨List.cons_ne_nil _ _, by simp [t.ascii hc, t.ascii hd, hm, hn], ?_⟩
      simp only [Bool.false_eq_true, if_false, Option.getD_some]
      omega

theorem parseInt_pair {m n : ℕ} (hc : asciiDigit c = some m) (hd : asciiDigit d = some n) :
    parseInt t [c, d] = some ((16 * m + n : ℕ) : ℤ) := by
  obtain ⟨-, hzero, hclt, -⟩ := asciiDigit_eq_some hc
  rw [parseInt_ascii (UInt16.not_lt.mpr hzero) hclt (asciiDigit_eq_some hd).2.2.1, hc, hd]
  rfl

/-- A pair without a sign and without characters beyond ASCII. -/
theorem asciiDigit_of_parseInt {v : ℤ} (hplus : c ≠ plus) (hminus : c ≠ minus) (hc : c < 128)
    (hd : d < 128) (h : parseInt t [c, d] = some v) :
    ∃ m n, asciiDigit c = some m ∧ asciiDigit d = some n := by
  by_cases hzero : c < zero
  · rw [parseInt, if_pos hzero, if_neg hminus, if_neg hplus] at h
    cases h
  · rw [parseInt_ascii hzero hc hd] at h
    obtain ⟨m, hm, h⟩ := Option.bind_eq_some_iff.mp h
    obtain ⟨n, hn, -⟩ := Option.map_eq_some_iff.mp h
    exact ⟨m, n, hm, hn⟩

/-! ## Strictness -/

/-- The string is refused or decoded to the bytes that it spells, and it is decoded exactly if it is
hexadecimal text. -/
def Strict (t : HexTable) (hex : JavaString) : Prop :=
  (∀ out, fromHex t hex = some out → toHex out = hex.map toLowerCase) ∧
  ((fromHex t hex).isSome ↔ hex.length % 2 = 0 ∧ ∀ c ∈ hex, (asciiDigit c).isSome)

theorem decodePairs_of_digits (hex : JavaString) (heven : hex.length % 2 = 0)
    (hdigits : ∀ c ∈ hex, (asciiDigit c).isSome) :
    ∃ out, decodePairs t hex = some out ∧ toHex out = hex.map toLowerCase := by
  induction hex using decodePairs.induct with
  | case1 c d hex ih =>
    rw [List.forall_mem_cons, List.forall_mem_cons] at hdigits
    obtain ⟨m, hm⟩ := Option.isSome_iff_exists.mp hdigits.1
    obtain ⟨n, hn⟩ := Option.isSome_iff_exists.mp hdigits.2.1
    obtain ⟨out, hout, htext⟩ := ih (by simp only [List.length_cons] at heven; omega) hdigits.2.2
    obtain ⟨hmlt, -, -, hmtext⟩ := asciiDigit_eq_some hm
    obtain ⟨hnlt, -, -, hntext⟩ := asciiDigit_eq_some hn
    refine ⟨⟨BitVec.ofInt 8 ((16 * m + n : ℕ) : ℤ)⟩ :: out, ?_, ?_⟩
    · rw [decodePairs, parseInt_pair hm hn, hout]
      rfl
    · have hbyte : (⟨BitVec.ofInt 8 ((16 * m + n : ℕ) : ℤ)⟩ : UInt8).toNat = 16 * m + n := by
        rw [BitVec.ofInt_natCast]
        change (16 * m + n) % 2 ^ 8 = 16 * m + n
        omega
      have hhigh : (16 * m + n) / 16 = m := by omega
      have hlow : (16 * m + n) % 16 = n := by omega
      rw [toHex, List.flatMap_cons, hbyte, hhigh, hlow, hmtext, hntext, List.map_cons,
        List.map_cons, ← htext]
      rfl
  | case2 hex hshort =>
    match hex, heven, hshort with
    | [], _, _ => exact ⟨[], rfl, rfl⟩
    | [_], heven, _ => cases heven
    | c :: d :: hex, _, hshort => exact absurd rfl (hshort c d hex)

theorem digits_of_decodePairs {hex : JavaString} {out : Bytes} (heven : hex.length % 2 = 0)
    (hplain : ∀ c ∈ hex, c ≠ plus ∧ c ≠ minus ∧ c < 128) (h : decodePairs t hex = some out) :
    ∀ c ∈ hex, (asciiDigit c).isSome := by
  induction hex using decodePairs.induct generalizing out with
  | case1 c d hex ih =>
    rw [List.forall_mem_cons, List.forall_mem_cons] at hplain
    rw [decodePairs] at h
    obtain ⟨v, hv, h⟩ := Option.bind_eq_some_iff.mp h
    obtain ⟨rest, hrest, -⟩ := Option.bind_eq_some_iff.mp h
    obtain ⟨m, n, hm, hn⟩ := asciiDigit_of_parseInt hplain.1.1 hplain.1.2.1 hplain.1.2.2
      hplain.2.1.2.2 hv
    rw [List.forall_mem_cons, List.forall_mem_cons, hm, hn]
    exact ⟨rfl, rfl, ih (by simp only [List.length_cons] at heven; omega) hplain.2.2 hrest⟩
  | case2 hex hshort =>
    match hex, heven, hshort with
    | [], _, _ => exact List.forall_mem_nil _
    | [_], heven, _ => cases heven
    | c :: d :: hex, _, hshort => exact absurd rfl (hshort c d hex)

/-- Decoding is strict exactly on the strings that are refused and on those without a sign and
without characters beyond ASCII. -/
theorem fromHex_strict_iff (t : HexTable) (hex : JavaString) :
    Strict t hex ↔ fromHex t hex = none ∨ ∀ c ∈ hex, c ≠ plus ∧ c ≠ minus ∧ c < 128 := by
  have haccept : hex.length % 2 = 0 → (∀ c ∈ hex, (asciiDigit c).isSome) →
      ∃ out, fromHex t hex = some out ∧ toHex out = hex.map toLowerCase := by
    intro heven hdigits
    obtain ⟨out, hout, htext⟩ := decodePairs_of_digits hex heven hdigits
    exact ⟨out, (if_neg (not_not.mpr heven)).trans hout, htext⟩
  have hdigit : ∀ c : UInt16, (asciiDigit c).isSome → c ≠ plus ∧ c ≠ minus ∧ c < 128 := by
    intro c hc
    obtain ⟨n, hn⟩ := Option.isSome_iff_exists.mp hc
    refine ⟨?_, ?_, (asciiDigit_eq_some hn).2.2.1⟩
    · rintro rfl
      cases hn
    · rintro rfl
      cases hn
  constructor
  · rintro ⟨-, hexact⟩
    cases hout : fromHex t hex with
    | none => exact .inl rfl
    | some out =>
      rw [hout] at hexact
      exact .inr fun c hc => hdigit c ((hexact.mp rfl).2 c hc)
  · rintro (hnone | hplain)
    · refine ⟨fun out hout => ?_, fun hsome => ?_, fun htext => ?_⟩
      · rw [hnone] at hout
        cases hout
      · rw [hnone] at hsome
        cases hsome
      · obtain ⟨out, hout, -⟩ := haccept htext.1 htext.2
        rw [hout]
        rfl
    · have htext : ∀ out, fromHex t hex = some out →
          hex.length % 2 = 0 ∧ ∀ c ∈ hex, (asciiDigit c).isSome := by
        intro out hout
        rw [fromHex] at hout
        split_ifs at hout with heven
        exact ⟨not_not.mp heven, digits_of_decodePairs (not_not.mp heven) hplain hout⟩
      refine ⟨fun out hout => ?_, fun hsome => ?_, fun htext => ?_⟩
      · obtain ⟨out', hout', hspelt⟩ := haccept (htext out hout).1 (htext out hout).2
        rw [Option.some.inj (hout.symm.trans hout')]
        exact hspelt
      · obtain ⟨out, hout⟩ := Option.isSome_iff_exists.mp hsome
        exact htext out hout
      · obtain ⟨out, hout, -⟩ := haccept htext.1 htext.2
        rw [hout]
        rfl

/-- A table without digits beyond ASCII. -/
def asciiTable : HexTable where
  digit := asciiDigit
  digit_lt h := (asciiDigit_eq_some h).1
  ascii _ := rfl

/-- `-1` is decoded to the byte that is spelt `ff`, and `+a` to the one that is spelt `0a`. -/
theorem fromHex_signs :
    fromHex asciiTable [45, 49] = some [0xff] ∧ fromHex asciiTable [43, 97] = some [0x0a] ∧
      ¬ Strict asciiTable [45, 49] ∧ ¬ Strict asciiTable [43, 97] := by
  have hminus : fromHex asciiTable [45, 49] = some [0xff] := by decide
  have hplus : fromHex asciiTable [43, 97] = some [0x0a] := by decide
  exact ⟨hminus, hplus, fun h => absurd (h.1 _ hminus) (by decide),
    fun h => absurd (h.1 _ hplus) (by decide)⟩

end HexUtils

end JavaWallet

end X2XCoin
