import X2XCoin.Lib.Radix
import X2XCoin.Primitives.Transaction

/-!
# Base58 in the node

`DecodeBase58`, `EncodeBase58` and their forms with a checksum, of `base58.cpp`.  A C string is the
list of its characters, and the arrays `b256` and `b58` have their least significant digit first.  A
failed assertion gives `none`.
-/

open ByteCodec

namespace X2XCoin

def pszBase58 : List Char := "123456789ABCDEFGHJKLMNPQRSTUVWXYZabcdefghijkmnopqrstuvwxyz".toList

/-- `isspace` in the C locale. -/
def isSpace (c : Char) : Bool := c = ' ' ∨ 9 ≤ c.toNat ∧ c.toNat ≤ 13

/-- The digit of a character, `strchr(pszBase58, c) - pszBase58`. -/
def base58Digit (c : Char) : Option ℕ := pszBase58.idxOf? c

def base58Char (n : ℕ) : Char := pszBase58.getD n '1'

def decodeBase58 (psz : List Char) : Option Bytes := do
  let psz := psz.dropWhile isSpace
  let zeroes := (psz.takeWhile (· = '1')).length
  let psz := psz.dropWhile (· = '1')
  let digits ← (psz.takeWhile (!isSpace ·)).mapM base58Digit
  let b256 ← Radix.accumulate 58 256 (psz.length * 733 / 1000 + 1) digits
  if (psz.dropWhile (!isSpace ·)).dropWhile isSpace ≠ [] then none
  else pure (List.replicate zeroes 0 ++ (b256.reverse.dropWhile (· = 0)).map UInt8.ofNat)

def encodeBase58 (vch : Bytes) : Option (List Char) := do
  let zeroes := (vch.takeWhile (· = 0)).length
  let vch := vch.dropWhile (· = 0)
  let size := vch.length * 138 / 100 + 1
  let (b58, length) ← Radix.accumulateUsed 256 58 size (vch.map UInt8.toNat)
  let digits := (b58.reverse.drop (size - length)).dropWhile (· = 0)
  pure (List.replicate zeroes '1' ++ digits.map base58Char)

/-! ## What is computed -/

def base58Text (vch : Bytes) : List Char :=
  (Radix.transcode 256 58 (vch.map UInt8.toNat)).map base58Char

/-- The bytes of a text. -/
def base58Bytes (psz : List Char) : Option Bytes :=
  (psz.mapM base58Digit).map fun digits => (Radix.transcode 58 256 digits).map UInt8.ofNat

theorem pszBase58_eq : pszBase58 =
    ['1', '2', '3', '4', '5', '6', '7', '8', '9', 'A', 'B', 'C', 'D', 'E', 'F', 'G', 'H', 'J', 'K',
      'L', 'M', 'N', 'P', 'Q', 'R', 'S', 'T', 'U', 'V', 'W', 'X', 'Y', 'Z', 'a', 'b', 'c', 'd', 'e',
      'f', 'g', 'h', 'i', 'j', 'k', 'm', 'n', 'o', 'p', 'q', 'r', 's', 't', 'u', 'v', 'w', 'x', 'y',
      'z'] := by
  decide +kernel

theorem length_pszBase58 : pszBase58.length = 58 := by
  rw [pszBase58_eq]
  rfl

theorem nodup_pszBase58 : pszBase58.Nodup := by
  rw [pszBase58_eq]
  decide +kernel

variable {n : ℕ} {c : Char} {psz : List Char} {digits : List ℕ} {vch : Bytes}

theorem base58Digit_char (h : n < 58) : base58Digit (base58Char n) = some n := by
  have hn : n < pszBase58.length := length_pszBase58.symm ▸ h
  rw [base58Digit, base58Char, List.getD_eq_getElem?_getD, List.getElem?_eq_getElem hn,
    Option.getD_some, List.idxOf?_eq_some_iff]
  refine ⟨hn, rfl, fun j hj heq => ?_⟩
  exact hj.ne ((nodup_pszBase58.getElem_inj_iff).mp heq)

theorem base58Digit_eq_some (h : base58Digit c = some n) : n < 58 ∧ base58Char n = c := by
  obtain ⟨hn, heq, -⟩ := List.idxOf?_eq_some_iff.mp h
  refine ⟨length_pszBase58 ▸ hn, ?_⟩
  rw [base58Char, List.getD_eq_getElem?_getD, List.getElem?_eq_getElem hn, heq, Option.getD_some]

theorem base58Char_zero : base58Char 0 = '1' := by
  rw [base58Char, pszBase58_eq]
  rfl

theorem base58Digit_one : base58Digit '1' = some 0 := by
  rw [← base58Char_zero]
  exact base58Digit_char (by decide)

theorem base58Digit_eq_zero_iff (h : base58Digit c = some n) : n = 0 ↔ c = '1' := by
  refine ⟨?_, ?_⟩
  · rintro rfl
    rw [← (base58Digit_eq_some h).2, base58Char_zero]
  · rintro rfl
    exact Option.some.inj (h.symm.trans base58Digit_one)

theorem base58Digit_not_space (h : base58Digit c = some n) : isSpace c = false := by
  have hall : pszBase58.all (!isSpace ·) = true := by
    rw [pszBase58_eq]
    rfl
  obtain ⟨hn, heq, -⟩ := List.idxOf?_eq_some_iff.mp h
  exact Bool.not_eq_true' _ ▸ List.all_eq_true.mp hall c (heq ▸ List.getElem_mem hn)

section MapM

variable {α β : Type} {f : α → Option β}

theorem mapM_eq_some_iff {l : List α} {r : List β} :
    l.mapM f = some r ↔ List.Forall₂ (fun x y => f x = some y) l r := by
  induction l generalizing r with
  | nil =>
    rw [List.mapM_nil, List.forall₂_nil_left_iff]
    exact ⟨fun h => (Option.some.inj h).symm, fun h => congrArg some h.symm⟩
  | cons x l ih =>
    rw [List.mapM_cons, List.forall₂_cons_left_iff]
    simp only [Option.bind_eq_bind, Option.bind_eq_some_iff, Option.pure_def, Option.some.injEq, ih]
    constructor
    · rintro ⟨y, hy, ys, hys, rfl⟩
      exact ⟨y, ys, hy, hys, rfl⟩
    · rintro ⟨y, ys, hy, hys, rfl⟩
      exact ⟨y, hy, ys, hys, rfl⟩

theorem mapM_map_of_inverse {g : β → α} {r : List β} (h : ∀ y ∈ r, f (g y) = some y) :
    (r.map g).mapM f = some r := by
  induction r with
  | nil => rfl
  | cons y r ih =>
    rw [List.forall_mem_cons] at h
    rw [List.map_cons, List.mapM_cons, h.1, ih h.2]
    rfl

end MapM

theorem digits_spec (h : psz.mapM base58Digit = some digits) :
    (∀ d ∈ digits, d < 58) ∧ digits.map base58Char = psz := by
  rw [mapM_eq_some_iff] at h
  induction h with
  | nil => simp
  | cons hd _ ih =>
    obtain ⟨hlt, hchar⟩ := base58Digit_eq_some hd
    rw [List.forall_mem_cons, List.map_cons, hchar, ih.2]
    exact ⟨⟨hlt, ih.1⟩, rfl⟩

theorem map_ofNat_toNat (vch : Bytes) : (vch.map UInt8.toNat).map UInt8.ofNat = vch := by
  rw [List.map_map]
  conv_rhs => rw [← List.map_id vch]
  exact List.map_congr_left fun b _ => UInt8.ofNat_toNat

theorem map_toNat_ofNat (h : ∀ d ∈ digits, d < 256) :
    (digits.map UInt8.ofNat).map UInt8.toNat = digits := by
  rw [List.map_map]
  conv_rhs => rw [← List.map_id digits]
  refine List.map_congr_left fun d hd => ?_
  rw [Function.comp_apply, UInt8.toNat_ofNat']
  exact Nat.mod_eq_of_lt (h d hd)

theorem map_toNat_lt (vch : Bytes) : ∀ d ∈ vch.map UInt8.toNat, d < 256 := by
  rw [List.forall_mem_map]
  exact fun b _ => b.toNat_lt

theorem base58Bytes_base58Text (vch : Bytes) : base58Bytes (base58Text vch) = some vch := by
  rw [base58Bytes, base58Text, mapM_map_of_inverse fun d hd =>
    base58Digit_char (Radix.transcode_lt (by decide) _ d hd), Option.map_some,
    Radix.transcode_transcode (by decide) (map_toNat_lt vch), map_ofNat_toNat]

theorem base58Text_of_base58Bytes (h : base58Bytes psz = some vch) : base58Text vch = psz := by
  obtain ⟨digits, hdigits, rfl⟩ := Option.map_eq_some_iff.mp h
  obtain ⟨hlt, hchar⟩ := digits_spec hdigits
  rw [base58Text, map_toNat_ofNat (Radix.transcode_lt (by decide) _),
    Radix.transcode_transcode (by decide) hlt, hchar]

theorem mem_pszBase58_of_mem_base58Text (h : c ∈ base58Text vch) : c ∈ pszBase58 := by
  obtain ⟨d, hd, rfl⟩ := List.mem_map.mp h
  have hlt := Radix.transcode_lt (a := 256) (by decide : 1 < 58) _ d hd
  rw [base58Char, List.getD_eq_getElem?_getD, List.getElem?_eq_getElem (length_pszBase58 ▸ hlt)]
  exact List.getElem_mem _

theorem base58Text_ne_nil (h : vch ≠ []) : base58Text vch ≠ [] := by
  intro hnil
  have hround := base58Bytes_base58Text vch
  rw [hnil] at hround
  exact h (Option.some.inj hround).symm

/-! ## The loops -/

theorem takeWhile_map_eq {α β : Type} {l : List α} {g : α → β} {p : β → Bool} {q : α → Bool}
    (h : ∀ x ∈ l, p (g x) = q x) : (l.map g).takeWhile p = (l.takeWhile q).map g ∧
      (l.map g).dropWhile p = (l.dropWhile q).map g := by
  induction l with
  | nil => simp
  | cons x l ih =>
    rw [List.forall_mem_cons] at h
    obtain ⟨htake, hdrop⟩ := ih h.2
    simp only [List.map_cons, List.takeWhile_cons, List.dropWhile_cons, h.1, htake, hdrop]
    split <;> simp

theorem zeros_map_toNat (vch : Bytes) :
    Radix.zeros (vch.map UInt8.toNat) = (vch.takeWhile (· = 0)).length ∧
      (vch.map UInt8.toNat).dropWhile (· = 0) = (vch.dropWhile (· = 0)).map UInt8.toNat := by
  have hzero : ∀ b ∈ vch, decide (b.toNat = 0) = decide (b = 0) := fun b _ =>
    decide_eq_decide.mpr ⟨fun h => UInt8.toNat_inj.mp h, fun h => congrArg UInt8.toNat h⟩
  obtain ⟨htake, hdrop⟩ := takeWhile_map_eq (g := UInt8.toNat) (p := (· = 0)) (q := (· = 0)) hzero
  exact ⟨by rw [Radix.zeros, htake, List.length_map], hdrop⟩

theorem encodeBase58_eq (vch : Bytes) : encodeBase58 vch = some (base58Text vch) := by
  obtain ⟨hzeros, hdrop⟩ := zeros_map_toNat vch
  have hhorner := Radix.horner_dropWhile (a := 256) (vch.map UInt8.toNat)
  rw [hdrop] at hhorner
  have hfit := Radix.pow_le_pow_of_ratio (a := 256) (b := 58) (p := 138) (q := 100) (by decide)
    (by decide) (by decide +kernel) ((vch.dropWhile (· = 0)).map UInt8.toNat).length
  obtain ⟨ds, hds, hlen, hlt, hval⟩ := Radix.accumulate_eq (by decide) (by decide)
    (map_toNat_lt (vch.dropWhile (· = 0))) hfit
  obtain ⟨heq, hunused⟩ := Radix.accumulateUsed_eq (a := 256) (b := 58)
    (((vch.dropWhile (· = 0)).map UInt8.toNat).length * 138 / 100 + 1)
    ((vch.dropWhile (· = 0)).map UInt8.toNat)
  rw [hds] at heq
  obtain ⟨⟨ds', length⟩, hused, hfst⟩ := Option.map_eq_some_iff.mp heq
  obtain rfl : ds' = ds := hfst
  -- the digits that are skipped because they are not in use are zeros
  have hskip : (ds'.reverse.drop (ds'.length - length)).dropWhile (· = 0) =
      ds'.reverse.dropWhile (· = 0) := by
    have hrep := List.eq_replicate_of_mem (hunused _ hused)
    have hsplit : ds'.reverse = (ds'.drop length).reverse ++ (ds'.take length).reverse := by
      rw [← List.reverse_append, List.take_append_drop]
    rw [hsplit, List.drop_left' (by simp), hrep, List.reverse_replicate,
      List.dropWhile_append_of_pos (by simp)]
  rw [List.length_map] at hused hlen
  simp only [encodeBase58, hused, Option.bind_eq_bind, Option.bind_some, Option.pure_def,
    Option.some.injEq]
  rw [← hlen, hskip, Radix.dropWhile_accumulate (by decide) hlt, hval, hhorner, base58Text,
    Radix.transcode, List.map_append, List.map_replicate, hzeros, base58Char_zero]

theorem mapM_ones (psz : List Char) : psz.mapM base58Digit =
    ((psz.dropWhile (· = '1')).mapM base58Digit).map
      (List.replicate (psz.takeWhile (· = '1')).length 0 ++ ·) := by
  have hones : psz.takeWhile (· = '1') =
      (List.replicate (psz.takeWhile (· = '1')).length 0).map base58Char := by
    rw [List.map_replicate, base58Char_zero]
    exact List.eq_replicate_of_mem fun c hc => by simpa using List.mem_takeWhile_imp hc
  conv_lhs => rw [← List.takeWhile_append_dropWhile (p := (· = '1')) (l := psz), hones,
    List.mapM_append, mapM_map_of_inverse (by
      intro d hd
      rw [List.eq_of_mem_replicate hd]
      exact base58Digit_one)]
  cases (psz.dropWhile (· = '1')).mapM base58Digit <;> rfl

theorem zeros_of_mapM (hhead : psz.head? ≠ some '1') (h : psz.mapM base58Digit = some digits) :
    digits.head? ≠ some 0 := by
  rw [mapM_eq_some_iff] at h
  cases h with
  | nil => simp
  | cons hd _ =>
    rw [List.head?_cons, ne_eq, Option.some.injEq] at hhead ⊢
    exact fun hzero => hhead ((base58Digit_eq_zero_iff hd).mp hzero)

theorem decodeBase58_eq (h : ∀ c ∈ psz, isSpace c = false) :
    decodeBase58 psz = base58Bytes psz := by
  have hstart : psz.dropWhile isSpace = psz := by
    cases psz with
    | nil => rfl
    | cons c psz => rw [List.dropWhile_cons_of_neg (by simp [h])]
  have hall : ∀ c ∈ psz.dropWhile (· = '1'), (!isSpace c) = true := fun c hc => by
    rw [h c ((List.dropWhile_sublist _).mem hc)]
    rfl
  have htake := List.takeWhile_eq_self_iff.mpr hall
  have hdrop := List.dropWhile_eq_nil_iff.mpr hall
  rw [decodeBase58, hstart, htake, hdrop, base58Bytes, mapM_ones psz]
  cases hdigits : (psz.dropWhile (· = '1')).mapM base58Digit with
  | none => rfl
  | some digits =>
    have hlen : (psz.dropWhile (· = '1')).length = digits.length :=
      (mapM_eq_some_iff.mp hdigits).length_eq
    have hfit := Radix.pow_le_pow_of_ratio (a := 58) (b := 256) (p := 733) (q := 1000) (by decide)
      (by decide) (by decide +kernel) digits.length
    have hhead : (psz.dropWhile (· = '1')).head? ≠ some '1' := by
      intro hone
      have := List.head?_dropWhile_not (fun c => decide (c = '1')) psz
      rw [hone] at this
      simp at this
    have hnonzero := zeros_of_mapM hhead hdigits
    obtain ⟨ds, hds, -, hlt, hval⟩ := Radix.accumulate_eq (by decide) (by decide)
      (digits_spec hdigits).1 hfit
    rw [hlen]
    simp only [Option.bind_eq_bind, Option.bind_some, hds, List.dropWhile_nil, ne_eq,
      not_true_eq_false, if_false, Option.pure_def, Option.map_some, Option.some.injEq]
    rw [Radix.dropWhile_accumulate (by decide) hlt, hval, Radix.transcode,
      Radix.zeros_replicate_append hnonzero, Radix.horner_replicate_append, List.map_append,
      List.map_replicate]
    rfl

/-! ## Checksums -/

section

variable (hash256 : Bytes → Uint256)

/-- The first four bytes of the double SHA-256. -/
def checksum (vch : Bytes) : Bytes := (leBytes 32 (hash256 vch).toNat).take 4

def encodeBase58Check (vchIn : Bytes) : Option (List Char) :=
  encodeBase58 (vchIn ++ checksum hash256 vchIn)

def decodeBase58Check (psz : List Char) : Option Bytes := do
  let vchRet ← decodeBase58 psz
  if vchRet.length < 4 then none
  else
    let body := vchRet.take (vchRet.length - 4)
    if checksum hash256 body ≠ vchRet.drop (vchRet.length - 4) then none else pure body

theorem length_checksum (vch : Bytes) : (checksum hash256 vch).length = 4 := by
  simp [checksum]

theorem encodeBase58Check_eq (vchIn : Bytes) : encodeBase58Check hash256 vchIn =
    some (base58Text (vchIn ++ checksum hash256 vchIn)) :=
  encodeBase58_eq _

theorem eq_append_checksum_iff {vch body : Bytes} : vch = body ++ checksum hash256 body ↔
    4 ≤ vch.length ∧ checksum hash256 (vch.take (vch.length - 4)) = vch.drop (vch.length - 4) ∧
      vch.take (vch.length - 4) = body := by
  constructor
  · rintro rfl
    have hlen : (body ++ checksum hash256 body).length - 4 = body.length := by
      rw [List.length_append, length_checksum, Nat.add_sub_cancel]
    rw [hlen, List.take_left, List.drop_left, List.length_append, length_checksum]
    exact ⟨Nat.le_add_left .., rfl, rfl⟩
  · rintro ⟨-, hsum, rfl⟩
    rw [hsum, List.take_append_drop]

theorem decodeBase58Check_eq_some {psz : List Char} {body : Bytes}
    (h : ∀ c ∈ psz, isSpace c = false) : decodeBase58Check hash256 psz = some body ↔
      base58Bytes psz = some (body ++ checksum hash256 body) := by
  rw [decodeBase58Check, decodeBase58_eq h]
  cases base58Bytes psz with
  | none => simp
  | some vch =>
    simp only [Option.some.injEq, eq_append_checksum_iff, Option.bind_eq_bind, Option.bind_some]
    split_ifs with hlen hsum
    · simp [hlen]
    · simp [hsum]
    · simp [not_lt.mp hlen, not_not.mp hsum]

end

end X2XCoin
