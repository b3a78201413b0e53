import X2XCoin.Address.Base58
import X2XCoin.Address.CashAddrChecksum

/-!
# Decoding cashaddr

A text that `Decode` accepts is the encoding of what it returns, provided that there are eight symbols
to cut off.
-/

open ByteCodec

namespace X2XCoin

namespace CashAddr

/-! ## Symbols -/

theorem symbol_spec {c v : UInt8} (h : symbol c = some v) :
    v.toNat < 32 ∧ (isUpper c = false → CHARSET.getD v.toNat 0 = c) := by
  have hall : ((List.range 128).map UInt8.ofNat).all (fun c => (symbol c).all fun v =>
      v.toNat < 32 && (isUpper c || CHARSET.getD v.toNat 0 == c)) = true := by
    decide +kernel
  have hc : c.toNat < 128 := by
    rw [symbol] at h
    split_ifs at h with hc
    exact Nat.lt_succ_of_le (Nat.not_lt.mp fun hlt => hc (UInt8.lt_iff_toNat_lt.mpr hlt))
  have hmem : c ∈ (List.range 128).map UInt8.ofNat :=
    List.mem_map.mpr ⟨c.toNat, List.mem_range.mpr hc, UInt8.ofNat_toNat⟩
  have hthis := List.all_eq_true.mp hall c hmem
  simp only [h, Option.all_some, Bool.and_eq_true, Bool.or_eq_true, decide_eq_true_eq,
    beq_iff_eq] at hthis
  exact ⟨hthis.1, fun hupper => hthis.2.resolve_left (by rw [hupper]; exact Bool.false_ne_true)⟩

theorem mapM_symbol_spec {str values : Bytes} (h : str.mapM symbol = some values) :
    AllSymbols values ∧ ((∀ c ∈ str, isUpper c = false) →
      values.map (fun v => CHARSET.getD v.toNat 0) = str) := by
  rw [mapM_eq_some_iff] at h
  induction h with
  | nil => exact ⟨fun d hd => absurd hd List.not_mem_nil, fun _ => rfl⟩
  | cons hd _ ih =>
    obtain ⟨hlt, hchar⟩ := symbol_spec hd
    refine ⟨List.forall_mem_cons.mpr ⟨hlt, ih.1⟩, fun hupper => ?_⟩
    rw [List.forall_mem_cons] at hupper
    rw [List.map_cons, hchar hupper.1, ih.2 hupper.2]

theorem lowerCase_of_isLower {c : UInt8} (h : isLower c = true) : lowerCase c = c := by
  have hall : ∀ n < 26, lowerCase (UInt8.ofNat (97 + n)) = UInt8.ofNat (97 + n) := by decide
  rw [isLower, Bool.and_eq_true, decide_eq_true_eq, decide_eq_true_eq, UInt8.le_iff_toNat_le,
    UInt8.le_iff_toNat_le] at h
  have hlow : 97 ≤ c.toNat := h.1
  have hhigh : c.toNat ≤ 122 := h.2
  have hthis := hall (c.toNat - 97) (by omega)
  rwa [Nat.add_sub_cancel' hlow, UInt8.ofNat_toNat] at hthis

/-! ## The separator -/

/-- What the first loop finds from `i` on: no separator, or letters and one. -/
def Found (i : ℕ) (s s' : Scan) (str : Bytes) : Prop :=
  (58 ∉ str ∧ s'.prefixSize = s.prefixSize) ∨
  ∃ pre rest, str = pre ++ 58 :: rest ∧ s.hasNumber = false ∧ s.prefixSize = 0 ∧
    s'.prefixSize = i + pre.length ∧ s'.prefixSize ≠ 0 ∧
    ∀ c ∈ pre, isLower c = true ∨ isUpper c = true

theorem scan_spec {i : ℕ} {s s' : Scan} {str : Bytes} (h : scan i s str = some s') :
    Found i s s' str := by
  induction str generalizing i s with
  | nil =>
    obtain rfl : s = s' := Option.some.inj h
    exact .inl ⟨List.not_mem_nil, rfl⟩
  | cons c str ih =>
    -- A letter joins the letters before the separator.
    have hletter : ∀ {s₁ : Scan}, scan (i + 1) s₁ str = some s' → s₁.hasNumber = s.hasNumber →
        s₁.prefixSize = s.prefixSize → c ≠ 58 → isLower c = true ∨ isUpper c = true →
        Found i s s' (c :: str) := by
      intro s₁ hs₁ hnumber hsize hne hc
      rcases ih hs₁ with ⟨hnot, heq⟩ | ⟨pre, rest, rfl, hn, hz, heq, hpos, hpre⟩
      · exact .inl ⟨List.not_mem_cons_of_ne_of_not_mem hne.symm hnot, heq.trans hsize⟩
      · refine .inr ⟨c :: pre, rest, rfl, hnumber ▸ hn, hsize ▸ hz, ?_, hpos,
          List.forall_mem_cons.mpr ⟨hc, hpre⟩⟩
        rw [heq, List.length_cons]
        omega
    rw [scan] at h
    split_ifs at h with hlower hupper hnumber hcolon hguard
    · exact hletter h rfl rfl (by rintro rfl; exact absurd hlower (by decide)) (.inl hlower)
    · exact hletter h rfl rfl (by rintro rfl; exact absurd hupper (by decide)) (.inr hupper)
    · have hne : c ≠ 58 := by
        rintro rfl
        exact absurd hnumber (by decide)
      rcases ih h with ⟨hnot, heq⟩ | ⟨pre, rest, -, hn, -⟩
      · exact .inl ⟨List.not_mem_cons_of_ne_of_not_mem hne.symm hnot, heq⟩
      · cases hn
    · simp only [Bool.or_eq_true, decide_eq_true_eq, not_or, not_not, Bool.not_eq_true] at hguard
      obtain ⟨⟨hnumber, hi⟩, hzero⟩ := hguard
      rcases ih h with ⟨-, heq⟩ | ⟨pre, rest, -, -, hz, -⟩
      · exact .inr ⟨[], str, by rw [hcolon]; rfl, hnumber, hzero, heq, by rw [heq]; exact hi,
          fun c hc => absurd hc List.not_mem_nil⟩
      · exact absurd hz hi

section

variable {str defaultPrefix pre values : Bytes}
  (h : decodeSymbols str defaultPrefix = some (pre, values))
include h

/-- The prefix is the default one or stands, in letters, before the separator. -/
theorem decodeSymbols_spec :
    (58 ∉ str ∧ pre = defaultPrefix ∧ str.mapM symbol = some values) ∨
    ∃ letters body, str = letters ++ 58 :: body ∧ pre = letters.map lowerCase ∧
      body.mapM symbol = some values ∧ ∀ c ∈ letters, isLower c = true ∨ isUpper c = true := by
  simp only [decodeSymbols, Option.bind_eq_bind, Option.bind_eq_some_iff] at h
  obtain ⟨s, hscan, h⟩ := h
  split_ifs at h
  all_goals
    simp only [Option.pure_def, Option.bind_eq_some_iff, Option.some.injEq, Prod.mk.injEq] at h
    obtain ⟨values, hvalues, hpre, rfl⟩ := h
  · rcases scan_spec hscan with ⟨hnot, -⟩ | ⟨-, -, -, -, -, -, hpos, -⟩
    · exact .inl ⟨hnot, hpre.symm, hvalues⟩
    · contradiction
  · rcases scan_spec hscan with ⟨-, heq⟩ | ⟨letters, body, rfl, -, -, heq, -, hletters⟩
    · contradiction
    · rw [heq, Nat.zero_add] at hvalues hpre
      rw [List.take_left] at hpre
      rw [List.drop_length_add_append] at hvalues
      exact .inr ⟨letters, body, rfl, hpre.symm, hvalues, hletters⟩

theorem AllSymbols.of_decodeSymbols : AllSymbols values := by
  rcases decodeSymbols_spec h with ⟨-, -, hvalues⟩ | ⟨letters, body, -, -, hvalues, -⟩
  · exact (mapM_symbol_spec hvalues).1
  · exact (mapM_symbol_spec hvalues).1

/-- A lower-case text with a separator is the prefix, the separator and the symbols' characters. -/
theorem eq_of_decodeSymbols (hcolon : 58 ∈ str) (hupper : ∀ c ∈ str, isUpper c = false) :
    str = pre ++ [58] ++ values.map fun c => CHARSET.getD c.toNat 0 := by
  rcases decodeSymbols_spec h with ⟨hnot, -⟩ | ⟨letters, body, rfl, rfl, hvalues, hletters⟩
  · exact absurd hcolon hnot
  · rw [List.forall_mem_append, List.forall_mem_cons] at hupper
    have hlower : letters.map lowerCase = letters := by
      rw [List.map_congr_left fun c hc => lowerCase_of_isLower ((hletters c hc).resolve_right
        (by rw [hupper.1 c hc]; exact Bool.false_ne_true)), List.map_id']
    rw [hlower, (mapM_symbol_spec hvalues).2 hupper.2.2, List.append_assoc]
    rfl

end

/-! ## Short completions -/

/-- Fewer than eight symbols can complete a prefix only if the remainder of the prefix is small. -/
theorem exists_verifyChecksum_iff (pre : Bytes) {k : ℕ} (hk : k ≤ 8) :
    (∃ values, AllSymbols values ∧ values.length = k ∧ verifyChecksum pre values = true) ↔
      (polyMod (expandPrefix pre ++ List.replicate k 0) ^^^ 1).toNat < 32 ^ k := by
  have hverify : ∀ {values : Bytes}, AllSymbols values → values.length = k →
      (verifyChecksum pre values = true ↔
        pack values = (polyMod (expandPrefix pre ++ List.replicate k 0) ^^^ 1).toNat) := by
    intro values hvalues hlen
    have := verifyChecksum_append_iff pre [] hvalues (hlen.trans_le hk)
    rwa [List.nil_append, List.append_nil, hlen] at this
  constructor
  · rintro ⟨values, hvalues, hlen, h⟩
    rw [← (hverify hvalues hlen).mp h, ← hlen]
    exact pack_lt hvalues
  · intro h
    obtain ⟨values, hvalues, hlen, hpack⟩ := exists_pack h
    exact ⟨values, hvalues, hlen, (hverify hvalues hlen).mpr hpack⟩

/-- No text without a separator has its symbols cut short under the prefix of the main net. -/
theorem decode_mainNet_ne_badRange {str : Bytes} (h : 58 ∉ str) :
    decode str [50, 120, 50, 99, 111, 105, 110] ≠ .badRange := by
  have hlarge : ∀ k < 8, ¬ (polyMod (expandPrefix [50, 120, 50, 99, 111, 105, 110] ++
      List.replicate k 0) ^^^ 1).toNat < 32 ^ k := by
    decide +kernel
  rw [decode]
  split
  · exact Decoded.noConfusion
  · rename_i pre values hsymbols
    split_ifs with hverify hshort
    · exact Decoded.noConfusion
    · rcases decodeSymbols_spec hsymbols with ⟨-, rfl, -⟩ | ⟨letters, body, rfl, -⟩
      · rw [Bool.not_eq_true', Bool.not_eq_false] at hverify
        exact absurd ((exists_verifyChecksum_iff _ hshort.le).mp
          ⟨values, .of_decodeSymbols hsymbols, rfl, hverify⟩) (hlarge _ hshort)
      · exact absurd (List.mem_append_right _ List.mem_cons_self) h
    · exact Decoded.noConfusion

theorem decode_mainNet_ne_badRange_q : decode [113] [50, 120, 50, 99, 111, 105, 110] ≠ .badRange :=
  decode_mainNet_ne_badRange (by decide)

/-! ## Canonical texts -/

/-- What is returned is nothing, or the symbols are the payload and its checksum and a lower-case text
with a separator is the encoding. -/
def Canonical (str defaultPrefix : Bytes) : Prop :=
  decode str defaultPrefix = .nothing ∨
  ∃ pre payload values, decode str defaultPrefix = .pair pre payload ∧
    decodeSymbols str defaultPrefix = some (pre, values) ∧ 8 ≤ values.length ∧
    values = payload ++ createChecksum pre payload ∧
    (58 ∈ str → (∀ c ∈ str, isUpper c = false) → str = encode pre payload)

/-- The checksum does not verify over fewer than eight symbols. -/
def EightSymbols (str defaultPrefix : Bytes) : Prop :=
  ∀ pre values, decodeSymbols str defaultPrefix = some (pre, values) →
    verifyChecksum pre values = true → 8 ≤ values.length

theorem Canonical.of_verifyChecksum {str defaultPrefix pre values : Bytes}
    (hsymbols : decodeSymbols str defaultPrefix = some (pre, values))
    (hverify : verifyChecksum pre values = true) (hlen : 8 ≤ values.length) :
    Canonical str defaultPrefix := by
  have hall := AllSymbols.of_decodeSymbols hsymbols
  have hsplit := List.take_append_drop (values.length - 8) values
  have hchecksum : values.drop (values.length - 8) =
      createChecksum pre (values.take (values.length - 8)) := by
    refine (verifyChecksum_iff_eq _ _ (fun d hd => hall d (List.mem_of_mem_drop hd)) ?_).mp
      (by rw [hsplit]; exact hverify)
    rw [List.length_drop]
    omega
  rw [hchecksum] at hsplit
  refine .inr ⟨pre, values.take (values.length - 8), values, ?_, hsymbols, hlen, hsplit.symm, ?_⟩
  · simp only [decode, hsymbols, hverify, Bool.not_true, Bool.false_eq_true, if_false,
      if_neg (Nat.not_lt.mpr hlen)]
  · intro hcolon hupper
    rw [encode, hsplit]
    exact eq_of_decodeSymbols hsymbols hcolon hupper

end CashAddr

open CashAddr

end X2XCoin
