import X2XCoin.Address.CashAddr

/-!
# The checksum of cashaddr

The feedback of `PolyMod` is linear, and the low five bits of its five constants are the unit vectors,
so a state of 40 bits can be read off what the feedback makes of it.
-/

open ByteCodec ShiftRegister

namespace X2XCoin

namespace CashAddr

/-! ## The feedback -/

/-- A constant, if the bit is set. -/
def mix (bit : Bool) (k : BitVec 64) : BitVec 64 := if bit then k else 0#64

/-- What becomes of the register before a symbol is added. -/
def feedback (c : BitVec 64) : BitVec 64 :=
  ((c &&& 0x07ffffffff#64) <<< 5) ^^^ mix (c.getLsbD 35) 0x98f2bc8e61#64 ^^^
    mix (c.getLsbD 36) 0x79b76d99e2#64 ^^^ mix (c.getLsbD 37) 0xf33e5fb3c4#64 ^^^
    mix (c.getLsbD 38) 0xae2eabe2a8#64 ^^^ mix (c.getLsbD 39) 0x1e4f43e470#64

/-- A symbol as a word. -/
def word (d : UInt8) : BitVec 64 := d.toBitVec.setWidth 64

theorem ite_xor_eq_mix (p : Prop) [Decidable p] {bit : Bool} (h : p ↔ bit = true) (c k : BitVec 64) :
    (if p then c ^^^ k else c) = c ^^^ mix bit k := by
  by_cases hp : p
  · rw [if_pos hp, mix, if_pos (h.mp hp)]
  · rw [if_neg hp, mix, if_neg fun hbit => hp (h.mpr hbit), BitVec.xor_zero]

theorem and_twoPow_ne_zero_iff {w : ℕ} (x : BitVec w) {i : ℕ} (hi : i < w) :
    x &&& BitVec.twoPow w i ≠ 0#w ↔ x.getLsbD i = true := by
  rw [BitVec.and_twoPow]
  split_ifs with hbit
  · refine iff_of_true (fun hzero => ?_) hbit
    have := congrArg (BitVec.getLsbD · i) hzero
    simp [hi] at this
  · exact iff_of_false (fun h => h rfl) hbit

theorem polyModStep_eq (c : BitVec 64) (d : UInt8) : polyModStep c d = feedback c ^^^ word d := by
  have hbit : ∀ i < 8, ((c >>> 35).setWidth 8).getLsbD i = c.getLsbD (35 + i) := by
    intro i hi
    rw [BitVec.getLsbD_setWidth, BitVec.getLsbD_ushiftRight, decide_eq_true hi, Bool.true_and]
  have hand : ∀ i < 8, ((c >>> 35).setWidth 8 &&& BitVec.twoPow 8 i ≠ 0#8 ↔
      c.getLsbD (35 + i) = true) := fun i hi => by
    rw [and_twoPow_ne_zero_iff _ hi, hbit i hi]
  have h0 : (c >>> 35).setWidth 8 &&& (0x01 : BitVec 8) ≠ 0 ↔ _ := hand 0 (by decide)
  have h1 : (c >>> 35).setWidth 8 &&& (0x02 : BitVec 8) ≠ 0 ↔ _ := hand 1 (by decide)
  have h2 : (c >>> 35).setWidth 8 &&& (0x04 : BitVec 8) ≠ 0 ↔ _ := hand 2 (by decide)
  have h3 : (c >>> 35).setWidth 8 &&& (0x08 : BitVec 8) ≠ 0 ↔ _ := hand 3 (by decide)
  have h4 : (c >>> 35).setWidth 8 &&& (0x10 : BitVec 8) ≠ 0 ↔ _ := hand 4 (by decide)
  simp only [polyModStep, ite_xor_eq_mix _ h0, ite_xor_eq_mix _ h1, ite_xor_eq_mix _ h2,
    ite_xor_eq_mix _ h3, ite_xor_eq_mix _ h4, feedback, word]
  ac_rfl

theorem foldl_polyModStep (c : BitVec 64) (v : Bytes) :
    v.foldl polyModStep c = run feedback c (v.map word) := by
  have hstep : polyModStep = fun c d => feedback c ^^^ word d :=
    funext fun c => funext fun d => polyModStep_eq c d
  rw [run, List.foldl_map, hstep]

theorem mix_xor (a b : Bool) (k : BitVec 64) : mix (a ^^ b) k = mix a k ^^^ mix b k := by
  cases a <;> cases b <;> simp [mix]

theorem feedback_xor (a b : BitVec 64) : feedback (a ^^^ b) = feedback a ^^^ feedback b := by
  have hmask : (a ^^^ b) &&& 0x07ffffffff#64 =
      (a &&& 0x07ffffffff#64) ^^^ (b &&& 0x07ffffffff#64) := by
    ext i
    simp only [BitVec.getElem_and, BitVec.getElem_xor, Bool.and_xor_distrib_right]
  simp only [feedback, hmask, BitVec.shiftLeft_xor_distrib, BitVec.getLsbD_xor, mix_xor]
  ac_rfl

/-- The states of the register. -/
def States : Set (BitVec 64) := {c | ∀ i, 40 ≤ i → c.getLsbD i = false}

variable {c : BitVec 64} {v w : Bytes} {start : ℕ}

theorem mem_states_iff : c ∈ States ↔ c.toNat < 2 ^ 40 := by
  constructor
  · intro h
    exact Nat.lt_pow_two_of_testBit _ fun i hi => h i hi
  · intro h i hi
    exact Nat.testBit_lt_two_pow (h.trans_le (Nat.pow_le_pow_right (by decide) hi))

theorem xor_mem_states {a b : BitVec 64} (ha : a ∈ States) (hb : b ∈ States) : a ^^^ b ∈ States := by
  intro i hi
  rw [BitVec.getLsbD_xor, ha i hi, hb i hi]
  rfl

theorem mix_mem_states {k : BitVec 64} (hk : k.toNat < 2 ^ 40) (bit : Bool) : mix bit k ∈ States := by
  rw [mix]
  split_ifs
  · exact mem_states_iff.mpr hk
  · exact mem_states_iff.mpr (by decide)

theorem shifted_mem_states (c : BitVec 64) : (c &&& 0x07ffffffff#64) <<< 5 ∈ States := by
  intro i hi
  have hmask : (0x07ffffffff#64).getLsbD (i - 5) = false :=
    Nat.testBit_lt_two_pow ((by decide : 0x07ffffffff < 2 ^ 35).trans_le
      (Nat.pow_le_pow_right (by decide) (by omega)))
  rw [BitVec.getLsbD_shiftLeft, BitVec.getLsbD_and, hmask, Bool.and_false, Bool.and_false]

theorem feedback_mem_states (c : BitVec 64) : feedback c ∈ States := by
  have hadd : ∀ {a k : BitVec 64} {bit : Bool}, k.toNat < 2 ^ 40 → a ∈ States →
      a ^^^ mix bit k ∈ States := fun hk ha => xor_mem_states ha (mix_mem_states hk _)
  exact hadd (by decide) (hadd (by decide) (hadd (by decide) (hadd (by decide) (hadd (by decide)
    (shifted_mem_states c)))))

theorem word_mem_states (d : UInt8) : word d ∈ States := by
  rw [mem_states_iff, word, BitVec.toNat_setWidth]
  exact (Nat.mod_le _ _).trans_lt (d.toBitVec.isLt.trans (by decide))

theorem run_mem_states (hc : c ∈ States) (v : Bytes) : run feedback c (v.map word) ∈ States := by
  induction v generalizing c with
  | nil => exact hc
  | cons d v ih => exact ih (xor_mem_states (feedback_mem_states c) (word_mem_states d))

/-- The low bits after the feedback are the high bits before. -/
theorem getLsbD_feedback (c : BitVec 64) : ∀ i < 5, (feedback c).getLsbD i = c.getLsbD (35 + i) := by
  intro i hi
  have hshift : ((c &&& 0x07ffffffff#64) <<< 5).getLsbD i = false := by
    rw [BitVec.getLsbD_shiftLeft, decide_eq_true hi]
    simp
  have hmix : ∀ bit k, (mix bit k).getLsbD i = (bit && k.getLsbD i) := by
    intro bit k
    cases bit <;> simp [mix]
  simp only [feedback, BitVec.getLsbD_xor, hshift, hmix]
  interval_cases i <;> simp

theorem feedback_eq_zero (hc : c ∈ States) (h : feedback c = 0#64) : c = 0#64 := by
  have hhigh : ∀ i < 5, c.getLsbD (35 + i) = false := by
    intro i hi
    rw [← getLsbD_feedback c i hi, h, BitVec.getLsbD_zero]
  have hmix : ∀ i < 5, ∀ k, mix (c.getLsbD (35 + i)) k = 0#64 := fun i hi k => by
    rw [hhigh i hi]
    rfl
  have hshift : (c &&& 0x07ffffffff#64) <<< 5 = 0#64 := by
    rw [feedback, hmix 0 (by decide), hmix 1 (by decide), hmix 2 (by decide), hmix 3 (by decide),
      hmix 4 (by decide)] at h
    simpa only [BitVec.xor_zero] using h
  apply BitVec.eq_of_getLsbD_eq
  intro i hi
  rw [BitVec.getLsbD_zero]
  rcases Nat.lt_or_ge i 35 with hlow | hlow
  · have hbit := congrArg (fun x => BitVec.getLsbD x (i + 5)) hshift
    have hmask : (0x07ffffffff#64).getLsbD i = true := by
      have : (0x07ffffffff#64).getLsbD i = (2 ^ 35 - 1).testBit i := rfl
      rw [this, Nat.testBit_two_pow_sub_one]
      exact decide_eq_true hlow
    simp only [BitVec.getLsbD_shiftLeft, BitVec.getLsbD_and, BitVec.getLsbD_zero,
      Nat.add_sub_cancel, hmask, Bool.and_true] at hbit
    rwa [decide_eq_true (by omega : i + 5 < 64), decide_eq_false (by omega : ¬ i + 5 < 5),
      Bool.not_false, Bool.true_and, Bool.true_and] at hbit
  · rcases Nat.lt_or_ge i 40 with hmid | hmid
    · have := hhigh (i - 35) (by omega)
      rwa [Nat.add_sub_cancel' hlow] at this
    · exact hc i hmid

/-! ## Packing -/

def AllSymbols (v : Bytes) : Prop := ∀ d ∈ v, d.toNat < 32

instance (v : Bytes) : Decidable (AllSymbols v) := List.decidableBAll _ v

/-- The number that the symbols are the digits of. -/
def pack (v : Bytes) : ℕ := Radix.horner 32 (v.map UInt8.toNat)

theorem pack_append_singleton (v : Bytes) (d : UInt8) : pack (v ++ [d]) = pack v * 32 + d.toNat := by
  rw [pack, pack, List.map_append, List.map_singleton, Radix.horner_append_singleton]

theorem shiftLeft_five_xor {n d : ℕ} (hd : d < 32) : n <<< 5 ^^^ d = n * 32 + d := by
  have hor : n <<< 5 ^^^ d = n <<< 5 ||| d := by
    apply Nat.eq_of_testBit_eq
    intro i
    rw [Nat.testBit_xor, Nat.testBit_or, Nat.testBit_shiftLeft]
    rcases Nat.lt_or_ge i 5 with hi | hi
    · simp [Nat.not_le.mpr hi]
    · have hfalse : d.testBit i = false :=
        Nat.testBit_lt_two_pow (hd.trans_le (Nat.pow_le_pow_right (by decide : 0 < 2) hi))
      simp [hfalse]
  rw [hor, ← Nat.shiftLeft_add_eq_or_of_lt (show d < 2 ^ 5 from hd), Nat.shiftLeft_eq]

theorem toNat_word (d : UInt8) : (word d).toNat = d.toNat := by
  rw [word, BitVec.toNat_setWidth]
  exact Nat.mod_eq_of_lt (d.toBitVec.isLt.trans (by decide))

theorem toNat_feedback (h : c.toNat < 2 ^ 35) : (feedback c).toNat = c.toNat <<< 5 := by
  have hmix : ∀ i, 35 ≤ i → ∀ k, mix (c.getLsbD i) k = 0#64 := by
    intro i hi k
    have : c.getLsbD i = false :=
      Nat.testBit_lt_two_pow (h.trans_le (Nat.pow_le_pow_right (by decide) hi))
    rw [this]
    rfl
  have hmask : c &&& 0x07ffffffff#64 = c := by
    apply BitVec.eq_of_toNat_eq
    rw [BitVec.toNat_and]
    exact (Nat.and_two_pow_sub_one_eq_mod c.toNat 35).trans (Nat.mod_eq_of_lt h)
  rw [feedback, hmix 35 le_rfl, hmix 36 (by decide), hmix 37 (by decide), hmix 38 (by decide),
    hmix 39 (by decide), hmask]
  simp only [BitVec.xor_zero, BitVec.toNat_shiftLeft]
  rw [Nat.shiftLeft_eq]
  exact Nat.mod_eq_of_lt (by omega)

theorem pack_lt {v : Bytes} (hv : AllSymbols v) : pack v < 32 ^ v.length := by
  have hlt : ∀ d ∈ v.map UInt8.toNat, d < 32 := by
    intro d hd
    obtain ⟨c, hc, rfl⟩ := List.mem_map.mp hd
    exact hv c hc
  have := Radix.horner_lt (by decide) hlt
  rwa [List.length_map] at this

/-- At most eight symbols fed into an empty register are packed. -/
theorem toNat_run_zero {v : Bytes} (hv : AllSymbols v) (hlen : v.length ≤ 8) :
    (run feedback 0#64 (v.map word)).toNat = pack v := by
  induction v using List.reverseRecOn with
  | nil => rfl
  | append_singleton v d ih =>
    rw [List.length_append, List.length_singleton] at hlen
    have hv' : AllSymbols v := fun x hx => hv x (List.mem_append_left _ hx)
    have hd : d.toNat < 32 := hv d (List.mem_append_right _ List.mem_cons_self)
    have ih := ih hv' (by omega)
    have hlt : pack v < 2 ^ 35 := (pack_lt hv').trans_le (by
      rw [show (2 : ℕ) ^ 35 = 32 ^ 7 by norm_num]
      exact Nat.pow_le_pow_right (by decide) (by omega))
    rw [List.map_append, List.map_singleton, run_append, run_cons, run, List.foldl_nil,
      BitVec.toNat_xor, toNat_feedback (by rw [ih]; exact hlt), ih, toNat_word, shiftLeft_five_xor hd,
      pack_append_singleton]

theorem pack_inj (hv : AllSymbols v) (hw : AllSymbols w) (hlen : v.length = w.length)
    (h : pack v = pack w) : v = w := by
  have hlt : ∀ {v : Bytes}, AllSymbols v → ∀ d ∈ (v.map UInt8.toNat).reverse, d < 32 := by
    intro v hv d hd
    obtain ⟨c, hc, rfl⟩ := List.mem_map.mp (List.mem_reverse.mp hd)
    exact hv c hc
  rw [pack, pack, Radix.horner_eq, Radix.horner_eq] at h
  have hdigits := Nat.ofDigits_inj_of_len_eq (by decide) (by simp [hlen]) (hlt hv) (hlt hw) h
  exact List.map_injective_iff.mpr (fun _ _ => UInt8.toNat_inj.mp) (List.reverse_injective hdigits)

theorem exists_pack {n k : ℕ} (h : n < 32 ^ k) : ∃ v, AllSymbols v ∧ v.length = k ∧ pack v = n := by
  induction k generalizing n with
  | zero => exact ⟨[], fun d hd => absurd hd List.not_mem_nil, rfl, by
      rw [pow_zero, Nat.lt_one_iff] at h
      rw [h]
      rfl⟩
  | succ k ih =>
    obtain ⟨v, hv, hlen, hpack⟩ := ih (n := n / 32) (Nat.div_lt_of_lt_mul (by rwa [← pow_succ']))
    have hmod : (UInt8.ofNat (n % 32)).toNat = n % 32 :=
      UInt8.toNat_ofNat_of_lt' ((Nat.mod_lt n (by decide)).trans (by decide))
    refine ⟨v ++ [UInt8.ofNat (n % 32)], List.forall_mem_append.mpr ⟨hv, ?_⟩, ?_, ?_⟩
    · intro d hd
      rw [List.mem_singleton.mp hd, hmod]
      exact Nat.mod_lt _ (by decide)
    · rw [List.length_append, hlen, List.length_singleton]
    · rw [pack_append_singleton, hpack, hmod, Nat.div_add_mod']

/-! ## The checksum -/

theorem polyMod_lt (v : Bytes) : (polyMod v).toNat < 2 ^ 40 := by
  rw [polyMod, foldl_polyModStep]
  exact mem_states_iff.mp (run_mem_states (mem_states_iff.mpr (by decide)) v)

theorem map_word_replicate (n : ℕ) : (List.replicate n 0).map word = List.replicate n 0#64 := by
  rw [List.map_replicate]
  rfl

/-- At most eight symbols at the end are added to what comes before. -/
theorem polyMod_append (v : Bytes) {w : Bytes} (hw : AllSymbols w) (hlen : w.length ≤ 8) :
    (polyMod (v ++ w)).toNat = (polyMod (v ++ List.replicate w.length 0)).toNat ^^^ pack w := by
  rw [polyMod, polyMod, foldl_polyModStep, foldl_polyModStep, List.map_append, List.map_append,
    run_append_eq feedback_xor, List.length_map, map_word_replicate, BitVec.toNat_xor,
    toNat_run_zero hw hlen]

theorem verifyChecksum_append_iff (pre values : Bytes) {w : Bytes} (hw : AllSymbols w)
    (hlen : w.length ≤ 8) : verifyChecksum pre (values ++ w) = true ↔
      pack w = (polyMod (expandPrefix pre ++ values ++ List.replicate w.length 0) ^^^ 1).toNat := by
  have hone : (1 : BitVec 64).toNat = 1 := rfl
  rw [verifyChecksum, decide_eq_true_eq, ← BitVec.toNat_inj, ← List.append_assoc,
    polyMod_append _ hw hlen, BitVec.toNat_xor, hone]
  generalize (polyMod _).toNat = m
  constructor
  · intro h
    rw [← h, ← Nat.xor_assoc, Nat.xor_self, Nat.zero_xor]
  · intro h
    rw [h, ← Nat.xor_assoc, Nat.xor_self, Nat.zero_xor]

theorem createChecksum_spec (pre values : Bytes) : AllSymbols (createChecksum pre values) ∧
    (createChecksum pre values).length = 8 ∧ pack (createChecksum pre values) =
      (polyMod (expandPrefix pre ++ values ++ List.replicate 8 0) ^^^ 1).toNat := by
  have hlt : (polyMod (expandPrefix pre ++ values ++ List.replicate 8 0) ^^^ 1).toNat < 2 ^ 40 := by
    rw [← mem_states_iff]
    exact xor_mem_states (mem_states_iff.mpr (polyMod_lt _)) (mem_states_iff.mpr (by decide))
  simp only [createChecksum]
  generalize polyMod (expandPrefix pre ++ values ++ List.replicate 8 0) ^^^ 1 = m at *
  have hdigit : ∀ k, UInt8.toNat ⟨((m >>> k) &&& 0x1f).setWidth 8⟩ = m.toNat / 2 ^ k % 32 := by
    intro k
    have hand : (m.toNat >>> k) &&& 31 = m.toNat >>> k % 32 := Nat.and_two_pow_sub_one_eq_mod _ 5
    show (((m >>> k) &&& 0x1f).setWidth 8).toNat = _
    rw [BitVec.toNat_setWidth, BitVec.toNat_and, BitVec.toNat_ushiftRight]
    rw [show (0x1f : BitVec 64).toNat = 31 from rfl, hand, Nat.shiftRight_eq_div_pow]
    exact Nat.mod_eq_of_lt ((Nat.mod_lt _ (by decide)).trans (by decide))
  refine ⟨?_, rfl, ?_⟩
  · intro d hd
    obtain ⟨i, -, rfl⟩ := List.mem_map.mp hd
    rw [hdigit]
    exact Nat.mod_lt _ (by decide)
  · have hstep : ∀ k, m.toNat / 2 ^ (5 * (k + 1)) * 32 + m.toNat / 2 ^ (5 * k) % 32 =
        m.toNat / 2 ^ (5 * k) := by
      intro k
      rw [Nat.mul_add 5 k 1, pow_add, ← Nat.div_div_eq_div_mul]
      exact Nat.div_add_mod' _ 32
    have htop : m.toNat / 2 ^ (5 * 7) % 32 = m.toNat / 2 ^ (5 * 7) :=
      Nat.mod_eq_of_lt (Nat.div_lt_of_lt_mul hlt)
    simp only [pack, List.map_cons, List.map_nil, hdigit, Radix.horner, List.foldl_cons,
      List.foldl_nil, Nat.zero_mul, Nat.zero_add, Nat.sub_zero, Nat.reduceSub]
    rw [htop, hstep 6, hstep 5, hstep 4, hstep 3, hstep 2, hstep 1, hstep 0, Nat.mul_zero, pow_zero,
      Nat.div_one]

/-- The checksum is the one list of eight symbols that verifies. -/
theorem verifyChecksum_iff_eq (pre values : Bytes) {w : Bytes} (hw : AllSymbols w)
    (hlen : w.length = 8) :
    verifyChecksum pre (values ++ w) = true ↔ w = createChecksum pre values := by
  obtain ⟨hsymbols, hlength, hpack⟩ := createChecksum_spec pre values
  rw [verifyChecksum_append_iff pre values hw hlen.le, hlen, ← hpack]
  exact ⟨fun h => pack_inj hw hsymbols (hlen.trans hlength.symm) h, fun h => by rw [h]⟩

/-! ## Bursts -/

/-- The lists agree outside eight neighbouring positions. -/
def BurstAt (start : ℕ) (v w : Bytes) : Prop := ∀ i, v[i]? ≠ w[i]? → start ≤ i ∧ i < start + 8

theorem BurstAt.take_eq (h : BurstAt start v w) : v.take start = w.take start := by
  apply List.ext_getElem?
  intro i
  rw [List.getElem?_take, List.getElem?_take]
  split_ifs with hi
  · by_contra hne
    exact absurd (h i hne).1 (Nat.not_le.mpr hi)
  · rfl

theorem BurstAt.drop_eq (h : BurstAt start v w) : v.drop (start + 8) = w.drop (start + 8) := by
  apply List.ext_getElem?
  intro i
  rw [List.getElem?_drop, List.getElem?_drop]
  by_contra hne
  exact absurd (h _ hne).2 (by omega)

/-- The symbols of the window. -/
def window (start : ℕ) (v : Bytes) : Bytes := (v.drop start).take 8

theorem take_window_drop (start : ℕ) (v : Bytes) :
    v.take start ++ window start v ++ v.drop (start + 8) = v := by
  rw [window, List.append_assoc, ← List.drop_drop, List.take_append_drop, List.take_append_drop]

theorem AllSymbols.window {v : Bytes} (hv : AllSymbols v) (start : ℕ) :
    AllSymbols (CashAddr.window start v) :=
  fun d hd => hv d (List.mem_of_mem_drop (List.mem_of_mem_take hd))

theorem polyMod_burst_ne (pre : Bytes) (hv : AllSymbols v) (hw : AllSymbols w)
    (hlen : v.length = w.length) (hne : v ≠ w) (hburst : BurstAt start v w) :
    polyMod (pre ++ v) ≠ polyMod (pre ++ w) := by
  have hwindow : window start v ≠ window start w := by
    intro h
    apply hne
    rw [← take_window_drop start v, ← take_window_drop start w, h, hburst.take_eq, hburst.drop_eq]
  have hlength : (window start v).length = (window start w).length := by
    rw [window, window, List.length_take, List.length_take, List.length_drop, List.length_drop, hlen]
  have hmaps : ((window start v).map word).length = ((window start w).map word).length := by
    rw [List.length_map, List.length_map, hlength]
  -- From the empty register the windows lead to the numbers they pack.
  have hdiff := run_xor feedback_xor 0#64 0#64 hmaps
  rw [BitVec.xor_self] at hdiff
  have hzero : (0#64 : BitVec 64) ∈ States := mem_states_iff.mpr (by decide)
  have hsplit : ∀ u : Bytes, u.map word = (u.take start).map word ++ (window start u).map word ++
      (u.drop (start + 8)).map word := by
    intro u
    rw [← List.map_append, ← List.map_append, take_window_drop]
  rw [polyMod, polyMod, foldl_polyModStep, foldl_polyModStep, List.map_append, List.map_append,
    hsplit v, hsplit w, hburst.take_eq, hburst.drop_eq, ← List.append_assoc, ← List.append_assoc,
    ← List.append_assoc, ← List.append_assoc]
  apply run_window_ne feedback_xor (fun c _ => feedback_mem_states c)
    (fun c hc => feedback_eq_zero hc) 1 _ _ hmaps
  · rw [← hdiff]
    exact xor_mem_states (run_mem_states hzero _) (run_mem_states hzero _)
  · rw [← hdiff]
    intro hzero
    have heq := congrArg BitVec.toNat (BitVec.xor_eq_zero_iff.mp hzero)
    rw [toNat_run_zero (hv.window start) (List.length_take_le _ _),
      toNat_run_zero (hw.window start) (List.length_take_le _ _)] at heq
    exact hwindow (pack_inj (hv.window start) (hw.window start) hlength heq)

end CashAddr

open CashAddr

/-- A change of symbols inside a window of eight is detected, and the checksum verifies. -/
theorem checksum_detectsBursts (pre v : Bytes) :
    (AllSymbols v → verifyChecksum pre v = true → ∀ w, AllSymbols w → w.length = v.length → w ≠ v →
      (∃ start, BurstAt start w v) → verifyChecksum pre w = false) ∧
    verifyChecksum pre (v ++ createChecksum pre v) = true := by
  constructor
  · rintro hv hverify w hw hlen hne ⟨start, hburst⟩
    rw [verifyChecksum, decide_eq_true_eq] at hverify
    rw [verifyChecksum, decide_eq_false_iff_not, ← hverify]
    exact polyMod_burst_ne _ hw hv hlen hne hburst
  · obtain ⟨hsymbols, hlength, -⟩ := createChecksum_spec pre v
    exact (verifyChecksum_iff_eq pre v hsymbols hlength).mpr rfl

theorem checksum_detectsBursts_twoSymbols :
    verifyChecksum [99] [1, 2, 3, 1, 4, 8, 2, 30, 9, 15, 23] = true ∧
    verifyChecksum [99] [1, 2, 5, 1, 4, 8, 2, 30, 9, 14, 23] = false := by
  have hverify : verifyChecksum [99] [1, 2, 3, 1, 4, 8, 2, 30, 9, 15, 23] = true := by decide +kernel
  refine ⟨hverify, (checksum_detectsBursts [99] _).1 (by decide) hverify _ (by decide) rfl (by decide)
    ⟨2, fun i hi => ?_⟩⟩
  rcases Nat.lt_or_ge i 11 with hlt | hge
  · interval_cases i <;> first | omega | exact absurd rfl hi
  · exact absurd (by rw [List.getElem?_eq_none hge, List.getElem?_eq_none hge]) hi

end X2XCoin
