import X2XCoin.Lib.Reader

/-!
# Bit maps

Flags in bytes, the lowest bit first.  The reader takes bytes until it has seen a given number that
are not zero, so zero bytes at the end of a map need not be written.
-/

namespace ByteCodec.Bitmap

/-! ## Bytes -/

/-- The first `k` flags as the bits of a number. -/
def pack (flag : ℕ → Bool) : ℕ → ℕ
  | 0 => 0
  | k + 1 => if flag k then pack flag k ||| 1 <<< k else pack flag k

/-- Byte `b` of the map of flags. -/
def byteOf (flag : ℕ → Bool) (b : ℕ) : UInt8 := UInt8.ofNat (pack (fun i => flag (b * 8 + i)) 8)

/-- The flags of a byte. -/
def flags (x : UInt8) : List Bool := (List.range 8).map x.toNat.testBit

variable {flag : ℕ → Bool}

theorem testBit_pack (k i : ℕ) : (pack flag k).testBit i = (decide (i < k) && flag i) := by
  induction k with
  | zero => simp [pack]
  | succ k ih =>
    rw [pack]
    split_ifs with hflag
    · rw [Nat.testBit_or, ih, Nat.one_shiftLeft, Nat.testBit_two_pow]
      obtain hlt | rfl | hgt := lt_trichotomy i k
      · simp [hlt, hlt.trans (Nat.lt_succ_self k), hlt.ne']
      · simp [hflag]
      · simp [hgt.not_gt, hgt.ne, Nat.not_lt.mpr hgt]
    · rw [ih]
      obtain hlt | rfl | hgt := lt_trichotomy i k
      · simp [hlt, hlt.trans (Nat.lt_succ_self k)]
      · simp [hflag]
      · simp [hgt.not_gt, Nat.not_lt.mpr hgt]

theorem pack_lt (k : ℕ) : pack flag k < 2 ^ k := by
  refine Nat.lt_pow_two_of_testBit _ fun i hi => ?_
  rw [testBit_pack, decide_eq_false (not_lt.mpr hi), Bool.false_and]

theorem toNat_byteOf (b : ℕ) : (byteOf flag b).toNat = pack (fun i => flag (b * 8 + i)) 8 := by
  rw [byteOf, UInt8.toNat_ofNat']
  exact Nat.mod_eq_of_lt (pack_lt 8)

theorem flags_byteOf (b : ℕ) :
    flags (byteOf flag b) = (List.range 8).map fun i => flag (b * 8 + i) := by
  refine List.map_congr_left fun i hi => ?_
  rw [toNat_byteOf, testBit_pack, decide_eq_true (List.mem_range.mp hi), Bool.true_and]

theorem flatMap_flags (k : ℕ) :
    ((List.range k).map (byteOf flag)).flatMap flags = (List.range (k * 8)).map flag := by
  induction k with
  | zero => rfl
  | succ k ih =>
    rw [List.range_succ, List.map_append, List.flatMap_append, ih, Nat.succ_mul, List.range_add,
      List.map_append, List.map_map, List.map_singleton, List.flatMap_singleton, flags_byteOf]
    rfl

theorem true_mem_flags {x : UInt8} (h : x ≠ 0) : true ∈ flags x := by
  have hx : x.toNat ≠ 0 := fun h0 => h (UInt8.toNat_inj.mp h0)
  obtain ⟨i, hi⟩ := Nat.exists_testBit_of_ne_zero hx
  have hlt : i < 8 := by
    by_contra hge
    have hpow : x.toNat < 2 ^ i :=
      x.toNat_lt.trans_le (Nat.pow_le_pow_right (n := 2) (by decide) (not_lt.mp hge))
    rw [Nat.testBit_lt_two_pow hpow] at hi
    cases hi
  exact List.mem_map.mpr ⟨i, List.mem_range.mpr hlt, hi⟩

theorem byteOf_eq_zero_iff (b : ℕ) : byteOf flag b = 0 ↔ ∀ i < 8, flag (b * 8 + i) = false := by
  constructor
  · intro h i hi
    have hbit : (pack (fun i => flag (b * 8 + i)) 8).testBit i =
      (decide (i < 8) && flag (b * 8 + i)) := testBit_pack 8 i
    rw [← toNat_byteOf, h, decide_eq_true hi, Bool.true_and] at hbit
    exact hbit.symm.trans (Nat.zero_testBit i)
  · intro h
    by_contra hne
    have hmem := true_mem_flags hne
    rw [flags_byteOf] at hmem
    obtain ⟨i, hi, hflag⟩ := List.mem_map.mp hmem
    rw [h i (List.mem_range.mp hi)] at hflag
    cases hflag

/-! ## Reading -/

/-- The bytes that are not zero. -/
def nonzero (bytes : Bytes) : ℕ := bytes.countP (· ≠ 0)

/-- The flags of the next bytes, up to the `n`-th that is not zero. -/
def readFlagsFrom : ℕ → Bytes → Option (List Bool × Bytes)
  | 0, bs => some ([], bs)
  | _ + 1, [] => none
  | n + 1, x :: bs =>
    (readFlagsFrom (if x ≠ 0 then n else n + 1) bs).map fun (v, rest) => (flags x ++ v, rest)

def readFlags (n : ℕ) : Reader (List Bool) := fun bs => readFlagsFrom n bs

theorem nonzero_append (a b : Bytes) : nonzero (a ++ b) = nonzero a + nonzero b :=
  List.countP_append

theorem nonzero_singleton {x : UInt8} (h : x ≠ 0) : nonzero [x] = 1 := by
  simp [nonzero, h]

variable {bytes : Bytes}

/-- The reader stops inside the bytes if enough of them are not zero. -/
theorem readFlagsFrom_append {n : ℕ} (h : n ≤ nonzero bytes) :
    ∃ a b, bytes = a ++ b ∧ nonzero a = n ∧
      ∀ rest, readFlagsFrom n (bytes ++ rest) = some (a.flatMap flags, b ++ rest) := by
  induction bytes generalizing n with
  | nil =>
    obtain rfl := Nat.le_zero.mp h
    exact ⟨[], [], rfl, rfl, fun rest => readFlagsFrom.eq_1 _⟩
  | cons x bytes ih =>
    cases n with
    | zero => exact ⟨[], x :: bytes, rfl, rfl, fun rest => rfl⟩
    | succ n =>
      by_cases hx : x ≠ 0
      · have hcount : nonzero (x :: bytes) = nonzero bytes + 1 :=
          List.countP_cons_of_pos (by simpa using hx)
        obtain ⟨a, b, rfl, ha, hread⟩ := ih (n := n) (by omega)
        refine ⟨x :: a, b, rfl, ?_, fun rest => ?_⟩
        · rw [← ha]
          exact List.countP_cons_of_pos (by simpa using hx)
        · rw [List.cons_append, readFlagsFrom, if_pos hx, hread]
          rfl
      · have hcount : ∀ l, nonzero (x :: l) = nonzero l := fun l =>
          List.countP_cons_of_neg (by simpa using hx)
        obtain ⟨a, b, rfl, ha, hread⟩ := ih (n := n + 1) (by rwa [hcount] at h)
        refine ⟨x :: a, b, rfl, (hcount a).trans ha, fun rest => ?_⟩
        rw [List.cons_append, readFlagsFrom, if_neg hx, hread]
        rfl

/-- Bytes of which the last is not zero are read to their end. -/
theorem reads_readFlags (h : ∀ x ∈ bytes.getLast?, x ≠ 0) :
    Reads (readFlags (nonzero bytes)) bytes (bytes.flatMap flags) := by
  obtain ⟨a, b, rfl, ha, hread⟩ := readFlagsFrom_append (le_refl (nonzero bytes))
  have hb : nonzero b = 0 := by
    rw [nonzero_append] at ha
    omega
  obtain rfl : b = [] := by
    by_contra hne
    rw [List.getLast?_append_of_ne_nil _ hne, List.getLast?_eq_some_getLast hne] at h
    have hlast : b.getLast hne ≠ 0 := h _ rfl
    have hzero := List.countP_eq_zero.mp hb _ (List.getLast_mem hne)
    simp [hlast] at hzero
  intro rest
  rw [List.append_nil] at hread ⊢
  exact hread rest

theorem count_true_flags_pos (h : 0 < nonzero bytes) : 0 < (bytes.flatMap flags).count true := by
  obtain ⟨x, hx, hne⟩ := List.countP_pos_iff.mp h
  exact List.count_pos_iff.mpr (List.mem_flatMap.mpr ⟨x, hx, true_mem_flags (by simpa using hne)⟩)

end ByteCodec.Bitmap
