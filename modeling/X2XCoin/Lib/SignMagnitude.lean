import X2XCoin.Lib.Bytes

/-!
# Sign and magnitude

Little-endian numbers of which the highest bit is the sign.
-/

namespace SignMagnitude

open ByteCodec

/-- The bit of the sign in so many bytes. -/
def signBit (length : ℕ) : ℕ := 2 ^ (8 * length - 1)

/-- The number that bytes denote; no bytes denote zero. -/
def value (v : Bytes) : ℤ :=
  if leNat v < signBit v.length then leNat v else signBit v.length - leNat v

/-- The magnitude has no room for it in fewer bytes. -/
def Shortest (v : Bytes) : Prop := v = [] ∨ signBit (v.length - 1) ≤ (value v).natAbs

variable {v w : Bytes}

theorem signBit_pos (k : ℕ) : 0 < signBit k := Nat.two_pow_pos _

theorem signBit_mono {k l : ℕ} (h : k ≤ l) : signBit k ≤ signBit l :=
  Nat.pow_le_pow_right (by decide) (by omega)

theorem signBit_succ (k : ℕ) : signBit (k + 1) = 128 * 256 ^ k := by
  rw [signBit, show 8 * (k + 1) - 1 = 7 + 8 * k by omega, pow_add, pow_mul]
  norm_num

theorem natAbs_value_lt (hv : v ≠ []) : (value v).natAbs < signBit v.length := by
  obtain ⟨k, hk⟩ := Nat.exists_eq_succ_of_ne_zero (mt List.eq_nil_of_length_eq_zero hv)
  have hlt := leNat_lt v
  have hbit := signBit_succ k
  rw [hk, Nat.succ_eq_add_one, pow_succ] at hlt
  rw [value, hk, Nat.succ_eq_add_one]
  split_ifs <;> omega

/-- A number has one shortest form. -/
theorem eq_of_value_eq (hv : Shortest v) (hw : Shortest w) (h : value v = value w) : v = w := by
  have hpos : ∀ {u : Bytes}, Shortest u → u ≠ [] →
      signBit (u.length - 1) ≤ (value u).natAbs ∧ 0 < (value u).natAbs := fun hu hne =>
    ⟨hu.resolve_left hne, (signBit_pos _).trans_le (hu.resolve_left hne)⟩
  obtain rfl | hv' := eq_or_ne v []
  · by_contra hne
    have := (hpos hw (Ne.symm hne)).2
    rw [← h] at this
    exact absurd this (lt_irrefl 0)
  obtain rfl | hw' := eq_or_ne w []
  · have := (hpos hv hv').2
    rw [h] at this
    exact absurd this (lt_irrefl 0)
  obtain ⟨hlow, hne⟩ := hpos hv hv'
  have hlow' := (hpos hw hw').1
  have hhigh := natAbs_value_lt hv'
  have hhigh' := natAbs_value_lt hw'
  rw [← h] at hlow' hhigh'
  have hlength : v.length = w.length := by
    obtain hlt | heq | hgt := lt_trichotomy v.length w.length
    · have := signBit_mono (Nat.le_sub_one_of_lt hlt)
      omega
    · exact heq
    · have := signBit_mono (Nat.le_sub_one_of_lt hgt)
      omega
  have hnat : leNat v = leNat w := by
    rw [value] at hne
    rw [value, value, ← hlength] at h
    split_ifs at h hne <;> omega
  rw [← leBytes_leNat v, ← leBytes_leNat w, hlength, hnat]

theorem leNat_concat (init : Bytes) (b : UInt8) :
    leNat (init ++ [b]) = leNat init + 256 ^ init.length * b.toNat := by
  simp [leNat_append, leNat]

/-- The last byte has the sign. -/
theorem value_concat (init : Bytes) (b : UInt8) : value (init ++ [b]) =
    if b.toNat < 128 then (leNat init + 256 ^ init.length * b.toNat : ℤ)
    else -(leNat init + 256 ^ init.length * (b.toNat - 128 : ℤ)) := by
  have hlt := leNat_lt init
  rw [value, List.length_append, List.length_singleton, signBit_succ, leNat_concat]
  by_cases hb : b.toNat < 128
  · have hle : 256 ^ init.length * b.toNat ≤ 256 ^ init.length * 127 :=
      Nat.mul_le_mul_left _ (by omega)
    rw [if_pos hb, if_pos (by omega)]
    push_cast
    rfl
  · have hle : 256 ^ init.length * 128 ≤ 256 ^ init.length * b.toNat :=
      Nat.mul_le_mul_left _ (by omega)
    rw [if_neg hb, if_neg (by omega)]
    push_cast
    ring

theorem signBit_le_leNat (init : Bytes) (b : UInt8) :
    signBit (init.length + 1) ≤ leNat (init ++ [b]) ↔ 128 ≤ b.toNat := by
  have hlt := leNat_lt init
  rw [signBit_succ, leNat_concat]
  constructor
  · intro h
    by_contra hb
    have : 256 ^ init.length * b.toNat ≤ 256 ^ init.length * 127 :=
      Nat.mul_le_mul_left _ (by omega)
    omega
  · intro hb
    have : 256 ^ init.length * 128 ≤ 256 ^ init.length * b.toNat := Nat.mul_le_mul_left _ hb
    omega

theorem natAbs_value_concat (init : Bytes) (b : UInt8) :
    (value (init ++ [b])).natAbs = leNat init + 256 ^ init.length * (b.toNat % 128) := by
  have hb := b.toNat_lt
  rw [value_concat]
  by_cases hsign : b.toNat < 128
  · rw [if_pos hsign, Nat.mod_eq_of_lt hsign]
    exact_mod_cast rfl
  · rw [if_neg hsign, Int.natAbs_neg, show b.toNat % 128 = b.toNat - 128 by omega]
    have hcast : ((b.toNat - 128 : ℕ) : ℤ) = (b.toNat : ℤ) - 128 := by omega
    rw [← hcast]
    exact_mod_cast rfl

/-- The form is the shortest one if the last byte has a bit besides the sign, or the one before has
its highest bit. -/
theorem shortest_concat (init : Bytes) (b : UInt8) : Shortest (init ++ [b]) ↔
    b.toNat % 128 ≠ 0 ∨ ∃ init' c, init = init' ++ [c] ∧ 128 ≤ c.toNat := by
  have hne : init ++ [b] ≠ [] := by simp
  have hbit : signBit init.length ≤ 256 ^ init.length := by
    rw [signBit, show 256 = 2 ^ 8 by rfl, ← pow_mul]
    exact Nat.pow_le_pow_right (by decide) (Nat.sub_le _ _)
  rw [Shortest, or_iff_right hne, natAbs_value_concat, List.length_append, List.length_singleton,
    Nat.add_sub_cancel]
  by_cases hb : b.toNat % 128 = 0
  · rw [hb, mul_zero, add_zero, or_iff_right (not_not.mpr rfl)]
    obtain rfl | ⟨init', c, rfl⟩ := List.eq_nil_or_concat' init
    · exact iff_of_false (by decide) (by simp)
    · rw [List.length_append, List.length_singleton, signBit_le_leNat]
      simp
  · refine iff_of_true (hbit.trans ?_) (.inl hb)
    calc 256 ^ init.length = 256 ^ init.length * 1 := (mul_one _).symm
      _ ≤ 256 ^ init.length * (b.toNat % 128) := Nat.mul_le_mul_left _ (by omega)
      _ ≤ _ := Nat.le_add_left _ _

end SignMagnitude
