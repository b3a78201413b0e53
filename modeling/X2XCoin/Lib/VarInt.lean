import X2XCoin.Lib.Reader

/-!
# Variable-length integers

Base-128 digits, most significant first; all but the last carry the bit `0x80`, and one is
subtracted from every digit but the last.  Readers work in words of `w` bits.
-/

namespace ByteCodec.VarInt

/-- The digits of `n`, of which there are at most `k + 1`; `flag` is added to the last. -/
def digits : ℕ → ℕ → ℕ → Bytes
  | 0, n, flag => [UInt8.ofNat (n % 128 + flag)]
  | k + 1, n, flag =>
    if n ≤ 127 then [UInt8.ofNat (n % 128 + flag)]
    else digits k (n / 128 - 1) 128 ++ [UInt8.ofNat (n % 128 + flag)]

/-- Read digits after a prefix that stands for `n`. -/
def readFrom (w : ℕ) : ℕ → Bytes → Option (ℕ × Bytes)
  | _, [] => none
  | n, chData :: bs =>
    let n := (n * 128 + chData.toNat % 128) % 2 ^ w
    if 128 ≤ chData.toNat then readFrom w ((n + 1) % 2 ^ w) bs else some (n, bs)

theorem readFrom_digit {w m n flag : ℕ} (bs : Bytes) (hn : m * 128 + n % 128 = n) (hlt : n < 2 ^ w)
    (hflag : flag = 0 ∨ flag = 128) :
    readFrom w m (UInt8.ofNat (n % 128 + flag) :: bs) =
      if flag = 128 then readFrom w ((n + 1) % 2 ^ w) bs else some (n, bs) := by
  have hbyte : (UInt8.ofNat (n % 128 + flag)).toNat = n % 128 + flag := by
    rw [UInt8.toNat_ofNat']
    omega
  rw [readFrom, hbyte, show m * 128 + (n % 128 + flag) % 128 = n by omega, Nat.mod_eq_of_lt hlt]
  rcases hflag with rfl | rfl
  · simp [show n % 128 < 128 by omega]
  · simp

/-- Digits that more digits follow are read as the prefix of the number. -/
theorem readFrom_digits {w k n flag : ℕ} (bs : Bytes) (hk : n < 128 ^ (k + 1)) (hlt : n < 2 ^ w)
    (hflag : flag = 0 ∨ flag = 128) :
    readFrom w 0 (digits k n flag ++ bs) =
      if flag = 128 then readFrom w ((n + 1) % 2 ^ w) bs else some (n, bs) := by
  induction k generalizing n flag bs with
  | zero =>
    rw [pow_one] at hk
    exact readFrom_digit bs (by omega) hlt hflag
  | succ k ih =>
    by_cases hsmall : n ≤ 127
    · rw [digits, if_pos hsmall]
      exact readFrom_digit bs (by omega) hlt hflag
    · have hquot : n / 128 - 1 < 128 ^ (k + 1) := by
        have : n / 128 < 128 ^ (k + 1) := Nat.div_lt_of_lt_mul (by rwa [pow_succ'] at hk)
        omega
      have hnext : n / 128 - 1 + 1 = n / 128 := by omega
      rw [digits, if_neg hsmall, List.append_assoc, ih _ hquot (by omega) (.inr rfl), if_pos rfl,
        hnext, Nat.mod_eq_of_lt (by omega)]
      exact readFrom_digit bs (by omega) hlt hflag

/-! ## What a sequence stands for -/

/-- What digits stand for that more digits follow. -/
def prefixValue (init : Bytes) : ℕ := init.foldl (fun v b => v * 128 + b.toNat % 128 + 1) 0

/-- What a complete sequence stands for: the last digit and, for all others, one more than the
digit. -/
def value (bs : Bytes) : ℕ := prefixValue bs.dropLast * 128 + (bs.getLastD 0).toNat % 128

theorem prefixValue_append_singleton (init : Bytes) (b : UInt8) :
    prefixValue (init ++ [b]) = prefixValue init * 128 + b.toNat % 128 + 1 :=
  List.foldl_append

theorem value_append_singleton (init : Bytes) (last : UInt8) :
    value (init ++ [last]) = prefixValue init * 128 + last.toNat % 128 := by
  rw [value, List.dropLast_concat, List.getLastD_concat]

theorem pow_length_le (init : Bytes) (hinit : init ≠ []) :
    128 ^ init.length ≤ prefixValue init * 128 := by
  induction init using List.reverseRecOn with
  | nil => exact absurd rfl hinit
  | append_singleton init b ih =>
    rw [prefixValue_append_singleton, List.length_append, List.length_singleton, pow_succ]
    refine Nat.mul_le_mul_right 128 ?_
    obtain rfl | hne := eq_or_ne init []
    · exact Nat.le_add_left 1 _
    · exact (ih hne).trans (by omega)

/-- The digits of what a sequence stands for are the sequence. -/
theorem digits_eq (k : ℕ) (init : Bytes) (b : UInt8) (hlength : init.length ≤ k)
    (hinit : ∀ b ∈ init, 128 ≤ b.toNat) :
    digits k (prefixValue init * 128 + b.toNat % 128) (b.toNat / 128 * 128) = init ++ [b] := by
  have hbyte : ∀ (b : UInt8) (v : ℕ),
      UInt8.ofNat ((v * 128 + b.toNat % 128) % 128 + b.toNat / 128 * 128) = b := by
    intro b v
    rw [show (v * 128 + b.toNat % 128) % 128 + b.toNat / 128 * 128 = b.toNat by omega]
    exact UInt8.ofNat_toNat
  induction init using List.reverseRecOn generalizing k b with
  | nil =>
    have hsmall : prefixValue [] * 128 + b.toNat % 128 ≤ 127 := by
      change 0 * 128 + b.toNat % 128 ≤ 127
      omega
    cases k with
    | zero => rw [digits, hbyte]; rfl
    | succ k => rw [digits, if_pos hsmall, hbyte]; rfl
  | append_singleton init b' ih =>
    rw [List.forall_mem_append] at hinit
    rw [List.length_append, List.length_singleton] at hlength
    have hb' : b'.toNat / 128 * 128 = 128 := by
      have := hinit.2 b' List.mem_cons_self
      have := b'.toNat_lt
      omega
    obtain ⟨k, rfl⟩ : ∃ k', k = k' + 1 := ⟨k - 1, by omega⟩
    have hvalue := prefixValue_append_singleton init b'
    have hrest := ih k b' (by omega) hinit.1
    rw [hb'] at hrest
    rw [digits, if_neg (by omega), hbyte,
      show (prefixValue (init ++ [b']) * 128 + b.toNat % 128) / 128 - 1 =
        prefixValue init * 128 + b'.toNat % 128 by omega, hrest]

theorem foldl_modEq {N m m' : ℕ} (h : m ≡ m' [MOD N]) (init : Bytes) :
    init.foldl (fun v b => v * 128 + b.toNat % 128 + 1) m ≡
      init.foldl (fun v b => v * 128 + b.toNat % 128 + 1) m' [MOD N] := by
  induction init generalizing m m' with
  | nil => exact h
  | cons b init ih => exact ih (((h.mul_right 128).add_right _).add_right 1)

/-- A reader stops at the first byte without the bit `0x80`; what was read is reduced to a word. -/
theorem readFrom_eq_some {w m n : ℕ} {bs rest : Bytes}
    (h : readFrom w m bs = some (n, rest)) :
    ∃ init last, bs = init ++ last :: rest ∧ (∀ b ∈ init, 128 ≤ b.toNat) ∧ last.toNat < 128 ∧
      n = (init.foldl (fun v b => v * 128 + b.toNat % 128 + 1) m * 128 + last.toNat % 128) %
        2 ^ w := by
  induction bs generalizing m with
  | nil => cases h
  | cons b bs ih =>
    rw [readFrom] at h
    split_ifs at h with hb
    · obtain ⟨init, last, rfl, hinit, hlast, rfl⟩ := ih h
      refine ⟨b :: init, last, rfl, List.forall_mem_cons.mpr ⟨hb, hinit⟩, hlast, ?_⟩
      -- the word is reduced at each digit, which the sum does not notice
      have hstep : ((m * 128 + b.toNat % 128) % 2 ^ w + 1) % 2 ^ w ≡
          m * 128 + b.toNat % 128 + 1 [MOD 2 ^ w] :=
        (Nat.mod_modEq _ _).trans ((Nat.mod_modEq _ _).add_right 1)
      exact ((foldl_modEq hstep init).mul_right 128).add_right _
    · obtain ⟨rfl, rfl⟩ := Prod.mk.inj (Option.some.inj h)
      exact ⟨[], b, rfl, List.forall_mem_nil _, not_le.mp hb, rfl⟩

/-! ## Words -/

/-- `n` as a word of `w` bits, which needs at most `w / 7 + 1` digits. -/
def write (w n : ℕ) : Bytes := digits (w / 7) n 0

def read (w : ℕ) : Reader ℕ := fun bs => readFrom w 0 bs

theorem lt_pow_of_lt_two_pow {w n : ℕ} (h : n < 2 ^ w) : n < 128 ^ (w / 7 + 1) := by
  rw [show 128 = 2 ^ 7 by norm_num, ← pow_mul]
  exact h.trans_le (Nat.pow_le_pow_right (by norm_num) (by omega))

theorem reads_read {w n : ℕ} (h : n < 2 ^ w) : Reads (read w) (write w n) n := by
  intro rest
  exact (readFrom_digits rest (lt_pow_of_lt_two_pow h) h (.inl rfl)).trans (if_neg (by norm_num))

/-- What is written stands for the number, as a word wide enough for both shows. -/
theorem value_write {w n : ℕ} (h : n < 2 ^ w) : value (write w n) = n := by
  have hk : n < 128 ^ (w / 7 + 1) := lt_pow_of_lt_two_pow h
  obtain ⟨w', hw'⟩ : ∃ w', max n (value (write w n)) < 2 ^ w' := ⟨_, Nat.lt_two_pow_self⟩
  rw [max_lt_iff] at hw'
  have hread := readFrom_digits [] hk hw'.1 (.inl rfl)
  rw [List.append_nil, if_neg (by norm_num)] at hread
  obtain ⟨init, last, heq, -, -, hn⟩ := readFrom_eq_some hread
  change n = (prefixValue init * 128 + last.toNat % 128) % 2 ^ w' at hn
  rw [← value_append_singleton, ← heq] at hn
  exact (hn.trans (Nat.mod_eq_of_lt hw'.2)).symm

/-- A complete sequence is what is written for the number that it stands for. -/
theorem write_value {w : ℕ} {init : Bytes} {last : UInt8} (hinit : ∀ b ∈ init, 128 ≤ b.toNat)
    (hlast : last.toNat < 128) (hlt : value (init ++ [last]) < 2 ^ w) :
    write w (value (init ++ [last])) = init ++ [last] := by
  rw [value_append_singleton] at hlt ⊢
  have hlength : init.length ≤ w / 7 := by
    obtain rfl | hne := eq_or_ne init []
    · exact Nat.zero_le _
    · have hpow : 2 ^ (7 * init.length) < 2 ^ w := by
        rw [pow_mul]
        exact (pow_length_le init hne).trans_lt (by omega)
      have := (Nat.pow_lt_pow_iff_right (by norm_num)).mp hpow
      omega
  have hflag : last.toNat / 128 * 128 = 0 := by omega
  rw [write, ← hflag]
  exact digits_eq (w / 7) init last hlength hinit

theorem reads_read_byte {w : ℕ} {b : UInt8} (hb : b.toNat < 128) (hw : b.toNat < 2 ^ w) :
    Reads (read w) [b] b.toNat := by
  intro rest
  simp only [read, StateT.run, List.singleton_append, readFrom]
  rw [if_neg (by omega), zero_mul, zero_add, Nat.mod_eq_of_lt hb, Nat.mod_eq_of_lt hw]

end ByteCodec.VarInt
