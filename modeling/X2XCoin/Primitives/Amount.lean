import X2XCoin.Primitives.Transaction

/-!
# Sums of amounts

Amounts wrap at 64 bits.  A running sum that is tested after every step is exact, and one that is
not
tested can only come out too small.
-/

namespace X2XCoin

theorem toInt_MAX_MONEY : MAX_MONEY.toInt = 2 ^ 63 - 1 := by decide

theorem le_MAX_MONEY (a : CAmount) : a ≤ MAX_MONEY := by
  have h := a.toInt_lt
  rw [Int64.le_iff_toInt_le, toInt_MAX_MONEY]
  omega

theorem moneyRange_iff {a : CAmount} : moneyRange a = true ↔ 0 ≤ a.toInt := by
  rw [moneyRange, Bool.and_eq_true, decide_eq_true_iff, decide_eq_true_iff]
  exact (and_iff_left (le_MAX_MONEY a)).trans Int64.le_iff_toInt_le

theorem toInt_add_eq (a b : CAmount) :
    (a + b).toInt = a.toInt + b.toInt ∨ (a + b).toInt = a.toInt + b.toInt - 2 ^ 64 ∨
      (a + b).toInt = a.toInt + b.toInt + 2 ^ 64 := by
  have ha := a.toInt_lt
  have hb := b.toInt_lt
  have ha' := a.le_toInt
  have hb' := b.le_toInt
  rw [Int64.toInt_add, Int.bmod_def]
  omega

variable {a b : CAmount}

theorem toInt_add_of_nonneg (ha : 0 ≤ a.toInt) (hb : 0 ≤ b.toInt) (h : 0 ≤ (a + b).toInt) :
    (a + b).toInt = a.toInt + b.toInt := by
  have ha' := a.toInt_lt
  have hb' := b.toInt_lt
  have hs := (a + b).toInt_lt
  rcases toInt_add_eq a b with he | he | he <;> omega

theorem toInt_add_le (hb : 0 ≤ b.toInt) : (a + b).toInt ≤ a.toInt + b.toInt := by
  have ha := a.le_toInt
  have hs := (a + b).toInt_lt
  rcases toInt_add_eq a b with he | he | he <;> omega

theorem toInt_sub_of_nonneg (ha : 0 ≤ a.toInt) (hb : 0 ≤ b.toInt) :
    (a - b).toInt = a.toInt - b.toInt := by
  have ha' := a.toInt_lt
  have hb' := b.toInt_lt
  rw [Int64.toInt_sub, Int.bmod_def]
  omega

theorem toNat_toUInt64 {v : CAmount} (h : 0 ≤ v.toInt) : v.toUInt64.toNat = v.toInt.toNat := by
  have hv : v.toInt = v.toUInt64.toBitVec.toInt := rfl
  have hn : v.toUInt64.toNat = v.toUInt64.toBitVec.toNat := rfl
  rw [hn]
  rw [hv] at h ⊢
  rw [BitVec.toInt_eq_toNat_cond] at h ⊢
  split_ifs at h ⊢ with hc
  · rfl
  · have := v.toUInt64.toBitVec.isLt
    omega

namespace CTransaction

/-- The sum of the outputs of a transaction, as an integer. -/
def valueOut (tx : CTransaction) : ℤ := (tx.vout.map fun o => o.nValue.toInt).sum

theorem addValueOut_eq_some {a b : CAmount} {out : CTxOut} (ha : 0 ≤ a.toInt)
    (h : addValueOut a out = some b) :
    0 ≤ out.nValue.toInt ∧ 0 ≤ b.toInt ∧ b.toInt = a.toInt + out.nValue.toInt := by
  unfold addValueOut at h
  simp only [Bool.or_eq_true, Bool.not_eq_true', ← Bool.not_eq_true, moneyRange_iff] at h
  split_ifs at h with hr
  obtain ⟨ho, hs⟩ := not_or.mp hr
  obtain rfl : a + out.nValue = b := by simpa using h
  rw [not_not] at ho hs
  exact ⟨ho, hs, toInt_add_of_nonneg ha ho hs⟩

private theorem foldlM_addValueOut {vout : List CTxOut} {a b : CAmount} (ha : 0 ≤ a.toInt)
    (h : vout.foldlM addValueOut a = some b) :
    (∀ o ∈ vout, 0 ≤ o.nValue.toInt) ∧
      b.toInt = a.toInt + (vout.map fun o => o.nValue.toInt).sum := by
  induction vout generalizing a with
  | nil =>
    obtain rfl : a = b := by simpa using h
    simp
  | cons o vout ih =>
    simp only [List.foldlM_cons, Option.bind_eq_bind, Option.bind_eq_some_iff] at h
    obtain ⟨c, hc, h⟩ := h
    obtain ⟨ho, hc0, hce⟩ := addValueOut_eq_some ha hc
    obtain ⟨hall, hb⟩ := ih hc0 h
    refine ⟨List.forall_mem_cons.mpr ⟨ho, hall⟩, ?_⟩
    rw [hb, hce, List.map_cons, List.sum_cons]
    ring

/-- When `GetValueOut` returns, the sum is exact and not negative. -/
theorem getValueOut_eq_some {tx : CTransaction} {v : CAmount} (h : tx.getValueOut = some v) :
    v.toInt = tx.valueOut ∧ 0 ≤ v.toInt := by
  have hz : (0 : CAmount).toInt = 0 := rfl
  obtain ⟨hall, hv⟩ := foldlM_addValueOut (by rw [hz]) h
  rw [hz, zero_add] at hv
  refine ⟨hv, ?_⟩
  rw [hv]
  exact List.sum_nonneg fun x hx => by
    obtain ⟨o, ho, rfl⟩ := List.mem_map.mp hx
    exact hall o ho

end CTransaction

end X2XCoin
