import X2XCoin.Coins.Output
import X2XCoin.Lib.MapTotal
import X2XCoin.Primitives.Amount

/-!
# The value of a view

`CoinsView.total` is the sum of the amounts of all unspent outputs, as an integer that does not
wrap.
-/

namespace X2XCoin

/-- The amount an output counts for: a spent one for nothing. -/
def CTxOut.value (o : CTxOut) : ℤ := if o.isNull then 0 else o.nValue.toInt

/-- The unspent amount of an entry. -/
def CCoins.value (c : CCoins) : ℤ := (c.vout.map CTxOut.value).sum

/-- The sum of the amounts of all unspent outputs. -/
def CoinsView.total (view : CoinsView) : ℤ := view.coins.total CCoins.value

/-- Every output of the view counts for a nonnegative amount. -/
def CoinsView.Nonneg (view : CoinsView) : Prop :=
  ∀ txid c, view.accessCoins txid = some c → ∀ o ∈ c.vout, 0 ≤ o.value

theorem CTxOut.value_of_isNull {o : CTxOut} (h : o.isNull = true) : o.value = 0 := by
  simp [value, h]

@[simp] theorem CTxOut.value_null : CTxOut.null.value = 0 := value_of_isNull rfl

theorem CTxOut.value_of_not_isNull {o : CTxOut} (h : o.isNull = false) :
    o.value = o.nValue.toInt := by
  simp [value, h]

namespace CCoins

variable {c : CCoins} {o : CTxOut}

theorem value_nonneg (h : ∀ o ∈ c.vout, 0 ≤ o.value) : 0 ≤ c.value :=
  List.sum_nonneg fun x hx => by
    obtain ⟨o, ho, rfl⟩ := List.mem_map.mp hx
    exact h o ho

@[simp] theorem value_cleanup (c : CCoins) : c.cleanup.value = c.value := by
  obtain ⟨t, ht, hnull⟩ := dropNulls_append c.vout
  have hzero : (t.map CTxOut.value).sum = 0 :=
    List.sum_eq_zero fun x hx => by
      obtain ⟨o, ho, rfl⟩ := List.mem_map.mp hx
      exact CTxOut.value_of_isNull (hnull o ho)
  have hc : c.cleanup.vout = dropNulls c.vout := rfl
  unfold value
  rw [hc]
  conv_rhs => rw [ht]
  rw [List.map_append, List.sum_append, hzero, add_zero]

theorem mem_vout_cleanup (h : o ∈ c.cleanup.vout) : o ∈ c.vout := by
  obtain ⟨t, ht, -⟩ := dropNulls_append c.vout
  rw [ht]
  exact List.mem_append_left _ h

theorem value_spend {n : ℕ} (h : c.output n = some o) :
    (c.spend n).value = c.value - o.nValue.toInt := by
  obtain ⟨ho, hnull⟩ := output_eq_some.mp h
  obtain ⟨hn, hget⟩ := List.getElem?_eq_some_iff.mp ho
  have hlen : n < (c.vout.map CTxOut.value).length := by simpa using hn
  unfold spend
  rw [if_pos (isAvailable_iff.mpr ⟨o, h⟩), value_cleanup]
  unfold value
  rw [List.map_set, List.sum_set', dif_pos hlen, List.getElem_map, hget, CTxOut.value_null,
    CTxOut.value_of_not_isNull hnull]
  ring

theorem mem_vout_spend {n : ℕ} (h : o ∈ (c.spend n).vout) : o ∈ c.vout ∨ o = CTxOut.null := by
  unfold spend at h
  split_ifs at h
  · exact List.mem_or_eq_of_mem_set (mem_vout_cleanup h)
  · exact Or.inl h

theorem mem_vout_fromTx {tx : CTransaction} {nHeight : ℕ} (h : o ∈ (fromTx tx nHeight).vout) :
    o ∈ tx.vout ∨ o = CTxOut.null := by
  obtain ⟨o', ho', rfl⟩ := List.mem_map.mp (mem_vout_cleanup h)
  split_ifs
  · exact Or.inr rfl
  · exact Or.inl ho'

/-- The new entry of a transaction counts for at most the sum of its outputs. -/
theorem value_fromTx_le {tx : CTransaction} (nHeight : ℕ)
    (hout : ∀ o ∈ tx.vout, 0 ≤ o.nValue.toInt) : (fromTx tx nHeight).value ≤ tx.valueOut := by
  have hle : ∀ o ∈ tx.vout,
      (if o.isUnspendable then CTxOut.null else o).value ≤ o.nValue.toInt := by
    intro o ho
    have h0 := hout o ho
    split_ifs
    · rwa [CTxOut.value_null]
    · unfold CTxOut.value
      split_ifs
      · exact h0
      · exact le_rfl
  unfold fromTx clearUnspendable
  rw [value_cleanup]
  unfold value CTransaction.valueOut
  rw [List.map_map]
  exact List.sum_le_sum hle

end CCoins

theorem CTxOut.value_nonneg {o : CTxOut} (h : 0 ≤ o.nValue.toInt) : 0 ≤ o.value := by
  unfold value
  split_ifs
  · exact le_rfl
  · exact h

/-! ## The update of a view -/

namespace CoinsView

variable {view : CoinsView}

theorem weightAt_coins {txid : Uint256} :
    view.coins.weightAt CCoins.value txid = ((view.accessCoins txid).map CCoins.value).getD 0 := rfl

theorem Nonneg.weightAt_nonneg (h : view.Nonneg) (txid : Uint256) :
    0 ≤ view.coins.weightAt CCoins.value txid := by
  rw [weightAt_coins]
  cases hc : view.accessCoins txid with
  | none => simp
  | some c => simpa using CCoins.value_nonneg (h txid c hc)

/-- Storing an entry without negative outputs keeps a view free of them. -/
theorem Nonneg.insert (h : view.Nonneg) (txid hashBlock : Uint256) {c : CCoins}
    (hc : ∀ o ∈ c.vout, 0 ≤ o.value) : Nonneg ⟨view.coins.insert txid c, hashBlock⟩ := by
  intro txid' c' h'
  unfold accessCoins at h'
  by_cases he : txid' = txid
  · subst he
    obtain rfl : c = c' := by simpa using h'
    exact hc
  · exact h txid' c' (by rwa [AList.lookup_insert_ne he] at h')

end CoinsView

section

variable {view view' : CoinsView}

theorem total_spendInput {txin : CTxIn} {undo : CTxInUndo}
    (h : spendInput view txin = some (view', undo)) :
    view'.total = view.total - undo.txout.nValue.toInt := by
  obtain ⟨c, o, hc, ho, rfl, rfl⟩ := spendInput_eq_some h
  have hv := CCoins.value_spend ho
  have hw : view.coins.weightAt CCoins.value txin.prevout.hash = c.value :=
    AList.weightAt_of_lookup hc
  simp only [CoinsView.total, CoinsView.modifyCoins, AList.total_insert, CCoins.value_cleanup, hw,
    hv, CTxInUndo.txout_ofSpent]
  ring

theorem nonneg_spendInput {txin : CTxIn} {undo : CTxInUndo} (hn : view.Nonneg)
    (h : spendInput view txin = some (view', undo)) : view'.Nonneg := by
  obtain ⟨c, o, hc, -, rfl, -⟩ := spendInput_eq_some h
  refine hn.insert _ _ fun o ho => ?_
  rcases CCoins.mem_vout_spend (CCoins.mem_vout_cleanup ho) with ho | rfl
  · exact hn _ c hc o ho
  · exact CTxOut.value_null.ge

variable {undos : CTxUndo} {tx : CTransaction}

theorem total_spendInputs {vin : List CTxIn} (h : spendInputs view vin = some (view', undos)) :
    view'.total = view.total - (undos.map fun u => u.txout.nValue.toInt).sum := by
  induction vin generalizing view undos with
  | nil =>
    obtain ⟨rfl, rfl⟩ := by simpa [spendInputs] using h
    simp
  | cons txin vin ih =>
    obtain ⟨view₁, undo, undos₁, h₁, h₂, rfl⟩ := spendInputs_cons_eq_some.mp h
    rw [ih h₂, total_spendInput h₁, List.map_cons, List.sum_cons]
    ring

theorem nonneg_spendInputs {vin : List CTxIn} (hn : view.Nonneg)
    (h : spendInputs view vin = some (view', undos)) : view'.Nonneg := by
  induction vin generalizing view undos with
  | nil =>
    obtain ⟨rfl, -⟩ := by simpa [spendInputs] using h
    exact hn
  | cons txin vin ih =>
    obtain ⟨view₁, undo, undos₁, h₁, h₂, -⟩ := spendInputs_cons_eq_some.mp h
    exact ih (nonneg_spendInput hn h₁) h₂

/-- Adding the outputs of a transaction raises the total by at most their sum. -/
theorem total_addOutputs_le (hn : view.Nonneg) (txid : Uint256) (nHeight : ℕ)
    (hout : ∀ o ∈ tx.vout, 0 ≤ o.nValue.toInt) :
    (view.modifyNewCoins txid fun _ => CCoins.fromTx tx nHeight).total ≤
      view.total + tx.valueOut := by
  have hw := hn.weightAt_nonneg txid
  have hv := CCoins.value_fromTx_le nHeight hout
  simp only [CoinsView.total, CoinsView.modifyNewCoins, AList.total_insert, CCoins.value_cleanup]
  linarith

theorem nonneg_addOutputs (hn : view.Nonneg) (txid : Uint256) (nHeight : ℕ)
    (hout : ∀ o ∈ tx.vout, 0 ≤ o.nValue.toInt) :
    (view.modifyNewCoins txid fun _ => CCoins.fromTx tx nHeight).Nonneg := by
  refine hn.insert _ _ fun o ho => ?_
  rcases CCoins.mem_vout_fromTx (CCoins.mem_vout_cleanup ho) with ho | rfl
  · exact CTxOut.value_nonneg (hout o ho)
  · exact CTxOut.value_null.ge

/-- `UpdateCoins` lowers the total by what it records as spent and raises it by at most the sum of
the outputs. -/
theorem total_updateCoins_le {crypto : Crypto} {nHeight : ℕ} (hn : view.Nonneg)
    (hout : ∀ o ∈ tx.vout, 0 ≤ o.nValue.toInt)
    (h : updateCoins crypto tx view nHeight = some (view', undos)) :
    view'.total ≤ view.total - (undos.map fun u => u.txout.nValue.toInt).sum + tx.valueOut ∧
      view'.Nonneg := by
  obtain ⟨view₁, h₁, rfl⟩ := updateCoins_eq_some.mp h
  unfold spendTxInputs at h₁
  split_ifs at h₁
  · obtain ⟨rfl, rfl⟩ := by simpa using h₁
    refine ⟨?_, nonneg_addOutputs hn _ _ hout⟩
    simpa using total_addOutputs_le hn (tx.getHash crypto) nHeight hout
  · have hn₁ := nonneg_spendInputs hn h₁
    refine ⟨?_, nonneg_addOutputs hn₁ _ _ hout⟩
    rw [← total_spendInputs h₁]
    exact total_addOutputs_le hn₁ _ _ hout

end

end X2XCoin
