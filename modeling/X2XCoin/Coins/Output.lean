import X2XCoin.Coins.Coins

/-!
# The outputs a view shows

What a view is for: a partial map from outpoints to the outputs that are still unspent.
-/

namespace X2XCoin

namespace CCoins

/-- Output `n` if it is unspent. -/
def output (c : CCoins) (n : ℕ) : Option CTxOut := c.vout[n]?.filter fun o => !o.isNull

theorem output_eq_some {c : CCoins} {n : ℕ} {o : CTxOut} :
    c.output n = some o ↔ c.vout[n]? = some o ∧ o.isNull = false := by
  simp [output, Option.filter_eq_some_iff]

theorem dropNulls_append (vout : List CTxOut) :
    ∃ t, vout = dropNulls vout ++ t ∧ ∀ o ∈ t, o.isNull = true :=
  ⟨vout.rtakeWhile CTxOut.isNull, List.rdropWhile_append_rtakeWhile.symm,
    fun _ ho => List.mem_rtakeWhile_imp ho⟩

@[simp] theorem output_empty (n : ℕ) : ({} : CCoins).output n = none := by
  simp [output]

@[simp] theorem output_cleanup (c : CCoins) (n : ℕ) : c.cleanup.output n = c.output n := by
  obtain ⟨t, ht, hnull⟩ := dropNulls_append c.vout
  have hc : c.cleanup.vout = dropNulls c.vout := rfl
  unfold output
  rw [hc]
  by_cases hn : n < (dropNulls c.vout).length
  · conv_rhs => rw [ht]
    rw [List.getElem?_append_left hn]
  · rw [List.getElem?_eq_none (Nat.le_of_not_lt hn)]
    conv_rhs => rw [ht]
    rw [List.getElem?_append_right (Nat.le_of_not_lt hn)]
    symm
    rw [Option.filter_none, Option.filter_eq_none_iff]
    intro o ho
    simp [hnull o (List.mem_of_getElem? ho)]

theorem isAvailable_iff {c : CCoins} {n : ℕ} : c.isAvailable n = true ↔ ∃ o, c.output n = some o := by
  unfold isAvailable
  split
  · next o ho => simp [output_eq_some, ho]
  · next ho => simp [output_eq_some, ho]

theorem isPruned_iff {c : CCoins} : c.isPruned = true ↔ ∀ n, c.output n = none := by
  simp only [isPruned, List.all_eq_true, output, Option.filter_eq_none_iff, Bool.not_eq_true',
    Bool.not_eq_false]
  constructor
  · intro h n o ho
    exact h o (List.mem_of_getElem? ho)
  · intro h o ho
    obtain ⟨n, hn⟩ := List.mem_iff_getElem?.mp ho
    exact h n o hn

theorem output_spend (c : CCoins) (n m : ℕ) :
    (c.spend n).output m = if m = n then none else c.output m := by
  unfold spend
  split_ifs with h hm hm
  · subst hm
    rw [output_cleanup, output, List.getElem?_set, if_pos rfl]
    split_ifs <;> simp [CTxOut.isNull, CTxOut.null]
  · rw [output_cleanup, output, output, List.getElem?_set_ne (Ne.symm hm)]
  · subst hm
    cases ho : c.output m with
    | none => rfl
    | some o => exact absurd (isAvailable_iff.mpr ⟨o, ho⟩) h
  · rfl

theorem spend_eq_with (c : CCoins) (n : ℕ) : c.spend n = { c with vout := (c.spend n).vout } := by
  unfold spend
  split_ifs <;> rfl

@[simp] theorem cleanup_cleanup (c : CCoins) : c.cleanup.cleanup = c.cleanup := by
  simp [cleanup, dropNulls, List.rdropWhile_idempotent]

end CCoins

namespace CoinsView

/-- The unspent output at an outpoint. -/
def output (view : CoinsView) (o : COutPoint) : Option CTxOut :=
  (view.accessCoins o.hash).bind fun c => c.output o.n.toNat

variable {view : CoinsView}

theorem getOutputFor_eq (view : CoinsView) (i : CTxIn) :
    view.getOutputFor i = view.output i.prevout := by
  unfold getOutputFor output
  cases view.accessCoins i.prevout.hash with
  | none => rfl
  | some c =>
    simp only [Option.bind_eq_bind, Option.bind_some, CCoins.output]
    cases c.vout[i.prevout.n.toNat]? with
    | none => rfl
    | some o => by_cases h : o.isNull <;> simp [h, Option.filter]

theorem haveInputs_iff {tx : CTransaction} :
    view.haveInputs tx = true ↔
      tx.isCoinBase = true ∨ ∀ i ∈ tx.vin, ∃ o, view.output i.prevout = some o := by
  simp only [haveInputs, Bool.or_eq_true, List.all_eq_true, output]
  refine or_congr Iff.rfl (forall₂_congr fun i _ => ?_)
  cases view.accessCoins i.prevout.hash with
  | none => simp
  | some c => simp [CCoins.isAvailable_iff]

@[simp] theorem accessCoins_modifyCoins_self (txid : Uint256) (f : CCoins → CCoins) :
    (view.modifyCoins txid f).accessCoins txid =
      some (f ((view.accessCoins txid).getD {})).cleanup := by
  simp [modifyCoins, accessCoins]

theorem accessCoins_modifyCoins_ne {txid txid' : Uint256} (h : txid' ≠ txid)
    (f : CCoins → CCoins) :
    (view.modifyCoins txid f).accessCoins txid' = view.accessCoins txid' :=
  AList.lookup_insert_ne h

@[simp] theorem accessCoins_modifyNewCoins_self (txid : Uint256) (f : CCoins → CCoins) :
    (view.modifyNewCoins txid f).accessCoins txid = some (f {}).cleanup := by
  simp [modifyNewCoins, accessCoins]

theorem accessCoins_modifyNewCoins_ne {txid txid' : Uint256} (h : txid' ≠ txid)
    (f : CCoins → CCoins) :
    (view.modifyNewCoins txid f).accessCoins txid' = view.accessCoins txid' :=
  AList.lookup_insert_ne h

end CoinsView

/-! ## Spending -/

variable {view view' : CoinsView} {txin : CTxIn} {undo : CTxInUndo}

/-- What spending one input does: the output was there, its entry loses it, and the undo record
holds it. -/
theorem spendInput_eq_some (h : spendInput view txin = some (view', undo)) :
    ∃ c o, view.accessCoins txin.prevout.hash = some c ∧ c.output txin.prevout.n.toNat = some o ∧
      view' = view.modifyCoins txin.prevout.hash (fun _ => c.spend txin.prevout.n.toNat) ∧
      undo = CTxInUndo.ofSpent o (c.spend txin.prevout.n.toNat) := by
  unfold spendInput at h
  simp only [Option.bind_eq_bind, Option.bind_eq_some_iff] at h
  obtain ⟨o, ho, h⟩ := h
  cases hc : view.accessCoins txin.prevout.hash with
  | none => simp [hc] at ho
  | some c =>
    simp only [hc, Option.getD_some] at ho h
    by_cases hnull : o.isNull
    · simp [hnull] at h
    · rw [if_neg hnull] at h
      simp only [Option.some.injEq, Prod.mk.injEq] at h
      obtain ⟨rfl, rfl⟩ := h
      exact ⟨c, o, rfl, CCoins.output_eq_some.mpr ⟨ho, by simpa using hnull⟩, rfl, rfl⟩

theorem output_spendInput (h : spendInput view txin = some (view', undo)) (o : COutPoint) :
    view'.output o = if o = txin.prevout then none else view.output o := by
  obtain ⟨c, out, hc, -, rfl, -⟩ := spendInput_eq_some h
  unfold CoinsView.output
  by_cases hh : o.hash = txin.prevout.hash
  · have hiff : o = txin.prevout ↔ o.n.toNat = txin.prevout.n.toNat := by
      rw [UInt32.toNat_inj]
      constructor
      · rintro rfl
        rfl
      · intro hn
        cases o
        cases hp : txin.prevout
        simp_all
    simp only [hh, CoinsView.accessCoins_modifyCoins_self, Option.bind_some, CCoins.output_cleanup,
      CCoins.output_spend, hc, hiff]
  · rw [CoinsView.accessCoins_modifyCoins_ne hh, if_neg (fun he => hh (by rw [he]))]

/-- The record of a spent input holds the output that was there. -/
theorem txout_spendInput (h : spendInput view txin = some (view', undo)) :
    view.output txin.prevout = some undo.txout := by
  obtain ⟨c, out, hc, hout, -, rfl⟩ := spendInput_eq_some h
  unfold CoinsView.output
  rw [hc, Option.bind_some, hout, CTxInUndo.txout_ofSpent]

theorem spendInputs_cons_eq_some {vin : List CTxIn} {undos : CTxUndo} :
    spendInputs view (txin :: vin) = some (view', undos) ↔
      ∃ view₁ undo undos₁, spendInput view txin = some (view₁, undo) ∧
        spendInputs view₁ vin = some (view', undos₁) ∧ undos = undo :: undos₁ := by
  simp only [spendInputs, Option.bind_eq_bind, Option.bind_eq_some_iff, Prod.exists,
    Option.some.injEq, Prod.mk.injEq]
  constructor
  · rintro ⟨v₁, u, h₁, v₂, us, h₂, rfl, rfl⟩
    exact ⟨v₁, u, us, h₁, h₂, rfl⟩
  · rintro ⟨v₁, u, us, h₁, h₂, rfl⟩
    exact ⟨v₁, u, h₁, view', us, h₂, rfl, rfl⟩

/-- With distinct inputs, the records hold the outputs the view showed before any was spent. -/
theorem txout_spendInputs {vin : List CTxIn} {undos : CTxUndo}
    (hnodup : (vin.map CTxIn.prevout).Nodup) (h : spendInputs view vin = some (view', undos)) :
    vin.map (fun i => view.output i.prevout) = undos.map fun u => some u.txout := by
  induction vin generalizing view undos with
  | nil =>
    obtain ⟨-, rfl⟩ := by simpa [spendInputs] using h
    rfl
  | cons txin vin ih =>
    obtain ⟨view₁, undo, undos₁, h₁, h₂, rfl⟩ := spendInputs_cons_eq_some.mp h
    rw [List.map_cons, List.nodup_cons] at hnodup
    rw [List.map_cons, List.map_cons, txout_spendInput h₁, ← ih hnodup.2 h₂]
    refine congrArg _ (List.map_congr_left fun i hi => ?_)
    have hne : i.prevout ≠ txin.prevout := fun he =>
      hnodup.1 (he ▸ List.mem_map_of_mem hi)
    rw [output_spendInput h₁, if_neg hne]

end X2XCoin
