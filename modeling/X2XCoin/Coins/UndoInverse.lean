import X2XCoin.Coins.Undo

/-!
# Undoing inverts updating

`ApplyTxInUndo` is the inverse of spending an input and removing a transaction's outputs is the
inverse of adding them, up to what does not show (`CoinsView.Same`).  A negative version does not come
back from disk, and `CoinsView.Alike` leaves such versions open.
-/

namespace X2XCoin

namespace CCoins

/-- The entry without its outputs. -/
def metadata (c : CCoins) : CCoins := { c with vout := [] }

/-- The same unspent outputs and, if there are any, the same metadata. -/
structure Same (c d : CCoins) : Prop where
  output : ∀ n, c.output n = d.output n
  metadata : c.isPruned = false → c.metadata = d.metadata

/-- No spent outputs at the end, and every spent output is what `SetNull` leaves. -/
structure Tidy (c : CCoins) : Prop where
  trimmed : c.cleanup = c
  null : ∀ o ∈ c.vout, o.isNull = true → o = CTxOut.null

/-- The same as far as undo data can tell: a negative version may have changed. -/
structure Alike (c d : CCoins) : Prop where
  output : ∀ n, c.output n = d.output n
  metadata : c.isPruned = false → c.metadata = { d.metadata with nVersion := c.nVersion }
  version : c.isPruned = false → c.nVersion = d.nVersion ∨ d.nVersion < 0

variable {c d : CCoins}

theorem isPruned_congr (h : ∀ n, c.output n = d.output n) : c.isPruned = d.isPruned := by
  rw [Bool.eq_iff_iff, isPruned_iff, isPruned_iff]
  simp only [h]

theorem Alike.refl (c : CCoins) : c.Alike c := ⟨fun _ => rfl, fun _ => rfl, fun _ => .inl rfl⟩

theorem Alike.isPruned (h : c.Alike d) : c.isPruned = d.isPruned := isPruned_congr h.output

theorem Alike.same (h : c.Alike d) (hversion : d.isPruned = false → 0 ≤ d.nVersion) : c.Same d := by
  refine ⟨h.output, fun hp => ?_⟩
  rcases h.version hp with heq | hneg
  · rw [h.metadata hp, heq]
    rfl
  · exact absurd (hversion (h.isPruned ▸ hp)) (Int32.not_le.mpr hneg)

theorem Alike.same_withVersion (h : c.Alike d) : { c with nVersion := d.nVersion }.Same d := by
  refine ⟨h.output, fun hp => ?_⟩
  have hmeta := h.metadata hp
  simp only [CCoins.metadata, CCoins.mk.injEq] at hmeta ⊢
  obtain ⟨hcb, hcs, -, hheight, -, htime⟩ := hmeta
  exact ⟨hcb, hcs, trivial, hheight, trivial, htime⟩

variable {o : CTxOut}

theorem isPruned_of_output {n : ℕ} (h : c.output n = some o) : c.isPruned = false := by
  by_contra hpruned
  rw [Bool.not_eq_false, isPruned_iff] at hpruned
  rw [hpruned n] at h
  cases h

@[simp] theorem metadata_cleanup (c : CCoins) : c.cleanup.metadata = c.metadata := rfl

theorem isPruned_cleanup (c : CCoins) : c.cleanup.isPruned = c.isPruned :=
  isPruned_congr (output_cleanup c)

theorem Alike.cleanup_left (h : c.Alike d) : c.cleanup.Alike d where
  output n := (output_cleanup c n).trans (h.output n)
  metadata hp := h.metadata (isPruned_cleanup c ▸ hp)
  version hp := h.version (isPruned_cleanup c ▸ hp)

/-- A trimmed entry is no longer than any entry with the same outputs. -/
theorem Tidy.length_le (hc : c.Tidy) (h : ∀ n, c.output n = d.output n) :
    c.vout.length ≤ d.vout.length := by
  by_cases hne : c.vout = []
  · simp [hne]
  have hlast : ¬ (c.vout.getLast hne).isNull = true :=
    List.rdropWhile_eq_self_iff.mp (congrArg CCoins.vout hc.trimmed) hne
  have hout : c.output (c.vout.length - 1) = some (c.vout.getLast hne) := by
    rw [output_eq_some, ← List.getLast?_eq_getElem?, List.getLast?_eq_some_getLast hne]
    exact ⟨rfl, by simpa using hlast⟩
  rw [h, output_eq_some] at hout
  have := (List.getElem?_eq_some_iff.mp hout.1).1
  omega

theorem Tidy.getElem?_eq (hc : c.Tidy) (hd : d.Tidy) (h : ∀ n, c.output n = d.output n)
    (hlen : c.vout.length = d.vout.length) (n : ℕ) : c.vout[n]? = d.vout[n]? := by
  by_cases hn : n < c.vout.length
  · have hnd : n < d.vout.length := hlen ▸ hn
    rw [List.getElem?_eq_getElem hn, List.getElem?_eq_getElem hnd]
    by_cases hnull : (c.vout[n]).isNull = true
    · have hnone : d.output n = none := by
        rw [← h, output, List.getElem?_eq_getElem hn]
        simp [Option.filter, hnull]
      have hnulld : (d.vout[n]).isNull = true := by
        by_contra hd'
        rw [output, List.getElem?_eq_getElem hnd] at hnone
        simp [Option.filter, hd'] at hnone
      rw [hc.null _ (List.getElem_mem hn) hnull, hd.null _ (List.getElem_mem hnd) hnulld]
    · have hsome : c.output n = some c.vout[n] :=
        output_eq_some.mpr ⟨List.getElem?_eq_getElem hn, by simpa using hnull⟩
      rw [h, output_eq_some, List.getElem?_eq_getElem hnd] at hsome
      exact hsome.1.symm
  · rw [List.getElem?_eq_none (by omega), List.getElem?_eq_none (by omega)]

/-- Tidy entries that show the same are equal in the sense of `operator==`. -/
theorem Same.eqv (h : c.Same d) (hc : c.Tidy) (hd : d.Tidy) : c.eqv d = true := by
  unfold CCoins.eqv
  by_cases hpruned : c.isPruned
  · simp [hpruned, ← isPruned_congr h.output]
  · have hlen : c.vout.length = d.vout.length :=
      le_antisymm (hc.length_le h.output) (hd.length_le fun n => (h.output n).symm)
    have hvout : c.vout = d.vout :=
      List.ext_getElem? fun n => hc.getElem?_eq hd h.output hlen n
    have hmeta := h.metadata (by simpa using hpruned)
    have heq : c = d := by
      cases c
      cases d
      simp_all [CCoins.metadata]
    simp [heq]

/-! ## Operations on entries -/

theorem tidy_cleanup (h : ∀ o ∈ c.vout, o.isNull = true → o = CTxOut.null) : c.cleanup.Tidy := by
  refine ⟨cleanup_cleanup c, fun o ho => h o ?_⟩
  exact (List.rdropWhile_prefix _ _).subset ho

theorem tidy_empty : ({} : CCoins).Tidy := ⟨rfl, fun o ho => by simp at ho⟩

theorem tidy_fromTx {tx : CTransaction} (h : ∀ o ∈ tx.vout, o.isNull = false) (nHeight : ℕ) :
    (fromTx tx nHeight).Tidy := by
  apply tidy_cleanup
  intro o ho hnull
  obtain ⟨o', ho', rfl⟩ := List.mem_map.mp ho
  split_ifs at hnull ⊢ with hu
  · rfl
  · rw [h o' ho'] at hnull
    cases hnull

/-- An entry that was just spent from has no spent outputs at its end. -/
theorem length_spend_eq_zero {n : ℕ} (h : c.output n = some o) :
    (c.spend n).vout.length = 0 ↔ (c.spend n).isPruned = true := by
  constructor
  · intro hlen
    simp [isPruned, List.length_eq_zero_iff.mp hlen]
  · intro hpruned
    have htrim : (c.spend n).cleanup = c.spend n := by
      rw [spend, if_pos (isAvailable_iff.mpr ⟨o, h⟩), cleanup_cleanup]
    rw [← htrim]
    simp only [cleanup, dropNulls, List.length_eq_zero_iff, List.rdropWhile_eq_nil_iff]
    simpa [isPruned] using hpruned

theorem Tidy.spend (h : c.Tidy) (n : ℕ) : (c.spend n).cleanup.Tidy := by
  apply tidy_cleanup
  intro o ho hnull
  unfold CCoins.spend at ho
  split_ifs at ho
  · rcases List.mem_or_eq_of_mem_set ((List.rdropWhile_prefix _ _).subset ho) with hmem | rfl
    · exact h.null o hmem hnull
    · rfl
  · exact h.null o ho hnull

theorem metadata_spend (c : CCoins) (n : ℕ) : (c.spend n).metadata = c.metadata := by
  rw [spend_eq_with]
  rfl

theorem output_restore_ne {n m : ℕ} (hm : m ≠ n) : (c.restore n o).output m = c.output m := by
  rw [restore, output, List.getElem?_set_ne (Ne.symm hm), output]
  by_cases hlt : m < c.vout.length
  · rw [List.getElem?_append_left hlt]
  · have hnone : c.vout[m]? = none := List.getElem?_eq_none (by omega)
    rw [List.getElem?_append_right (by omega), hnone, Option.filter_none,
      Option.filter_eq_none_iff]
    intro o' ho'
    obtain rfl := List.eq_of_mem_replicate (List.mem_of_getElem? ho')
    decide

theorem output_restore (c : CCoins) (n m : ℕ) (ho : o.isNull = false) :
    (c.restore n o).output m = if m = n then some o else c.output m := by
  have hlen : n < (c.vout ++ List.replicate (n + 1 - c.vout.length) CTxOut.null).length := by
    simp
    omega
  by_cases hm : m = n
  · subst hm
    rw [if_pos rfl, output_eq_some, restore, List.getElem?_set_self hlen]
    exact ⟨rfl, ho⟩
  · rw [if_neg hm, output_restore_ne hm]

theorem restore_null (h : c.Tidy) (n : ℕ) (ho : o.isNull = false) :
    ∀ o' ∈ (c.restore n o).vout, o'.isNull = true → o' = CTxOut.null := by
  intro o' ho' hnull
  rcases List.mem_or_eq_of_mem_set ho' with hmem | rfl
  · rcases List.mem_append.mp hmem with hmem | hmem
    · exact h.null o' hmem hnull
    · exact List.eq_of_mem_replicate hmem
  · rw [ho] at hnull
    cases hnull

end CCoins

/-! ## Views -/

namespace CoinsView

/-- The entry of a transaction, empty when there is none. -/
def coinsAt (view : CoinsView) (txid : Uint256) : CCoins := (view.accessCoins txid).getD {}

/-- The same unspent outputs with the same metadata. -/
def Same (a b : CoinsView) : Prop := ∀ txid, (a.coinsAt txid).Same (b.coinsAt txid)

/-- The same as far as undo data can tell. -/
def Alike (a b : CoinsView) : Prop := ∀ txid, (a.coinsAt txid).Alike (b.coinsAt txid)

/-- The entries of some transactions are tidy. -/
def TidyOn (view : CoinsView) (txids : Set Uint256) : Prop :=
  ∀ txid ∈ txids, (view.coinsAt txid).Tidy

variable {view : CoinsView} {txid txid' : Uint256}

theorem coinsAt_of_accessCoins {c : CCoins} (h : view.accessCoins txid = some c) :
    view.coinsAt txid = c := by
  rw [coinsAt, h, Option.getD_some]

@[simp] theorem coinsAt_modifyCoins_self (f : CCoins → CCoins) :
    (view.modifyCoins txid f).coinsAt txid = (f (view.coinsAt txid)).cleanup := by
  simp [coinsAt]

theorem coinsAt_modifyCoins_ne (h : txid' ≠ txid) (f : CCoins → CCoins) :
    (view.modifyCoins txid f).coinsAt txid' = view.coinsAt txid' := by
  rw [coinsAt, accessCoins_modifyCoins_ne h, coinsAt]

@[simp] theorem coinsAt_modifyNewCoins_self (f : CCoins → CCoins) :
    (view.modifyNewCoins txid f).coinsAt txid = (f {}).cleanup := by
  simp [coinsAt]

theorem coinsAt_modifyNewCoins_ne (h : txid' ≠ txid) (f : CCoins → CCoins) :
    (view.modifyNewCoins txid f).coinsAt txid' = view.coinsAt txid' := by
  rw [coinsAt, accessCoins_modifyNewCoins_ne h, coinsAt]

theorem Alike.modifyCoins {a b b' : CoinsView} (h : a.Alike b') {f : CCoins → CCoins}
    (hself : (f (a.coinsAt txid)).Alike (b.coinsAt txid))
    (hother : ∀ txid', txid' ≠ txid → b'.coinsAt txid' = b.coinsAt txid') :
    (a.modifyCoins txid f).Alike b := by
  intro txid'
  by_cases htx : txid' = txid
  · subst htx
    rw [coinsAt_modifyCoins_self]
    exact hself.cleanup_left
  · rw [coinsAt_modifyCoins_ne htx, ← hother txid' htx]
    exact h txid'

theorem TidyOn.modifyCoins {txids : Set Uint256} (h : view.TidyOn txids) {f : CCoins → CCoins}
    (hself : (view.coinsAt txid).Tidy → (f (view.coinsAt txid)).cleanup.Tidy) :
    (view.modifyCoins txid f).TidyOn txids := by
  intro txid' hmem
  by_cases htx : txid' = txid
  · subst htx
    rw [coinsAt_modifyCoins_self]
    exact hself (h txid' hmem)
  · rw [coinsAt_modifyCoins_ne htx]
    exact h txid' hmem

end CoinsView

theorem storedVersion_alike (nVersion : Int32) : storedVersion nVersion = nVersion ∨ nVersion < 0 := by
  unfold storedVersion
  split_ifs with hneg
  · exact .inr hneg
  · exact .inl rfl

variable {c : CCoins} {o : CTxOut}

/-- The entry that an undo record is applied to has everything back but the output itself. -/
theorem CTxInUndo.entry_ofSpent {c e : CCoins} {n : ℕ} (ho : c.output n = some o)
    (hheight : c.nHeight ≠ 0) (he : e.Alike (c.spend n)) :
    let undo := (CTxInUndo.ofSpent o (c.spend n)).stored
    (if undo.nHeight ≠ 0 then e.isPruned else !e.isPruned) = true ∧
      (undo.entry e).metadata = { c.metadata with nVersion := (undo.entry e).nVersion } ∧
      ((undo.entry e).nVersion = c.nVersion ∨ c.nVersion < 0) ∧
      (∀ m, (undo.entry e).output m = (c.spend n).output m) ∧ (e.Tidy → (undo.entry e).Tidy) := by
  have hmeta := CCoins.metadata_spend c n
  by_cases hpruned : (c.spend n).isPruned = true
  · have hundo : (CTxInUndo.ofSpent o (c.spend n)).stored =
        ⟨o, c.fCoinBase, c.fCoinStake, c.nHeight, storedVersion c.nVersion, c.nTime⟩ := by
      rw [ofSpent, if_pos ((CCoins.length_spend_eq_zero ho).mpr hpruned), CCoins.spend_eq_with]
      rfl
    simp only [hundo, entry, ne_eq, hheight, not_false_eq_true, if_true]
    refine ⟨he.isPruned.trans hpruned, rfl, storedVersion_alike _, fun m => ?_,
      fun _ => ⟨rfl, fun o ho => by simp at ho⟩⟩
    rw [CCoins.isPruned_iff.mp hpruned m]
    simp [CCoins.output]
  · have hundo : (CTxInUndo.ofSpent o (c.spend n)).stored = { txout := o } := by
      rw [ofSpent, if_neg fun h => hpruned ((CCoins.length_spend_eq_zero ho).mp h)]
      rfl
    have hfalse : e.isPruned = false := he.isPruned.trans (by simpa using hpruned)
    have hversion : (c.spend n).nVersion = c.nVersion := by
      rw [CCoins.spend_eq_with]
    simp only [hundo, entry, ne_eq, not_true_eq_false, if_false, hfalse, Bool.not_false]
    exact ⟨trivial, hmeta ▸ he.metadata hfalse, hversion ▸ he.version hfalse, he.output, id⟩

theorem CCoins.alike_restore {c e : CCoins} {n : ℕ} (ho : c.output n = some o)
    (hmeta : e.metadata = { c.metadata with nVersion := e.nVersion })
    (hversion : e.nVersion = c.nVersion ∨ c.nVersion < 0)
    (hout : ∀ m, e.output m = (c.spend n).output m) : (e.restore n o).Alike c := by
  refine ⟨fun m => ?_, fun _ => hmeta, fun _ => hversion⟩
  rw [output_restore e n m (output_eq_some.mp ho).2, hout, output_spend]
  by_cases hm : m = n
  · rw [if_pos hm, hm, ho]
  · rw [if_neg hm, if_neg hm]

/-! ## One input -/

/-- A height that undo data can keep and that is not the mark for missing metadata. -/
structure CCoins.Undoable (c : CCoins) : Prop where
  height_pos : 1 ≤ c.nHeight
  height_lt : c.nHeight < 2 ^ 28

/-- Every entry with unspent outputs has such a height. -/
def CoinsView.Undoable (view : CoinsView) : Prop :=
  ∀ txid, (view.coinsAt txid).isPruned = false → (view.coinsAt txid).Undoable

theorem CCoins.Undoable.spend (h : c.Undoable) (n : ℕ) : (c.spend n).Undoable := by
  have hheight : (c.spend n).nHeight = c.nHeight := by rw [spend_eq_with]
  exact ⟨hheight ▸ h.height_pos, hheight ▸ h.height_lt⟩

theorem CCoins.Undoable.cleanup (h : c.Undoable) : c.cleanup.Undoable :=
  ⟨h.height_pos, h.height_lt⟩

theorem CTxInUndo.storable_ofSpent (h : c.Undoable)
    (ho : (CTxInUndo.ofSpent o c).txout.Compressible) : (CTxInUndo.ofSpent o c).Storable := by
  rw [txout_ofSpent] at ho
  have := h.height_pos
  have := h.height_lt
  unfold ofSpent
  split_ifs
  · exact ⟨by simp only; omega, fun h0 => by simp only at h0; omega, ho⟩
  · exact ⟨by norm_num, fun _ => rfl, ho⟩

theorem spendInput_undoable {view view' : CoinsView} {txin : CTxIn} {undo : CTxInUndo}
    (h : spendInput view txin = some (view', undo)) (hview : view.Undoable) :
    view'.Undoable ∧ (undo.txout.Compressible → undo.Storable) := by
  obtain ⟨c, o, hc, ho, rfl, rfl⟩ := spendInput_eq_some h
  have hc' := CoinsView.coinsAt_of_accessCoins hc
  have hcu : c.Undoable := hc' ▸ hview _ (hc' ▸ CCoins.isPruned_of_output ho)
  refine ⟨fun txid hp => ?_, CTxInUndo.storable_ofSpent (hcu.spend _)⟩
  by_cases htx : txid = txin.prevout.hash
  · subst htx
    rw [CoinsView.coinsAt_modifyCoins_self]
    exact (hcu.spend _).cleanup
  · rw [CoinsView.coinsAt_modifyCoins_ne htx] at hp ⊢
    exact hview txid hp

/-- Applying what disk keeps of an undo record inverts spending the input it was made for. -/
theorem applyTxInUndo_spendInput {view view' other : CoinsView} {txin : CTxIn} {undo : CTxInUndo}
    {txids : Set Uint256} (h : spendInput view txin = some (view', undo))
    (hview : view.Undoable) (halike : other.Alike view') (htidy : other.TidyOn txids) :
    (applyTxInUndo undo.stored txin.prevout other).2 = true ∧
      (applyTxInUndo undo.stored txin.prevout other).1.Alike view ∧
      (applyTxInUndo undo.stored txin.prevout other).1.TidyOn txids := by
  obtain ⟨c, o, hc, ho, rfl, rfl⟩ := spendInput_eq_some h
  have hc' := CoinsView.coinsAt_of_accessCoins hc
  have hcu : c.Undoable := hc' ▸ hview _ (hc' ▸ CCoins.isPruned_of_output ho)
  have hnull : o.isNull = false := (CCoins.output_eq_some.mp ho).2
  have he : (other.coinsAt txin.prevout.hash).Alike (c.spend txin.prevout.n.toNat) := by
    have := halike txin.prevout.hash
    rw [CoinsView.coinsAt_modifyCoins_self] at this
    exact ⟨fun n => (this.output n).trans (CCoins.output_cleanup _ n), this.metadata, this.version⟩
  obtain ⟨hclean, hmeta, hversion, hout, htidy'⟩ :=
    CTxInUndo.entry_ofSpent ho (Nat.one_le_iff_ne_zero.mp hcu.height_pos) he
  have htxout : (CTxInUndo.ofSpent o (c.spend txin.prevout.n.toNat)).stored.txout = o :=
    CTxInUndo.txout_ofSpent o _
  have havail : (CTxInUndo.entry (CTxInUndo.ofSpent o (c.spend txin.prevout.n.toNat)).stored
      (other.coinsAt txin.prevout.hash)).isAvailable txin.prevout.n.toNat = false := by
    rw [← Bool.not_eq_true, CCoins.isAvailable_iff, hout, CCoins.output_spend, if_pos rfl]
    simp
  refine ⟨?_, ?_, ?_⟩
  · show (_ && !_) = true
    rw [Bool.and_eq_true]
    exact ⟨hclean, congrArg Bool.not havail⟩
  · refine CoinsView.Alike.modifyCoins halike ?_ fun txid' htx =>
      CoinsView.coinsAt_modifyCoins_ne htx _
    rw [hc', htxout]
    exact CCoins.alike_restore ho hmeta hversion hout
  · refine CoinsView.TidyOn.modifyCoins htidy fun ht => CCoins.tidy_cleanup ?_
    rw [htxout]
    exact CCoins.restore_null (htidy' ht) _ hnull

/-! ## One transaction -/

theorem restoreInputs_spendInputs {view view' other : CoinsView} {vin : List CTxIn}
    {undos : CTxUndo} {txids : Set Uint256} (h : spendInputs view vin = some (view', undos))
    (hview : view.Undoable) (halike : other.Alike view') (htidy : other.TidyOn txids) :
    ∃ restored, restoreInputs (vin.zip (undos.map CTxInUndo.stored)) (other, true) =
      (restored, true) ∧ restored.Alike view ∧ restored.TidyOn txids := by
  induction vin generalizing view undos with
  | nil =>
    obtain ⟨rfl, rfl⟩ : view = view' ∧ [] = undos := by simpa [spendInputs] using h
    exact ⟨other, rfl, halike, htidy⟩
  | cons txin vin ih =>
    obtain ⟨view₁, undo, undos₁, h₁, h₂, rfl⟩ := spendInputs_cons_eq_some.mp h
    obtain ⟨restored, hrest, halike₁, htidy₁⟩ := ih h₂ (spendInput_undoable h₁ hview).1
    obtain ⟨hclean, halike₂, htidy₂⟩ := applyTxInUndo_spendInput h₁ hview halike₁ htidy₁
    refine ⟨_, ?_, halike₂, htidy₂⟩
    simp only [List.map_cons, List.zip_cons_cons, restoreInputs, hrest, hclean, Bool.and_self]

theorem spendInputs_undoable {view view' : CoinsView} {vin : List CTxIn} {undos : CTxUndo}
    (h : spendInputs view vin = some (view', undos)) (hview : view.Undoable) :
    view'.Undoable ∧ (∀ undo ∈ undos, undo.txout.Compressible → undo.Storable) ∧
      undos.length = vin.length := by
  induction vin generalizing view undos with
  | nil =>
    obtain ⟨rfl, rfl⟩ : view = view' ∧ [] = undos := by simpa [spendInputs] using h
    exact ⟨hview, by simp, rfl⟩
  | cons txin vin ih =>
    obtain ⟨view₁, undo, undos₁, h₁, h₂, rfl⟩ := spendInputs_cons_eq_some.mp h
    obtain ⟨hview₁, hundo⟩ := spendInput_undoable h₁ hview
    obtain ⟨hview', hundos, hlen⟩ := ih h₂ hview₁
    refine ⟨hview', List.forall_mem_cons.mpr ⟨hundo, hundos⟩, ?_⟩
    rw [List.length_cons, List.length_cons, hlen]

theorem CCoins.isPruned_clearUnspendable (h : c.isPruned = true) :
    c.clearUnspendable.isPruned = true := by
  rw [clearUnspendable, isPruned_cleanup]
  simp only [isPruned, List.all_eq_true, List.mem_map, forall_exists_index, and_imp,
    forall_apply_eq_imp_iff₂] at h ⊢
  intro o ho
  split_ifs
  · rfl
  · exact h o ho

theorem CCoins.clearUnspendable_fromTx (tx : CTransaction) (nHeight : ℕ) :
    (fromTx tx nHeight).clearUnspendable = fromTx tx nHeight := by
  have hmem : ∀ o ∈ (fromTx tx nHeight).vout, o.isUnspendable = false := by
    intro o ho
    obtain ⟨o', -, rfl⟩ := List.mem_map.mp ((List.rdropWhile_prefix _ _).subset ho)
    split_ifs with hu
    · decide
    · simpa using hu
  have hmap : (fromTx tx nHeight).vout.map (fun o => if o.isUnspendable then CTxOut.null else o) =
      (fromTx tx nHeight).vout := by
    conv_rhs => rw [← List.map_id (fromTx tx nHeight).vout]
    exact List.map_congr_left fun o ho => if_neg (by simp [hmem o ho])
  rw [clearUnspendable, hmap]
  show (fromTx tx nHeight).cleanup = fromTx tx nHeight
  exact cleanup_cleanup _

/-- No output of the transaction looks spent. -/
def CTransaction.NotNull (tx : CTransaction) : Prop := ∀ o ∈ tx.vout, o.isNull = false

/-- Outputs that show what a transaction adds compare equal to them. -/
theorem CCoins.Same.eqv_clearUnspendable {tx : CTransaction} {nHeight : ℕ}
    (h : c.Same (fromTx tx nHeight)) (hc : c.Tidy) (htx : tx.NotNull) :
    c.clearUnspendable.eqv (fromTx tx nHeight) = true := by
  have heqv := h.eqv hc (tidy_fromTx htx nHeight)
  simp only [CCoins.eqv, Bool.or_eq_true, Bool.and_eq_true, decide_eq_true_eq] at heqv ⊢
  rcases heqv with ⟨h₁, h₂⟩ | heq
  · exact .inl ⟨isPruned_clearUnspendable h₁, h₂⟩
  · rw [heq, clearUnspendable_fromTx]
    exact .inr rfl

section

variable {crypto : Crypto} {tx : CTransaction} {nHeight : ℕ} {view view' other : CoinsView}
  {txids : Set Uint256}

/-- Removing the outputs of a transaction inverts adding them. -/
theorem removeOutputs_modifyNewCoins (htx : tx.NotNull)
    (hpruned : (view.coinsAt (tx.getHash crypto)).isPruned = true)
    (halike : other.Alike
      (view.modifyNewCoins (tx.getHash crypto) fun _ => CCoins.fromTx tx nHeight))
    (htidy : other.TidyOn txids) (hmem : tx.getHash crypto ∈ txids) :
    ∃ removed, removeOutputs crypto nHeight tx (other, true) = (removed, true) ∧
      removed.Alike view ∧ removed.TidyOn txids := by
  have houts : (other.coinsAt (tx.getHash crypto)).Alike (CCoins.fromTx tx nHeight) := by
    have h := halike (tx.getHash crypto)
    rwa [CoinsView.coinsAt_modifyNewCoins_self, (CCoins.tidy_fromTx htx nHeight).trimmed] at h
  have htidyOuts := htidy _ hmem
  refine ⟨other.modifyCoins (tx.getHash crypto) fun _ => {}, ?_, ?_, ?_⟩
  · by_cases hversion : (CCoins.fromTx tx nHeight).nVersion < 0
    · have heqv := houts.same_withVersion.eqv_clearUnspendable
        ⟨congrArg (fun c : CCoins => { c with nVersion := (CCoins.fromTx tx nHeight).nVersion })
          htidyOuts.trimmed, htidyOuts.null⟩ htx
      simp only [removeOutputs, if_pos hversion, Bool.true_and]
      exact Prod.ext rfl heqv
    · have heqv := (houts.same fun _ => Int32.not_lt.mp hversion).eqv_clearUnspendable htidyOuts htx
      simp only [removeOutputs, if_neg hversion, Bool.true_and]
      exact Prod.ext rfl heqv
  · refine CoinsView.Alike.modifyCoins halike ⟨fun n => ?_, fun h => ?_, fun h => ?_⟩ fun txid' hne =>
      CoinsView.coinsAt_modifyNewCoins_ne hne _
    · rw [CCoins.output_empty, CCoins.isPruned_iff.mp hpruned n]
    · cases h
    · cases h
  · exact htidy.modifyCoins fun _ => CCoins.tidy_empty

variable {txundo : CTxUndo} {undos : CTxUndo}

theorem spendInputs_isPruned {vin : List CTxIn} {txid : Uint256}
    (h : spendInputs view vin = some (view', undos))
    (hpruned : (view.coinsAt txid).isPruned = true) :
    view'.coinsAt txid = view.coinsAt txid := by
  induction vin generalizing view undos with
  | nil =>
    obtain ⟨rfl, -⟩ : view = view' ∧ [] = undos := by simpa [spendInputs] using h
    rfl
  | cons txin vin ih =>
    obtain ⟨view₁, undo, undos₁, h₁, h₂, rfl⟩ := spendInputs_cons_eq_some.mp h
    have hkeep : view₁.coinsAt txid = view.coinsAt txid := by
      obtain ⟨c, o, hc, ho, rfl, -⟩ := spendInput_eq_some h₁
      apply CoinsView.coinsAt_modifyCoins_ne
      rintro rfl
      rw [CoinsView.coinsAt_of_accessCoins hc, CCoins.isPruned_of_output ho] at hpruned
      cases hpruned
    rw [ih h₂ (hkeep ▸ hpruned), hkeep]

/-- Disconnecting a transaction other than a coinbase inverts `UpdateCoins`. -/
theorem disconnect_updateCoins (htx : tx.NotNull) (hcb : tx.isCoinBase = false)
    (h : updateCoins crypto tx view nHeight = some (view', txundo)) (hview : view.Undoable)
    (hpruned : (view.coinsAt (tx.getHash crypto)).isPruned = true) (halike : other.Alike view')
    (htidy : other.TidyOn txids) (hmem : tx.getHash crypto ∈ txids) :
    ∃ restored, restoreInputs (tx.vin.zip (txundo.map CTxInUndo.stored))
        (removeOutputs crypto nHeight tx (other, true)) = (restored, true) ∧
      restored.Alike view ∧ restored.TidyOn txids := by
  obtain ⟨view₁, hspend, rfl⟩ := updateCoins_eq_some.mp h
  rw [spendTxInputs, hcb, if_neg Bool.false_ne_true] at hspend
  have hpruned₁ : (view₁.coinsAt (tx.getHash crypto)).isPruned = true := by
    rw [spendInputs_isPruned hspend hpruned]
    exact hpruned
  obtain ⟨removed, hremove, halike₁, htidy₁⟩ :=
    removeOutputs_modifyNewCoins htx hpruned₁ halike htidy hmem
  rw [hremove]
  exact restoreInputs_spendInputs hspend hview halike₁ htidy₁

theorem spendTxInputs_undoable (h : spendTxInputs view tx = some (view', undos))
    (hview : view.Undoable) :
    view'.Undoable ∧ (∀ undo ∈ undos, undo.txout.Compressible → undo.Storable) ∧
      undos.length = if tx.isCoinBase then 0 else tx.vin.length := by
  unfold spendTxInputs at h
  split_ifs at h with hcb
  · obtain ⟨rfl, rfl⟩ : view = view' ∧ [] = undos := by simpa using h
    exact ⟨hview, by simp, by simp [hcb]⟩
  · obtain ⟨hview', hundos, hlen⟩ := spendInputs_undoable h hview
    exact ⟨hview', hundos, by rw [hlen, if_neg hcb]⟩

theorem updateCoins_undoable (hpos : 1 ≤ nHeight) (hlt : nHeight < 2 ^ 28)
    (h : updateCoins crypto tx view nHeight = some (view', txundo)) (hview : view.Undoable) :
    view'.Undoable ∧ (∀ undo ∈ txundo, undo.txout.Compressible → undo.Storable) ∧
      txundo.length = if tx.isCoinBase then 0 else tx.vin.length := by
  obtain ⟨view₁, hspend, rfl⟩ := updateCoins_eq_some.mp h
  obtain ⟨hview₁, hrest⟩ := spendTxInputs_undoable hspend hview
  refine ⟨fun txid hp => ?_, hrest⟩
  by_cases heq : txid = tx.getHash crypto
  · subst heq
    rw [CoinsView.coinsAt_modifyNewCoins_self]
    exact ⟨hpos, hlt⟩
  · rw [CoinsView.coinsAt_modifyNewCoins_ne heq] at hp ⊢
    exact hview₁ txid hp

/-- `UpdateCoins` touches no entry without unspent outputs but that of the transaction itself. -/
theorem updateCoins_coinsAt {txid : Uint256}
    (h : updateCoins crypto tx view nHeight = some (view', txundo)) (hne : txid ≠ tx.getHash crypto)
    (hpruned : (view.coinsAt txid).isPruned = true) : view'.coinsAt txid = view.coinsAt txid := by
  obtain ⟨view₁, hspend, rfl⟩ := updateCoins_eq_some.mp h
  rw [CoinsView.coinsAt_modifyNewCoins_ne hne]
  unfold spendTxInputs at hspend
  split_ifs at hspend
  · obtain ⟨rfl, -⟩ : view = view₁ ∧ [] = txundo := by simpa using hspend
    rfl
  · exact spendInputs_isPruned hspend hpruned

theorem spendInputs_tidyOn {vin : List CTxIn} (h : spendInputs view vin = some (view', undos))
    (hview : view.TidyOn txids) : view'.TidyOn txids := by
  induction vin generalizing view undos with
  | nil =>
    obtain ⟨rfl, -⟩ : view = view' ∧ [] = undos := by simpa [spendInputs] using h
    exact hview
  | cons txin vin ih =>
    obtain ⟨view₁, undo, undos₁, h₁, h₂, rfl⟩ := spendInputs_cons_eq_some.mp h
    obtain ⟨c, o, hc, -, rfl, -⟩ := spendInput_eq_some h₁
    refine ih h₂ (hview.modifyCoins fun ht => ?_)
    rw [CoinsView.coinsAt_of_accessCoins hc] at ht
    exact ht.spend _

theorem updateCoins_tidyOn (htx : tx.NotNull)
    (h : updateCoins crypto tx view nHeight = some (view', txundo)) (hview : view.TidyOn txids) :
    view'.TidyOn txids := by
  obtain ⟨view₁, hspend, rfl⟩ := updateCoins_eq_some.mp h
  have hview₁ : view₁.TidyOn txids := by
    unfold spendTxInputs at hspend
    split_ifs at hspend
    · obtain ⟨rfl, -⟩ : view = view₁ ∧ [] = txundo := by simpa using hspend
      exact hview
    · exact spendInputs_tidyOn hspend hview
  intro txid hmem
  by_cases heq : txid = tx.getHash crypto
  · subst heq
    have htidy := CCoins.tidy_fromTx htx nHeight
    rw [CoinsView.coinsAt_modifyNewCoins_self, htidy.trimmed]
    exact htidy
  · rw [CoinsView.coinsAt_modifyNewCoins_ne heq]
    exact hview₁ txid hmem

end

end X2XCoin
