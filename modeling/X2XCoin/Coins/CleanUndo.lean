import X2XCoin.Coins.UndoInverse

/-!
# Blocks disconnected cleanly

What `DisconnectBlock` does to a view, whatever the view and the undo data are, when it finds nothing
wrong.
-/

open ByteCodec

namespace X2XCoin

/-! ## Entries and views -/

namespace CCoins

/-- Every unspent output of `c` is one of `d`, with the metadata it has in `c`. -/
def Kept (c d : CCoins) : Prop :=
  ∀ n o, c.output n = some o → d.output n = some o ∧ d.metadata = c.metadata

variable {c d e : CCoins}

theorem Kept.refl (c : CCoins) : c.Kept c := fun _ _ h => ⟨h, rfl⟩

theorem Kept.trans (h : c.Kept d) (h' : d.Kept e) : c.Kept e := by
  intro n o ho
  obtain ⟨hd, hmeta⟩ := h n o ho
  obtain ⟨he, hmeta'⟩ := h' n o hd
  exact ⟨he, hmeta'.trans hmeta⟩

theorem fCoinBase_eq_of_metadata (h : c.metadata = d.metadata) : c.fCoinBase = d.fCoinBase := by
  show c.metadata.fCoinBase = d.metadata.fCoinBase
  rw [h]

theorem output_restore_eq_some {n m : ℕ} {o o' : CTxOut} (h : (c.restore n o).output m = some o') :
    o' = o ∨ c.output m = some o' := by
  by_cases hm : m = n
  · subst hm
    have hset := (output_eq_some.mp h).1
    rw [restore, List.getElem?_set, if_pos rfl] at hset
    split_ifs at hset
    exact .inl (Option.some.inj hset).symm
  · rw [output_restore_ne hm] at h
    exact .inr h

theorem output_clearUnspendable {n : ℕ} {o : CTxOut} (h : c.output n = some o)
    (ho : o.isUnspendable = false) : c.clearUnspendable.output n = some o := by
  obtain ⟨hget, hnull⟩ := output_eq_some.mp h
  rw [clearUnspendable, output_cleanup, output_eq_some]
  refine ⟨?_, hnull⟩
  rw [List.getElem?_map, hget, Option.map_some, ho, if_neg Bool.false_ne_true]

end CCoins

/-- No unspent output of the view is one that nobody can spend. -/
def CoinsView.Spendable (view : CoinsView) : Prop :=
  ∀ txid n o, (view.coinsAt txid).output n = some o → o.isUnspendable = false

/-- The transaction spends an output of the transaction with the given id. -/
def CTransaction.Spends (tx : CTransaction) (txid : Uint256) : Prop :=
  tx.isCoinBase = false ∧ ∃ txin ∈ tx.vin, txin.prevout.hash = txid

/-- The transactions have different ids, and none spends an output of itself or of a later one. -/
def InOrder (crypto : Crypto) : List CTransaction → Prop
  | [] => True
  | tx :: vtx =>
    (∀ tx' ∈ tx :: vtx, ¬ tx.Spends (tx'.getHash crypto)) ∧
      (∀ tx' ∈ vtx, tx'.getHash crypto ≠ tx.getHash crypto) ∧ InOrder crypto vtx

/-! ## Inputs put back -/

section

variable {view view' : CoinsView}

variable {undo : CTxInUndo}

theorem applyTxInUndo_kept {out : COutPoint} (h : applyTxInUndo undo out view = (view', true))
    (txid : Uint256) : (view.coinsAt txid).Kept (view'.coinsAt txid) := by
  obtain ⟨hview, hclean⟩ := Prod.ext_iff.mp h
  simp only [applyTxInUndo, Bool.and_eq_true, Bool.not_eq_true'] at hview hclean
  subst hview
  by_cases htx : txid = out.hash
  · subst htx
    intro n o ho
    -- There is an unspent output, so the record holds no metadata and its place is another one.
    have hpruned : (view.coinsAt out.hash).isPruned = false := CCoins.isPruned_of_output ho
    have hheight : undo.nHeight = 0 := by
      by_contra hne
      rw [if_pos hne, ← CoinsView.coinsAt, hpruned] at hclean
      exact Bool.false_ne_true hclean.1
    have hentry : undo.entry (view.coinsAt out.hash) = view.coinsAt out.hash :=
      if_neg (not_not.mpr hheight)
    rw [← CoinsView.coinsAt, hentry] at hclean ⊢
    have hn : n ≠ out.n.toNat := by
      rintro rfl
      rw [CCoins.isAvailable_iff.mpr ⟨o, ho⟩] at hclean
      exact Bool.false_ne_true hclean.2.symm
    rw [CoinsView.coinsAt_modifyCoins_self, CCoins.output_cleanup, CCoins.output_restore_ne hn]
    exact ⟨ho, rfl⟩
  · rw [CoinsView.coinsAt_modifyCoins_ne htx]
    exact .refl _

theorem applyTxInUndo_coinsAt_ne {out : COutPoint} {txid : Uint256} (h : txid ≠ out.hash) :
    (applyTxInUndo undo out view).1.coinsAt txid = view.coinsAt txid :=
  CoinsView.coinsAt_modifyCoins_ne h _

theorem applyTxInUndo_spendable (out : COutPoint) (h : view.Spendable)
    (hundo : undo.txout.isUnspendable = false) : (applyTxInUndo undo out view).1.Spendable := by
  intro txid n o ho
  by_cases htx : txid = out.hash
  · subst htx
    simp only [applyTxInUndo, CoinsView.coinsAt_modifyCoins_self, CCoins.output_cleanup] at ho
    rcases CCoins.output_restore_eq_some ho with rfl | ho
    · exact hundo
    · rw [← CoinsView.coinsAt, CTxInUndo.entry] at ho
      split_ifs at ho with hheight
      · cases ho
      · exact h _ n o ho
  · rw [applyTxInUndo_coinsAt_ne htx] at ho
    exact h txid n o ho

theorem restoreInputs_clean {inputs : List (CTxIn × CTxInUndo)} {fClean : Bool}
    (h : restoreInputs inputs (view, fClean) = (view', true)) :
    fClean = true ∧ (∀ txid, (view.coinsAt txid).Kept (view'.coinsAt txid)) ∧
      (∀ txid, (∀ i ∈ inputs, i.1.prevout.hash ≠ txid) → view'.coinsAt txid = view.coinsAt txid) ∧
      (view.Spendable → (∀ i ∈ inputs, i.2.txout.isUnspendable = false) → view'.Spendable) := by
  induction inputs generalizing view' with
  | nil =>
    obtain ⟨rfl, rfl⟩ := Prod.mk.inj h
    exact ⟨rfl, fun _ => .refl _, fun _ _ => rfl, fun hview _ => hview⟩
  | cons i inputs ih =>
    obtain ⟨txin, undo⟩ := i
    cases hrest : restoreInputs inputs (view, fClean) with
    | mk view₁ fClean₁ =>
      simp only [restoreInputs, hrest, Prod.mk.injEq, Bool.and_eq_true] at h
      obtain ⟨hview, rfl, hok⟩ := h
      obtain ⟨hclean, hkept, hsame, hspend⟩ := ih hrest
      have happly : applyTxInUndo undo txin.prevout view₁ = (view', true) := Prod.ext hview hok
      refine ⟨hclean, fun txid => (hkept txid).trans (applyTxInUndo_kept happly txid),
        fun txid hne => ?_, fun hs hundos => ?_⟩
      · rw [List.forall_mem_cons] at hne
        rw [← hview, applyTxInUndo_coinsAt_ne (Ne.symm hne.1), hsame txid hne.2]
      · rw [List.forall_mem_cons] at hundos
        rw [← hview]
        exact applyTxInUndo_spendable _ (hspend hs hundos.2) hundos.1

end

/-! ## Transactions undone -/

/-- What undoing transactions of a block at the given height does to the view. -/
structure Undone (crypto : Crypto) (nHeight : ℕ) (vtx : List CTransaction) (view view' : CoinsView) :
    Prop where
  kept : ∀ txid, (∀ tx ∈ vtx, tx.getHash crypto ≠ txid) →
    (view.coinsAt txid).Kept (view'.coinsAt txid)
  removed : ∀ tx ∈ vtx, ∀ n, (view'.coinsAt (tx.getHash crypto)).output n = none
  created : ∀ tx ∈ vtx, ∀ n o, (view.coinsAt (tx.getHash crypto)).output n = some o →
    o.isUnspendable = false → (CCoins.fromTx tx nHeight).output n = some o ∧
      (view.coinsAt (tx.getHash crypto)).fCoinBase = tx.isCoinBase
  same : ∀ txid, (∀ tx ∈ vtx, tx.getHash crypto ≠ txid ∧ ¬ tx.Spends txid) →
    view'.coinsAt txid = view.coinsAt txid

section

variable {crypto : Crypto} {nHeight : ℕ} {view view' : CoinsView}

variable {tx : CTransaction}

/-- The outputs removed cleanly are those of the transaction. -/
theorem removeOutputs_clean {fClean : Bool}
    (h : removeOutputs crypto nHeight tx (view, fClean) = (view', true)) :
    fClean = true ∧ view' = (view.modifyCoins (tx.getHash crypto) fun _ => {}) ∧
      ∀ n o, (view.coinsAt (tx.getHash crypto)).output n = some o → o.isUnspendable = false →
        (CCoins.fromTx tx nHeight).output n = some o ∧
          (view.coinsAt (tx.getHash crypto)).fCoinBase = tx.isCoinBase := by
  obtain ⟨hview, hclean⟩ := Prod.ext_iff.mp h
  simp only [removeOutputs, Bool.and_eq_true] at hview hclean
  obtain ⟨hclean, heqv⟩ := hclean
  refine ⟨hclean, hview.symm, fun n o ho hspend => ?_⟩
  have hclear := CCoins.output_clearUnspendable ho hspend
  have hmatch : ∀ c : CCoins, c.vout = (view.coinsAt (tx.getHash crypto)).clearUnspendable.vout →
      c.fCoinBase = (view.coinsAt (tx.getHash crypto)).fCoinBase →
      c.eqv (CCoins.fromTx tx nHeight) = true →
      (CCoins.fromTx tx nHeight).output n = some o ∧
        (view.coinsAt (tx.getHash crypto)).fCoinBase = tx.isCoinBase := by
    intro c hvout hcb heqv
    have hc : c.output n = some o := by
      rw [CCoins.output, hvout]
      exact hclear
    simp only [CCoins.eqv, CCoins.isPruned_of_output hc, Bool.false_and, Bool.false_or,
      decide_eq_true_eq] at heqv
    rw [← heqv]
    refine ⟨hc, hcb.symm.trans ?_⟩
    rw [heqv]
    rfl
  by_cases hversion : (CCoins.fromTx tx nHeight).nVersion < 0
  · rw [if_pos hversion] at heqv
    refine hmatch _ ?_ ?_ heqv <;> rfl
  · rw [if_neg hversion] at heqv
    refine hmatch _ ?_ ?_ heqv <;> rfl

theorem coinsAt_removeOutputs_ne {fClean : Bool} {txid : Uint256} (h : tx.getHash crypto ≠ txid) :
    (removeOutputs crypto nHeight tx (view, fClean)).1.coinsAt txid = view.coinsAt txid :=
  CoinsView.coinsAt_modifyCoins_ne (Ne.symm h) _

theorem spendable_removeOutputs {fClean fClean' : Bool}
    (hremove : removeOutputs crypto nHeight tx (view, fClean) = (view', fClean'))
    (h : view.Spendable) : view'.Spendable := by
  obtain rfl : (removeOutputs crypto nHeight tx (view, fClean)).1 = view' := by rw [hremove]
  intro txid n o ho
  by_cases htx : tx.getHash crypto = txid
  · subst htx
    simp [removeOutputs] at ho
  · rw [coinsAt_removeOutputs_ne htx] at ho
    exact h txid n o ho

/-- One more transaction undone before those after it: its outputs go, its inputs come back. -/
theorem Undone.cons {vtx : List CTransaction} {view₁ : CoinsView}
    (h : Undone crypto nHeight vtx view view₁)
    (hnew : ∀ tx' ∈ vtx, tx'.getHash crypto ≠ tx.getHash crypto)
    (hkept : ∀ txid, tx.getHash crypto ≠ txid → (view₁.coinsAt txid).Kept (view'.coinsAt txid))
    (hgone : ∀ tx' ∈ tx :: vtx, ∀ n, (view₁.coinsAt (tx'.getHash crypto)).output n = none ∨ tx' = tx →
      (view'.coinsAt (tx'.getHash crypto)).output n = none)
    (hcreated : ∀ n o, (view₁.coinsAt (tx.getHash crypto)).output n = some o →
      o.isUnspendable = false → (CCoins.fromTx tx nHeight).output n = some o ∧
        (view₁.coinsAt (tx.getHash crypto)).fCoinBase = tx.isCoinBase)
    (hsame : ∀ txid, tx.getHash crypto ≠ txid → ¬ tx.Spends txid →
      view'.coinsAt txid = view₁.coinsAt txid) :
    Undone crypto nHeight (tx :: vtx) view view' := by
  refine ⟨fun txid hne => ?_, fun tx' htx' n => ?_, fun tx' htx' n o ho hspend => ?_,
    fun txid hno => ?_⟩
  · rw [List.forall_mem_cons] at hne
    exact (h.kept txid hne.2).trans (hkept txid hne.1)
  · rcases List.mem_cons.mp htx' with rfl | hmem
    · exact hgone tx' List.mem_cons_self n (.inr rfl)
    · exact hgone tx' htx' n (.inl (h.removed tx' hmem n))
  · rcases List.mem_cons.mp htx' with rfl | hmem
    · obtain ⟨hout, hmeta⟩ := h.kept _ hnew n o ho
      rw [← CCoins.fCoinBase_eq_of_metadata hmeta]
      exact hcreated n o hout hspend
    · exact h.created tx' hmem n o ho hspend
  · rw [List.forall_mem_cons] at hno
    rw [hsame txid hno.1.1 hno.1.2, h.same txid hno.2]

theorem disconnectTxs_clean {txs : List (CTransaction × CTxUndo)}
    (h : disconnectTxs crypto nHeight txs (view, true) = some (view', true))
    (horder : InOrder crypto (txs.map Prod.fst))
    (hcb : ∀ tx ∈ txs.map Prod.fst, tx.isCoinBase = false) :
    Undone crypto nHeight (txs.map Prod.fst) view view' ∧
      (view.Spendable → (∀ t ∈ txs, ∀ undo ∈ t.2, undo.txout.isUnspendable = false) →
        view'.Spendable) := by
  induction txs generalizing view' with
  | nil =>
    obtain ⟨rfl, -⟩ := Prod.mk.inj (Option.some.inj h)
    exact ⟨⟨fun _ _ => .refl _, by simp, by simp, fun _ _ => rfl⟩, fun hs _ => hs⟩
  | cons t txs ih =>
    obtain ⟨tx, txundo⟩ := t
    simp only [disconnectTxs, Option.bind_eq_bind, Option.bind_eq_some_iff] at h
    obtain ⟨⟨view₁, fClean₁⟩, h₁, h⟩ := h
    split_ifs at h with hlen
    have h := Option.some.inj h
    cases hremove : removeOutputs crypto nHeight tx (view₁, fClean₁) with
    | mk view₂ fClean₂ =>
      rw [hremove] at h
      obtain ⟨rfl, hkept, hsame, hspend⟩ := restoreInputs_clean h
      obtain ⟨rfl, hview₂, hcreated⟩ := removeOutputs_clean hremove
      simp only [List.map_cons, InOrder, List.forall_mem_cons] at horder hcb
      obtain ⟨⟨hself, hlater⟩, hids, horder⟩ := horder
      obtain ⟨hundone, hspend₁⟩ := ih h₁ horder hcb.2
      have hinputs : ∀ txid, ¬ tx.Spends txid →
          ∀ i ∈ tx.vin.zip txundo, i.1.prevout.hash ≠ txid := fun txid hno i hi heq =>
        hno ⟨hcb.1, i.1, (List.of_mem_zip hi).1, heq⟩
      refine ⟨hundone.cons hids (fun txid hne => ?_) (fun tx' htx' n hn => ?_) hcreated
        (fun txid hne hno => ?_), fun hs hundos => ?_⟩
      · have hrest := hkept txid
        rwa [hview₂, CoinsView.coinsAt_modifyCoins_ne (Ne.symm hne)] at hrest
      · have hno : ¬ tx.Spends (tx'.getHash crypto) := by
          rcases List.mem_cons.mp htx' with rfl | hmem
          · exact hself
          · exact hlater tx' hmem
        rw [hsame _ (hinputs _ hno), hview₂]
        by_cases heq : tx'.getHash crypto = tx.getHash crypto
        · rw [heq, CoinsView.coinsAt_modifyCoins_self, CCoins.output_cleanup, CCoins.output_empty]
        · rw [CoinsView.coinsAt_modifyCoins_ne heq]
          exact hn.resolve_right fun h => heq (h ▸ rfl)
      · rw [hsame _ (hinputs _ hno), hview₂, CoinsView.coinsAt_modifyCoins_ne (Ne.symm hne)]
      · rw [List.forall_mem_cons] at hundos
        exact hspend (spendable_removeOutputs hremove (hspend₁ hs hundos.2)) fun i hi =>
          hundos.1 _ (List.of_mem_zip hi).2

/-- The undo records stored for a block hold outputs that can be spent. -/
def SpendableUndo (crypto : Crypto) (keys : PubKeys) (pprev : CBlockIndex) (undoData : Bytes) : Prop :=
  ∀ blockUndo rest, (undoReadFromDisk crypto keys pprev.hash).run undoData = some (blockUndo, rest) →
    ∀ txundo ∈ blockUndo, ∀ undo ∈ txundo, undo.txout.isUnspendable = false

theorem disconnectBlock_clean {keys : PubKeys} {block : CBlock} {pprev pindex : CBlockIndex}
    {undoData : Bytes}
    (h : disconnectBlock crypto keys block pprev pindex undoData view = some (view', true))
    (horder : InOrder crypto block.vtx) (hcb : ∀ tx ∈ block.vtx.tail, tx.isCoinBase = false) :
    Undone crypto pindex.nHeight block.vtx view view' ∧
      (view.Spendable → SpendableUndo crypto keys pprev undoData → view'.Spendable) := by
  unfold disconnectBlock at h
  split_ifs at h with hbest
  simp only [Option.bind_eq_bind, Option.bind_eq_some_iff] at h
  obtain ⟨⟨blockUndo, rest⟩, hread, h⟩ := h
  cases hvtx : block.vtx with
  | nil => simp [hvtx] at h
  | cons coinBase vtx =>
    rw [hvtx] at h horder hcb
    simp only [ne_eq, ite_not] at h
    split_ifs at h with hlen
    obtain ⟨⟨view₁, fClean₁⟩, h₁, h⟩ := Option.bind_eq_some_iff.mp h
    cases hremove : removeOutputs crypto pindex.nHeight coinBase (view₁, fClean₁) with
    | mk view₂ fClean₂ =>
      rw [hremove] at h
      obtain ⟨hview, rfl⟩ := Prod.mk.inj (Option.some.inj h)
      obtain ⟨rfl, hview₂, hcreated⟩ := removeOutputs_clean hremove
      have hfst : (vtx.zip blockUndo).map Prod.fst = vtx := List.map_fst_zip (by omega)
      obtain ⟨⟨-, -⟩, hids, horder⟩ := And.imp_left List.forall_mem_cons.mp horder
      obtain ⟨hundone, hspend⟩ := disconnectTxs_clean h₁ (hfst.symm ▸ horder) (hfst.symm ▸ hcb)
      rw [hfst] at hundone
      have hcoins : ∀ txid, view'.coinsAt txid = view₂.coinsAt txid := fun txid => by
        rw [← hview]
        rfl
      refine ⟨hundone.cons hids (fun txid hne => ?_) (fun tx' htx' n hn => ?_) hcreated
        (fun txid hne _ => ?_), fun hs hundos => ?_⟩
      · rw [hcoins, hview₂, CoinsView.coinsAt_modifyCoins_ne (Ne.symm hne)]
        exact .refl _
      · rw [hcoins, hview₂]
        by_cases heq : tx'.getHash crypto = coinBase.getHash crypto
        · rw [heq, CoinsView.coinsAt_modifyCoins_self, CCoins.output_cleanup, CCoins.output_empty]
        · rw [CoinsView.coinsAt_modifyCoins_ne heq]
          exact hn.resolve_right fun h => heq (h ▸ rfl)
      · rw [hcoins, hview₂, CoinsView.coinsAt_modifyCoins_ne (Ne.symm hne)]
      · have hs₂ := spendable_removeOutputs hremove
          (hspend hs fun t ht undo hundo => hundos _ _ hread _ (List.of_mem_zip ht).2 undo hundo)
        intro txid n o ho
        rw [hcoins] at ho
        exact hs₂ txid n o ho

end

end X2XCoin
