import X2XCoin.Coins.UndoInverse
import X2XCoin.Validation.ActiveChain

/-!
# Disconnecting a connected block

The transactions of an accepted block have different ids, since a second copy would find its first
input spent, and the block is small enough for the size prefixes of the undo data.
-/

open ByteCodec

namespace X2XCoin

/-- `UpdateCoins` on transactions in order. -/
def updateAll (crypto : Crypto) (nHeight : ℕ) :
    CoinsView → List CTransaction → Option (CoinsView × List CTxUndo)
  | view, [] => some (view, [])
  | view, tx :: vtx => do
    let (view, txundo) ← updateCoins crypto tx view nHeight
    let (view, txundos) ← updateAll crypto nHeight view vtx
    some (view, txundo :: txundos)

variable {crypto : Crypto} {nHeight : ℕ} {view view' : CoinsView} {tx : CTransaction}
  {vtx : List CTransaction} {txundos : List CTxUndo}

theorem updateAll_cons_eq_some :
    updateAll crypto nHeight view (tx :: vtx) = some (view', txundos) ↔
      ∃ view₁ txundo txundos₁, updateCoins crypto tx view nHeight = some (view₁, txundo) ∧
        updateAll crypto nHeight view₁ vtx = some (view', txundos₁) ∧
        txundos = txundo :: txundos₁ := by
  simp only [updateAll, Option.bind_eq_bind, Option.bind_eq_some_iff, Prod.exists,
    Option.some.injEq, Prod.mk.injEq]
  constructor
  · rintro ⟨view₁, txundo, h₁, view₂, txundos₁, h₂, rfl, rfl⟩
    exact ⟨view₁, txundo, txundos₁, h₁, h₂, rfl⟩
  · rintro ⟨view₁, txundo, txundos₁, h₁, h₂, rfl⟩
    exact ⟨view₁, txundo, h₁, view', txundos₁, h₂, rfl, rfl⟩

/-! ## Different ids -/

variable {txids : Set Uint256} {txid : Uint256} {n : ℕ} {other : CoinsView} {fScriptChecks : Bool}
  {block : CBlock}

theorem spendInput_output_none {txin : CTxIn} {undo : CTxInUndo}
    (h : spendInput view txin = some (view', undo)) (hnone : (view.coinsAt txid).output n = none) :
    (view'.coinsAt txid).output n = none ∧
      ¬ (txin.prevout.hash = txid ∧ txin.prevout.n.toNat = n) := by
  obtain ⟨c, o, hc, ho, rfl, -⟩ := spendInput_eq_some h
  have hc' := CoinsView.coinsAt_of_accessCoins hc
  constructor
  · by_cases htx : txid = txin.prevout.hash
    · subst htx
      rw [CoinsView.coinsAt_modifyCoins_self, CCoins.output_cleanup, CCoins.output_spend, ← hc',
        hnone, ite_self]
    · rw [CoinsView.coinsAt_modifyCoins_ne htx, hnone]
  · rintro ⟨rfl, rfl⟩
    rw [hc', ho] at hnone
    cases hnone

theorem spendInputs_output_none {vin : List CTxIn} {undos : CTxUndo}
    (h : spendInputs view vin = some (view', undos)) (hnone : (view.coinsAt txid).output n = none) :
    (view'.coinsAt txid).output n = none ∧
      ∀ txin ∈ vin, ¬ (txin.prevout.hash = txid ∧ txin.prevout.n.toNat = n) := by
  induction vin generalizing view undos with
  | nil =>
    obtain ⟨rfl, -⟩ : view = view' ∧ [] = undos := by simpa [spendInputs] using h
    exact ⟨hnone, by simp⟩
  | cons txin vin ih =>
    obtain ⟨view₁, undo, undos₁, h₁, h₂, rfl⟩ := spendInputs_cons_eq_some.mp h
    obtain ⟨hnone₁, hfirst⟩ := spendInput_output_none h₁ hnone
    obtain ⟨hnone', hrest⟩ := ih h₂ hnone₁
    exact ⟨hnone', List.forall_mem_cons.mpr ⟨hfirst, hrest⟩⟩

/-- An output that is not there and that no transaction creates is spent by none of them. -/
theorem updateAll_output_none (h : updateAll crypto nHeight view vtx = some (view', txundos))
    (hcb : ∀ tx ∈ vtx, tx.isCoinBase = false) (hids : ∀ tx ∈ vtx, txid ≠ tx.getHash crypto)
    (hnone : (view.coinsAt txid).output n = none) :
    ∀ tx ∈ vtx, ∀ txin ∈ tx.vin, ¬ (txin.prevout.hash = txid ∧ txin.prevout.n.toNat = n) := by
  induction vtx generalizing view txundos with
  | nil => simp
  | cons tx vtx ih =>
    obtain ⟨view₁, txundo, txundos₁, h₁, h₂, rfl⟩ := updateAll_cons_eq_some.mp h
    obtain ⟨viewS, hspend, rfl⟩ := updateCoins_eq_some.mp h₁
    rw [List.forall_mem_cons] at hcb hids
    rw [spendTxInputs, hcb.1, if_neg Bool.false_ne_true] at hspend
    obtain ⟨hnone₁, hfirst⟩ := spendInputs_output_none hspend hnone
    refine List.forall_mem_cons.mpr ⟨hfirst, ih h₂ hcb.2 hids.2 ?_⟩
    rw [CoinsView.coinsAt_modifyNewCoins_ne hids.1, hnone₁]

/-- Transactions that can be applied one after the other and are not there before have different
ids: a second copy of one of them would find its first input spent. -/
theorem updateAll_nodup (h : updateAll crypto nHeight view vtx = some (view', txundos))
    (hinj : ∀ tx ∈ vtx, ∀ tx' ∈ vtx, tx.getHash crypto = tx'.getHash crypto → tx = tx')
    (hcb : ∀ tx ∈ vtx, tx.isCoinBase = false) (hvin : ∀ tx ∈ vtx, tx.vin ≠ [])
    (hpruned : ∀ tx ∈ vtx, (view.coinsAt (tx.getHash crypto)).isPruned = true) :
    (vtx.map (CTransaction.getHash crypto)).Nodup := by
  induction vtx generalizing view txundos with
  | nil => simp
  | cons tx vtx ih =>
    obtain ⟨view₁, txundo, txundos₁, h₁, h₂, rfl⟩ := updateAll_cons_eq_some.mp h
    have hne : ∀ tx' ∈ vtx, tx'.getHash crypto ≠ tx.getHash crypto := by
      intro tx' htx' heq
      obtain rfl : tx' = tx := hinj tx' (List.mem_cons_of_mem _ htx') tx List.mem_cons_self heq
      obtain ⟨txin, vin, hv⟩ := List.exists_cons_of_ne_nil (hvin tx' List.mem_cons_self)
      obtain ⟨viewS, hspend, rfl⟩ := updateCoins_eq_some.mp h₁
      rw [spendTxInputs, hcb tx' List.mem_cons_self, if_neg Bool.false_ne_true, hv] at hspend
      obtain ⟨view₂, undo, undos₁, hs₁, hs₂, rfl⟩ := spendInputs_cons_eq_some.mp hspend
      obtain ⟨c, o, hc, ho, rfl, -⟩ := spendInput_eq_some hs₁
      have hids : ∀ t ∈ tx' :: vtx, txin.prevout.hash ≠ t.getHash crypto := by
        intro t ht heq'
        have := hpruned t ht
        rw [← heq', CoinsView.coinsAt_of_accessCoins hc, CCoins.isPruned_of_output ho] at this
        cases this
      have hnone : ((view.modifyCoins txin.prevout.hash fun _ =>
          c.spend txin.prevout.n.toNat).coinsAt txin.prevout.hash).output txin.prevout.n.toNat =
          none := by
        rw [CoinsView.coinsAt_modifyCoins_self, CCoins.output_cleanup, CCoins.output_spend,
          if_pos rfl]
      have hnoneS := (spendInputs_output_none hs₂ hnone).1
      refine updateAll_output_none h₂ (fun t ht => hcb t (List.mem_cons_of_mem _ ht))
        (fun t ht => hids t (List.mem_cons_of_mem _ ht)) ?_ tx' htx' txin (by simp [hv]) ⟨rfl, rfl⟩
      rw [CoinsView.coinsAt_modifyNewCoins_ne (hids tx' List.mem_cons_self), hnoneS]
    rw [List.map_cons, List.nodup_cons]
    constructor
    · intro hmem
      obtain ⟨tx', htx', heq⟩ := List.mem_map.mp hmem
      exact hne tx' htx' heq
    · refine ih h₂ (fun t ht t' ht' => hinj t (List.mem_cons_of_mem _ ht) t'
          (List.mem_cons_of_mem _ ht')) (fun t ht => hcb t (List.mem_cons_of_mem _ ht))
        (fun t ht => hvin t (List.mem_cons_of_mem _ ht)) fun t ht => ?_
      have hp := hpruned t (List.mem_cons_of_mem _ ht)
      rw [updateCoins_coinsAt h₁ (hne t ht) hp]
      exact hp

/-! ## All transactions -/

theorem updateAll_undoable (hpos : 1 ≤ nHeight) (hlt : nHeight < 2 ^ 28)
    (h : updateAll crypto nHeight view vtx = some (view', txundos)) (hview : view.Undoable) :
    view'.Undoable ∧ (∀ txundo ∈ txundos, (∀ undo ∈ txundo, undo.txout.Compressible → undo.Storable) ∧
      ∃ tx ∈ vtx, txundo.length ≤ tx.vin.length) ∧ txundos.length = vtx.length := by
  induction vtx generalizing view txundos with
  | nil =>
    obtain ⟨rfl, rfl⟩ : view = view' ∧ [] = txundos := by simpa [updateAll] using h
    exact ⟨hview, by simp⟩
  | cons tx vtx ih =>
    obtain ⟨view₁, txundo, txundos₁, h₁, h₂, rfl⟩ := updateAll_cons_eq_some.mp h
    obtain ⟨hview₁, hundo, hlen⟩ := updateCoins_undoable hpos hlt h₁ hview
    obtain ⟨hview', hundos, hlens⟩ := ih h₂ hview₁
    have hle : txundo.length ≤ tx.vin.length := by
      rw [hlen]
      split_ifs <;> omega
    refine ⟨hview', List.forall_mem_cons.mpr ⟨⟨hundo, tx, List.mem_cons_self, hle⟩, fun u hu => ?_⟩,
      ?_⟩
    · obtain ⟨hu₁, t, ht, hu₂⟩ := hundos u hu
      exact ⟨hu₁, t, List.mem_cons_of_mem _ ht, hu₂⟩
    · rw [List.length_cons, List.length_cons, hlens]

/-- Disconnecting transactions inverts `UpdateCoins` on all of them. -/
theorem disconnectTxs_updateAll (hpos : 1 ≤ nHeight) (hlt : nHeight < 2 ^ 28)
    (h : updateAll crypto nHeight view vtx = some (view', txundos)) (htx : ∀ tx ∈ vtx, tx.NotNull)
    (hcb : ∀ tx ∈ vtx, tx.isCoinBase = false) (hview : view.Undoable)
    (hpruned : ∀ tx ∈ vtx, (view.coinsAt (tx.getHash crypto)).isPruned = true)
    (hnodup : (vtx.map (CTransaction.getHash crypto)).Nodup) (halike : other.Alike view')
    (htidy : other.TidyOn txids) (hids : ∀ tx ∈ vtx, tx.getHash crypto ∈ txids) :
    ∃ restored, disconnectTxs crypto nHeight (vtx.zip (CBlockUndo.stored txundos))
        (other, true) = some (restored, true) ∧ restored.Alike view ∧ restored.TidyOn txids := by
  induction vtx generalizing view txundos with
  | nil =>
    obtain ⟨rfl, rfl⟩ : view = view' ∧ [] = txundos := by simpa [updateAll] using h
    exact ⟨other, rfl, halike, htidy⟩
  | cons tx vtx ih =>
    obtain ⟨view₁, txundo, txundos₁, h₁, h₂, rfl⟩ := updateAll_cons_eq_some.mp h
    rw [List.forall_mem_cons] at htx hcb hpruned hids
    rw [List.map_cons, List.nodup_cons] at hnodup
    obtain ⟨hview₁, -, hlen⟩ := updateCoins_undoable hpos hlt h₁ hview
    have hpruned₁ : ∀ t ∈ vtx, (view₁.coinsAt (t.getHash crypto)).isPruned = true := by
      intro t ht
      have hne : t.getHash crypto ≠ tx.getHash crypto := fun heq =>
        hnodup.1 (heq ▸ List.mem_map_of_mem ht)
      rw [updateCoins_coinsAt h₁ hne (hpruned.2 t ht)]
      exact hpruned.2 t ht
    obtain ⟨restored, hrest, halike₁, htidy₁⟩ :=
      ih h₂ htx.2 hcb.2 hview₁ hpruned₁ hnodup.2 hids.2
    obtain ⟨restored', hrest', halike', htidy'⟩ :=
      disconnect_updateCoins htx.1 hcb.1 h₁ hview hpruned.1 halike₁ htidy₁ hids.1
    refine ⟨restored', ?_, halike', htidy'⟩
    rw [hcb.1, if_neg Bool.false_ne_true] at hlen
    simp only [CBlockUndo.stored, List.map_cons, List.zip_cons_cons, disconnectTxs]
    rw [show txundos₁.map (List.map CTxInUndo.stored) = CBlockUndo.stored txundos₁ from rfl, hrest]
    simp only [Option.bind_eq_bind, Option.bind_some, List.length_map, hlen, ne_eq,
      not_true_eq_false, if_false, hrest']

theorem updateAll_tidyOn (h : updateAll crypto nHeight view vtx = some (view', txundos))
    (htx : ∀ tx ∈ vtx, tx.NotNull) (hview : view.TidyOn txids) : view'.TidyOn txids := by
  induction vtx generalizing view txundos with
  | nil =>
    obtain ⟨rfl, -⟩ : view = view' ∧ [] = txundos := by simpa [updateAll] using h
    exact hview
  | cons tx vtx ih =>
    obtain ⟨view₁, txundo, txundos₁, h₁, h₂, rfl⟩ := updateAll_cons_eq_some.mp h
    rw [List.forall_mem_cons] at htx
    exact ih h₂ htx.2 (updateCoins_tidyOn htx.1 h₁ hview)

/-! ## Blocks -/

/-- What the loop of `ConnectBlock` does to the view and to the undo data. -/
theorem connectTxs_updateAll {flags : UInt32} {nSpendHeight : ℤ} {st st' : ConnectState}
    (h : connectTxs crypto fScriptChecks flags nSpendHeight nHeight st vtx = .ok st') :
    ∃ txundos, updateAll crypto nHeight st.view vtx = some (st'.view, txundos) ∧
      st'.vtxundo = st.vtxundo ++ txundos := by
  induction vtx generalizing st with
  | nil =>
    obtain rfl : st = st' := by simpa [connectTxs] using h
    exact ⟨[], rfl, (List.append_nil _).symm⟩
  | cons tx vtx ih =>
    rw [connectTxs, List.foldlM_cons, check_bind_eq_ok] at h
    obtain ⟨st₁, h₁, h₂⟩ := h
    obtain ⟨-, txundo, -, -, hup, -, -, hundo⟩ := connectTx_ok h₁
    obtain ⟨txundos, hall, hundos⟩ := ih h₂
    refine ⟨txundo :: txundos, updateAll_cons_eq_some.mpr ⟨_, _, _, hup, hall, rfl⟩, ?_⟩
    rw [hundos, hundo, List.append_assoc, List.singleton_append]

theorem length_le_length_flatMap {α : Type} {write : α → Bytes} {v : List α}
    (h : ∀ x ∈ v, write x ≠ []) : v.length ≤ (v.flatMap write).length := by
  induction v with
  | nil => simp
  | cons x v ih =>
    rw [List.forall_mem_cons] at h
    have := List.length_pos_of_ne_nil h.1
    have := ih h.2
    rw [List.flatMap_cons, List.length_append, List.length_cons]
    omega

theorem length_vin_le (tx : CTransaction) : tx.vin.length ≤ tx.serialize.length := by
  have hne : ∀ i ∈ tx.vin, CTxIn.serialize i ≠ [] := by
    intro i _ hnil
    have := congrArg List.length hnil
    simp [CTxIn.serialize, COutPoint.serialize, writeUint256] at this
  have := length_le_length_flatMap hne
  simp only [CTransaction.serialize, writeVector, List.length_append]
  omega

theorem notOverwriting_eq (crypto : Crypto) (view : CoinsView) (tx : CTransaction) :
    notOverwriting crypto view tx = (view.coinsAt (tx.getHash crypto)).isPruned := by
  unfold notOverwriting CoinsView.coinsAt
  cases view.accessCoins (tx.getHash crypto) <;> rfl

theorem isPruned_of_notOverwriting (h : notOverwriting crypto view tx = true) :
    (view.coinsAt (tx.getHash crypto)).isPruned = true :=
  notOverwriting_eq crypto view tx ▸ h

/-- An entry without unspent outputs and without spent outputs at its end is empty. -/
theorem CCoins.vout_eq_nil {c : CCoins} (hpruned : c.isPruned = true) (htrim : c.cleanup = c) :
    c.vout = [] := by
  rw [← htrim]
  simp only [cleanup, dropNulls, List.rdropWhile_eq_nil_iff]
  simpa [isPruned] using hpruned

theorem CCoins.tidy_of_isPruned {c : CCoins} (hpruned : c.isPruned = true) (htrim : c.cleanup = c) :
    c.Tidy := by
  refine ⟨htrim, fun o ho => ?_⟩
  simp [vout_eq_nil hpruned htrim] at ho

theorem CoinsView.tidyOn_of_isPruned
    (htrim : ∀ txid c, view.accessCoins txid = some c → c.cleanup = c)
    (hpruned : ∀ txid ∈ txids, (view.coinsAt txid).isPruned = true) : view.TidyOn txids := by
  intro txid hmem
  have hp := hpruned txid hmem
  unfold coinsAt at hp ⊢
  cases hc : view.accessCoins txid with
  | none => exact CCoins.tidy_empty
  | some c =>
    rw [hc] at hp
    exact CCoins.tidy_of_isPruned hp (htrim txid c hc)

theorem TxOk.notNull (h : TxOk tx) : tx.NotNull := by
  refine fun o ho => decide_eq_false fun hnull => ?_
  have := h.nonneg o ho
  rw [hnull] at this
  exact absurd this (by decide)

theorem undoRead_updateAll (keys : PubKeys) (hashBlock : Uint256) (hblock : BlockOk block)
    (hpos : 1 ≤ nHeight) (hlt : nHeight < 2 ^ 28)
    (h : updateAll crypto nHeight view block.vtx = some (view', txundos)) (hview : view.Undoable)
    (hstored : ∀ txundo ∈ txundos.tail, ∀ undo ∈ txundo, undo.txout.Compressible) :
    (undoReadFromDisk crypto keys hashBlock).run
      (undoWriteToDisk crypto keys hashBlock txundos.tail) =
        some (CBlockUndo.stored txundos.tail, []) := by
  obtain ⟨-, hundos, hlen⟩ := updateAll_undoable hpos hlt h hview
  have hmax : MAX_BLOCK_SIZE ≤ MAX_SIZE := by decide
  apply undoReadFromDisk_write
  · have := hblock.length
    rw [List.length_tail]
    omega
  · intro txundo hmem
    obtain ⟨-, tx, ht, hle⟩ := hundos txundo (List.mem_of_mem_tail hmem)
    have := (hblock.txs tx ht).size
    have := length_vin_le tx
    omega
  · intro txundo hmem undo hundo
    exact (hundos txundo (List.mem_of_mem_tail hmem)).1 undo hundo (hstored txundo hmem undo hundo)

/-- Undoing the transactions after the coinbase and then the coinbase. -/
theorem disconnectTxs_coinBase {coinBase : CTransaction} (hpos : 1 ≤ nHeight)
    (hlt : nHeight < 2 ^ 28)
    (h : updateAll crypto nHeight view (coinBase :: vtx) = some (view', txundos))
    (htxs : ∀ tx ∈ coinBase :: vtx, tx.NotNull) (hcb : coinBase.isCoinBase = true)
    (hothers : ∀ tx ∈ vtx, tx.isCoinBase = false) (hvin : ∀ tx ∈ vtx, tx.vin ≠ [])
    (hview : view.Undoable)
    (hpruned : ∀ tx ∈ coinBase :: vtx, (view.coinsAt (tx.getHash crypto)).isPruned = true)
    (hinj : ∀ tx ∈ coinBase :: vtx, ∀ tx' ∈ coinBase :: vtx,
      tx.getHash crypto = tx'.getHash crypto → tx = tx')
    (halike : other.Alike view') (htidy : other.TidyOn txids)
    (hids : ∀ tx ∈ coinBase :: vtx, tx.getHash crypto ∈ txids) :
    ∃ s removed, disconnectTxs crypto nHeight (vtx.zip (CBlockUndo.stored txundos.tail))
        (other, true) = some s ∧
      removeOutputs crypto nHeight coinBase s = (removed, true) ∧ removed.Alike view ∧
      removed.TidyOn txids := by
  obtain ⟨view₁, txundo, txundos₁, h₁, h₂, rfl⟩ := updateAll_cons_eq_some.mp h
  have hne : ∀ tx ∈ vtx, tx.getHash crypto ≠ coinBase.getHash crypto := by
    intro tx ht heq
    obtain rfl := hinj tx (List.mem_cons_of_mem _ ht) coinBase List.mem_cons_self heq
    rw [hothers tx ht] at hcb
    cases hcb
  rw [List.forall_mem_cons] at htxs hpruned hids
  have hpruned₁ : ∀ tx ∈ vtx, (view₁.coinsAt (tx.getHash crypto)).isPruned = true := by
    intro tx ht
    rw [updateCoins_coinsAt h₁ (hne tx ht) (hpruned.2 tx ht)]
    exact hpruned.2 tx ht
  have hnodup := updateAll_nodup h₂
    (fun tx ht tx' ht' => hinj tx (List.mem_cons_of_mem _ ht) tx' (List.mem_cons_of_mem _ ht'))
    hothers hvin hpruned₁
  obtain ⟨restored, hrest, halike₁, htidy₁⟩ := disconnectTxs_updateAll hpos hlt h₂ htxs.2 hothers
    (updateCoins_undoable hpos hlt h₁ hview).1 hpruned₁ hnodup halike htidy hids.2
  obtain ⟨viewS, hspend, rfl⟩ := updateCoins_eq_some.mp h₁
  obtain ⟨rfl, -⟩ : view = viewS ∧ [] = txundo := by simpa [spendTxInputs, hcb] using hspend
  obtain ⟨removed, hremove, halike₂, htidy₂⟩ :=
    removeOutputs_modifyNewCoins htxs.1 hpruned.1 halike₁ htidy₁ hids.1
  exact ⟨_, removed, hrest, hremove, halike₂, htidy₂⟩

theorem connectBlock_hashBlock {p : Params} {chainHeight : ℤ} {path : List CBlockIndex}
    {pindex : CBlockIndex} {r : ConnectResult}
    (h : connectBlock crypto p chainHeight fScriptChecks path pindex view block false = .ok r) :
    (path.head?.map CBlockIndex.hash).getD 0 = view.hashBlock := by
  simp only [connectBlock, check_bind_eq_ok, ensure_eq_ok] at h
  obtain ⟨-, -, -, hhash, -⟩ := h
  exact hhash

/-- Disconnecting a block on a view that shows what the block left. -/
theorem disconnectBlock_of_same (keys : PubKeys) {p : Params} {chainHeight : ℤ}
    {path : List CBlockIndex} {pindex : CBlockIndex} {r : ConnectResult}
    (h : connectBlock crypto p chainHeight fScriptChecks path pindex view block false = .ok r)
    (hgen : block.getHash crypto ≠ p.hashGenesisBlock) (hpos : 1 ≤ pindex.nHeight)
    (hlt : pindex.nHeight < 2 ^ 28) (hview : view.Undoable)
    (hbip30 : ∀ tx ∈ block.vtx, notOverwriting crypto view tx = true)
    (hinj : ∀ tx ∈ block.vtx, ∀ tx' ∈ block.vtx, tx.getHash crypto = tx'.getHash crypto → tx = tx')
    (hstored : ∀ txundo ∈ r.blockundo, ∀ undo ∈ txundo, undo.txout.Compressible)
    (halike : other.Alike r.view) (hbest : other.hashBlock = r.view.hashBlock)
    (htidy : other.TidyOn txids) (hids : ∀ tx ∈ block.vtx, tx.getHash crypto ∈ txids) :
    ∃ pprev restored, path.head? = some pprev ∧
      disconnectBlock crypto keys block pprev r.pindex
        (undoWriteToDisk crypto keys pprev.hash r.blockundo) other = some (restored, true) ∧
      restored.Alike view ∧ restored.hashBlock = view.hashBlock ∧ restored.TidyOn txids := by
  have hhash := connectBlock_hashBlock h
  obtain ⟨hblock, pprev, st, hpprev, -, hloop, -, rfl⟩ := connectBlock_ok h hgen
  obtain ⟨txundos, hall, hundos⟩ := connectTxs_updateAll hloop
  rw [List.nil_append] at hundos
  simp only [hundos] at hstored ⊢
  have htxs : ∀ tx ∈ block.vtx, tx.NotNull := fun tx ht => (hblock.txs tx ht).notNull
  have hpruned : ∀ tx ∈ block.vtx, (view.coinsAt (tx.getHash crypto)).isPruned = true :=
    fun tx ht => isPruned_of_notOverwriting (hbip30 tx ht)
  have halike₀ : other.Alike st.view := halike
  have hread := undoRead_updateAll keys pprev.hash hblock hpos hlt hall hview hstored
  have hlen := (updateAll_undoable hpos hlt hall hview).2.2
  obtain ⟨coinBase, vtx, hvtx, hcb⟩ := hblock.coinBase
  have hothers := hblock.others
  have hvin : ∀ tx ∈ vtx, tx.vin ≠ [] := fun tx ht =>
    (hblock.txs tx (hvtx ▸ List.mem_cons_of_mem _ ht)).vin_ne_nil
  rw [hvtx] at htxs hpruned hinj hothers hids hlen
  obtain ⟨s, removed, hdisconnect, hremove, halike', htidy'⟩ := disconnectTxs_coinBase hpos hlt
    (hvtx ▸ hall) htxs hcb hothers hvin hview hpruned hinj halike₀ htidy hids
  refine ⟨pprev, removed.setBestBlock pprev.hash, hpprev, ?_, halike', ?_, htidy'⟩
  · have hcount : (CBlockUndo.stored txundos.tail).length = vtx.length := by
      simp [CBlockUndo.stored, hlen]
    have hbest' : ¬ (connectedIndex crypto path pindex block).hash ≠ other.hashBlock :=
      not_not.mpr hbest.symm
    unfold disconnectBlock
    rw [if_neg hbest', hread, hvtx]
    simp only [Option.bind_eq_bind, Option.bind_some, hcount, ne_eq, not_true_eq_false, if_false]
    rw [show (connectedIndex crypto path pindex block).nHeight = pindex.nHeight from rfl,
      hdisconnect, Option.bind_some, hremove]
  · rw [← hhash, hpprev]
    rfl

/-- Disconnecting a block right after it was connected, with the undo data that was stored for it,
gives back the unspent outputs, their metadata and the best block, and finds nothing wrong. -/
theorem disconnectBlock_connectBlock (keys : PubKeys) {p : Params} {chainHeight : ℤ}
    {fScriptChecks : Bool} {path : List CBlockIndex} {pindex : CBlockIndex} {block : CBlock}
    {r : ConnectResult}
    (h : connectBlock crypto p chainHeight fScriptChecks path pindex view block false = .ok r)
    (hgen : block.getHash crypto ≠ p.hashGenesisBlock) (hpos : 1 ≤ pindex.nHeight)
    (hlt : pindex.nHeight < 2 ^ 28)
    (htrim : ∀ txid c, view.accessCoins txid = some c → c.cleanup = c) (hview : view.Undoable)
    (hversion : ∀ txid, (view.coinsAt txid).isPruned = false → 0 ≤ (view.coinsAt txid).nVersion)
    (hbip30 : ∀ tx ∈ block.vtx, notOverwriting crypto view tx = true)
    (hinj : ∀ tx ∈ block.vtx, ∀ tx' ∈ block.vtx, tx.getHash crypto = tx'.getHash crypto → tx = tx')
    (hstored : ∀ txundo ∈ r.blockundo, ∀ undo ∈ txundo, undo.txout.Compressible) :
    ∃ pprev view' txundos restored, path.head? = some pprev ∧
      updateAll crypto pindex.nHeight view block.vtx = some (view', txundos) ∧
      r.view = view'.setBestBlock pindex.hash ∧ r.blockundo = txundos.tail ∧
      disconnectBlock crypto keys block pprev r.pindex
        (undoWriteToDisk crypto keys pprev.hash r.blockundo) r.view = some (restored, true) ∧
      restored.Same view ∧ restored.hashBlock = view.hashBlock := by
  obtain ⟨hblock, _, st, -, -, hloop, -, rfl⟩ := connectBlock_ok h hgen
  obtain ⟨txundos, hall, hundos⟩ := connectTxs_updateAll hloop
  rw [List.nil_append] at hundos
  have htidy : st.view.TidyOn {txid | txid ∈ block.vtx.map (CTransaction.getHash crypto)} := by
    refine updateAll_tidyOn hall (fun tx ht => (hblock.txs tx ht).notNull)
      (CoinsView.tidyOn_of_isPruned htrim fun txid hmem => ?_)
    obtain ⟨tx, ht, rfl⟩ := List.mem_map.mp hmem
    exact isPruned_of_notOverwriting (hbip30 tx ht)
  obtain ⟨pprev, restored, hpprev, hdisc, halike, hbest, -⟩ :=
    disconnectBlock_of_same keys h hgen hpos hlt hview hbip30 hinj hstored
      (fun _ => CCoins.Alike.refl _) rfl htidy fun tx ht => List.mem_map_of_mem ht
  exact ⟨pprev, st.view, txundos, restored, hpprev, hall, rfl, by rw [hundos], hdisc,
    fun txid => (halike txid).same (hversion txid), hbest⟩

instance (o : CTxOut) : Decidable o.Compressible :=
  decidable_of_iff (decompressAmount (compressAmount o.nValue.toUInt64) = o.nValue.toUInt64 ∧
    o.scriptPubKey.length ≤ MAX_SCRIPT_SIZE) ⟨fun h => ⟨h.1, h.2⟩, fun h => ⟨h.1, h.2⟩⟩

/-- No public key is asked for where no script pays to one. -/
def PubKeys.none : PubKeys := ⟨fun _ => false, fun _ => Option.none, by simp⟩

/-- Double SHA-256 on the undo data of `premineBlock` too. -/
def premineUndoCrypto : Crypto :=
  { premineCrypto with
    hash256 := fun bytes =>
      if bytes = writeUint256 mainGenesisIndex.hash ++ [2, 1, 0, 0, 0, 0, 0, 129, 206, 215, 96, 7, 81, 1,
          5, 1, 80, 70, 125, 105, 129, 206, 215, 96, 7, 81] then
        0xdaea2f0c8d50416d7959bfe7a074609f8c003161f5c1403e1ab8b7677ce9f069
      else premineCrypto.hash256 bytes }

/-- The entry that `premineBlock` gets on top of the genesis block. -/
def premineIndex : CBlockIndex :=
  ChainState.newIndex premineUndoCrypto mainParams [mainGenesisIndex] premineBlock

theorem mainGenesis_accessCoins (txid : Uint256) :
    ChainState.mainGenesis.view.accessCoins txid = none :=
  AList.lookup_empty txid

theorem premineBlock_disconnects :
    ∃ r, connectBlock premineUndoCrypto mainParams 0 true [mainGenesisIndex] premineIndex
        ChainState.mainGenesis.view premineBlock false = .ok r ∧
      ∃ pprev view' txundos restored, [mainGenesisIndex].head? = some pprev ∧
        updateAll premineUndoCrypto premineIndex.nHeight ChainState.mainGenesis.view
          premineBlock.vtx = some (view', txundos) ∧
        r.view = view'.setBestBlock premineIndex.hash ∧ r.blockundo = txundos.tail ∧
        disconnectBlock premineUndoCrypto PubKeys.none premineBlock pprev r.pindex
          (undoWriteToDisk premineUndoCrypto PubKeys.none pprev.hash r.blockundo) r.view =
            some (restored, true) ∧
        restored.Same ChainState.mainGenesis.view ∧
        restored.hashBlock = ChainState.mainGenesis.view.hashBlock := by
  have h : okAnd (connectBlock premineUndoCrypto mainParams 0 true [mainGenesisIndex] premineIndex
      ChainState.mainGenesis.view premineBlock false)
      (fun r => decide (∀ txundo ∈ r.blockundo, ∀ undo ∈ txundo, undo.txout.Compressible)) =
      true := by
    decide +kernel
  obtain ⟨r, hr, hstored⟩ := okAnd_eq_true.mp h
  refine ⟨r, hr, disconnectBlock_connectBlock PubKeys.none hr (by decide +kernel) (by decide)
    (by decide) ?_ ?_ ?_ (by decide +kernel) (by decide +kernel) (of_decide_eq_true hstored)⟩
  · intro txid c hc
    rw [mainGenesis_accessCoins] at hc
    cases hc
  all_goals
    intro txid hp
    rw [CoinsView.coinsAt, mainGenesis_accessCoins] at hp
    cases hp

/-! ## An entry at height zero

The height that marks missing metadata, in an entry of the view.  A block of the main net at height 1
spends its last output. -/

def zeroHeightView : CoinsView :=
  { ChainState.mainGenesis.view with
    coins := (∅ : AList fun _ : Uint256 => CCoins).insert mainGenesis.hashMerkleRoot
      { vout := [⟨50 * COIN, [OP_1]⟩], nVersion := 1, nTime := 1769817600 } }

def zeroHeightSpend : CTransaction where
  nVersion := 1
  nTime := 1769817680
  vin := [⟨⟨mainGenesis.hashMerkleRoot, 0⟩, [], 0xffffffff⟩]
  vout := [⟨50 * COIN, [OP_1]⟩]
  nLockTime := 0

def zeroHeightBlock : CBlock where
  nVersion := 7
  hashPrevBlock := 0x00000eea834a06692bc4f56d6f0061631c72fd75431ce9e5d7f3b9d712dc3a9b
  hashMerkleRoot := 0x1912ed3baa3030509bb84d6bd7f3bfc3c568b073ad72cf5ef8c433a40c192cc7
  nTime := 1769817680
  nBits := 0x1e0fffff
  nNonce := 412620
  vtx := [plainPremineCoinBase, zeroHeightSpend]
  vchBlockSig := []

def zeroHeightCrypto : Crypto where
  hash256 bytes :=
    let txid0 : Uint256 := 0x14b8e44a4395f8ddca88e61d693bd720d0db1de667c678d7503821b16f9dfa7f
    let txid1 : Uint256 := 0xa68febd1eeed538bc6242671ef99132be709dada22921cca2f75d9be33fa0486
    let hash : Uint256 := 0xd0dab297ab1c3a8c8228f0671ccc781b27b4baf5cfdb63a5cc2b3947eb85b4e9
    if bytes = plainPremineCoinBase.serialize then txid0
    else if bytes = zeroHeightSpend.serialize then txid1
    else if bytes = writeUint256 txid0 ++ writeUint256 txid1 then zeroHeightBlock.hashMerkleRoot
    else if bytes = zeroHeightBlock.toCBlockHeader.serialize then hash
    else if bytes = writeUint256 hash ++ writeUint256 0 then
      0x4492f0aefd5670b29e3e203fb5e7dfc5794b7021db70e3d4d5e8462313fccf6d
    else if bytes = writeUint256 mainGenesisIndex.hash ++
        [1, 1, 0, 0, 70, 125, 105, 50, 7, 81] then
      0xd1f7e6f11e99d80a931bc0b1af87dd8e7531217b32a7581d685b52a571c733c5
    else 0
  scrypt bytes :=
    if bytes = zeroHeightBlock.toCBlockHeader.serialize then
      0x0000042555c571af80b2726e99f2da039e5d6e0aa724f239545d8f5a1f6fe00e
    else 0
  verify _ _ _ := false
  checkLowS _ := false
  verifyScript scriptSig scriptPubKey _ _ _ :=
    if scriptSig = [] ∧ scriptPubKey = [OP_1] then .ok () else .error "unknown error"

def zeroHeightIndex : CBlockIndex :=
  ChainState.newIndex zeroHeightCrypto mainParams [mainGenesisIndex] zeroHeightBlock

/-- The block is accepted, everything about it and about the view is in order but the height of that
entry, and disconnecting it is not clean. -/
theorem zeroHeight_not_clean :
    ∃ r, connectBlock zeroHeightCrypto mainParams 0 true [mainGenesisIndex] zeroHeightIndex
        zeroHeightView zeroHeightBlock false = .ok r ∧
      zeroHeightIndex.nHeight = 1 ∧
      (∀ txid c, zeroHeightView.accessCoins txid = some c → c.cleanup = c ∧ 0 ≤ c.nVersion) ∧
      (∀ tx ∈ zeroHeightBlock.vtx, notOverwriting zeroHeightCrypto zeroHeightView tx = true) ∧
      (∀ tx ∈ zeroHeightBlock.vtx, 0 ≤ tx.nVersion) ∧
      (∀ txundo ∈ r.blockundo, ∀ undo ∈ txundo, undo.txout.Compressible) ∧
      ∃ restored, disconnectBlock zeroHeightCrypto PubKeys.none zeroHeightBlock mainGenesisIndex
        r.pindex (undoWriteToDisk zeroHeightCrypto PubKeys.none mainGenesisIndex.hash r.blockundo)
        r.view = some (restored, false) := by
  have h : okAnd (connectBlock zeroHeightCrypto mainParams 0 true [mainGenesisIndex]
      zeroHeightIndex zeroHeightView zeroHeightBlock false)
      (fun r => decide (∀ txundo ∈ r.blockundo, ∀ undo ∈ txundo, undo.txout.Compressible) &&
        decide ((disconnectBlock zeroHeightCrypto PubKeys.none zeroHeightBlock mainGenesisIndex
          r.pindex (undoWriteToDisk zeroHeightCrypto PubKeys.none mainGenesisIndex.hash r.blockundo)
          r.view).map Prod.snd = some false)) = true := by
    decide +kernel
  obtain ⟨r, hr, hr'⟩ := okAnd_eq_true.mp h
  rw [Bool.and_eq_true, decide_eq_true_eq, decide_eq_true_eq] at hr'
  obtain ⟨hstored, hdisc⟩ := hr'
  obtain ⟨⟨restored, fClean⟩, hrestored, rfl⟩ := Option.map_eq_some_iff.mp hdisc
  refine ⟨r, hr, rfl, ?_, by decide +kernel, by decide, hstored, restored, hrestored⟩
  intro txid c hc
  by_cases htx : txid = mainGenesis.hashMerkleRoot
  · subst htx
    obtain rfl : _ = c := Option.some.inj ((AList.lookup_insert _).symm.trans hc)
    exact ⟨by decide, by decide⟩
  · rw [CoinsView.accessCoins, zeroHeightView, AList.lookup_insert_ne htx] at hc
    simp at hc

end X2XCoin
