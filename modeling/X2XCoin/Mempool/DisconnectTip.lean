import X2XCoin.Mempool.Accept
import X2XCoin.Validation.VerifyDB

/-!
# The pool while blocks are disconnected

`DisconnectTip` of `main.cpp` with what it does to the memory pool.  While the loop over the block
runs, entries spend outputs of transactions that are still to come, and those that came back are not
linked to the entries that spend them.  `Midway` says what holds then.
-/

open ByteCodec

namespace X2XCoin

open CTxMemPool

/-- One turn of the loop of `DisconnectTip` over the block, with `vHashUpdate`. -/
def resurrect (crypto : Crypto) (policy : Policy) (nSpendHeight : ℤ) (view : CoinsView)
    (s : CTxMemPool × List Uint256) (tx : CTransaction) : CTxMemPool × List Uint256 :=
  if tx.isCoinBase ∨ tx.isCoinStake then (s.1.removeRecursive crypto tx, s.2)
  else
    match acceptToMemoryPool crypto policy nSpendHeight view s.1 tx with
    | none => (s.1.removeRecursive crypto tx, s.2)
    | some pool =>
      (pool, if tx.getHash crypto ∈ pool.mapTx then s.2 ++ [tx.getHash crypto] else s.2)

/-- A block to disconnect: what is stored for it, the entry of its parent and the tests of
`AcceptToMemoryPool` at the time. -/
structure TipBlock extends StoredBlock where
  pprev : CBlockIndex
  policy : Policy

/-- `DisconnectTip` on the coins and the pool; a block that is not disconnected cleanly is a failure. -/
def TipBlock.disconnectTip (crypto : Crypto) (keys : PubKeys) (s : CoinsView × CTxMemPool)
    (b : TipBlock) : Option (CoinsView × CTxMemPool) := do
  let (view, fClean) ← disconnectBlock crypto keys b.block b.pprev b.pindex b.undoData s.1
  if fClean then
    let (pool, vHashUpdate) :=
      b.block.vtx.foldl (resurrect crypto b.policy (b.pprev.nHeight + 1) view) (s.2, [])
    some (view, pool.updateTransactionsFromBlock vHashUpdate)
  else none

/-! ## Pools that fit the coins -/

/-- The pool fits the coins, as `CTxMemPool::check` tests it, and its entries are flagged as they are
when they are accepted. -/
structure Coherent (crypto : Crypto) (view : CoinsView) (pool : CTxMemPool) : Prop where
  wired : pool.Wired crypto fun p c => p ∈ pool.mapTx ∧ pool.Edge p c
  ordinary : ∀ id e, pool.mapTx.lookup id = some e →
    e.tx.isCoinBase = false ∧ e.tx.isCoinStake = false
  funded : ∀ id e, pool.mapTx.lookup id = some e → ∀ txin ∈ e.tx.vin, Funded view pool txin.prevout
  unconfirmed : ∀ id ∈ pool.mapTx, ∀ n, (view.coinsAt id).output n = none
  flagged : ∀ id e, pool.mapTx.lookup id = some e →
    (e.spendsCoinbase = true ↔ ∃ txin ∈ e.tx.vin, SpendsCoinBase view txin.prevout)

/-- The transactions spend only what comes before them, from block to block, and all have different
ids.  The blocks are those of the chain, the tip first. -/
def Chronological (crypto : Crypto) : List CBlock → Prop
  | [] => True
  | block :: older =>
    InOrder crypto block.vtx ∧ (∀ tx ∈ block.vtx.tail, tx.isCoinBase = false) ∧
      (∀ tx ∈ block.vtx, ∀ b ∈ older, ∀ tx' ∈ b.vtx,
        tx'.getHash crypto ≠ tx.getHash crypto ∧ ¬ tx'.Spends (tx.getHash crypto)) ∧
      Chronological crypto older

/-- No transaction of the pool is in one of the blocks or spent by one. -/
def Unconfirmed (crypto : Crypto) (pool : CTxMemPool) (blocks : List CBlock) : Prop :=
  ∀ b ∈ blocks, ∀ tx ∈ b.vtx, ∀ id ∈ pool.mapTx, tx.getHash crypto ≠ id ∧ ¬ tx.Spends id

/-- The output at an outpoint is one of a transaction still to come. -/
def Owed (crypto : Crypto) (rest : List CTransaction) (o : COutPoint) : Prop :=
  ∃ tx ∈ rest, tx.getHash crypto = o.hash ∧
    ∃ out, (CCoins.fromTx tx MEMPOOL_HEIGHT).output o.n.toNat = some out

/-- The pool between two turns of the loop: `rest` is what the loop still has to do, `back` are the
transactions of the block that are in the pool again, and `ids` those that may be in it. -/
structure Midway (crypto : Crypto) (view : CoinsView) (ids : Set Uint256) (rest : List CTransaction)
    (back : List Uint256) (pool : CTxMemPool) : Prop where
  wired : pool.Wired crypto fun p c =>
    p ∈ pool.mapTx ∧ pool.Edge p c ∧ ¬ (p ∈ back ∧ c ∉ back)
  ordinary : ∀ id e, pool.mapTx.lookup id = some e →
    e.tx.isCoinBase = false ∧ e.tx.isCoinStake = false
  funded : ∀ id e, pool.mapTx.lookup id = some e → ∀ txin ∈ e.tx.vin,
    Funded view pool txin.prevout ∨ Owed crypto rest txin.prevout
  unconfirmed : ∀ id ∈ pool.mapTx, ∀ n, (view.coinsAt id).output n = none
  flagged : ∀ id e, pool.mapTx.lookup id = some e →
    (e.spendsCoinbase = true ↔ ∃ txin ∈ e.tx.vin, SpendsCoinBase view txin.prevout ∨
      ∃ tx ∈ rest, tx.getHash crypto = txin.prevout.hash ∧ tx.isCoinBase = true)
  order : InOrder crypto rest
  gone : ∀ tx ∈ rest, ∀ n, (view.coinsAt (tx.getHash crypto)).output n = none
  ahead : ∀ tx ∈ rest, tx.getHash crypto ∉ pool.mapTx
  fed : ∀ tx ∈ rest, ∀ id ∈ pool.mapTx, tx.Spends id → id ∈ back
  back_mem : ∀ a ∈ back, a ∈ pool.mapTx
  back_fed : ∀ a ∈ back, ∀ e, pool.mapTx.lookup a = some e → ∀ txin ∈ e.tx.vin,
    (txin.prevout.hash ∈ pool.mapTx → txin.prevout.hash ∈ back) ∧
      ∀ tx ∈ rest, tx.getHash crypto ≠ txin.prevout.hash
  within : ∀ id ∈ pool.mapTx, id ∈ ids

section

variable {crypto : Crypto} {view : CoinsView} {ids : Set Uint256} {rest : List CTransaction}
  {back : List Uint256} {pool : CTxMemPool} {tx : CTransaction}

section

variable (h : Midway crypto view ids (tx :: rest) back pool)
include h

/-- What spends an output of the next transaction spends one that the transaction has. -/
theorem Midway.owed {c : Uint256} {e : CTxMemPoolEntry} (he : pool.mapTx.lookup c = some e)
    {txin : CTxIn} (hin : txin ∈ e.tx.vin) (hhash : txin.prevout.hash = tx.getHash crypto) :
    ∃ out, (CCoins.fromTx tx MEMPOOL_HEIGHT).output txin.prevout.n.toNat = some out := by
  rcases h.funded c e he txin hin with (⟨e', out, he', -⟩ | ⟨out, hout⟩) | ⟨tx', htx', hid, hout⟩
  · exact absurd (hhash ▸ mem_of_lookup he') (h.ahead tx List.mem_cons_self)
  · have hnone := h.gone tx List.mem_cons_self txin.prevout.n.toNat
    rw [← hhash] at hnone
    cases hout.symm.trans (CoinsView.output_of_coinsAt hnone)
  · rcases List.mem_cons.mp htx' with rfl | hmem
    · exact hout
    · exact absurd (hid.trans hhash) (h.order.2.1 tx' hmem)

theorem Midway.not_mem_back {x : Uint256} (hx : pool.Reaches (tx.getHash crypto) x) : x ∉ back := by
  have hself : tx.getHash crypto ∉ pool.mapTx := h.ahead tx List.mem_cons_self
  induction hx with
  | refl => exact fun hback => hself (h.back_mem _ hback)
  | tail hb hedge ih =>
    intro hback
    obtain ⟨e, he, txin, hin, rfl⟩ := hedge
    obtain ⟨hpool, hrest⟩ := h.back_fed _ hback e he txin hin
    rcases CTxMemPool.Reaches.mem hb with heq | hmem
    · exact hrest tx List.mem_cons_self heq.symm
    · exact ih (hpool hmem)

/-- The next transaction does not come back: what depends on it is removed. -/
theorem Midway.remove : Midway crypto view ids rest back (pool.removeRecursive crypto tx) := by
  obtain ⟨hkeeps, hwired⟩ := h.wired.removeRecursive
    (fun p c hp hreach hedge => ⟨hp, hedge, fun hback => h.not_mem_back hreach hback.1⟩)
    (fun _ c e he txin hin hhash => by
      obtain ⟨out, hout⟩ := h.owed he hin hhash
      exact lt_length_of_output_fromTx hout)
  set pool' := pool.removeRecursive crypto tx
  -- An entry that stays does not spend the transaction or one that is removed.
  have hparent : ∀ {c e}, pool'.mapTx.lookup c = some e → ∀ txin ∈ e.tx.vin,
      ¬ pool.Reaches (tx.getHash crypto) txin.prevout.hash := by
    intro c e he txin hin hreach
    obtain ⟨he, hno⟩ := (hkeeps c e).mp he
    exact hno (hreach.tail ⟨e, he, txin, hin, rfl⟩)
  have hrest : ∀ tx' ∈ tx :: rest, ∀ {c e}, pool'.mapTx.lookup c = some e → ∀ txin ∈ e.tx.vin,
      tx'.getHash crypto = txin.prevout.hash → tx' ∈ rest := by
    intro tx' htx' c e he txin hin hid
    rcases List.mem_cons.mp htx' with rfl | hmem'
    · exact absurd (hid ▸ .refl) (hparent he txin hin)
    · exact hmem'
  refine ⟨hwired.congr fun p c => ?_, fun id e he => h.ordinary id e ((hkeeps id e).mp he).1,
    fun id e he txin hin => ?_, fun id hid => h.unconfirmed id (hkeeps.mem.mp hid).1,
    fun id e he => ?_, h.order.2.2, fun tx' htx' => h.gone tx' (List.mem_cons_of_mem _ htx'),
    fun tx' htx' hid => h.ahead tx' (List.mem_cons_of_mem _ htx') (hkeeps.mem.mp hid).1,
    fun tx' htx' id hid => h.fed tx' (List.mem_cons_of_mem _ htx') id (hkeeps.mem.mp hid).1,
    fun a ha => hkeeps.mem.mpr ⟨h.back_mem a ha, fun hreach => h.not_mem_back hreach ha⟩,
    fun a ha e he txin hin => ?_, fun id hid => h.within id (hkeeps.mem.mp hid).1⟩
  · have hc : pool.Edge p c → c ∈ pool.mapTx := Edge.mem
    rw [hkeeps.edge, hkeeps.mem, hkeeps.mem]
    tauto
  · rcases h.funded id e ((hkeeps id e).mp he).1 txin hin with
      (⟨e', out, he', hout⟩ | hview) | ⟨tx', htx', hid, hout⟩
    · exact .inl (.inl ⟨e', out, (hkeeps _ e').mpr ⟨he', hparent he txin hin⟩, hout⟩)
    · exact .inl (.inr hview)
    · exact .inr ⟨tx', hrest tx' htx' he txin hin hid, hid, hout⟩
  · rw [h.flagged id e ((hkeeps id e).mp he).1]
    refine exists_congr fun txin => and_congr_right fun hin => or_congr_right ⟨?_, ?_⟩
    · rintro ⟨tx', htx', hid, hcb⟩
      exact ⟨tx', hrest tx' htx' he txin hin hid, hid, hcb⟩
    · rintro ⟨tx', htx', hid, hcb⟩
      exact ⟨tx', List.mem_cons_of_mem _ htx', hid, hcb⟩
  · obtain ⟨hpool, hother⟩ := h.back_fed a ha e ((hkeeps a e).mp he).1 txin hin
    exact ⟨fun hid => hpool (hkeeps.mem.mp hid).1,
      fun tx' htx' => hother tx' (List.mem_cons_of_mem _ htx')⟩

theorem Midway.accept {flag : Bool} (ha : Accepted crypto view pool tx flag)
    (hids : tx.getHash crypto ∈ ids) :
    Midway crypto view ids rest (back ++ [tx.getHash crypto])
      (pool.addUnchecked (tx.getHash crypto) ⟨tx, flag⟩) := by
  obtain ⟨hadds, hwired⟩ := h.wired.addUnchecked ⟨tx, flag⟩ rfl ha.isNew ha.free ha.notSelf
  set hash := tx.getHash crypto with hhash
  set pool' := pool.addUnchecked hash ⟨tx, flag⟩
  have hfunded : ∀ {o}, Funded view pool o → Funded view pool' o := by
    rintro o (⟨e, out, he, hout⟩ | hview)
    · exact .inl ⟨e, out, hadds.lookup_old ha.isNew he, hout⟩
    · exact .inr hview
  have hspends : ∀ txin ∈ tx.vin, tx.Spends txin.prevout.hash := fun txin hin =>
    ⟨ha.ordinary.1, txin, hin, rfl⟩
  refine ⟨hwired.congr fun p c => ?_, fun id e he => ?_, fun id e he txin hin => ?_,
    fun id hid n => ?_, fun id e he => ?_, h.order.2.2, fun tx' htx' => 
      h.gone tx' (List.mem_cons_of_mem _ htx'), fun tx' htx' hid => ?_,
    fun tx' htx' id hid hsp => ?_, fun a hback => ?_, fun a hback e he txin hin => ?_,
    fun id hid => ?_⟩
  · simp only [List.mem_append, List.mem_singleton, not_or]
    constructor
    · rintro (⟨hp, ⟨e, he, hin⟩, hback⟩ | ⟨rfl, hp, hin⟩)
      · refine ⟨hadds.mem.mpr (.inr hp), ⟨e, hadds.lookup_old ha.isNew he, hin⟩, ?_⟩
        rintro ⟨hpback | rfl, hc⟩
        · exact hback ⟨hpback, hc.1⟩
        · exact ha.isNew hp
      · exact ⟨hadds.mem.mpr (.inr hp), ⟨_, hadds.lookup_self, hin⟩, fun hno => hno.2.2 rfl⟩
    · rintro ⟨hp, ⟨e, he, txin, hin, rfl⟩, hback⟩
      rcases hadds.cases he with ⟨rfl, rfl⟩ | ⟨hc, he⟩
      · exact .inr ⟨rfl, (hadds.mem.mp hp).resolve_left (ha.notSelf txin hin), txin, hin, rfl⟩
      · have hpool : txin.prevout.hash ∈ pool.mapTx := by
          refine (hadds.mem.mp hp).resolve_left fun heq => ?_
          by_cases hcback : c ∈ back
          · exact (h.back_fed c hcback e he txin hin).2 tx List.mem_cons_self heq.symm
          · exact hback ⟨.inr heq, hcback, hc⟩
        exact .inl ⟨hpool, ⟨e, he, txin, hin, rfl⟩, fun hno => hback ⟨.inl hno.1, hno.2, hc⟩⟩
  · rcases hadds.cases he with ⟨rfl, rfl⟩ | ⟨-, he⟩
    · exact ha.ordinary
    · exact h.ordinary id e he
  · rcases hadds.cases he with ⟨rfl, rfl⟩ | ⟨-, he⟩
    · exact .inl (hfunded (ha.funded txin hin))
    · rcases h.funded id e he txin hin with hf | ⟨tx', htx', hid, out, hout⟩
      · exact .inl (hfunded hf)
      · rcases List.mem_cons.mp htx' with rfl | hmem'
        · exact .inl (.inl ⟨_, out, by rw [← hid, hadds.lookup_self], hout⟩)
        · exact .inr ⟨tx', hmem', hid, out, hout⟩
  · rcases hadds.mem.mp hid with rfl | hid
    · exact h.gone tx List.mem_cons_self n
    · exact h.unconfirmed id hid n
  · rcases hadds.cases he with ⟨rfl, rfl⟩ | ⟨-, he⟩
    · rw [ha.flagged]
      refine exists_congr fun txin => and_congr_right fun hin => ⟨fun hcb => .inl hcb.2, ?_⟩
      rintro (hcb | ⟨tx', htx', hid, -⟩)
      · refine ⟨fun hpool => ?_, hcb⟩
        obtain ⟨out, hout⟩ := hcb.1
        cases hout.symm.trans (CoinsView.output_of_coinsAt (h.unconfirmed _ hpool _))
      · exact absurd (hspends txin hin) (hid ▸ h.order.1 tx' (List.mem_cons_of_mem _ htx'))
    · rw [h.flagged id e he]
      refine exists_congr fun txin => and_congr_right fun hin => or_congr_right ⟨?_, ?_⟩
      · rintro ⟨tx', htx', hid, hcb⟩
        rcases List.mem_cons.mp htx' with rfl | hmem'
        · rw [ha.ordinary.1] at hcb
          cases hcb
        · exact ⟨tx', hmem', hid, hcb⟩
      · rintro ⟨tx', htx', hid, hcb⟩
        exact ⟨tx', List.mem_cons_of_mem _ htx', hid, hcb⟩
  · rcases hadds.mem.mp hid with heq | hid
    · exact h.order.2.1 tx' htx' heq
    · exact h.ahead tx' (List.mem_cons_of_mem _ htx') hid
  · rw [List.mem_append, List.mem_singleton]
    rcases hadds.mem.mp hid with rfl | hid
    · exact .inr rfl
    · exact .inl (h.fed tx' (List.mem_cons_of_mem _ htx') id hid hsp)
  · rw [List.mem_append, List.mem_singleton] at hback
    rcases hback with hback | rfl
    · exact hadds.mem.mpr (.inr (h.back_mem a hback))
    · exact hadds.mem.mpr (.inl rfl)
  · rw [List.mem_append, List.mem_singleton] at hback ⊢
    rcases hadds.cases he with ⟨rfl, rfl⟩ | ⟨hc, he⟩
    · refine ⟨fun hid => .inl ?_, fun tx' htx' hid => ?_⟩
      · exact h.fed tx List.mem_cons_self _ ((hadds.mem.mp hid).resolve_left (ha.notSelf txin hin))
          (hspends txin hin)
      · exact h.order.1 tx' (List.mem_cons_of_mem _ htx') (hid ▸ hspends txin hin)
    · obtain ⟨hpool, hother⟩ := h.back_fed a (hback.resolve_right hc) e he txin hin
      refine ⟨fun hid => .inl (hpool ((hadds.mem.mp hid).resolve_left ?_)),
        fun tx' htx' => hother tx' (List.mem_cons_of_mem _ htx')⟩
      exact Ne.symm (hother tx List.mem_cons_self)
  · rcases hadds.mem.mp hid with rfl | hid
    · exact hids
    · exact h.within id hid

end

/-! ## Pools filled by `AcceptToMemoryPool` -/

theorem coherent_empty (crypto : Crypto) (view : CoinsView) : Coherent crypto view CTxMemPool.empty := by
  have hnone : ∀ id, CTxMemPool.empty.mapTx.lookup id = none := AList.lookup_empty
  have hmem : ∀ id, id ∉ CTxMemPool.empty.mapTx := fun id => AList.lookup_eq_none.mp (hnone id)
  refine ⟨⟨fun id e he => ?_, fun o id => ?_, ⟨fun p c => ?_, fun p c => ?_⟩, fun p c hE => hE⟩,
    fun id e he => ?_, fun id e he => ?_, fun id hid => absurd hid (hmem id), fun id e he => ?_⟩
  · rw [hnone] at he
    cases he
  · simp [CTxMemPool.empty]
  · exact iff_of_false List.not_mem_nil fun hE => hmem p hE.1
  · exact iff_of_false List.not_mem_nil fun hE => hmem p hE.1
  all_goals
    rw [hnone] at he
    cases he

/-- After the last transaction only links can be missing. -/
theorem Midway.finish {pool' : CTxMemPool} (h : Midway crypto view ids [] back pool)
    (htx : pool'.mapTx = pool.mapTx)
    (hwired : pool'.Wired crypto fun p c => p ∈ pool'.mapTx ∧ pool'.Edge p c) :
    Coherent crypto view pool' := by
  refine ⟨hwired, htx ▸ h.ordinary, fun id e he txin hin => ?_, htx ▸ h.unconfirmed, fun id e he => ?_⟩
  · rw [htx] at he
    rw [Funded, htx]
    exact (h.funded id e he txin hin).resolve_right fun ⟨_, hno, _⟩ => List.not_mem_nil hno
  · rw [htx] at he
    rw [h.flagged id e he]
    simp

/-- The pool goes on to fit the coins when a transaction is accepted, which the whole pool counts as
back for. -/
theorem Coherent.accept {policy : Policy} {nSpendHeight : ℤ} {pool' : CTxMemPool}
    (h : Coherent crypto view pool)
    (haccept : acceptToMemoryPool crypto policy nSpendHeight view pool tx = some pool') :
    Coherent crypto view pool' := by
  obtain ⟨flag, ha, rfl⟩ :=
    acceptToMemoryPool_eq_some (fun id e he => (h.ordinary id e he).1) haccept
  have hkeys : ∀ {x}, x ∈ pool.mapTx.keys ↔ x ∈ pool.mapTx := AList.mem_keys
  have hmid : Midway crypto view Set.univ [tx] pool.mapTx.keys pool := by
    refine ⟨h.wired.congr fun p c => ?_, h.ordinary,
      fun id e he txin hin => .inl (h.funded id e he txin hin), h.unconfirmed,
      fun id e he => ?_, ⟨?_, by simp, trivial⟩, ?_, ?_, fun _ _ id hid _ => hkeys.mpr hid,
      fun a ha => hkeys.mp ha, fun a _ e he txin hin => ⟨hkeys.mpr, ?_⟩, fun _ _ => trivial⟩
    · exact and_congr_right fun _ =>
        (and_iff_left_of_imp fun hedge hno => hno.2 (hkeys.mpr hedge.mem)).symm
    · rw [h.flagged id e he]
      simp [ha.ordinary.1]
    · rintro tx' htx' ⟨-, txin, hin, hid⟩
      rw [List.mem_singleton.mp htx'] at hid
      exact ha.notSelf txin hin hid
    · simpa using ha.absent
    · simpa using ha.isNew
    · -- An entry that spends the transaction would have no output to spend.
      intro tx' htx' hid
      obtain rfl := List.mem_singleton.mp htx'
      rcases h.funded a e he txin hin with ⟨e', -, he', -⟩ | ⟨out, hout⟩
      · exact ha.isNew (hid ▸ mem_of_lookup he')
      · cases hout.symm.trans (CoinsView.output_of_coinsAt (hid ▸ ha.absent _))
  have hdone := hmid.accept ha trivial
  refine hdone.finish rfl (hdone.wired.congr fun p c => and_congr_right fun _ =>
    and_iff_left_of_imp fun hedge hno => hno.2 ?_)
  rw [List.mem_append, List.mem_singleton, hkeys, or_comm]
  exact (h.wired.addUnchecked ⟨tx, flag⟩ rfl ha.isNew ha.free ha.notSelf).1.mem.mp hedge.mem

/-! ## The loop -/

theorem Midway.resurrect {policy : Policy} {nSpendHeight : ℤ}
    (h : Midway crypto view ids (tx :: rest) back pool) (hids : tx.getHash crypto ∈ ids) :
    Midway crypto view ids rest (X2XCoin.resurrect crypto policy nSpendHeight view (pool, back) tx).2
      (X2XCoin.resurrect crypto policy nSpendHeight view (pool, back) tx).1 := by
  unfold X2XCoin.resurrect
  split_ifs with hkind
  · exact h.remove
  · cases hacc : acceptToMemoryPool crypto policy nSpendHeight view pool tx with
    | none => exact h.remove
    | some pool' =>
      obtain ⟨flag, ha, rfl⟩ :=
        acceptToMemoryPool_eq_some (fun id e he => (h.ordinary id e he).1) hacc
      have hmem : tx.getHash crypto ∈
          (pool.addUnchecked (tx.getHash crypto) ⟨tx, flag⟩).mapTx :=
        (h.wired.addUnchecked ⟨tx, flag⟩ rfl ha.isNew ha.free ha.notSelf).1.mem.mpr (.inl rfl)
      simp only [if_pos hmem]
      exact h.accept ha hids

theorem Midway.foldl (policy : Policy) (nSpendHeight : ℤ)
    (h : Midway crypto view ids rest back pool) (hids : ∀ tx ∈ rest, tx.getHash crypto ∈ ids) :
    Midway crypto view ids []
      (rest.foldl (X2XCoin.resurrect crypto policy nSpendHeight view) (pool, back)).2
      (rest.foldl (X2XCoin.resurrect crypto policy nSpendHeight view) (pool, back)).1 := by
  induction rest generalizing pool back with
  | nil => exact h
  | cons tx rest ih =>
    rw [List.forall_mem_cons] at hids
    exact ih (h.resurrect hids.1) hids.2

/-! ## One block and several -/

/-- The coins of the block are gone and its transactions are still to come. -/
theorem Coherent.midway {view' : CoinsView} {nHeight : ℕ} {vtx : List CTransaction}
    (h : Coherent crypto view pool) (hs : view.Spendable) (hu : Undone crypto nHeight vtx view view')
    (horder : InOrder crypto vtx)
    (hnew : ∀ tx ∈ vtx, ∀ id ∈ pool.mapTx, tx.getHash crypto ≠ id ∧ ¬ tx.Spends id)
    (hids : ∀ id ∈ pool.mapTx, id ∈ ids)
    (hback : ∀ id ∈ pool.mapTx, ∀ n, (view'.coinsAt id).output n = none) :
    Midway crypto view' ids vtx [] pool := by
  -- What becomes of an output of the view.
  have hview : ∀ {o out}, view.output o = some out →
      (view'.output o = some out ∧ (view'.coinsAt o.hash).fCoinBase = (view.coinsAt o.hash).fCoinBase ∧
        ∀ tx ∈ vtx, tx.getHash crypto ≠ o.hash) ∨
      ∃ tx ∈ vtx, tx.getHash crypto = o.hash ∧
        (CCoins.fromTx tx MEMPOOL_HEIGHT).output o.n.toNat = some out ∧
        (view.coinsAt o.hash).fCoinBase = tx.isCoinBase ∧ view'.output o = none := by
    intro o out hout
    rw [CoinsView.output_eq_coinsAt] at hout
    by_cases hblock : ∃ tx ∈ vtx, tx.getHash crypto = o.hash
    · obtain ⟨tx, htx, hid⟩ := hblock
      rw [← hid] at hout
      obtain ⟨hcreated, hcb⟩ := hu.created tx htx _ out hout (hs _ _ out hout)
      refine .inr ⟨tx, htx, hid, hcreated, hid ▸ hcb, CoinsView.output_of_coinsAt ?_⟩
      rw [← hid]
      exact hu.removed tx htx _
    · simp only [not_exists, not_and] at hblock
      obtain ⟨hkept, hmeta⟩ := hu.kept o.hash hblock _ out hout
      rw [← CoinsView.output_eq_coinsAt] at hkept
      exact .inl ⟨hkept, CCoins.fCoinBase_eq_of_metadata hmeta, hblock⟩
  refine ⟨?_, h.ordinary, fun id e he txin hin => ?_, hback, fun id e he => ?_, horder, hu.removed,
    fun tx htx hid => (hnew tx htx _ hid).1 rfl, fun tx htx id hid hsp => absurd hsp (hnew tx htx id hid).2,
    by simp, by simp, hids⟩
  · simpa using h.wired
  · rcases h.funded id e he txin hin with hpool | ⟨out, hout⟩
    · exact .inl (.inl hpool)
    · rcases hview hout with ⟨hout', -⟩ | ⟨tx, htx, hid, hcreated, -⟩
      · exact .inl (.inr ⟨out, hout'⟩)
      · exact .inr ⟨tx, htx, hid, out, hcreated⟩
  · rw [h.flagged id e he]
    refine exists_congr fun txin => and_congr_right fun hin => ?_
    rcases h.funded id e he txin hin with ⟨e', out, he', -⟩ | ⟨out, hout⟩
    · -- The parent is in the pool: it has no coins and is not in the block.
      have hmem := mem_of_lookup he'
      refine iff_of_false ?_ ?_
      · rintro ⟨⟨out', hout'⟩, -⟩
        cases hout'.symm.trans (CoinsView.output_of_coinsAt (h.unconfirmed _ hmem _))
      · rintro (⟨⟨out', hout'⟩, -⟩ | ⟨tx, htx, hid, -⟩)
        · cases hout'.symm.trans (CoinsView.output_of_coinsAt (hback _ hmem _))
        · exact (hnew tx htx _ hmem).1 hid
    · rcases hview hout with ⟨hout', hcb, hother⟩ | ⟨tx, htx, hid, -, hcb, hnone⟩
      · rw [SpendsCoinBase, SpendsCoinBase, hcb]
        constructor
        · rintro ⟨-, hflag⟩
          exact .inl ⟨⟨out, hout'⟩, hflag⟩
        · rintro (⟨-, hflag⟩ | ⟨tx, htx, hid, -⟩)
          · exact ⟨⟨out, hout⟩, hflag⟩
          · exact absurd hid (hother tx htx)
      · constructor
        · rintro ⟨-, hflag⟩
          exact .inr ⟨tx, htx, hid, hcb ▸ hflag⟩
        · rintro (⟨⟨out', hout'⟩, -⟩ | ⟨tx', htx', hid', hflag⟩)
          · cases hout'.symm.trans hnone
          · have hcoins := hout
            rw [CoinsView.output_eq_coinsAt, ← hid'] at hcoins
            have hboth := (hu.created tx' htx' _ out hcoins (hs _ _ out hcoins)).2
            rw [hid', hflag] at hboth
            exact ⟨⟨out, hout⟩, hboth⟩

/-- After the loop, `UpdateTransactionsFromBlock` adds the links that are missing. -/
theorem Midway.coherent (h : Midway crypto view ids [] back pool) :
    Coherent crypto view (pool.updateTransactionsFromBlock back) ∧
      ∀ id ∈ (pool.updateTransactionsFromBlock back).mapTx, id ∈ ids := by
  obtain ⟨htx, hwired⟩ := h.wired.updateTransactionsFromBlock back
  refine ⟨h.finish htx (hwired.congr fun p c => ?_), fun id hid => h.within id (htx ▸ hid)⟩
  have hedge : (pool.updateTransactionsFromBlock back).Edge p c ↔ pool.Edge p c := by
    rw [Edge, htx, Edge]
  rw [hedge, htx]
  tauto

theorem Coherent.disconnectTip {keys : PubKeys} {s s' : CoinsView × CTxMemPool} {b : TipBlock}
    {older : List CBlock} (h : Coherent crypto s.1 s.2) (hs : s.1.Spendable)
    (hundo : SpendableUndo crypto keys b.pprev b.undoData)
    (hchain : Chronological crypto (b.block :: older))
    (hnew : Unconfirmed crypto s.2 (b.block :: older))
    (hd : b.disconnectTip crypto keys s = some s') :
    Coherent crypto s'.1 s'.2 ∧ s'.1.Spendable ∧ Unconfirmed crypto s'.2 older := by
  simp only [TipBlock.disconnectTip, Option.bind_eq_bind, Option.bind_eq_some_iff] at hd
  obtain ⟨⟨view', fClean⟩, hblock, hd⟩ := hd
  simp only at hd
  split_ifs at hd with hclean
  subst hclean
  obtain rfl := Option.some.inj hd
  obtain ⟨horder, hcb, hlater, -⟩ := hchain
  obtain ⟨hundone, hspend⟩ := disconnectBlock_clean hblock horder hcb
  have hnew' := hnew b.block List.mem_cons_self
  set ids : Set Uint256 := {id | id ∈ s.2.mapTx ∨ ∃ tx ∈ b.block.vtx, tx.getHash crypto = id}
  have hback : ∀ id ∈ s.2.mapTx, ∀ n, (view'.coinsAt id).output n = none := by
    intro id hid n
    rw [hundone.same id fun tx htx => hnew' tx htx id hid]
    exact h.unconfirmed id hid n
  have hmid : Midway crypto view' ids b.block.vtx [] s.2 :=
    h.midway hs hundone horder hnew' (fun id hid => .inl hid) hback
  obtain ⟨hcoherent, hwithin⟩ :=
    (hmid.foldl b.policy (b.pprev.nHeight + 1) fun tx htx => .inr ⟨tx, htx, rfl⟩).coherent
  refine ⟨hcoherent, hspend hs hundo, fun b' hb' tx htx id hid => ?_⟩
  rcases hwithin id hid with hold | ⟨tx', htx', rfl⟩
  · exact hnew b' (List.mem_cons_of_mem _ hb') tx htx id hold
  · exact hlater tx' htx' b' hb' tx htx

end

end X2XCoin
