import Mathlib.Data.List.AList
import X2XCoin.Lib.Multimap
import X2XCoin.Primitives.Transaction

/-!
# The transactions of a wallet and what they spend

`mapWallet` and `mapTxSpends` of `CWallet`, with `IsSpent`, `AbandonTransaction` and the functions
around them.  Of a `CWalletTx` the model keeps the transaction, the block it is in or conflicts
with,
and the cached credit of its available outputs.  A failed assertion ends the program.
-/

open ByteCodec

namespace X2XCoin

/-! ## Order of hashes and outpoints -/

/-- The bytes that `Compare` of two hashes looks at, from the first to the last. -/
def Uint256.compareKey (hash : Uint256) : List ℕ := (writeUint256 hash).map UInt8.toNat

theorem Uint256.compareKey_injective : Function.Injective Uint256.compareKey := by
  intro a b h
  have hbytes : writeUint256 a = writeUint256 b :=
    List.map_injective_iff.mpr (fun x y hxy => UInt8.toNat_inj.mp hxy) h
  have hnat := congrArg leNat hbytes
  rw [writeUint256, writeUint256, leNat_leBytes_of_lt a.isLt, leNat_leBytes_of_lt b.isLt] at hnat
  exact BitVec.eq_of_toNat_eq hnat

/-- The order of a `std::map` by outpoints. -/
instance : LinearOrder COutPoint :=
  LinearOrder.lift' (fun o => toLex (Uint256.compareKey o.hash, o.n.toNat)) (by
    rintro ⟨a, m⟩ ⟨b, n⟩ h
    obtain ⟨hhash, hn⟩ := Prod.mk.inj (toLex.injective h)
    obtain rfl : a = b := Uint256.compareKey_injective hhash
    obtain rfl : m = n := UInt32.toNat_inj.mp hn
    rfl)

theorem COutPoint.le_iff {a b : COutPoint} : a ≤ b ↔ Uint256.compareKey a.hash <
    Uint256.compareKey b.hash ∨ a.hash = b.hash ∧ a.n.toNat ≤ b.n.toNat := by
  rw [← Uint256.compareKey_injective.eq_iff]
  exact Prod.Lex.toLex_le_toLex

/-- Between two outputs of a transaction there are only outputs of it. -/
theorem COutPoint.hash_eq_of_le {a b c : COutPoint} (hab : a ≤ b) (hbc : b ≤ c)
    (h : a.hash = c.hash) : b.hash = a.hash := by
  rw [le_iff] at hab hbc
  obtain hab | ⟨hab, -⟩ := hab
  · obtain hbc | ⟨hbc, -⟩ := hbc
    · rw [h] at hab
      exact absurd hab hbc.asymm
    · rw [hbc, h]
  · exact hab.symm

namespace Wallet

/-- What the wallet asks the node: the height of the tip, the heights of the blocks of the active
chain and the transactions of the mempool. -/
structure NodeView where
  height : ℤ
  heightOf : Uint256 → Option ℤ
  inMempool : Uint256 → Bool

def ABANDON_HASH : Uint256 := 1

structure CWalletTx where
  tx : CTransaction
  hashBlock : Uint256 := 0
  nIndex : ℤ := -1
  nAvailableCreditCached : Option CAmount := none
  deriving DecidableEq

namespace CWalletTx

def hashUnset (wtx : CWalletTx) : Bool := wtx.hashBlock = 0 || wtx.hashBlock = ABANDON_HASH

def isAbandoned (wtx : CWalletTx) : Bool := wtx.hashBlock = ABANDON_HASH

def getDepthInMainChain (node : NodeView) (wtx : CWalletTx) : ℤ :=
  if wtx.hashUnset then 0
  else
    match node.heightOf wtx.hashBlock with
    | none => 0
    | some nHeight => (if wtx.nIndex = -1 then -1 else 1) * (node.height - nHeight + 1)

def markDirty (wtx : CWalletTx) : CWalletTx := { wtx with nAvailableCreditCached := none }

def setAbandoned (wtx : CWalletTx) : CWalletTx :=
  { wtx with nIndex := -1, hashBlock := ABANDON_HASH }

end CWalletTx

/-- Why a function of the wallet does not return. -/
inductive Halt
  | assertion
  /-- The bound on the turns of a loop; it is never reached. -/
  | turns
  deriving DecidableEq

end Wallet

structure CWallet where
  mapWallet : AList fun _ : Uint256 => Wallet.CWalletTx
  mapTxSpends : Multimap COutPoint Uint256

namespace CWallet

open Wallet

variable (node : NodeView) (w : CWallet)

/-- Some transaction of the wallet spends the output, is not conflicted and not abandoned. -/
def isSpent (outpoint : COutPoint) : Bool :=
  (w.mapTxSpends.equalRange outpoint).any fun entry =>
    match w.mapWallet.lookup entry.2 with
    | none => false
    | some wtx =>
      let depth := wtx.getDepthInMainChain node
      0 < depth || (depth = 0 && !wtx.isAbandoned)

/-- `std::set` of hashes: a list in their order. -/
def setInsert (hash : Uint256) (set : List Uint256) : List Uint256 :=
  if hash ∈ set then set
  else set.orderedInsert (fun a b => Uint256.compareKey a ≤ Uint256.compareKey b) hash

def markDirty (hash : Uint256) : CWallet :=
  match w.mapWallet.lookup hash with
  | none => w
  | some wtx => { w with mapWallet := w.mapWallet.insert hash wtx.markDirty }

/-- The transactions whose outputs are spent are marked. -/
def markInputsDirty (tx : CTransaction) : CWallet :=
  tx.vin.foldl (fun w txin => w.markDirty txin.prevout.hash) w

/-- The spenders that a loop of `AbandonTransaction(hashTx)` finds for the transaction `now`: it
starts at the first output of `hashTx`. -/
def spendersFrom (hashTx now : Uint256) : List Uint256 :=
  ((w.mapTxSpends.lowerBound ⟨hashTx, 0⟩).takeWhile fun entry => entry.1.hash = now).map Prod.snd

/-- The spenders that are not done yet are added to those to do. -/
def addSpenders (done spenders todo : List Uint256) : List Uint256 :=
  spenders.foldl (fun todo spender => if spender ∈ done then todo else setInsert spender todo) todo

/-- The loop of `AbandonTransaction`. -/
def abandonLoop (hashTx : Uint256) : ℕ → List Uint256 → List Uint256 → CWallet → Except Halt CWallet
  | _, [], _, w => .ok w
  | 0, _ :: _, _, _ => .error .turns
  | turns + 1, now :: todo, done, w =>
    match w.mapWallet.lookup now with
    | none => .error .assertion
    | some wtx =>
      if 0 < wtx.getDepthInMainChain node then .error .assertion
      else if wtx.getDepthInMainChain node = 0 && !wtx.isAbandoned then
        if node.inMempool now then .error .assertion
        else
          let w := { w with mapWallet := w.mapWallet.insert now wtx.setAbandoned.markDirty }
          let todo := addSpenders (now :: done) (w.spendersFrom hashTx now) todo
          abandonLoop hashTx turns todo (now :: done) (w.markInputsDirty wtx.tx)
      else abandonLoop hashTx turns todo (now :: done) w

def abandonTransaction (hashTx : Uint256) : Except Halt (Bool × CWallet) :=
  match w.mapWallet.lookup hashTx with
  | none => .error .assertion
  | some origtx =>
    if 0 < origtx.getDepthInMainChain node || node.inMempool hashTx then .ok (false, w)
    else do
      let w ← abandonLoop node hashTx (w.mapTxSpends.entries.length + 1) [hashTx] [] w
      pure (true, w)

/-! ## Spenders -/

section

variable {w : CWallet} {hashTx now : Uint256}

/-- `mapTxSpends` records that the second transaction spends an output of the first. -/
def Spends (w : CWallet) (hashTx spender : Uint256) : Prop :=
  ∃ n, (⟨hashTx, n⟩, spender) ∈ w.mapTxSpends.entries

theorem zero_le_outpoint (hashTx : Uint256) (n : UInt32) :
    (⟨hashTx, 0⟩ : COutPoint) ≤ ⟨hashTx, n⟩ :=
  COutPoint.le_iff.mpr (.inr ⟨rfl, Nat.zero_le _⟩)

/-- For the transaction it is called for the loop finds all spenders. -/
theorem mem_spendersFrom_self {spender : Uint256} :
    spender ∈ w.spendersFrom hashTx hashTx ↔ w.Spends hashTx spender := by
  have hdown : Multimap.DownClosed (w.mapTxSpends.lowerBound ⟨hashTx, 0⟩)
      fun entry => entry.1.hash = hashTx := by
    intro a ha b _ hab hb
    have hle := (Multimap.mem_lowerBound.mp ha).2
    exact decide_eq_true (COutPoint.hash_eq_of_le hle hab (of_decide_eq_true hb).symm)
  rw [spendersFrom, Multimap.takeWhile_eq_filter (Multimap.pairwise_lowerBound _ _) hdown]
  constructor
  · intro h
    obtain ⟨⟨⟨hash, n⟩, s⟩, hmem, rfl⟩ := List.mem_map.mp h
    obtain ⟨hmem, hhash⟩ := List.mem_filter.mp hmem
    obtain rfl : hash = hashTx := of_decide_eq_true hhash
    exact ⟨n, (Multimap.mem_lowerBound.mp hmem).1⟩
  · rintro ⟨n, hmem⟩
    refine List.mem_map.mpr ⟨(⟨hashTx, n⟩, spender), List.mem_filter.mpr ⟨?_, by simp⟩, rfl⟩
    exact Multimap.mem_lowerBound.mpr ⟨hmem, zero_le_outpoint hashTx n⟩

theorem spendersFrom_of_ne {spender : Uint256} (hspends : w.Spends hashTx spender)
    (hne : now ≠ hashTx) : w.spendersFrom hashTx now = [] := by
  obtain ⟨n, hmem⟩ := hspends
  have hmem' := Multimap.mem_lowerBound.mpr ⟨hmem, zero_le_outpoint hashTx n⟩
  have hsorted := w.mapTxSpends.pairwise_lowerBound ⟨hashTx, 0⟩
  have hle : ∀ e ∈ w.mapTxSpends.lowerBound ⟨hashTx, 0⟩, (⟨hashTx, 0⟩ : COutPoint) ≤ e.1 :=
    fun e he => (Multimap.mem_lowerBound.mp he).2
  rw [spendersFrom]
  cases hlist : w.mapTxSpends.lowerBound ⟨hashTx, 0⟩ with
  | nil => rfl
  | cons e l =>
    rw [hlist] at hmem' hsorted hle
    have hhash : e.1.hash = hashTx := by
      obtain heq | hin := List.mem_cons.mp hmem'
      · rw [← heq]
      · exact COutPoint.hash_eq_of_le (hle e List.mem_cons_self)
          ((List.pairwise_cons.mp hsorted).1 _ hin) rfl
    rw [List.takeWhile_cons, if_neg (by simp [hhash, hne.symm])]
    rfl

theorem mem_setInsert {a b : Uint256} {set : List Uint256} :
    a ∈ setInsert b set ↔ a = b ∨ a ∈ set := by
  unfold setInsert
  split_ifs with h
  · exact ⟨.inr, fun ha => ha.elim (fun heq => heq ▸ h) id⟩
  · exact List.mem_orderedInsert _

theorem length_setInsert_le (a : Uint256) (set : List Uint256) :
    (setInsert a set).length ≤ set.length + 1 := by
  unfold setInsert
  split_ifs
  · exact Nat.le_succ _
  · rw [List.orderedInsert_length]

theorem nodup_setInsert {a : Uint256} {set : List Uint256} (h : set.Nodup) :
    (setInsert a set).Nodup := by
  unfold setInsert
  split_ifs with ha
  · exact h
  · exact (List.perm_orderedInsert _ a set).nodup_iff.mpr (List.nodup_cons.mpr ⟨ha, h⟩)

theorem nodup_addSpenders {done spenders todo : List Uint256} (h : todo.Nodup) :
    (addSpenders done spenders todo).Nodup := by
  refine List.foldlRecOn spenders _ h fun set hset s _ => ?_
  split_ifs
  · exact hset
  · exact nodup_setInsert hset

theorem mem_addSpenders {done spenders todo : List Uint256} {a : Uint256} :
    a ∈ addSpenders done spenders todo ↔ a ∈ todo ∨ a ∈ spenders ∧ a ∉ done := by
  induction spenders generalizing todo with
  | nil => simp [addSpenders]
  | cons s spenders ih =>
    have heq : addSpenders done (s :: spenders) todo =
        addSpenders done spenders (if s ∈ done then todo else setInsert s todo) := rfl
    rw [heq, ih, List.mem_cons]
    split_ifs with h
    · constructor
      · exact Or.imp_right fun h => ⟨.inr h.1, h.2⟩
      · rintro (h | ⟨rfl | h, h'⟩)
        · exact .inl h
        · exact absurd ‹_› h'
        · exact .inr ⟨h, h'⟩
    · rw [mem_setInsert]
      constructor
      · rintro ((rfl | h') | h')
        · exact .inr ⟨.inl rfl, h⟩
        · exact .inl h'
        · exact .inr ⟨.inr h'.1, h'.2⟩
      · rintro (h' | ⟨rfl | h', h''⟩)
        · exact .inl (.inr h')
        · exact .inl (.inl rfl)
        · exact .inr ⟨h', h''⟩

theorem length_addSpenders_le (done spenders todo : List Uint256) :
    (addSpenders done spenders todo).length ≤ todo.length + spenders.length := by
  induction spenders generalizing todo with
  | nil => exact le_rfl
  | cons s spenders ih =>
    refine (ih _).trans ?_
    have := length_setInsert_le s todo
    beta_reduce
    split_ifs <;> simp only [List.length_cons] <;> omega

theorem length_spendersFrom_le : (w.spendersFrom hashTx now).length ≤
    w.mapTxSpends.entries.length := by
  rw [spendersFrom, List.length_map]
  exact ((List.takeWhile_sublist _).trans (List.dropWhile_sublist _)).length_le

end

/-! ## What is known of a transaction -/

section

variable {node : NodeView} {w : CWallet}

/-- The block and index of a transaction of the wallet. -/
def status (w : CWallet) (hash : Uint256) : Option (Uint256 × ℤ) :=
  (w.mapWallet.lookup hash).map fun wtx => (wtx.hashBlock, wtx.nIndex)

/-- The transaction is in the wallet, neither in a block nor conflicted, and not abandoned. -/
def Pending (node : NodeView) (w : CWallet) (hash : Uint256) : Prop :=
  ∃ wtx, w.mapWallet.lookup hash = some wtx ∧ wtx.getDepthInMainChain node = 0 ∧
    wtx.isAbandoned = false

theorem status_insert {hash : Uint256} {wtx : CWalletTx} {spends : Multimap COutPoint Uint256}
    (t : Uint256) : status ⟨w.mapWallet.insert hash wtx, spends⟩ t =
      if t = hash then some (wtx.hashBlock, wtx.nIndex) else w.status t := by
  rw [status]
  split_ifs with h
  · rw [h, AList.lookup_insert]
    rfl
  · rw [AList.lookup_insert_ne h]
    rfl

theorem status_markDirty (hash t : Uint256) : (w.markDirty hash).status t = w.status t := by
  unfold markDirty
  split
  · rfl
  · rename_i wtx hlookup
    rw [status_insert]
    split_ifs with h
    · rw [h, status, hlookup]
      rfl
    · rfl

theorem mapTxSpends_markDirty (hash : Uint256) :
    (w.markDirty hash).mapTxSpends = w.mapTxSpends := by
  unfold markDirty
  split <;> rfl

theorem status_markInputsDirty (tx : CTransaction) (t : Uint256) :
    (w.markInputsDirty tx).status t = w.status t := by
  refine List.foldlRecOn (motive := fun w' => status w' t = w.status t) tx.vin _ rfl ?_
  intro w' h txin _
  rw [status_markDirty, h]

theorem mapTxSpends_markInputsDirty (tx : CTransaction) :
    (w.markInputsDirty tx).mapTxSpends = w.mapTxSpends := by
  refine List.foldlRecOn (motive := fun w' : CWallet => w'.mapTxSpends = w.mapTxSpends) tx.vin _ rfl
    ?_
  intro w' h txin _
  rw [mapTxSpends_markDirty, h]

theorem exists_of_status {t hashBlock : Uint256} {nIndex : ℤ}
    (h : w.status t = some (hashBlock, nIndex)) :
    ∃ wtx, w.mapWallet.lookup t = some wtx ∧ wtx.hashBlock = hashBlock ∧ wtx.nIndex = nIndex := by
  obtain ⟨wtx, hlookup, heq⟩ := Option.map_eq_some_iff.mp h
  exact ⟨wtx, hlookup, (Prod.mk.inj heq).1, (Prod.mk.inj heq).2⟩

theorem getDepthInMainChain_congr {a b : CWalletTx} (hblock : a.hashBlock = b.hashBlock)
    (hindex : a.nIndex = b.nIndex) :
    a.getDepthInMainChain node = b.getDepthInMainChain node := by
  rw [CWalletTx.getDepthInMainChain, CWalletTx.getDepthInMainChain, CWalletTx.hashUnset,
    CWalletTx.hashUnset, hblock, hindex]

/-- A transaction with the same block and index, in another state of the wallet. -/
theorem lookup_of_status (node : NodeView) {w' : CWallet} {t : Uint256} {wtx : CWalletTx}
    (h : w'.status t = w.status t) (hlookup : w.mapWallet.lookup t = some wtx) :
    ∃ wtx', w'.mapWallet.lookup t = some wtx' ∧
      wtx'.getDepthInMainChain node = wtx.getDepthInMainChain node ∧
      wtx'.isAbandoned = wtx.isAbandoned := by
  have hstatus : w'.status t = some (wtx.hashBlock, wtx.nIndex) := by rw [h, status, hlookup]; rfl
  obtain ⟨wtx', hlookup', hblock, hindex⟩ := exists_of_status hstatus
  refine ⟨wtx', hlookup', getDepthInMainChain_congr hblock hindex, ?_⟩
  rw [CWalletTx.isAbandoned, CWalletTx.isAbandoned, hblock]

theorem Pending.of_status {w' : CWallet} {t : Uint256} (h : w'.status t = w.status t)
    (hp : w.Pending node t) : w'.Pending node t := by
  obtain ⟨wtx, hlookup, hdepth, hnot⟩ := hp
  obtain ⟨wtx', hlookup', hdepth', hnot'⟩ := lookup_of_status node h hlookup
  exact ⟨wtx', hlookup', hdepth'.trans hdepth, hnot'.trans hnot⟩

/-! ## Abandoning -/

/-- The pending transactions of a list are abandoned and nothing else changes. -/
structure Abandons (node : NodeView) (visited : List Uint256) (w w' : CWallet) : Prop where
  spends : w'.mapTxSpends = w.mapTxSpends
  abandoned : ∀ t ∈ visited, w.Pending node t → w'.status t = some (ABANDON_HASH, -1)
  same : ∀ t, t ∉ visited ∨ ¬ w.Pending node t → w'.status t = w.status t

theorem Abandons.refl (w : CWallet) : Abandons node [] w w :=
  ⟨rfl, fun _ ht => (by cases ht), fun _ _ => rfl⟩

theorem Abandons.cons {now : Uint256} {visited : List Uint256} {w' w'' : CWallet}
    (hnow : now ∉ visited) (h : Abandons node [now] w w') (h' : Abandons node visited w' w'') :
    Abandons node (now :: visited) w w'' := by
  have hother : ∀ t, t ≠ now → w'.status t = w.status t := fun t ht => h.same t (.inl (by simpa using ht))
  refine ⟨h'.spends.trans h.spends, fun t ht hp => ?_, fun t ht => ?_⟩
  · obtain rfl | ht := List.mem_cons.mp ht
    · rw [h'.same t (.inl hnow), h.abandoned t List.mem_cons_self hp]
    · have hne : t ≠ now := fun heq => hnow (heq ▸ ht)
      exact h'.abandoned t ht (hp.of_status (hother t hne))
  · by_cases hne : t = now
    · subst hne
      rw [h'.same t (.inl hnow)]
      exact h.same t (.inr (ht.resolve_left (by simp)))
    · rw [h'.same t, hother t hne]
      refine ht.imp (fun hnot hmem => hnot (List.mem_cons_of_mem _ hmem)) fun hnot hp => ?_
      exact hnot (hp.of_status (hother t hne).symm)

theorem abandons_setAbandoned {now : Uint256} {wtx : CWalletTx} (hp : w.Pending node now) :
    Abandons node [now] w (markInputsDirty
      { w with mapWallet := w.mapWallet.insert now wtx.setAbandoned.markDirty } wtx.tx) := by
  refine ⟨mapTxSpends_markInputsDirty _, fun t ht _ => ?_, fun t ht => ?_⟩
  · rw [List.mem_singleton.mp ht, status_markInputsDirty, status_insert, if_pos rfl]
    rfl
  · rw [status_markInputsDirty, status_insert, if_neg]
    rintro rfl
    exact ht.elim (fun h => h List.mem_cons_self) fun h => h hp

theorem abandons_of_not_pending {now : Uint256} (hp : ¬ w.Pending node now) :
    Abandons node [now] w w :=
  ⟨rfl, fun t ht hpt => absurd (List.mem_singleton.mp ht ▸ hpt) hp, fun _ _ => rfl⟩

theorem Spends.congr {w' : CWallet} {a b : Uint256} (h : w'.mapTxSpends = w.mapTxSpends)
    (hs : w.Spends a b) : w'.Spends a b := by
  rw [Spends, h]
  exact hs

/-- The loop over transactions that are not the one it was called for: it abandons them and looks at
no others. -/
theorem abandonLoop_others {hashTx spender : Uint256} {turns : ℕ} {todo done : List Uint256}
    (hspends : w.Spends hashTx spender) (hne : hashTx ∉ todo) (hnodup : todo.Nodup)
    (hturns : todo.length ≤ turns) :
    (∀ w', abandonLoop node hashTx turns todo done w = .ok w' → Abandons node todo w w') ∧
      abandonLoop node hashTx turns todo done w ≠ .error .turns := by
  induction todo generalizing turns done w with
  | nil =>
    rw [abandonLoop]
    refine ⟨fun w' h => ?_, fun h => by cases h⟩
    cases h
    exact .refl w
  | cons now todo ih =>
    obtain ⟨turns, rfl⟩ : ∃ n, turns = n + 1 := Nat.exists_eq_succ_of_ne_zero
      (Nat.ne_of_gt (Nat.lt_of_lt_of_le (Nat.succ_pos _) hturns))
    rw [List.mem_cons, not_or] at hne
    rw [List.nodup_cons] at hnodup
    have hlen : todo.length ≤ turns := Nat.le_of_succ_le_succ hturns
    rw [abandonLoop]
    cases hlookup : w.mapWallet.lookup now with
    | none => exact ⟨fun w' h => (by cases h), fun h => (by cases h)⟩
    | some wtx =>
      simp only
      split_ifs with hdepth hpending hpool
      · exact ⟨fun w' h => (by cases h), fun h => (by cases h)⟩
      · exact ⟨fun w' h => (by cases h), fun h => (by cases h)⟩
      · rw [Bool.and_eq_true, decide_eq_true_iff, Bool.not_eq_true'] at hpending
        have hturn := @abandons_setAbandoned node w now wtx ⟨wtx, hlookup, hpending⟩
        have hnone : spendersFrom { w with
            mapWallet := w.mapWallet.insert now wtx.setAbandoned.markDirty } hashTx now = [] :=
          spendersFrom_of_ne (hspends.congr rfl) (Ne.symm hne.1)
        have hspends' := hspends.congr hturn.spends
        rw [hnone]
        exact ⟨fun w' h => hturn.cons hnodup.1 ((ih hspends' hne.2 hnodup.2 hlen).1 w' h),
          (ih hspends' hne.2 hnodup.2 hlen).2⟩
      · have hturn : Abandons node [now] w w := by
          refine abandons_of_not_pending ?_
          rintro ⟨wtx', hlookup', hdepth', hnot'⟩
          rw [hlookup] at hlookup'
          cases hlookup'
          exact hpending (by simp [hdepth', hnot'])
        exact ⟨fun w' h => hturn.cons hnodup.1 ((ih hspends hne.2 hnodup.2 hlen).1 w' h),
          (ih hspends hne.2 hnodup.2 hlen).2⟩

/-- The transactions that `AbandonTransaction` looks at: the given one and, if that is pending, those
that spend it directly. -/
def Visited (node : NodeView) (w : CWallet) (hashTx : Uint256) (visited : List Uint256) : Prop :=
  hashTx ∈ visited ∧
    ∀ t, t ≠ hashTx → (t ∈ visited ↔ w.Pending node hashTx ∧ w.Spends hashTx t)

theorem abandonLoop_spenders {hashTx : Uint256} {turns : ℕ} {done : List Uint256}
    (hturns : w.mapTxSpends.entries.length ≤ turns) :
    let todo := addSpenders [hashTx] (w.spendersFrom hashTx hashTx) []
    (∀ w', abandonLoop node hashTx turns todo done w = .ok w' → Abandons node todo w w') ∧
      abandonLoop node hashTx turns todo done w ≠ .error .turns := by
  intro todo
  have hmem : ∀ t ∈ todo, w.Spends hashTx t ∧ t ≠ hashTx := by
    intro t ht
    obtain ht | ⟨ht, hne⟩ := mem_addSpenders.mp ht
    · cases ht
    · exact ⟨mem_spendersFrom_self.mp ht, fun heq => hne (heq ▸ List.mem_cons_self)⟩
  have hlen : todo.length ≤ turns := by
    have h := length_addSpenders_le [hashTx] (w.spendersFrom hashTx hashTx) []
    rw [List.length_nil, Nat.zero_add] at h
    exact (h.trans length_spendersFrom_le).trans hturns
  have hnodup : todo.Nodup := nodup_addSpenders List.nodup_nil
  clear_value todo
  cases todo with
  | nil =>
    rw [abandonLoop]
    refine ⟨fun w' h => ?_, fun h => (by cases h)⟩
    cases h
    exact .refl w
  | cons spender todo =>
    exact abandonLoop_others (hmem spender List.mem_cons_self).1
      (fun hin => (hmem hashTx hin).2 rfl) hnodup hlen

theorem abandonTransaction_spec (node : NodeView) (w : CWallet) (hashTx : Uint256) :
    (∀ w', w.abandonTransaction node hashTx = .ok (true, w') →
      ∃ visited, Visited node w hashTx visited ∧ Abandons node visited w w') ∧
    w.abandonTransaction node hashTx ≠ .error .turns := by
  unfold abandonTransaction
  cases hlookup : w.mapWallet.lookup hashTx with
  | none => exact ⟨fun w' h => (by cases h), fun h => (by cases h)⟩
  | some origtx =>
    simp only
    split_ifs with hconfirmed
    · exact ⟨fun w' h => (by cases h), fun h => (by cases h)⟩
    · rw [Bool.or_eq_true, decide_eq_true_iff, not_or] at hconfirmed
      rw [abandonLoop]
      simp only [hlookup]
      rw [if_neg hconfirmed.1, if_neg hconfirmed.2]
      split_ifs with hpending
      · rw [Bool.and_eq_true, decide_eq_true_iff, Bool.not_eq_true'] at hpending
        have hp : w.Pending node hashTx := ⟨origtx, hlookup, hpending⟩
        have hturn := @abandons_setAbandoned node w hashTx origtx hp
        have hspenders : spendersFrom { w with
            mapWallet := w.mapWallet.insert hashTx origtx.setAbandoned.markDirty } hashTx hashTx =
          spendersFrom (markInputsDirty { w with
            mapWallet := w.mapWallet.insert hashTx origtx.setAbandoned.markDirty } origtx.tx)
              hashTx hashTx := by
          rw [spendersFrom, spendersFrom, hturn.spends]
        rw [hspenders]
        generalize markInputsDirty { w with
          mapWallet := w.mapWallet.insert hashTx origtx.setAbandoned.markDirty } origtx.tx = w₁ at hturn ⊢
        obtain ⟨hok, hhalt⟩ := @abandonLoop_spenders node w₁ hashTx
          w.mapTxSpends.entries.length [hashTx] (by rw [hturn.spends])
        cases hloop : abandonLoop node hashTx w.mapTxSpends.entries.length
            (addSpenders [hashTx] (w₁.spendersFrom hashTx hashTx) []) [hashTx] w₁ with
        | error e =>
          refine ⟨fun w' h => (by cases h), fun h => ?_⟩
          cases h
          exact hhalt hloop
        | ok w₂ =>
          refine ⟨fun w' h => ?_, fun h => (by cases h)⟩
          cases h
          refine ⟨_, ⟨List.mem_cons_self, fun t ht => ?_⟩, hturn.cons ?_ (hok w₂ hloop)⟩
          · rw [List.mem_cons, or_iff_right ht, mem_addSpenders, mem_spendersFrom_self]
            have hcongr : w₁.Spends hashTx t ↔ w.Spends hashTx t := by
              rw [Spends, Spends, hturn.spends]
            simp [hcongr, hp, ht]
          · rw [mem_addSpenders]
            simp
      · refine ⟨fun w' h => ?_, fun h => ?_⟩
        · rw [abandonLoop] at h
          cases h
          have hp : ¬ w.Pending node hashTx := by
            rintro ⟨wtx', hlookup', hdepth', hnot'⟩
            rw [hlookup] at hlookup'
            cases hlookup'
            exact hpending (by simp [hdepth', hnot'])
          refine ⟨[hashTx], ⟨List.mem_cons_self, fun t ht => ?_⟩, abandons_of_not_pending hp⟩
          exact iff_of_false (fun hmem => ht (List.mem_singleton.mp hmem)) fun h => hp h.1
        · rw [abandonLoop] at h
          cases h

/-- Afterwards every transaction that a chain of spends leads to is abandoned if it is neither in the
main chain nor conflicted. -/
def AbandonsClosure (node : NodeView) (w w' : CWallet) (hashTx : Uint256) : Prop :=
  ∀ t wtx, Relation.TransGen w.Spends hashTx t → w'.mapWallet.lookup t = some wtx →
    wtx.getDepthInMainChain node = 0 → wtx.isAbandoned = true

/-- `AbandonTransaction` abandons all that depends on a transaction exactly if everything of it that
is still pending is the transaction itself or spends it directly, and the transaction is pending. -/
theorem abandons_closure_iff (node : NodeView) (w : CWallet) (hashTx : Uint256) :
    w.abandonTransaction node hashTx ≠ .error .turns ∧
    ∀ w', w.abandonTransaction node hashTx = .ok (true, w') →
      w'.mapTxSpends = w.mapTxSpends ∧
      (AbandonsClosure node w w' hashTx ↔
        ∀ t, Relation.TransGen w.Spends hashTx t → w.Pending node t →
          w.Pending node hashTx ∧ (t = hashTx ∨ w.Spends hashTx t)) := by
  obtain ⟨hspec, hhalt⟩ := abandonTransaction_spec node w hashTx
  refine ⟨hhalt, fun w' hret => ?_⟩
  obtain ⟨visited, ⟨hself, hother⟩, habandons⟩ := hspec w' hret
  refine ⟨habandons.spends, ?_⟩
  constructor
  · intro hclosed t hreach hp
    have hvisited : t ∈ visited := by
      by_contra hnot
      obtain ⟨wtx, hlookup, hdepth, hna⟩ := hp.of_status (habandons.same t (.inl hnot))
      rw [hclosed t wtx hreach hlookup hdepth] at hna
      cases hna
    by_cases heq : t = hashTx
    · exact ⟨heq ▸ hp, .inl heq⟩
    · obtain ⟨h, hs⟩ := (hother t heq).mp hvisited
      exact ⟨h, .inr hs⟩
  · intro hall t wtx hreach hlookup hdepth
    by_contra hna
    have hp' : w'.Pending node t := ⟨wtx, hlookup, hdepth, by simpa using hna⟩
    by_cases hp : w.Pending node t
    · obtain ⟨hpending, hcase⟩ := hall t hreach hp
      have hvisited : t ∈ visited := by
        by_cases heq : t = hashTx
        · exact heq ▸ hself
        · exact (hother t heq).mpr ⟨hpending, hcase.resolve_left heq⟩
      have hstatus := habandons.abandoned t hvisited hp
      rw [status, hlookup] at hstatus
      obtain ⟨hblock, -⟩ := Prod.mk.inj (Option.some.inj hstatus)
      exact hna (decide_eq_true hblock)
    · exact hp (hp'.of_status (habandons.same t (.inr hp)).symm)

end

/-- No block of the active chain and no mempool transaction concerns the wallet. -/
def aloneView : NodeView := ⟨0, fun _ => none, fun _ => false⟩

/-- A transaction with one input and one output. -/
def spending (outpoint : COutPoint) : CTransaction :=
  ⟨1, 0, [⟨outpoint, [], 0xffffffff⟩], [⟨100000000, []⟩], 0⟩

/-- The transaction 20 spends the transaction 10. -/
def chainOfTwo : CWallet where
  mapWallet := ((∅ : AList fun _ : Uint256 => CWalletTx).insert 10 ⟨spending ⟨5, 0⟩, 0, -1, none⟩).insert
    20 ⟨spending ⟨10, 0⟩, 0, -1, none⟩
  mapTxSpends := (Multimap.empty.insert ⟨5, 0⟩ 10).insert ⟨10, 0⟩ 20

/-- The transaction 30 spends the transaction 20, which spends 10. -/
def chainOfThree : CWallet where
  mapWallet := chainOfTwo.mapWallet.insert 30 ⟨spending ⟨20, 0⟩, 0, -1, none⟩
  mapTxSpends := chainOfTwo.mapTxSpends.insert ⟨20, 0⟩ 30

theorem entries_chainOfTwo :
    chainOfTwo.mapTxSpends.entries = [(⟨5, 0⟩, 10), (⟨10, 0⟩, 20)] := by
  decide +kernel

theorem chainOfTwo_abandoned : ∃ w', chainOfTwo.abandonTransaction aloneView 10 = .ok (true, w') ∧
    AbandonsClosure aloneView chainOfTwo w' 10 := by
  have hret : (chainOfTwo.abandonTransaction aloneView 10).toOption.map Prod.fst = some true := by
    decide +kernel
  have hspends : ∀ {a t}, chainOfTwo.Spends a t → a = 5 ∨ a = 10 ∧ t = 20 := by
    rintro a t ⟨n, hmem⟩
    rw [entries_chainOfTwo] at hmem
    simp only [List.mem_cons, Prod.mk.injEq, COutPoint.mk.injEq, List.not_mem_nil, or_false] at hmem
    exact hmem.imp (fun h => h.1.1) fun h => ⟨h.1.1, h.2⟩
  have hreach : ∀ {t}, Relation.TransGen chainOfTwo.Spends 10 t → t = 20 := by
    intro t h
    induction h with
    | single h => exact ((hspends h).resolve_left (by decide)).2
    | tail _ h ih =>
      subst ih
      obtain h | h := hspends h
      · exact absurd h (by decide)
      · exact absurd h.1 (by decide)
  cases heq : chainOfTwo.abandonTransaction aloneView 10 with
  | error e => rw [heq] at hret; cases hret
  | ok r =>
    obtain ⟨b, w'⟩ := r
    rw [heq] at hret
    cases hret
    refine ⟨w', rfl, ((abandons_closure_iff aloneView chainOfTwo 10).2 w' heq).2.mpr fun t ht _ => ?_⟩
    refine ⟨⟨⟨spending ⟨5, 0⟩, 0, -1, none⟩, by decide +kernel, by decide +kernel, by decide +kernel⟩,
      .inr ⟨0, ?_⟩⟩
    rw [hreach ht, entries_chainOfTwo]
    simp

/-- The transaction 30 is left pending when 10 is abandoned. -/
theorem chainOfThree_left_pending :
    ∃ w', chainOfThree.abandonTransaction aloneView 10 = .ok (true, w') ∧
      Relation.TransGen chainOfThree.Spends 10 30 ∧ w'.Pending aloneView 30 := by
  have hentries : chainOfThree.mapTxSpends.entries =
      [(⟨5, 0⟩, 10), (⟨10, 0⟩, 20), (⟨20, 0⟩, 30)] := by decide +kernel
  have hret : (chainOfThree.abandonTransaction aloneView 10).toOption.map Prod.fst = some true := by
    decide +kernel
  have hstatus : (chainOfThree.abandonTransaction aloneView 10).toOption.map
      (fun r => r.2.mapWallet.lookup 30) = some (some ⟨spending ⟨20, 0⟩, 0, -1, none⟩) := by
    decide +kernel
  cases heq : chainOfThree.abandonTransaction aloneView 10 with
  | error e => rw [heq] at hret; cases hret
  | ok r =>
    obtain ⟨b, w'⟩ := r
    rw [heq] at hret hstatus
    cases hret
    have h20 : chainOfThree.Spends 10 20 := ⟨0, by rw [hentries]; simp⟩
    have h30 : chainOfThree.Spends 20 30 := ⟨0, by rw [hentries]; simp⟩
    exact ⟨w', rfl, .tail (.single h20) h30, _, Option.some.inj hstatus, rfl, by decide⟩

end CWallet

end X2XCoin
