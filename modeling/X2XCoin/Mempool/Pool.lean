import X2XCoin.Coins.Coins
import X2XCoin.Lib.Worklist

/-!
# The memory pool

`CTxMemPool` of `txmempool.{h,cpp}`: the transactions, the transaction that spends each outpoint and
the links between parents and children.  Iterators and pointers are the id of the transaction.  The
sizes, fees, counts and priorities of entries are left out.
-/

namespace X2XCoin

structure CTxMemPoolEntry where
  tx : CTransaction
  spendsCoinbase : Bool
  deriving DecidableEq

structure TxLinks where
  parents : List Uint256 := []
  children : List Uint256 := []
  deriving DecidableEq

/-- Entries by id, the id of the transaction that spends an outpoint, and links by id. -/
structure CTxMemPool where
  mapTx : AList fun _ : Uint256 => CTxMemPoolEntry
  mapNextTx : AList fun _ : COutPoint => Uint256
  mapLinks : AList fun _ : Uint256 => TxLinks

/-- `insert` of a map: a key that is there keeps its value. -/
def insertNew {κ ν : Type} [DecidableEq κ] (m : AList fun _ : κ => ν) (k : κ) (v : ν) :
    AList fun _ : κ => ν :=
  if k ∈ m then m else m.insert k v

/-- `insert` and `erase` of a set of entries. -/
def toggle (s : List Uint256) (x : Uint256) (add : Bool) : List Uint256 :=
  if add then s.insert x else s.filter fun y => decide (y ≠ x)

namespace CTxMemPool

def empty : CTxMemPool := ⟨∅, ∅, ∅⟩

/-! ## Links -/

def links (pool : CTxMemPool) (entry : Uint256) : TxLinks := (pool.mapLinks.lookup entry).getD {}

def getMemPoolParents (pool : CTxMemPool) (entry : Uint256) : List Uint256 := (pool.links entry).parents

def getMemPoolChildren (pool : CTxMemPool) (entry : Uint256) : List Uint256 :=
  (pool.links entry).children

def updateChild (pool : CTxMemPool) (entry child : Uint256) (add : Bool) : CTxMemPool :=
  let l := pool.links entry
  { pool with mapLinks := pool.mapLinks.insert entry { l with children := toggle l.children child add } }

def updateParent (pool : CTxMemPool) (entry parent : Uint256) (add : Bool) : CTxMemPool :=
  let l := pool.links entry
  { pool with mapLinks := pool.mapLinks.insert entry { l with parents := toggle l.parents parent add } }

/-- The loop of `CalculateDescendants` takes every entry off its stage once. -/
def calculateDescendants (pool : CTxMemPool) (txToRemove : List Uint256) : List Uint256 :=
  Worklist.searchAll pool.getMemPoolChildren pool.mapTx.entries.length txToRemove []

/-! ## Adding and removing -/

/-- `addUnchecked`.  `UpdateAncestorsOf` makes the new entry a child of its parents. -/
def addUnchecked (pool : CTxMemPool) (hash : Uint256) (entry : CTxMemPoolEntry) : CTxMemPool :=
  let pool : CTxMemPool :=
    { mapTx := insertNew pool.mapTx hash entry
      mapNextTx := entry.tx.vin.foldl (fun m txin => insertNew m txin.prevout hash) pool.mapNextTx
      mapLinks := insertNew pool.mapLinks hash {} }
  let setParentTransactions := entry.tx.vin.map fun txin => txin.prevout.hash
  let pool := setParentTransactions.foldl (fun pool phash =>
    if phash ∈ pool.mapTx then pool.updateParent hash phash true else pool) pool
  (pool.getMemPoolParents hash).foldl (fun pool piter => pool.updateChild piter hash true) pool

/-- The first loop of `UpdateForRemoveFromMempool`: the entry is no longer a child of its parents. -/
def severFromParents (pool : CTxMemPool) (removeIt : Uint256) : CTxMemPool :=
  (pool.getMemPoolParents removeIt).foldl (fun pool piter => pool.updateChild piter removeIt false) pool

def updateChildrenForRemoval (pool : CTxMemPool) (it : Uint256) : CTxMemPool :=
  (pool.getMemPoolChildren it).foldl (fun pool updateIt => pool.updateParent updateIt it false) pool

def removeUnchecked (pool : CTxMemPool) (it : Uint256) : CTxMemPool :=
  match pool.mapTx.lookup it with
  | none => pool
  | some entry =>
    { mapTx := pool.mapTx.erase it
      mapNextTx := entry.tx.vin.foldl (fun m txin => m.erase txin.prevout) pool.mapNextTx
      mapLinks := pool.mapLinks.erase it }

def removeStaged (pool : CTxMemPool) (stage : List Uint256) : CTxMemPool :=
  stage.foldl removeUnchecked
    (stage.foldl updateChildrenForRemoval (stage.foldl severFromParents pool))

/-- The entries `removeRecursive` starts from: the transaction, or what spends it when it is not in
the pool. -/
def txToRemove (crypto : Crypto) (pool : CTxMemPool) (origTx : CTransaction) : List Uint256 :=
  let hash := origTx.getHash crypto
  if hash ∈ pool.mapTx then [hash]
  else (List.range origTx.vout.length).filterMap fun i => pool.mapNextTx.lookup ⟨hash, UInt32.ofNat i⟩

def removeRecursive (crypto : Crypto) (pool : CTxMemPool) (origTx : CTransaction) : CTxMemPool :=
  pool.removeStaged (pool.calculateDescendants (pool.txToRemove crypto origTx))

/-- The entries that spend the outputs of a transaction, from the range of `mapNextTx`. -/
def spenders (pool : CTxMemPool) (hash : Uint256) : List Uint256 :=
  (pool.mapNextTx.entries.filter fun next => decide (next.1.hash = hash)).map fun next => next.2

/-- The loop of `UpdateTransactionsFromBlock` over the spenders of an entry: those outside of the block
become its children. -/
def adopt (vHashesToUpdate : List Uint256) (hash : Uint256) (pool : CTxMemPool) : CTxMemPool :=
  if hash ∈ pool.mapTx then
    (pool.spenders hash).foldl (fun pool childHash =>
      if childHash ∈ vHashesToUpdate then pool
      else (pool.updateChild hash childHash true).updateParent childHash hash true) pool
  else pool

/-- `UpdateTransactionsFromBlock`, the last transaction first. -/
def updateTransactionsFromBlock (pool : CTxMemPool) (vHashesToUpdate : List Uint256) : CTxMemPool :=
  vHashesToUpdate.foldr (adopt vHashesToUpdate) pool

/-! ## What the loops do to links -/

/-- The links of the pool as relations between parents and children. -/
structure Linked (pool : CTxMemPool) (C P : Uint256 → Uint256 → Prop) : Prop where
  children : ∀ p c, c ∈ pool.getMemPoolChildren p ↔ C p c
  parents : ∀ p c, p ∈ pool.getMemPoolParents c ↔ P p c

section

variable {pool : CTxMemPool} {C P C' P' : Uint256 → Uint256 → Prop}

theorem Linked.congr (h : pool.Linked C P) (hC : ∀ p c, C p c ↔ C' p c) (hP : ∀ p c, P p c ↔ P' p c) :
    pool.Linked C' P' :=
  ⟨fun p c => (h.children p c).trans (hC p c), fun p c => (h.parents p c).trans (hP p c)⟩

theorem mem_toggle {s : List Uint256} {x y : Uint256} {add : Bool} :
    y ∈ toggle s x add ↔ if add then y = x ∨ y ∈ s else y ∈ s ∧ y ≠ x := by
  cases add <;> simp [toggle, List.mem_insert_iff]

theorem links_insert (pool : CTxMemPool) (entry x : Uint256) (l : TxLinks) :
    ({ pool with mapLinks := pool.mapLinks.insert entry l } : CTxMemPool).links x =
      if x = entry then l else pool.links x := by
  unfold links
  split_ifs with hx
  · rw [hx, AList.lookup_insert, Option.getD_some]
  · rw [AList.lookup_insert_ne hx]

theorem Linked.updateChild (h : pool.Linked C P) (entry child : Uint256) (add : Bool) :
    (pool.updateChild entry child add).Linked
      (fun p c => if p = entry ∧ c = child then add = true else C p c) P := by
  constructor
  · intro p c
    rw [getMemPoolChildren, CTxMemPool.updateChild, links_insert]
    by_cases hp : p = entry
    · subst hp
      have hc := h.children p c
      rw [getMemPoolChildren] at hc
      rw [if_pos rfl, mem_toggle, hc]
      by_cases hchild : c = child <;> cases add <;> simp [hchild]
    · rw [if_neg hp, if_neg fun h => hp h.1]
      exact h.children p c
  · intro p c
    rw [← h.parents p c, getMemPoolParents, CTxMemPool.updateChild, links_insert]
    split_ifs with hc
    · rw [hc]
      rfl
    · rfl

theorem Linked.updateParent (h : pool.Linked C P) (entry parent : Uint256) (add : Bool) :
    (pool.updateParent entry parent add).Linked C
      (fun p c => if p = parent ∧ c = entry then add = true else P p c) := by
  constructor
  · intro p c
    rw [← h.children p c, getMemPoolChildren, CTxMemPool.updateParent, links_insert]
    split_ifs with hc
    · rw [hc]
      rfl
    · rfl
  · intro p c
    rw [getMemPoolParents, CTxMemPool.updateParent, links_insert]
    by_cases hc : c = entry
    · subst hc
      have hp := h.parents p c
      rw [getMemPoolParents] at hp
      rw [if_pos rfl, mem_toggle, hp]
      by_cases hparent : p = parent <;> cases add <;> simp [hparent]
    · rw [if_neg hc, if_neg fun h => hc h.2]
      exact h.parents p c

theorem Linked.foldl_updateChild (h : pool.Linked C P) (child : Uint256) (add : Bool)
    (entries : List Uint256) :
    (entries.foldl (fun pool p => pool.updateChild p child add) pool).Linked
      (fun p c => if p ∈ entries ∧ c = child then add = true else C p c) P := by
  induction entries generalizing pool C with
  | nil => exact h.congr (fun p c => by simp) fun _ _ => Iff.rfl
  | cons entry entries ih =>
    refine (ih (h.updateChild entry child add)).congr (fun p c => ?_) fun _ _ => Iff.rfl
    by_cases hc : c = child <;> by_cases hp : p = entry <;> simp [hc, hp]

theorem Linked.foldl_updateParent (h : pool.Linked C P) (parent : Uint256) (add : Bool)
    (entries : List Uint256) :
    (entries.foldl (fun pool c => pool.updateParent c parent add) pool).Linked C
      (fun p c => if p = parent ∧ c ∈ entries then add = true else P p c) := by
  induction entries generalizing pool P with
  | nil => exact h.congr (fun _ _ => Iff.rfl) fun p c => by simp
  | cons entry entries ih =>
    refine (ih (h.updateParent entry parent add)).congr (fun _ _ => Iff.rfl) fun p c => ?_
    by_cases hc : c = entry <;> by_cases hp : p = parent <;> simp [hc, hp]

end

/-! ## What the loops leave alone -/

/-- The transactions of the pool and what they spend. -/
def txs (pool : CTxMemPool) :
    (AList fun _ : Uint256 => CTxMemPoolEntry) × (AList fun _ : COutPoint => Uint256) :=
  (pool.mapTx, pool.mapNextTx)

theorem txs_foldl {ι : Type} (step : CTxMemPool → ι → CTxMemPool)
    (h : ∀ pool i, (step pool i).txs = pool.txs) (pool : CTxMemPool) (is : List ι) :
    (is.foldl step pool).txs = pool.txs := by
  induction is generalizing pool with
  | nil => rfl
  | cons i is ih => rw [List.foldl_cons, ih, h]

theorem txs_severFromParents (pool : CTxMemPool) (removeIt : Uint256) :
    (pool.severFromParents removeIt).txs = pool.txs :=
  txs_foldl (fun pool piter => pool.updateChild piter removeIt false) (fun _ _ => rfl) _ _

theorem txs_updateChildrenForRemoval (pool : CTxMemPool) (it : Uint256) :
    (pool.updateChildrenForRemoval it).txs = pool.txs :=
  txs_foldl (fun pool updateIt => pool.updateParent updateIt it false) (fun _ _ => rfl) _ _

end CTxMemPool

end X2XCoin
