import X2XCoin.Coins.Output
import X2XCoin.Lib.MapFold

/-!
# The caches of unspent outputs

`CCoinsViewCache` of `coins.{h,cpp}`: a stack of write-back caches over a base view.  Reading through
a cache copies what the view below answers into it, so reads return the new stack too.
-/

namespace X2XCoin

/-- `CCoinsCacheEntry`, with the two flags as fields. -/
structure CCoinsCacheEntry where
  coins : CCoins := {}
  dirty : Bool := false
  fresh : Bool := false
  deriving DecidableEq, Repr

abbrev CCoinsMap := AList fun _ : Uint256 => CCoinsCacheEntry

/-- What a view shows: the unspent outputs of every transaction. -/
abbrev Outputs := Uint256 → ℕ → Option CTxOut

/-- The outputs in the answer of `GetCoins`. -/
def outputsOf (coins : Option CCoins) (n : ℕ) : Option CTxOut := coins.bind fun c => c.output n

/-- What `BatchWrite` has to leave of a transaction's outputs: those of a dirty entry. -/
def CCoinsCacheEntry.written (entry : CCoinsCacheEntry) (outputs : ℕ → Option CTxOut) :
    ℕ → Option CTxOut :=
  if entry.dirty then entry.coins.output else outputs

/-- A view that is no cache: it can be read, and `BatchWrite` stores every dirty entry. -/
class BaseView (β : Type) where
  getCoins : β → Uint256 → Option CCoins
  getBestBlock : β → Uint256
  batchWrite : β → CCoinsMap → Uint256 → β
  outputs_batchWrite : ∀ (b : β) (m : CCoinsMap) (hashBlock txid : Uint256),
    outputsOf (getCoins (batchWrite b m hashBlock) txid) =
      (m.lookup txid).elim (outputsOf (getCoins b txid)) fun entry =>
        entry.written (outputsOf (getCoins b txid))

/-! ## The database -/

structure CCoinsViewDB where
  coins : AList fun _ : Uint256 => CCoins
  hashBlock : Uint256

namespace CCoinsViewDB

/-- One entry of `BatchWrite`: dirty entries are erased when pruned and written otherwise. -/
def writeEntry (coins : AList fun _ : Uint256 => CCoins) (txid : Uint256)
    (entry : CCoinsCacheEntry) : AList fun _ : Uint256 => CCoins :=
  if entry.dirty then
    if entry.coins.isPruned then coins.erase txid else coins.insert txid entry.coins
  else coins

/-- `BatchWrite`; a null best block is not written. -/
def batchWrite (db : CCoinsViewDB) (m : CCoinsMap) (hashBlock : Uint256) : CCoinsViewDB :=
  { coins := m.entries.foldl (fun coins e => writeEntry coins e.1 e.2) db.coins
    hashBlock := if hashBlock = 0 then db.hashBlock else hashBlock }

theorem outputsOf_writeEntry (coins : AList fun _ : Uint256 => CCoins) (txid txid' : Uint256)
    (entry : CCoinsCacheEntry) :
    outputsOf ((writeEntry coins txid entry).lookup txid') =
      if txid' = txid then entry.written (outputsOf (coins.lookup txid))
      else outputsOf (coins.lookup txid') := by
  unfold writeEntry CCoinsCacheEntry.written
  by_cases htx : txid' = txid
  · subst htx
    rw [if_pos rfl]
    split_ifs with hdirty hpruned
    · funext n
      rw [AList.lookup_erase, CCoins.isPruned_iff.mp hpruned n]
      rfl
    · rw [AList.lookup_insert]
      rfl
    · rfl
  · rw [if_neg htx]
    split_ifs
    · rw [AList.lookup_erase_ne htx]
    · rw [AList.lookup_insert_ne htx]
    · rfl

instance : BaseView CCoinsViewDB where
  getCoins db txid := db.coins.lookup txid
  getBestBlock db := db.hashBlock
  batchWrite := batchWrite
  outputs_batchWrite db m _ txid :=
    (AList.foldl_entries_view writeEntry (fun coins k => outputsOf (coins.lookup k))
      CCoinsCacheEntry.written (I := fun _ => True) (P := fun _ _ => True)
      (fun coins k e _ _ => ⟨trivial, fun k' => outputsOf_writeEntry coins k k' e⟩) m
      (s := db.coins) trivial fun _ _ _ => trivial).2 txid

end CCoinsViewDB

/-! ## One cache -/

/-- The fields of one `CCoinsViewCache` that are its own. -/
structure CacheLayer where
  cacheCoins : CCoinsMap := ∅
  hashBlock : Uint256 := 0

namespace CacheLayer

variable {σ : Type}

/-- `FetchCoins`: from this cache, else with the answer of the view below, which is copied here. -/
def fetchCoins (layer : CacheLayer) (lower : σ) (txid : Uint256) (getBelow : Option CCoins × σ) :
    Option CCoins × CacheLayer × σ :=
  match layer.cacheCoins.lookup txid with
  | some entry => (some entry.coins, layer, lower)
  | none =>
    match getBelow.1 with
    | none => (none, layer, getBelow.2)
    | some tmp =>
      let entry : CCoinsCacheEntry := { coins := tmp, fresh := tmp.isPruned }
      (some tmp, { layer with cacheCoins := layer.cacheCoins.insert txid entry }, getBelow.2)

/-- The life of a `CCoinsModifier`: the modification, and what its destructor does. -/
def modify (layer : CacheLayer) (txid : Uint256) (entry : CCoinsCacheEntry)
    (f : CCoins → CCoins) : CacheLayer :=
  let coins := (f entry.coins).cleanup
  if entry.fresh && coins.isPruned then
    { layer with cacheCoins := layer.cacheCoins.erase txid }
  else { layer with cacheCoins := layer.cacheCoins.insert txid { entry with coins := coins } }

/-- The entry `ModifyCoins` hands out, and the view below after the read it may need. -/
def entryToModify (layer : CacheLayer) (lower : σ) (txid : Uint256)
    (getBelow : Option CCoins × σ) : CCoinsCacheEntry × σ :=
  match layer.cacheCoins.lookup txid with
  | some entry => ({ entry with dirty := true }, lower)
  | none =>
    match getBelow.1 with
    | none => ({ dirty := true, fresh := true }, getBelow.2)
    | some coins => ({ coins := coins, dirty := true, fresh := coins.isPruned }, getBelow.2)

/-- The entry `ModifyNewCoins` hands out: cleared, and fresh unless it is for a coinbase. -/
def newEntry (layer : CacheLayer) (txid : Uint256) (coinbase : Bool) : CCoinsCacheEntry :=
  let entry := (layer.cacheCoins.lookup txid).getD {}
  { coins := {}, dirty := true, fresh := !coinbase || entry.fresh }

/-- One entry of `BatchWrite`. -/
def writeEntry (layer : CacheLayer) (txid : Uint256) (entry : CCoinsCacheEntry) : CacheLayer :=
  if entry.dirty then
    match layer.cacheCoins.lookup txid with
    | none =>
      if entry.fresh && entry.coins.isPruned then layer
      else { layer with cacheCoins := layer.cacheCoins.insert txid { entry with dirty := true } }
    | some us =>
      if us.fresh && entry.coins.isPruned then
        { layer with cacheCoins := layer.cacheCoins.erase txid }
      else
        { layer with cacheCoins :=
            layer.cacheCoins.insert txid { us with coins := entry.coins, dirty := true } }
  else layer

def batchWrite (layer : CacheLayer) (m : CCoinsMap) (hashBlock : Uint256) : CacheLayer :=
  { m.entries.foldl (fun layer e => layer.writeEntry e.1 e.2) layer with hashBlock := hashBlock }

end CacheLayer

/-! ## The stack -/

section

variable {β : Type} [BaseView β]

/-- `GetCoins` of a view that consists of caches, the top one first, over `base`. -/
def getCoins (base : β) : List CacheLayer → Uint256 → Option CCoins × List CacheLayer
  | [], txid => (BaseView.getCoins base txid, [])
  | layer :: lower, txid =>
    let (coins, layer, lower) := layer.fetchCoins lower txid (getCoins base lower txid)
    (coins, layer :: lower)

/-- A `CCoinsViewCache`: its own fields, the caches below it, and the base view. -/
structure CCoinsViewCache (β : Type) where
  top : CacheLayer
  lower : List CacheLayer
  base : β

namespace CCoinsViewCache

/-- A cache over a base view. -/
def new (base : β) : CCoinsViewCache β := ⟨{}, [], base⟩

/-- A further cache on top. -/
def layered (view : CCoinsViewCache β) : CCoinsViewCache β :=
  ⟨{}, view.top :: view.lower, view.base⟩

/-- `GetCoins`; `AccessCoins` gives the same entry. -/
def getCoins (view : CCoinsViewCache β) (txid : Uint256) : Option CCoins × CCoinsViewCache β :=
  let (coins, top, lower) :=
    view.top.fetchCoins view.lower txid (X2XCoin.getCoins view.base view.lower txid)
  (coins, { view with top := top, lower := lower })

def haveCoins (view : CCoinsViewCache β) (txid : Uint256) : Bool × CCoinsViewCache β :=
  let (coins, view) := view.getCoins txid
  (coins.any fun c => !c.vout.isEmpty, view)

/-- `ModifyCoins` with the modification `f`. -/
def modifyCoins (view : CCoinsViewCache β) (txid : Uint256) (f : CCoins → CCoins) :
    CCoinsViewCache β :=
  let (entry, lower) :=
    view.top.entryToModify view.lower txid (X2XCoin.getCoins view.base view.lower txid)
  { view with top := view.top.modify txid entry f, lower := lower }

/-- `ModifyNewCoins` with the modification `f`. -/
def modifyNewCoins (view : CCoinsViewCache β) (txid : Uint256) (coinbase : Bool)
    (f : CCoins → CCoins) : CCoinsViewCache β :=
  { view with top := view.top.modify txid (view.top.newEntry txid coinbase) f }

def setBestBlock (view : CCoinsViewCache β) (hashBlock : Uint256) : CCoinsViewCache β :=
  { view with top := { view.top with hashBlock := hashBlock } }

/-- `Uncache`: drop an entry without flags. -/
def uncache (view : CCoinsViewCache β) (txid : Uint256) : CCoinsViewCache β :=
  match view.top.cacheCoins.lookup txid with
  | some entry =>
    if !entry.dirty && !entry.fresh then
      { view with top := { view.top with cacheCoins := view.top.cacheCoins.erase txid } }
    else view
  | none => view

def flush (view : CCoinsViewCache β) : CCoinsViewCache β :=
  let top := { view.top with cacheCoins := ∅ }
  match view.lower with
  | [] => ⟨top, [], BaseView.batchWrite view.base view.top.cacheCoins view.top.hashBlock⟩
  | layer :: lower =>
    ⟨top, layer.batchWrite view.top.cacheCoins view.top.hashBlock :: lower, view.base⟩

end CCoinsViewCache

end

end X2XCoin
