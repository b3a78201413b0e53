import X2XCoin.Lib.LastWrite
import X2XCoin.Lib.Run
import X2XCoin.Lib.MirrorMap

/-!
# The chain index of the wallet server

`ChainIndexer.java`: the outputs with an address that the blocks created and did not spend, by
outpoint and by address.  `outpointKey` is one to one and keys are pairs here.  Blocks are the
parsed
answers of the node.  A query is one step: it lists the outputs of an address, asks the node for
each
with `gettxout` and removes those that the node does not have.
-/

namespace X2XCoin

namespace Server

structure Key where
  txid : String
  vout : ℕ
  deriving DecidableEq

structure Output where
  n : ℕ
  value : Int64
  addresses : Option (List String)
  hex : Option String

structure Transaction where
  txid : String
  /-- `none` for an input without `txid` or `vout`, as that of a coinbase. -/
  vin : List (Option Key)
  vout : List Output

abbrev Block := List Transaction

structure IndexedUtxo where
  txid : String
  vout : ℕ
  address : String
  amountSatoshis : Int64
  blockHeight : ℤ

def IndexedUtxo.key (utxo : IndexedUtxo) : Key := ⟨utxo.txid, utxo.vout⟩

/-- `AddressCodec.isValidP2pkh` and `addressFromScriptHex`. -/
structure AddressCodec where
  isValidP2pkh : String → Bool
  addressFromScriptHex : String → Option String

def START_HEIGHT : ℤ := 0
def SYNC_BATCH_SIZE : ℤ := 100

/-! ## The index -/

structure Index where
  indexedHeight : ℤ := START_HEIGHT - 1
  chainTip : ℤ := -1
  outpoints : AList (fun _ : Key => IndexedUtxo) := ∅
  utxosByAddress : AList (fun _ : String => List Key) := ∅

namespace Index

def removeFromAddressIndex (index : Index) (address : String) (key : Key) : Index :=
  match index.utxosByAddress.lookup address with
  | none => index
  | some keys =>
    if keys.erase key = [] then
      { index with utxosByAddress := index.utxosByAddress.erase address }
    else { index with utxosByAddress := index.utxosByAddress.insert address (keys.erase key) }

/-- An output that was stored under another address leaves that address. -/
def forgetPrevious (index : Index) (utxo : IndexedUtxo) : Option IndexedUtxo → Index
  | none => index
  | some previous =>
    if previous.address = utxo.address then index
    else index.removeFromAddressIndex previous.address utxo.key

def addToAddressIndex (index : Index) (address : String) (key : Key) : Index :=
  { index with
    utxosByAddress := index.utxosByAddress.insert address
      (((index.utxosByAddress.lookup address).getD []).insert key) }

def addOutpoint (index : Index) (utxo : IndexedUtxo) : Index :=
  let previous := index.outpoints.lookup utxo.key
  let index := { index with outpoints := index.outpoints.insert utxo.key utxo }
  (index.forgetPrevious utxo previous).addToAddressIndex utxo.address utxo.key

def removeOutpoint (index : Index) (key : Key) : Index :=
  match index.outpoints.lookup key with
  | none => index
  | some removed =>
    { index with outpoints := index.outpoints.erase key }.removeFromAddressIndex removed.address key

def isFullyIndexed (index : Index) : Bool :=
  START_HEIGHT ≤ 0 && 0 ≤ index.indexedHeight && index.chainTip ≤ index.indexedHeight

def confirmationsFor (index : Index) (blockHeight : ℤ) : ℤ :=
  if index.chainTip < 0 || blockHeight < 0 then 0 else max 0 (index.chainTip - blockHeight + 1)

/-- The order of `listIndexedUtxos`: newest first, then by index and transaction id. -/
def listedBefore (a b : IndexedUtxo) : Bool :=
  if a.blockHeight = b.blockHeight then
    if a.vout = b.vout then a.txid ≤ b.txid else a.vout ≤ b.vout
  else b.blockHeight ≤ a.blockHeight

def listIndexedUtxos (index : Index) (address : String) (minConfirmations : ℤ) :
    List IndexedUtxo :=
  let keys := (index.utxosByAddress.lookup address).getD []
  let result := (keys.filterMap fun key => index.outpoints.lookup key).filter fun utxo =>
    minConfirmations ≤ index.confirmationsFor utxo.blockHeight
  result.insertionSort fun a b => listedBefore a b

/-- The height stored for an output. -/
def heightOf (index : Index) (key : Key) : Option ℤ :=
  (index.outpoints.lookup key).map IndexedUtxo.blockHeight

end Index

section

variable (codec : AddressCodec)

def extractAddresses (output : Output) : List String :=
  let listed := (output.addresses.getD []).filter codec.isValidP2pkh
  if listed ≠ [] then listed else (output.hex.bind codec.addressFromScriptHex).toList

def Index.processTransaction (index : Index) (tx : Transaction) (blockHeight : ℤ) : Index :=
  let index := (tx.vin.filterMap id).foldl Index.removeOutpoint index
  tx.vout.foldl (fun index output => (extractAddresses codec output).foldl (fun index address =>
    index.addOutpoint ⟨tx.txid, output.n, address, output.value, blockHeight⟩) index) index

def Index.applyBlockToIndex (index : Index) (block : Block) (height : ℤ) : Index :=
  block.foldl (fun index tx => index.processTransaction codec tx height) index

/-! ## Unspent outputs -/

/-- The transaction has an output under the key, and it is attributed to an address. -/
def Creates (tx : Transaction) (key : Key) : Prop :=
  tx.txid = key.txid ∧ ∃ output ∈ tx.vout, output.n = key.vout ∧ extractAddresses codec output ≠ []

instance (tx : Transaction) (key : Key) : Decidable (Creates codec tx key) :=
  inferInstanceAs (Decidable (_ ∧ _))

/-- The transactions of blocks in order, with the heights of their blocks. -/
def located (blocks : List Block) : List (ℤ × Transaction) :=
  (blocks.zipIdx.map fun (block, height) => block.map fun tx => ((height : ℤ), tx)).flatten

instance (key : Option Key) (vin : List (Option Key)) : Decidable (key ∈ vin) :=
  List.instDecidableMemOfLawfulBEq key vin

/-- The height of an output after a transaction: set if the transaction creates it, cleared if it
spends it. -/
def heightWrite (key : Key) (p : ℤ × Transaction) : Option (Option ℤ) :=
  if Creates codec p.2 key then some (some p.1)
  else if some key ∈ p.2.vin then some none else none

/-- Some transaction of the blocks, at the given height, creates the output and no later one spends
it or creates it again. -/
def Unspent (blocks : List Block) (key : Key) (height : ℤ) : Prop :=
  ∃ before tx after, located blocks = before ++ (height, tx) :: after ∧ Creates codec tx key ∧
    ∀ p ∈ after, some key ∉ p.2.vin ∧ ¬ Creates codec p.2 key

end

/-! ## What the operations do to the index -/

namespace Index

variable {index : Index} {key : Key}

/-- The two maps. -/
def maps (index : Index) : MirrorMap Key String IndexedUtxo :=
  ⟨index.outpoints, index.utxosByAddress⟩

theorem maps_removeFromAddressIndex (index : Index) (address : String) (key : Key) :
    (index.removeFromAddressIndex address key).maps = index.maps.withdraw address key := by
  cases h : index.utxosByAddress.lookup address with
  | none => simp only [removeFromAddressIndex, MirrorMap.withdraw, maps, h]
  | some keys =>
    simp only [removeFromAddressIndex, MirrorMap.withdraw, maps, h]
    split_ifs <;> rfl

theorem maps_forgetPrevious (index : Index) (utxo : IndexedUtxo) (previous : Option IndexedUtxo) :
    (index.forgetPrevious utxo previous).maps =
      index.maps.replace IndexedUtxo.address utxo.key utxo previous := by
  unfold forgetPrevious MirrorMap.replace
  cases previous with
  | none => rfl
  | some previous =>
    dsimp only
    split_ifs
    · rfl
    · exact maps_removeFromAddressIndex index _ _

theorem maps_addOutpoint (index : Index) (utxo : IndexedUtxo) :
    (index.addOutpoint utxo).maps = index.maps.put IndexedUtxo.address utxo.key utxo :=
  congrArg (fun m => MirrorMap.file m utxo.address utxo.key) (maps_forgetPrevious _ utxo _)

theorem maps_removeOutpoint (index : Index) (key : Key) :
    (index.removeOutpoint key).maps = index.maps.remove IndexedUtxo.address key := by
  cases h : index.outpoints.lookup key with
  | none => simp only [removeOutpoint, MirrorMap.remove, maps, h]
  | some removed =>
    simp only [removeOutpoint, MirrorMap.remove, maps, h]
    exact maps_removeFromAddressIndex _ removed.address key

theorem lookup_addOutpoint (index : Index) (utxo : IndexedUtxo) (key : Key) :
    (index.addOutpoint utxo).outpoints.lookup key =
      if key = utxo.key then some utxo else index.outpoints.lookup key := by
  change (index.addOutpoint utxo).maps.entries.lookup key = _
  rw [maps_addOutpoint]
  exact MirrorMap.lookup_put _ _ _ _

theorem lookup_removeOutpoint (index : Index) (removed key : Key) :
    (index.removeOutpoint removed).outpoints.lookup key =
      if key = removed then none else index.outpoints.lookup key := by
  change (index.removeOutpoint removed).maps.entries.lookup key = _
  rw [maps_removeOutpoint]
  exact MirrorMap.lookup_remove _ _ _

theorem heightOf_addOutpoint (index : Index) (utxo : IndexedUtxo) (key : Key) :
    (index.addOutpoint utxo).heightOf key =
      if key = utxo.key then some utxo.blockHeight else index.heightOf key := by
  rw [heightOf, lookup_addOutpoint]
  split_ifs <;> rfl

theorem heightOf_removeOutpoint (index : Index) (removed key : Key) :
    (index.removeOutpoint removed).heightOf key =
      if key = removed then none else index.heightOf key := by
  rw [heightOf, lookup_removeOutpoint]
  split_ifs <;> rfl

theorem heightOf_removeAll (keys : List Key) (index : Index) (key : Key) :
    (keys.foldl removeOutpoint index).heightOf key =
      if key ∈ keys then none else index.heightOf key := by
  induction keys generalizing index with
  | nil => rfl
  | cons k keys ih =>
    rw [List.foldl_cons, ih, heightOf_removeOutpoint]
    by_cases h : key = k
    · simp [h]
    · simp [h]

theorem heightOf_addAll (utxos : List IndexedUtxo) {height : ℤ}
    (hheight : ∀ utxo ∈ utxos, utxo.blockHeight = height) (index : Index) (key : Key) :
    (utxos.foldl addOutpoint index).heightOf key =
      if key ∈ utxos.map IndexedUtxo.key then some height else index.heightOf key := by
  induction utxos generalizing index with
  | nil => rfl
  | cons utxo utxos ih =>
    rw [List.foldl_cons, ih fun u hu => hheight u (List.mem_cons_of_mem _ hu), heightOf_addOutpoint,
      hheight utxo List.mem_cons_self, List.map_cons]
    by_cases h : key ∈ utxos.map IndexedUtxo.key
    · rw [if_pos h, if_pos (List.mem_cons_of_mem _ h)]
    · rw [if_neg h]
      simp only [List.mem_cons, h, or_false]

end Index

section

variable {codec : AddressCodec}

/-- The outputs of a transaction as the index stores them. -/
def createdUtxos (codec : AddressCodec) (tx : Transaction) (blockHeight : ℤ) : List IndexedUtxo :=
  tx.vout.flatMap fun output => (extractAddresses codec output).map fun address =>
    ⟨tx.txid, output.n, address, output.value, blockHeight⟩

theorem Index.processTransaction_eq (index : Index) (tx : Transaction) (blockHeight : ℤ) :
    index.processTransaction codec tx blockHeight = (createdUtxos codec tx blockHeight).foldl
      Index.addOutpoint ((tx.vin.filterMap id).foldl Index.removeOutpoint index) := by
  rw [createdUtxos, List.foldl_flatMap, Index.processTransaction]
  simp only [List.foldl_map]

theorem mem_createdUtxos_key {tx : Transaction} {blockHeight : ℤ} {key : Key} :
    key ∈ (createdUtxos codec tx blockHeight).map IndexedUtxo.key ↔ Creates codec tx key := by
  constructor
  · intro h
    obtain ⟨utxo, hmem, rfl⟩ := List.mem_map.mp h
    obtain ⟨output, houtput, h⟩ := List.mem_flatMap.mp hmem
    obtain ⟨address, haddress, rfl⟩ := List.mem_map.mp h
    exact ⟨rfl, output, houtput, rfl, List.ne_nil_of_mem haddress⟩
  · rintro ⟨htxid, output, houtput, hn, hne⟩
    obtain ⟨address, haddress⟩ := List.exists_mem_of_ne_nil _ hne
    refine List.mem_map.mpr ⟨⟨tx.txid, output.n, address, output.value, blockHeight⟩, ?_, ?_⟩
    · exact List.mem_flatMap.mpr ⟨output, houtput, List.mem_map_of_mem haddress⟩
    · rw [IndexedUtxo.key, htxid, hn]

theorem Index.heightOf_processTransaction (index : Index) (tx : Transaction) (blockHeight : ℤ)
    (key : Key) : (index.processTransaction codec tx blockHeight).heightOf key =
      (heightWrite codec key (blockHeight, tx)).getD (index.heightOf key) := by
  have hheight : ∀ utxo ∈ createdUtxos codec tx blockHeight, utxo.blockHeight = blockHeight := by
    intro utxo hmem
    obtain ⟨output, -, h⟩ := List.mem_flatMap.mp hmem
    obtain ⟨address, -, rfl⟩ := List.mem_map.mp h
    rfl
  rw [Index.processTransaction_eq, Index.heightOf_addAll _ hheight, Index.heightOf_removeAll,
    heightWrite]
  simp only [mem_createdUtxos_key, List.mem_filterMap, id, exists_eq_right]
  split_ifs <;> rfl

theorem Index.heightOf_applyBlockToIndex (index : Index) (block : Block) (height : ℤ) (key : Key) :
    (index.applyBlockToIndex codec block height).heightOf key =
      LastWrite.run (heightWrite codec key) (block.map fun tx => (height, tx))
        (index.heightOf key) := by
  induction block generalizing index with
  | nil => rfl
  | cons tx block ih =>
    change ((index.processTransaction codec tx height).applyBlockToIndex codec block height).heightOf
      key = _
    rw [ih, Index.heightOf_processTransaction]
    rfl

theorem unspent_iff {blocks : List Block} {key : Key} {height : ℤ} :
    Unspent codec blocks key height ↔
      LastWrite.run (heightWrite codec key) (located blocks) none = some height := by
  have hset : ∀ p, heightWrite codec key p = some (some height) ↔
      Creates codec p.2 key ∧ p.1 = height := by
    intro p
    unfold heightWrite
    split_ifs <;> simp_all
  have hnone : ∀ p, heightWrite codec key p = none ↔
      some key ∉ p.2.vin ∧ ¬ Creates codec p.2 key := by
    intro p
    unfold heightWrite
    split_ifs <;> simp_all
  rw [LastWrite.run_eq_some_iff]
  constructor
  · rintro ⟨before, tx, after, heq, hcreates, hafter⟩
    exact ⟨before, (height, tx), after, heq, (hset _).mpr ⟨hcreates, rfl⟩,
      fun p hp => (hnone p).mpr (hafter p hp)⟩
  · rintro ⟨before, ⟨h, tx⟩, after, heq, hwrite, hafter⟩
    obtain ⟨hcreates, rfl⟩ := (hset _).mp hwrite
    exact ⟨before, tx, after, heq, hcreates, fun p hp => (hnone p).mp (hafter p hp)⟩

theorem located_append_singleton (blocks : List Block) (block : Block) :
    located (blocks ++ [block]) =
      located blocks ++ block.map fun tx => ((blocks.length : ℤ), tx) := by
  rw [located, located, List.zipIdx_append, List.map_append, List.flatten_append]
  simp

end

end Server

end X2XCoin
