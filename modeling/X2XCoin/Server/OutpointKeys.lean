import X2XCoin.JavaWallet.Amount
import X2XCoin.Server.Resumption

/-!
# The keys of the chain index

`addOutpoint`, `removeOutpoint`, `removeOutpointByKey` and `listIndexedUtxos` of `ChainIndexer.java`
on the maps as the source has them, by the text of an outpoint.  `loadState` takes the last snapshot
that was written.
-/

namespace X2XCoin

namespace Server

namespace Outpoints

open JavaWallet JavaWallet.Amount

/-! ## The text of an outpoint -/

def colon : UInt16 := 58

/-- An `int` as Java appends it to a string. -/
def intString (n : Int32) : JavaString :=
  (if n < 0 then [minus] else []) ++ decimalString n.toInt.natAbs

def outpointKey (txid : JavaString) (vout : Int32) : JavaString := txid ++ colon :: intString vout

def lastIndexOf (key : JavaString) : ℤ :=
  if colon ∈ key then key.length - 1 - key.reverse.idxOf colon else -1

/-- `Integer.parseInt`, which reads what `Long.parseLong` does and lies in a smaller range. -/
def parseInt (t : CharacterTable) (s : JavaString) : Option Int32 :=
  ((parseLong t s).filter fun n => -2 ^ 31 ≤ n ∧ n < 2 ^ 31).map Int32.ofInt

/-! ## The maps -/

structure Utxo where
  txid : JavaString
  vout : Int32
  address : JavaString
  amountSatoshis : Int64
  blockHeight : Int32
  deriving DecidableEq

def Utxo.key (utxo : Utxo) : JavaString := outpointKey utxo.txid utxo.vout

/-- `outpoints` and `utxosByAddress`. -/
abbrev Maps := MirrorMap JavaString JavaString Utxo

structure State where
  indexedHeight : Int32
  chainTip : Int32 := -1
  maps : Maps := MirrorMap.empty

/-- An input with a transaction id and an index, and an output with the addresses extracted from
it. -/
structure BlockTransaction where
  txid : JavaString
  vin : List (JavaString × Int32)
  vout : List (Int32 × Int64 × List JavaString)

namespace State

def addOutpoint (s : State) (utxo : Utxo) : State :=
  { s with maps := s.maps.put Utxo.address utxo.key utxo }

def removeOutpoint (s : State) (txid : JavaString) (vout : Int32) : State :=
  { s with maps := s.maps.remove Utxo.address (outpointKey txid vout) }

/-- `none` if `Integer.parseInt` throws; the maps have not been touched then. -/
def removeOutpointByKey (t : CharacterTable) (s : State) (key : JavaString) : Option State :=
  let separator := lastIndexOf key
  if separator ≤ 0 ∨ separator ≥ key.length - 1 then some s
  else (parseInt t (key.drop (separator.toNat + 1))).map
    (s.removeOutpoint (key.take separator.toNat))

def processTransaction (s : State) (tx : BlockTransaction) (blockHeight : Int32) : State :=
  let s := tx.vin.foldl (fun s input => s.removeOutpoint input.1 input.2) s
  tx.vout.foldl (fun s output => output.2.2.foldl (fun s address =>
    s.addOutpoint ⟨tx.txid, output.1, address, output.2.1, blockHeight⟩) s) s

def applyBlockToIndex (s : State) (block : List BlockTransaction) (height : Int32) : State :=
  { block.foldl (fun s tx => s.processTransaction tx height) s with indexedHeight := height }

/-- What a scan of an address writes. -/
def commitScan (s : State) (tip : Int32) (merged : List Utxo) : State :=
  merged.foldl addOutpoint { s with chainTip := tip }

def confirmationsFor (s : State) (blockHeight : Int32) : Int32 :=
  if s.chainTip < 0 ∨ blockHeight < 0 then 0 else max 0 (s.chainTip - blockHeight + 1)

end State

/-- The order of `listIndexedUtxos`: newest first, then by index and transaction id. -/
def listedBefore (a b : Utxo) : Bool :=
  if a.blockHeight = b.blockHeight then
    if a.vout = b.vout then a.txid ≤ b.txid else a.vout ≤ b.vout
  else b.blockHeight ≤ a.blockHeight

def State.listIndexedUtxos (s : State) (address : JavaString) (minConfirmations : Int32) :
    List Utxo :=
  let result := ((s.maps.keysOf address).filterMap fun key => s.maps.entries.lookup key).filter
    fun utxo => minConfirmations ≤ s.confirmationsFor utxo.blockHeight
  result.insertionSort fun a b => listedBefore a b

/-! ## Runs -/

inductive Op
  | addOutpoint (utxo : Utxo)
  | removeOutpoint (txid : JavaString) (vout : Int32)
  | removeOutpointByKey (key : JavaString)
  | applyBlockToIndex (block : List BlockTransaction) (height : Int32)
  | commitScan (tip : Int32) (merged : List Utxo)
  | snapshotState
  | loadState

/-- The index and the last snapshot that was written. -/
structure Indexer where
  state : State
  snapshot : Option State := none

def Indexer.step (t : CharacterTable) (indexer : Indexer) : Op → Indexer
  | .addOutpoint utxo => { indexer with state := indexer.state.addOutpoint utxo }
  | .removeOutpoint txid vout => { indexer with state := indexer.state.removeOutpoint txid vout }
  | .removeOutpointByKey key =>
    { indexer with state := (indexer.state.removeOutpointByKey t key).getD indexer.state }
  | .applyBlockToIndex block height =>
    { indexer with state := indexer.state.applyBlockToIndex block height }
  | .commitScan tip merged => { indexer with state := indexer.state.commitScan tip merged }
  | .snapshotState => { indexer with snapshot := some indexer.state }
  | .loadState => { indexer with state := indexer.snapshot.getD indexer.state }

/-! ## Reading keys -/

variable {t : CharacterTable}

theorem lastIndexOf_append {a b : JavaString} (h : colon ∉ b) :
    lastIndexOf (a ++ colon :: b) = a.length := by
  have hmem : colon ∈ a ++ colon :: b := List.mem_append_right a List.mem_cons_self
  have hindex : (a ++ colon :: b).reverse.idxOf colon = b.length := by
    rw [List.reverse_append, List.reverse_cons, List.append_assoc,
      List.idxOf_append_of_notMem (by simpa using h), List.singleton_append, List.idxOf_cons_self,
      List.length_reverse, Nat.add_zero]
  rw [lastIndexOf, if_pos hmem, hindex, List.length_append, List.length_cons]
  omega

theorem colon_not_mem_intString (t : CharacterTable) (n : Int32) : colon ∉ intString n := by
  have hdigits : colon ∉ decimalString n.toInt.natAbs := by
    intro hmem
    have hsome : (t.digit colon).isSome := allDigits_decimalString n.toInt.natAbs colon hmem
    rw [t.ascii (by decide), if_neg (by decide)] at hsome
    cases hsome
  have hsign : colon ∉ (if n < 0 then [minus] else [] : JavaString) := by
    split_ifs <;> decide
  exact fun hmem => (List.mem_append.mp hmem).elim hsign hdigits

theorem parseInt_intString (t : CharacterTable) (n : Int32) :
    parseInt t (intString n) = some n := by
  have hlow := n.le_toInt
  have hhigh := n.toInt_lt
  have hzero : (0 : Int32).toInt = 0 := rfl
  have hlong : parseLong t (intString n) = some n.toInt := by
    refine parseLong_eq_some.mpr ⟨if n < 0 then [minus] else [], decimalString n.toInt.natAbs, ?_,
      rfl, decimalString_ne_nil _, allDigits_decimalString _, ⟨by omega, by omega⟩, ?_⟩
    · split_ifs
      · exact .inr (.inr rfl)
      · exact .inl rfl
    · rw [digitsValue_decimalString]
      split_ifs with hneg
      · rw [Int32.lt_iff_toInt_lt] at hneg
        rw [show signFactor [minus] = -1 from rfl]
        omega
      · rw [Int32.lt_iff_toInt_lt] at hneg
        rw [show signFactor [] = 1 from rfl]
        omega
  have hrange : (decide (-2 ^ 31 ≤ n.toInt ∧ n.toInt < 2 ^ 31)) = true :=
    decide_eq_true ⟨by omega, by omega⟩
  rw [parseInt, hlong, Option.filter_some, if_pos hrange, Option.map_some, Int32.ofInt_toInt]

theorem lastIndexOf_outpointKey (t : CharacterTable) (txid : JavaString) (vout : Int32) :
    lastIndexOf (outpointKey txid vout) = txid.length :=
  lastIndexOf_append (colon_not_mem_intString t vout)

theorem outpointKey_injective (t : CharacterTable) {txid txid' : JavaString} {vout vout' : Int32}
    (h : outpointKey txid vout = outpointKey txid' vout') : txid = txid' ∧ vout = vout' := by
  have hlength : txid.length = txid'.length := by
    have hindex := congrArg lastIndexOf h
    rw [lastIndexOf_outpointKey t, lastIndexOf_outpointKey t] at hindex
    exact_mod_cast hindex
  obtain ⟨htxid, htail⟩ := List.append_inj h hlength
  have hparse := congrArg (parseInt t) (List.cons.inj htail).2
  rw [parseInt_intString, parseInt_intString] at hparse
  exact ⟨htxid, Option.some.inj hparse⟩

theorem removeOutpointByKey_outpointKey (t : CharacterTable) (s : State) {txid : JavaString}
    (htxid : txid ≠ []) (vout : Int32) :
    s.removeOutpointByKey t (outpointKey txid vout) = some (s.removeOutpoint txid vout) := by
  have hpos := List.length_pos_iff.mpr htxid
  have hint : 0 < (intString vout).length := by
    rw [intString, List.length_append]
    have := List.length_pos_iff.mpr (decimalString_ne_nil vout.toInt.natAbs)
    omega
  have hinside : ¬ ((txid.length : ℤ) ≤ 0 ∨
      (txid.length : ℤ) ≥ (outpointKey txid vout).length - 1) := by
    rw [outpointKey, List.length_append, List.length_cons]
    omega
  have hdrop : (outpointKey txid vout).drop (txid.length + 1) = intString vout := by
    rw [outpointKey, List.drop_append]
    simp
  rw [State.removeOutpointByKey, lastIndexOf_outpointKey t, if_neg hinside,
    Int.toNat_natCast, hdrop, parseInt_intString, Option.map_some, outpointKey, List.take_left]

/-! ## Mirrored maps -/

/-- The index by address lists the stored outputs, and each is stored under its own key. -/
structure State.Mirrored (s : State) : Prop where
  coherent : s.maps.Coherent Utxo.address
  key_eq : ∀ key utxo, s.maps.entries.lookup key = some utxo → utxo.key = key

variable {s : State}

theorem State.Mirrored.addOutpoint (h : s.Mirrored) (utxo : Utxo) :
    (s.addOutpoint utxo).Mirrored := by
  refine ⟨h.coherent.put utxo.key utxo, fun key utxo' hlookup => ?_⟩
  rw [State.addOutpoint, MirrorMap.lookup_put] at hlookup
  split_ifs at hlookup with hkey
  · rw [← Option.some.inj hlookup, hkey]
  · exact h.key_eq key utxo' hlookup

theorem State.Mirrored.removeOutpoint (h : s.Mirrored) (txid : JavaString) (vout : Int32) :
    (s.removeOutpoint txid vout).Mirrored := by
  refine ⟨h.coherent.remove _, fun key utxo hlookup => ?_⟩
  rw [State.removeOutpoint, MirrorMap.lookup_remove] at hlookup
  split_ifs at hlookup
  exact h.key_eq key utxo hlookup

theorem State.Mirrored.removeOutpointByKey (h : s.Mirrored) (t : CharacterTable)
    (key : JavaString) : ((s.removeOutpointByKey t key).getD s).Mirrored := by
  unfold State.removeOutpointByKey
  dsimp only
  split_ifs
  · exact h
  · cases parseInt t (key.drop ((lastIndexOf key).toNat + 1)) with
    | none => exact h
    | some vout => exact h.removeOutpoint _ vout

theorem State.Mirrored.processTransaction (h : s.Mirrored) (tx : BlockTransaction)
    (blockHeight : Int32) : (s.processTransaction tx blockHeight).Mirrored := by
  have hspent := List.foldlRecOn tx.vin (fun s input => s.removeOutpoint input.1 input.2) h
    fun s hs input _ => hs.removeOutpoint input.1 input.2
  refine List.foldlRecOn tx.vout _ hspent fun _ hs output _ => ?_
  exact List.foldlRecOn output.2.2 _ hs fun _ hs _ _ => hs.addOutpoint _

theorem State.Mirrored.applyBlockToIndex (h : s.Mirrored) (block : List BlockTransaction)
    (height : Int32) : (s.applyBlockToIndex block height).Mirrored := by
  have hblock := List.foldlRecOn block (fun s tx => s.processTransaction tx height) h
    fun s hs tx _ => hs.processTransaction tx height
  exact ⟨hblock.coherent, hblock.key_eq⟩

theorem State.Mirrored.commitScan (h : s.Mirrored) (tip : Int32) (merged : List Utxo) :
    (s.commitScan tip merged).Mirrored :=
  List.foldlRecOn merged _ ⟨h.coherent, h.key_eq⟩ fun s hs utxo _ => hs.addOutpoint utxo

/-- The maps in memory and in the snapshot mirror each other. -/
structure Indexer.Mirrored (indexer : Indexer) : Prop where
  state : indexer.state.Mirrored
  snapshot : ∀ s, indexer.snapshot = some s → s.Mirrored

theorem Indexer.Mirrored.step {indexer : Indexer} (h : indexer.Mirrored) (t : CharacterTable)
    (op : Op) : (indexer.step t op).Mirrored := by
  cases op with
  | addOutpoint utxo => exact ⟨h.state.addOutpoint utxo, h.snapshot⟩
  | removeOutpoint txid vout => exact ⟨h.state.removeOutpoint txid vout, h.snapshot⟩
  | removeOutpointByKey key => exact ⟨h.state.removeOutpointByKey t key, h.snapshot⟩
  | applyBlockToIndex block height => exact ⟨h.state.applyBlockToIndex block height, h.snapshot⟩
  | commitScan tip merged => exact ⟨h.state.commitScan tip merged, h.snapshot⟩
  | snapshotState =>
    refine ⟨h.state, ?_⟩
    rintro s ⟨⟩
    exact h.state
  | loadState =>
    refine ⟨?_, h.snapshot⟩
    cases hsnapshot : indexer.snapshot with
    | none =>
      rw [Indexer.step, hsnapshot]
      exact h.state
    | some s =>
      rw [Indexer.step, hsnapshot]
      exact h.snapshot s hsnapshot

theorem Indexer.mirrored_run (t : CharacterTable) (height : Int32) (ops : List Op) :
    (ops.foldl (Indexer.step t) ⟨⟨height, -1, MirrorMap.empty⟩, none⟩).Mirrored :=
  List.foldlRecOn ops _
    ⟨⟨MirrorMap.coherent_empty, fun _ _ h => nomatch h⟩, fun _ h => nomatch h⟩
    fun _ hs op _ => hs.step t op

/-! ## Lists of outputs -/

theorem State.Mirrored.mem_listIndexedUtxos (h : s.Mirrored) (address : JavaString)
    (minConfirmations : Int32) (utxo : Utxo) :
    utxo ∈ s.listIndexedUtxos address minConfirmations ↔
      s.maps.entries.lookup utxo.key = some utxo ∧ utxo.address = address ∧
        minConfirmations ≤ s.confirmationsFor utxo.blockHeight := by
  rw [State.listIndexedUtxos, List.mem_insertionSort, List.mem_filter, List.mem_filterMap,
    decide_eq_true_iff]
  constructor
  · rintro ⟨⟨key, hkey, hlookup⟩, hmin⟩
    obtain ⟨utxo', hutxo', rfl⟩ := (h.coherent.mem_keysOf address key).mp hkey
    obtain rfl := Option.some.inj (hlookup.symm.trans hutxo')
    rw [h.key_eq key utxo hlookup]
    exact ⟨hlookup, rfl, hmin⟩
  · rintro ⟨hlookup, haddress, hmin⟩
    have hkey := (h.coherent.mem_keysOf address utxo.key).mpr ⟨utxo, hlookup, haddress⟩
    exact ⟨⟨utxo.key, hkey, hlookup⟩, hmin⟩

theorem State.Mirrored.nodup_listIndexedUtxos (h : s.Mirrored) (address : JavaString)
    (minConfirmations : Int32) : (s.listIndexedUtxos address minConfirmations).Nodup := by
  refine (List.perm_insertionSort _ _).nodup_iff.mpr (List.Nodup.filter _ ?_)
  refine List.Nodup.filterMap (fun key key' utxo hkey hkey' => ?_) (h.coherent.nodup address)
  exact (h.key_eq key utxo hkey).symm.trans (h.key_eq key' utxo hkey')

/-- After any run, with snapshots and restarts from them: the two maps mirror each other, a key made
of an outpoint removes this outpoint only, and `listIndexedUtxos` lists every stored output of the
address that has the confirmations once. -/
theorem maps_mirrored (t : CharacterTable) (height : Int32) (ops : List Op) :
    let s := (ops.foldl (Indexer.step t) ⟨⟨height, -1, MirrorMap.empty⟩, none⟩).state
    (∀ address key, key ∈ s.maps.keysOf address ↔
      ∃ utxo, s.maps.entries.lookup key = some utxo ∧ utxo.address = address) ∧
    (∀ address, s.maps.index.lookup address ≠ some []) ∧
    (∀ txid vout, txid ≠ [] → ∃ s', s.removeOutpointByKey t (outpointKey txid vout) = some s' ∧
      ∀ txid' vout', s'.maps.entries.lookup (outpointKey txid' vout') =
        if (txid', vout') = (txid, vout) then none
        else s.maps.entries.lookup (outpointKey txid' vout')) ∧
    ∀ address minConfirmations, (s.listIndexedUtxos address minConfirmations).Nodup ∧
      ∀ utxo, utxo ∈ s.listIndexedUtxos address minConfirmations ↔
        s.maps.entries.lookup (outpointKey utxo.txid utxo.vout) = some utxo ∧
          utxo.address = address ∧ minConfirmations ≤ s.confirmationsFor utxo.blockHeight := by
  intro s
  have hs : s.Mirrored := (Indexer.mirrored_run t height ops).state
  refine ⟨hs.coherent.mem_keysOf, hs.coherent.ne_nil, fun txid vout htxid => ?_,
    fun address min => ?_⟩
  · refine ⟨_, removeOutpointByKey_outpointKey t s htxid vout, fun txid' vout' => ?_⟩
    rw [State.removeOutpoint, MirrorMap.lookup_remove]
    refine if_congr ?_ rfl rfl
    rw [Prod.mk.injEq]
    refine ⟨outpointKey_injective t, ?_⟩
    rintro ⟨rfl, rfl⟩
    rfl
  · exact ⟨hs.nodup_listIndexedUtxos address min, hs.mem_listIndexedUtxos address min⟩

end Outpoints

end Server

end X2XCoin
