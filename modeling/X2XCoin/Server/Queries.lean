import X2XCoin.Server.IndexerRuns

/-!
# Queries of a growing chain
-/

namespace X2XCoin

namespace Server

/-! ## The index by address -/

namespace Index

def keysOf (index : Index) (address : String) : List Key :=
  (index.utxosByAddress.lookup address).getD []

theorem keysOf_removeFromAddressIndex (index : Index) (address address' : String) (key : Key) :
    (index.removeFromAddressIndex address key).keysOf address' =
      if address' = address then (index.keysOf address).erase key else index.keysOf address' := by
  change (index.removeFromAddressIndex address key).maps.keysOf address' = _
  rw [maps_removeFromAddressIndex]
  exact MirrorMap.keysOf_withdraw _ _ _ _

theorem keysOf_addToAddressIndex (index : Index) (address address' : String) (key : Key) :
    (index.addToAddressIndex address key).keysOf address' =
      if address' = address then (index.keysOf address).insert key else index.keysOf address' :=
  MirrorMap.keysOf_file index.maps address address' key

theorem mem_keysOf_removeFromAddressIndex {index : Index} {address address' : String}
    {key key' : Key} (h : key' ∈ index.keysOf address') (hne : key' ≠ key) :
    key' ∈ (index.removeFromAddressIndex address key).keysOf address' := by
  rw [keysOf_removeFromAddressIndex]
  split_ifs with ha
  · rw [List.mem_erase_of_ne hne, ← ha]
    exact h
  · exact h

theorem mem_keysOf_addToAddressIndex {index : Index} {address address' : String} {key key' : Key}
    (h : key' = key ∧ address' = address ∨ key' ∈ index.keysOf address') :
    key' ∈ (index.addToAddressIndex address key).keysOf address' := by
  rw [keysOf_addToAddressIndex]
  split_ifs with ha
  · rw [List.mem_insert_iff, ← ha]
    exact h.imp_left And.left
  · exact h.resolve_left fun hk => ha hk.2

variable {utxo : IndexedUtxo} {key : Key}

theorem mem_keysOf_forgetPrevious {index : Index} {previous : Option IndexedUtxo} {address : String}
    (h : key ∈ index.keysOf address) (hne : key ≠ utxo.key) :
    key ∈ (index.forgetPrevious utxo previous).keysOf address := by
  unfold forgetPrevious
  split
  · exact h
  · split_ifs
    · exact h
    · exact mem_keysOf_removeFromAddressIndex h hne

/-- Every stored output has its own key, is found under its address and satisfies `listed`. -/
def Filed (listed : IndexedUtxo → Prop) (index : Index) : Prop :=
  ∀ key utxo, index.outpoints.lookup key = some utxo →
    utxo.key = key ∧ key ∈ index.keysOf utxo.address ∧ listed utxo

variable {listed : IndexedUtxo → Prop} {index : Index}

section

variable (h : index.Filed listed)
include h

theorem Filed.addOutpoint (hutxo : listed utxo) : (index.addOutpoint utxo).Filed listed := by
  intro key u hlookup
  rw [lookup_addOutpoint] at hlookup
  split_ifs at hlookup with hkey
  · cases hlookup
    exact ⟨hkey.symm, mem_keysOf_addToAddressIndex (.inl ⟨hkey, rfl⟩), hutxo⟩
  · obtain ⟨hk, hmem, hl⟩ := h key u hlookup
    exact ⟨hk, mem_keysOf_addToAddressIndex (.inr (mem_keysOf_forgetPrevious hmem hkey)), hl⟩

theorem Filed.removeOutpoint (key : Key) : (index.removeOutpoint key).Filed listed := by
  intro k u hlookup
  rw [lookup_removeOutpoint] at hlookup
  split_ifs at hlookup with hkey
  obtain ⟨hk, hmem, hl⟩ := h k u hlookup
  refine ⟨hk, ?_, hl⟩
  unfold Index.removeOutpoint
  split
  · exact hmem
  · exact mem_keysOf_removeFromAddressIndex hmem hkey

theorem Filed.removeAll (keys : List Key) : (keys.foldl Index.removeOutpoint index).Filed listed :=
  List.foldlRecOn keys _ h fun _ hi key _ => hi.removeOutpoint key

theorem Filed.addAll {utxos : List IndexedUtxo} (hutxos : ∀ utxo ∈ utxos, listed utxo) :
    (utxos.foldl Index.addOutpoint index).Filed listed :=
  List.foldlRecOn utxos _ h fun _ hi utxo hmem => hi.addOutpoint (hutxos utxo hmem)

theorem Filed.applyBlockToIndex {codec : AddressCodec} {block : Block} {height : ℤ}
    (hblock : ∀ tx ∈ block, ∀ utxo ∈ createdUtxos codec tx height, listed utxo) :
    (index.applyBlockToIndex codec block height).Filed listed := by
  refine List.foldlRecOn block _ h fun i hi tx htx => ?_
  rw [processTransaction_eq]
  exact (hi.removeAll _).addAll (hblock tx htx)

theorem Filed.mem_listIndexedUtxos (hlookup : index.outpoints.lookup key = some utxo)
    {minConfirmations : ℤ} (hmin : minConfirmations ≤ index.confirmationsFor utxo.blockHeight) :
    utxo ∈ index.listIndexedUtxos utxo.address minConfirmations := by
  rw [listIndexedUtxos, List.mem_insertionSort, List.mem_filter]
  exact ⟨List.mem_filterMap.mpr ⟨key, (h key utxo hlookup).2.1, hlookup⟩, decide_eq_true hmin⟩

end

theorem isSome_heightOf_addAll {utxos : List IndexedUtxo} (h : (index.heightOf key).isSome) :
    ((utxos.foldl addOutpoint index).heightOf key).isSome := by
  induction utxos generalizing index with
  | nil => exact h
  | cons utxo utxos ih =>
    apply ih
    rw [heightOf_addOutpoint]
    split_ifs
    · rfl
    · exact h

end Index

/-! ## Outputs of the chain -/

section

variable (codec : AddressCodec)

/-- The output is one of the chain, as the index stores it. -/
def Listed (chain : List Block) (utxo : IndexedUtxo) : Prop :=
  ∃ p ∈ located chain, utxo ∈ createdUtxos codec p.2 p.1

/-- The node's chain only grows, and a scan finds outputs of the chain. -/
def Growing (s : State) : Event → Prop
  | .chain keep _ => s.node.chain.length ≤ keep
  | .scan _ found => ∀ utxo ∈ found, Listed codec s.node.chain utxo
  | _ => True

/-- The node's chain up to the indexed height. -/
def State.indexedChain (s : State) : List Block :=
  s.node.chain.take (s.index.indexedHeight + 1).toNat

/-- The outputs that are unspent up to the indexed height are in the index. -/
def Keeps (s : State) : Prop :=
  ∀ key height, Unspent codec s.indexedChain key height → (s.index.heightOf key).isSome

/-- A query lists no output that is unspent up to the indexed height and that the node does not
have. -/
def AsksInTime (s : State) : Event → Prop
  | .query address minConfirmations fails => codec.isValidP2pkh address →
    ∀ utxo ∈ s.index.listIndexedUtxos address minConfirmations,
      (∃ height, Unspent codec s.indexedChain utxo.key height) →
      fails utxo.key ∨ s.node.gettxout utxo.key
  | _ => True

end

theorem mem_located {chain : List Block} {i : ℕ} {block : Block} {tx : Transaction}
    (hblock : chain[i]? = some block) (htx : tx ∈ block) : ((i : ℤ), tx) ∈ located chain := by
  rw [located, List.mem_flatten]
  refine ⟨block.map fun tx => ((i : ℤ), tx), List.mem_map.mpr ⟨(block, i), ?_, rfl⟩,
    List.mem_map_of_mem htx⟩
  exact List.mem_zipIdx_iff_getElem?.mpr hblock

theorem located_append (chain blocks : List Block) :
    ∃ rest, located (chain ++ blocks) = located chain ++ rest := by
  rw [located, List.zipIdx_append, List.map_append, List.flatten_append]
  exact ⟨_, rfl⟩

variable {codec : AddressCodec} {s : State}

/-- What holds in every run on a growing chain. -/
structure Sound (codec : AddressCodec) (s : State) : Prop where
  synced : Synced s
  inStep : InStep s
  filed : s.index.Filed (Listed codec s.node.chain)

theorem Sound.indexedChain (h : Sound codec s) : s.indexedChain = s.delivered := by
  rw [State.indexedChain, h.synced.height, Int.toNat_natCast]
  exact (List.prefix_iff_eq_take.mp h.inStep).symm

theorem Sound.keeps_iff (h : Sound codec s) : Keeps codec s ↔ ∀ key,
    (LastWrite.run (heightWrite codec key) (located s.delivered) none).isSome →
      (s.index.heightOf key).isSome := by
  rw [Keeps, h.indexedChain]
  simp only [unspent_iff, Option.isSome_iff_exists]
  exact ⟨fun h key ⟨height, hrun⟩ => h key height hrun, fun h key height hrun => h key ⟨height, hrun⟩⟩

theorem Sound.filed_applyBlockToIndex (h : Sound codec s) {block : Block}
    (hblock : s.node.chain[s.delivered.length]? = some block) :
    (s.index.applyBlockToIndex codec block (s.index.indexedHeight + 1)).Filed
      (Listed codec s.node.chain) := by
  refine h.filed.applyBlockToIndex fun tx htx utxo hutxo => ?_
  rw [h.synced.height] at hutxo
  exact ⟨_, mem_located hblock htx, hutxo⟩

theorem Sound.step (h : Sound codec s) {e : Event} (he : Growing codec s e) :
    Sound codec (s.step codec e) := by
  have hlen : s.delivered.length ≤ s.node.chain.length := h.inStep.length_le
  refine ⟨h.synced.step e, h.inStep.step h.synced ?_, ?_⟩
  · cases e <;> first | exact trivial | exact hlen.trans he
  · cases e with
    | chain keep blocks =>
      intro key utxo hlookup
      obtain ⟨hk, hmem, p, hp, hu⟩ := h.filed key utxo hlookup
      refine ⟨hk, hmem, p, ?_, hu⟩
      change p ∈ located (s.node.chain.take keep ++ blocks)
      obtain ⟨rest, hrest⟩ := located_append s.node.chain blocks
      rw [List.take_of_length_le he, hrest]
      exact List.mem_append_left _ hp
    | mempool spends => exact h.filed
    | sync =>
      change (s.syncStep codec).index.Filed (Listed codec (s.syncStep codec).node.chain)
      obtain heq | ⟨heq, -⟩ | ⟨block, e, hblock, -, -, heq⟩ := h.synced.syncStep_cases codec
      · rw [heq]
        exact h.filed
      · rw [heq]
        exact h.filed
      · rw [heq]
        exact h.filed_applyBlockToIndex hblock
    | syncFails => exact h.filed
    | query address minConfirmations fails =>
      change (s.index.query codec s.node address minConfirmations fails).1.Filed _
      unfold Index.query
      split_ifs
      · exact h.filed.removeAll _
      · exact h.filed
    | scan tip found => exact h.filed.addAll he

theorem sound_start (genesis : Block) : Sound codec (State.start genesis) :=
  ⟨synced_start genesis, List.nil_prefix, fun _ _ h => (by cases h)⟩

theorem keeps_start (genesis : Block) : Keeps codec (State.start genesis) := by
  rintro key height ⟨before, tx, after, heq, -⟩
  exact absurd heq (by simp [State.indexedChain, State.start, located, START_HEIGHT])

/-! ## Queries -/

/-- A query removes the listed outputs that the node does not have. -/
theorem Index.isSome_heightOf_query {index : Index} {node : Node} {address : String}
    {minConfirmations : ℤ} {fails : Key → Bool} (hvalid : codec.isValidP2pkh address = true)
    (key : Key) :
    ((index.query codec node address minConfirmations fails).1.heightOf key).isSome ↔
      (index.heightOf key).isSome ∧ ∀ utxo ∈ index.listIndexedUtxos address minConfirmations,
        utxo.key = key → fails key ∨ node.gettxout key := by
  rw [Index.query, if_pos hvalid, Index.heightOf_removeAll]
  split_ifs with hmem
  · refine iff_of_false (by simp) fun h => ?_
    obtain ⟨utxo, hutxo, rfl⟩ := List.mem_map.mp hmem
    obtain ⟨hlisted, hspent⟩ := List.mem_filter.mp hutxo
    have := h.2 utxo hlisted rfl
    simp_all
  · refine ⟨fun h => ⟨h, fun utxo hlisted hkey => ?_⟩, And.left⟩
    by_contra hnot
    refine hmem (List.mem_map.mpr ⟨utxo, List.mem_filter.mpr ⟨hlisted, ?_⟩, hkey⟩)
    rw [hkey]
    simp_all

/-- A step keeps the unspent outputs exactly if it is not a query at the wrong time. -/
theorem Sound.keeps_step_iff (h : Sound codec s) (hkeeps : Keeps codec s) {e : Event}
    (he : Growing codec s e) : Keeps codec (s.step codec e) ↔ AsksInTime codec s e := by
  have h' := h.step he
  rw [h.keeps_iff] at hkeeps
  cases e with
  | chain keep blocks => exact iff_of_true (h'.keeps_iff.mpr hkeeps) trivial
  | mempool spends => exact iff_of_true (h'.keeps_iff.mpr hkeeps) trivial
  | syncFails => exact iff_of_true (h'.keeps_iff.mpr hkeeps) trivial
  | sync =>
    refine iff_of_true (h'.keeps_iff.mpr ?_) trivial
    change ∀ key, (LastWrite.run _ (located (s.syncStep codec).delivered) none).isSome →
      ((s.syncStep codec).index.heightOf key).isSome
    obtain heq | ⟨heq, -⟩ | ⟨block, e, hblock, -, -, heq⟩ := h.synced.syncStep_cases codec
    · rw [heq]
      exact hkeeps
    · rw [heq]
      exact hkeeps
    · intro key hrun
      rw [heq] at hrun ⊢
      change (LastWrite.run _ (located (s.delivered ++ [block])) none).isSome at hrun
      change ((s.index.applyBlockToIndex codec block _).heightOf key).isSome
      rw [located_append_singleton, LastWrite.run_append] at hrun
      rw [Index.heightOf_applyBlockToIndex, h.synced.height]
      exact LastWrite.isSome_run_of_imp (hkeeps key) hrun
  | scan tip found =>
    refine iff_of_true (h'.keeps_iff.mpr fun key hrun => ?_) trivial
    exact Index.isSome_heightOf_addAll (hkeeps key hrun)
  | query address minConfirmations fails =>
    rw [h'.keeps_iff]
    change (∀ key, (LastWrite.run _ (located s.delivered) none).isSome →
      ((s.index.query codec s.node address minConfirmations fails).1.heightOf key).isSome) ↔ _
    by_cases hvalid : codec.isValidP2pkh address = true
    · simp only [Index.isSome_heightOf_query hvalid, AsksInTime, h.indexedChain, unspent_iff,
        ← Option.isSome_iff_exists, hvalid, forall_const]
      constructor
      · intro hall utxo hlisted hrun
        exact (hall utxo.key hrun).2 utxo hlisted rfl
      · intro hasks key hrun
        refine ⟨hkeeps key hrun, fun utxo hlisted hkey => ?_⟩
        subst hkey
        exact hasks utxo hlisted hrun
    · refine iff_of_true (fun key hrun => ?_) fun hv => absurd hv hvalid
      rw [Index.query, if_neg hvalid]
      exact hkeeps key hrun

/-- An output that the index keeps is reported by a query for its address while the node has it. -/
theorem Sound.reports (h : Sound codec s) (hkeeps : Keeps codec s) {key : Key} {height : ℤ}
    (hunspent : Unspent codec s.indexedChain key height) {address : String} {minConfirmations : ℤ}
    (hvalid : codec.isValidP2pkh address = true)
    (hlisted : ∀ utxo, Listed codec s.node.chain utxo → utxo.key = key → utxo.address = address ∧
      minConfirmations ≤ s.index.confirmationsFor utxo.blockHeight)
    (hnode : s.node.gettxout key = true) (fails : Key → Bool) :
    key ∈ (s.index.query codec s.node address minConfirmations fails).2.map IndexedUtxo.key := by
  obtain ⟨utxo, hlookup, -⟩ := Option.map_eq_some_iff.mp
    (Option.isSome_iff_exists.mp (hkeeps key height hunspent)).choose_spec
  obtain ⟨hkey, -, hl⟩ := h.filed key utxo hlookup
  obtain ⟨haddress, hmin⟩ := hlisted utxo hl hkey
  have hmem := h.filed.mem_listIndexedUtxos hlookup hmin
  rw [haddress] at hmem
  rw [Index.query, if_pos hvalid]
  refine List.mem_map.mpr ⟨utxo, List.mem_filter.mpr ⟨hmem, ?_⟩, hkey⟩
  rw [hkey, hnode, Bool.or_true]

/-- On a growing chain the index keeps the unspent outputs in every state of a run exactly if every
query of the run asks in time, and what it keeps is reported. -/
theorem queries_keep_iff (codec : AddressCodec) (genesis : Block) (events : List Event)
    (hgrowing : Run.Meets (State.step codec) (Growing codec) (State.start genesis) events) :
    (Run.Meets (State.step codec) (AsksInTime codec) (State.start genesis) events ↔
      ∀ events', events' <+: events →
        Keeps codec (events'.foldl (State.step codec) (State.start genesis))) ∧
    (Run.Meets (State.step codec) (AsksInTime codec) (State.start genesis) events →
      let s := events.foldl (State.step codec) (State.start genesis)
      ∀ key height address minConfirmations fails,
        Unspent codec s.indexedChain key height → codec.isValidP2pkh address = true →
        (∀ utxo, Listed codec s.node.chain utxo → utxo.key = key → utxo.address = address ∧
          minConfirmations ≤ s.index.confirmationsFor utxo.blockHeight) →
        s.node.gettxout key = true →
        key ∈ (s.index.query codec s.node address minConfirmations fails).2.map
          IndexedUtxo.key) := by
  have hsound : ∀ s e, Sound codec s → Growing codec s e → Sound codec (s.step codec e) :=
    fun s e hs he => hs.step he
  have hkeeps : ∀ s e, Sound codec s → Keeps codec s → Growing codec s e →
      (Keeps codec (s.step codec e) ↔ AsksInTime codec s e) :=
    fun s e hs hk he => hs.keeps_step_iff hk he
  have hiff := Run.meets_iff_of_meets hsound hkeeps (sound_start genesis) (keeps_start genesis)
    hgrowing
  refine ⟨hiff, fun hmeets key height address minConfirmations fails hunspent hvalid hlisted hnode =>
    ?_⟩
  have hs : Sound codec (events.foldl (State.step codec) (State.start genesis)) :=
    Run.invariant hsound (sound_start genesis) hgrowing
  exact hs.reports (hiff.mp hmeets events List.prefix_rfl) hunspent hvalid hlisted hnode fails

/-- A run with one block and a query for its output. -/
def askedOnce : List Event :=
  [.chain 1 [[coinbase "a"]], .sync, .sync, .sync, .sync, .query "X" 1 fun _ => false]

theorem askedOnce_keeps : Keeps listedCodec
    (askedOnce.foldl (State.step listedCodec) (State.start [coinbase "g"])) := by
  refine (queries_keep_iff listedCodec [coinbase "g"] askedOnce ?_).1.mp ?_ askedOnce
    List.prefix_rfl
  · exact ⟨le_rfl, trivial, trivial, trivial, trivial, trivial, trivial⟩
  · refine ⟨trivial, trivial, trivial, trivial, trivial, fun _ utxo hlisted hu => .inr ?_, trivial⟩
    clear hu
    revert utxo
    decide

/-- An output is asked for while a transaction of the mempool spends it, and the transaction leaves
the mempool again. -/
def askedAtTheWrongTime : List Event :=
  [.chain 1 [[coinbase "a"]], .sync, .sync, .sync, .sync, .mempool [⟨"a", 0⟩],
    .query "X" 1 fun _ => false, .mempool [], .sync]

/-- The output is unspent and no longer indexed, so the next query does not report it. -/
theorem askedAtTheWrongTime_loses :
    let s := askedAtTheWrongTime.foldl (State.step listedCodec) (State.start [coinbase "g"])
    Unspent listedCodec s.indexedChain ⟨"a", 0⟩ 1 ∧ s.node.gettxout ⟨"a", 0⟩ = true ∧
      s.index.heightOf ⟨"a", 0⟩ = none ∧
      ((s.index.query listedCodec s.node "X" 1 fun _ => false).2.map IndexedUtxo.key) =
        [⟨"g", 0⟩] := by
  simp only [unspent_iff]
  decide

end Server

end X2XCoin
