import X2XCoin.Server.ChainIndexer

/-!
# Runs of the indexer

The calls of `syncToTip` to the node, queries and scans of the server, and changes of the node's
chain and mempool, in any order.  A deep scan of an address only adds outputs it has seen in blocks
of the node; which ones depends on windows and time limits, so any of them may be added.
-/

namespace X2XCoin

namespace Server

/-! ## The node -/

structure Node where
  chain : List Block
  /-- The outputs that the transactions of the mempool spend. -/
  mempoolSpends : List Key := []

namespace Node

/-- The answer of `getblockcount`. -/
def blockCount (node : Node) : ℤ := node.chain.length - 1

/-- Whether a transaction creates an output, or else spends it. -/
def coinWrite (key : Key) (p : ℤ × Transaction) : Option (Option Unit) :=
  if p.2.txid = key.txid ∧ ∃ output ∈ p.2.vout, output.n = key.vout then some (some ())
  else if some key ∈ p.2.vin then some none else none

/-- `gettxout` with the mempool gives an answer that is not null. -/
def gettxout (node : Node) (key : Key) : Bool :=
  (LastWrite.run (coinWrite key) (located node.chain) none).isSome && key ∉ node.mempoolSpends

end Node

/-! ## The machine -/

/-- Where `syncToTip` stands between its calls to the node. -/
inductive SyncToTip
  | idle
  | fetching (height batchEnd : ℤ)
  | counting (nextHeight : ℤ)

/-- The head of the loop over the batches. -/
def SyncToTip.loop (nextHeight tip : ℤ) : SyncToTip :=
  if nextHeight ≤ tip then .fetching nextHeight (min tip (nextHeight + SYNC_BATCH_SIZE - 1))
  else .idle

structure State where
  node : Node
  index : Index := {}
  sync : SyncToTip := .idle
  /-- The blocks that the node delivered for the heights up to `indexedHeight`. -/
  delivered : List Block := []
  /-- The last run of `syncToTip` came to its end and the chain is the same since. -/
  completed : Bool := false

inductive Event
  /-- The node keeps the first blocks of its chain and continues with others. -/
  | chain (keep : ℕ) (blocks : List Block)
  | mempool (spends : List Key)
  | sync
  | syncFails
  | query (address : String) (minConfirmations : ℤ) (fails : Key → Bool)
  | scan (tip : ℤ) (found : List IndexedUtxo)

section

variable (codec : AddressCodec)

/-- `utxosFor` or `balanceFast`, with the outputs for which the call to the node fails. -/
def Index.query (index : Index) (node : Node) (address : String) (minConfirmations : ℤ)
    (fails : Key → Bool) : Index × List IndexedUtxo :=
  if codec.isValidP2pkh address then
    let indexed := index.listIndexedUtxos address minConfirmations
    let live := indexed.filter fun utxo => fails utxo.key || node.gettxout utxo.key
    let spent := indexed.filter fun utxo => !(fails utxo.key || node.gettxout utxo.key)
    ((spent.map IndexedUtxo.key).foldl Index.removeOutpoint index, live)
  else (index, [])

namespace State

/-- The block count is read, and the loop goes on or ends. -/
def readTip (s : State) (nextHeight : ℤ) : State :=
  { s with
    index := { s.index with chainTip := s.node.blockCount }
    sync := .loop nextHeight s.node.blockCount
    completed := s.node.blockCount < nextHeight }

def deliver (s : State) (block : Block) (height batchEnd : ℤ) : State :=
  { s with
    index := { s.index.applyBlockToIndex codec block height with indexedHeight := height }
    sync := if height < batchEnd then .fetching (height + 1) batchEnd else .counting (batchEnd + 1)
    delivered := s.delivered ++ [block] }

/-- `syncToTip` up to its next call to the node. -/
def syncStep (s : State) : State :=
  match s.sync with
  | .idle => s.readTip (max (s.index.indexedHeight + 1) START_HEIGHT)
  | .counting nextHeight => s.readTip nextHeight
  | .fetching height batchEnd =>
    match s.node.chain[height.toNat]? with
    | none => { s with sync := .idle }
    | some block => s.deliver codec block height batchEnd

def step (s : State) : Event → State
  | .chain keep blocks =>
    { s with
      node := { s.node with chain := s.node.chain.take keep ++ blocks }
      completed := false }
  | .mempool spends => { s with node := { s.node with mempoolSpends := spends } }
  | .sync => s.syncStep codec
  | .syncFails => { s with sync := .idle }
  | .query address minConfirmations fails =>
    { s with index := (s.index.query codec s.node address minConfirmations fails).1 }
  | .scan tip found =>
    { s with index := { found.foldl Index.addOutpoint s.index with chainTip := tip } }

/-- A server with an empty index beside a node with a genesis block. -/
def start (genesis : Block) : State := { node := { chain := [genesis] } }

end State

end

/-! ## Heights -/

namespace Index

/-- The two heights of an index, which only the synchroniser and scans change. -/
def heights (index : Index) : ℤ × ℤ := (index.indexedHeight, index.chainTip)

theorem heights_removeFromAddressIndex (index : Index) (address : String) (key : Key) :
    (index.removeFromAddressIndex address key).heights = index.heights := by
  unfold removeFromAddressIndex
  split
  · rfl
  · split_ifs <;> rfl

theorem heights_removeOutpoint (index : Index) (key : Key) :
    (index.removeOutpoint key).heights = index.heights := by
  unfold removeOutpoint
  split
  · rfl
  · exact heights_removeFromAddressIndex _ _ _

theorem heights_addOutpoint (index : Index) (utxo : IndexedUtxo) :
    (index.addOutpoint utxo).heights = index.heights := by
  change (Index.forgetPrevious _ utxo _).heights = _
  unfold forgetPrevious
  split
  · rfl
  · split_ifs
    · rfl
    · exact heights_removeFromAddressIndex _ _ _

theorem heights_foldl {α : Type} {op : Index → α → Index}
    (hop : ∀ index a, (op index a).heights = index.heights) (l : List α) (index : Index) :
    (l.foldl op index).heights = index.heights := by
  induction l generalizing index with
  | nil => rfl
  | cons a l ih => rw [List.foldl_cons, ih, hop]

theorem heights_query (codec : AddressCodec) (index : Index) (node : Node) (address : String)
    (minConfirmations : ℤ) (fails : Key → Bool) :
    (index.query codec node address minConfirmations fails).1.heights = index.heights := by
  unfold query
  split_ifs
  · exact heights_foldl heights_removeOutpoint _ _
  · rfl

end Index

/-- The next block to deliver is the one after the last indexed. -/
structure Synced (s : State) : Prop where
  height : s.index.indexedHeight + 1 = s.delivered.length
  fetching : ∀ h e, s.sync = .fetching h e → h = s.index.indexedHeight + 1 ∧ h ≤ e
  counting : ∀ n, s.sync = .counting n → n = s.index.indexedHeight + 1

variable {codec : AddressCodec} {s : State}

theorem Synced.readTip (h : Synced s) {n : ℤ} (hn : n = s.index.indexedHeight + 1) :
    Synced (s.readTip n) := by
  refine ⟨h.height, fun k e heq => ?_, fun k heq => ?_⟩
  · change SyncToTip.loop n _ = _ at heq
    unfold SyncToTip.loop SYNC_BATCH_SIZE at heq
    split_ifs at heq with hle
    cases heq
    exact ⟨hn, le_min hle (by omega)⟩
  · change SyncToTip.loop n _ = _ at heq
    unfold SyncToTip.loop at heq
    split_ifs at heq

theorem Synced.deliver (h : Synced s) {block : Block} {n e : ℤ} (hn : n = s.index.indexedHeight + 1)
    (he : n ≤ e) : Synced (s.deliver codec block n e) := by
  have hheight := h.height
  refine ⟨?_, fun k e' heq => ?_, fun k heq => ?_⟩
  · change n + 1 = ((s.delivered ++ [block]).length : ℤ)
    rw [List.length_append, List.length_singleton]
    push_cast
    omega
  · change (if n < e then SyncToTip.fetching (n + 1) e else .counting (e + 1)) = _ at heq
    split_ifs at heq with hlt
    cases heq
    exact ⟨rfl, by omega⟩
  · change (if n < e then SyncToTip.fetching (n + 1) e else .counting (e + 1)) = _ at heq
    split_ifs at heq with hlt
    cases heq
    change e + 1 = n + 1
    omega

theorem Synced.nextHeight (h : Synced s) :
    max (s.index.indexedHeight + 1) START_HEIGHT = s.index.indexedHeight + 1 := by
  have := h.height
  unfold START_HEIGHT
  omega

theorem Synced.syncStep_cases (codec : AddressCodec) (h : Synced s) :
    s.syncStep codec = s.readTip (s.index.indexedHeight + 1) ∨
    s.syncStep codec = { s with sync := .idle } ∧ s.sync ≠ .idle ∨
    ∃ block e, s.node.chain[s.delivered.length]? = some block ∧
      s.index.indexedHeight + 1 ≤ e ∧ s.sync = .fetching (s.index.indexedHeight + 1) e ∧
      s.syncStep codec = s.deliver codec block (s.index.indexedHeight + 1) e := by
  unfold State.syncStep
  cases hsync : s.sync with
  | idle => exact .inl (by rw [h.nextHeight])
  | counting n => exact .inl (by rw [h.counting n hsync])
  | fetching n e =>
    obtain ⟨rfl, he⟩ := h.fetching n e hsync
    have hlen : (s.index.indexedHeight + 1).toNat = s.delivered.length := by
      rw [h.height]
      exact Int.toNat_natCast _
    simp only [hlen]
    cases hblock : s.node.chain[s.delivered.length]? with
    | none => exact .inr (.inl ⟨rfl, by simp⟩)
    | some block => exact .inr (.inr ⟨block, e, rfl, he, rfl, rfl⟩)

theorem Synced.of_heights {t : State} (h : Synced s)
    (hheight : t.index.indexedHeight = s.index.indexedHeight) (hsync : t.sync = s.sync ∨ t.sync = .idle)
    (hdelivered : t.delivered = s.delivered) : Synced t := by
  obtain hsync | hsync := hsync
  · refine ⟨?_, fun n e heq => ?_, fun n heq => ?_⟩
    · rw [hheight, hdelivered, h.height]
    · rw [hheight]
      exact h.fetching n e (hsync ▸ heq)
    · rw [hheight]
      exact h.counting n (hsync ▸ heq)
  · refine ⟨?_, fun n e heq => ?_, fun n heq => ?_⟩
    · rw [hheight, hdelivered, h.height]
    · rw [hsync] at heq
      cases heq
    · rw [hsync] at heq
      cases heq

theorem Synced.step (h : Synced s) (e : Event) : Synced (s.step codec e) := by
  cases e with
  | chain keep blocks => exact h.of_heights rfl (.inl rfl) rfl
  | mempool spends => exact h.of_heights rfl (.inl rfl) rfl
  | sync =>
    change Synced (s.syncStep codec)
    obtain heq | ⟨heq, -⟩ | ⟨block, e, -, he, -, heq⟩ := h.syncStep_cases codec
    · rw [heq]
      exact h.readTip rfl
    · rw [heq]
      exact h.of_heights rfl (.inr rfl) rfl
    · rw [heq]
      exact h.deliver rfl he
  | syncFails => exact h.of_heights rfl (.inr rfl) rfl
  | query address minConfirmations fails =>
    exact h.of_heights (congrArg Prod.fst (Index.heights_query codec _ _ _ _ _)) (.inl rfl) rfl
  | scan tip found =>
    exact h.of_heights (congrArg Prod.fst (Index.heights_foldl Index.heights_addOutpoint found _))
      (.inl rfl) rfl

theorem synced_start (genesis : Block) : Synced (State.start genesis) :=
  ⟨rfl, fun _ _ h => (by cases h), fun _ h => (by cases h)⟩

/-! ## The index and the delivered blocks -/

/-- Chain switches and calls of the synchroniser only.  The genesis block stays. -/
def Event.Undisturbed : Event → Prop
  | .chain keep _ => 0 < keep
  | .mempool _ | .sync | .syncFails => True
  | .query _ _ _ | .scan _ _ => False

/-- The node's chain switches do not touch the delivered blocks. -/
def KeepsDelivered (s : State) : Event → Prop
  | .chain keep _ => s.delivered.length ≤ keep
  | _ => True

/-- The index is what the delivered blocks make of it. -/
structure Replayed (codec : AddressCodec) (s : State) : Prop where
  synced : Synced s
  heightOf : ∀ key, s.index.heightOf key =
    LastWrite.run (heightWrite codec key) (located s.delivered) none
  tip : s.completed = true → s.sync = .idle ∧ s.index.chainTip = s.node.blockCount

theorem Replayed.readTip (h : Replayed codec s) :
    Replayed codec (s.readTip (s.index.indexedHeight + 1)) := by
  refine ⟨h.synced.readTip rfl, h.heightOf, fun hcomplete => ⟨?_, rfl⟩⟩
  have hlt : s.node.blockCount < s.index.indexedHeight + 1 := of_decide_eq_true hcomplete
  exact if_neg (not_le.mpr hlt)

theorem Replayed.deliver (h : Replayed codec s) {block : Block} {e n : ℤ}
    (he : s.index.indexedHeight + 1 ≤ e) (hsync : s.sync = .fetching n e) :
    Replayed codec (s.deliver codec block (s.index.indexedHeight + 1) e) := by
  refine ⟨h.synced.deliver rfl he, fun key => ?_, fun hcomplete => ?_⟩
  · change (s.index.applyBlockToIndex codec block (s.index.indexedHeight + 1)).heightOf key =
      LastWrite.run _ (located (s.delivered ++ [block])) none
    rw [Index.heightOf_applyBlockToIndex, located_append_singleton, LastWrite.run_append,
      h.heightOf key, h.synced.height]
  · have hidle := (h.tip hcomplete).1
    rw [hsync] at hidle
    cases hidle

theorem Replayed.step (h : Replayed codec s) {e : Event} (he : e.Undisturbed) :
    Replayed codec (s.step codec e) := by
  have hsynced : Synced (s.step codec e) := h.synced.step e
  cases e with
  | chain keep blocks => exact ⟨hsynced, h.heightOf, fun hc => by cases hc⟩
  | mempool spends => exact ⟨hsynced, h.heightOf, h.tip⟩
  | sync =>
    change Replayed codec (s.syncStep codec)
    obtain heq | ⟨heq, hne⟩ | ⟨block, e, -, he, hsync, heq⟩ := h.synced.syncStep_cases codec
    · rw [heq]
      exact h.readTip
    · change Synced (s.syncStep codec) at hsynced
      rw [heq] at hsynced ⊢
      exact ⟨hsynced, h.heightOf, fun hc => absurd (h.tip hc).1 hne⟩
    · rw [heq]
      exact h.deliver he hsync
  | syncFails => exact ⟨hsynced, h.heightOf, fun hc => ⟨rfl, (h.tip hc).2⟩⟩
  | query address minConfirmations fails => exact he.elim
  | scan tip found => exact he.elim

theorem replayed_start (genesis : Block) : Replayed codec (State.start genesis) :=
  ⟨synced_start genesis, fun _ => rfl, fun h => (by cases h)⟩

/-- The delivered blocks are the first blocks of the chain. -/
def InStep (s : State) : Prop := s.delivered <+: s.node.chain

theorem InStep.step (h : InStep s) (hs : Synced s) {e : Event} (he : KeepsDelivered s e) :
    InStep (s.step codec e) := by
  cases e with
  | chain keep blocks =>
    refine List.IsPrefix.trans ?_ (List.prefix_append _ _)
    obtain ⟨rest, hrest⟩ := h
    change s.delivered <+: s.node.chain.take keep
    rw [← hrest, List.take_append, List.take_of_length_le he]
    exact List.prefix_append _ _
  | sync =>
    change InStep (s.syncStep codec)
    obtain heq | ⟨heq, -⟩ | ⟨block, e, hblock, -, -, heq⟩ := hs.syncStep_cases codec
    · rw [heq]
      exact h
    · rw [heq]
      exact h
    · rw [heq]
      obtain ⟨rest, hrest⟩ := h
      change s.delivered ++ [block] <+: s.node.chain
      rw [← hrest, List.getElem?_append_right le_rfl, Nat.sub_self] at hblock
      cases rest with
      | nil => cases hblock
      | cons b rest =>
        cases hblock
        exact ⟨rest, by rw [← hrest]; simp⟩
  | mempool spends => exact h
  | syncFails => exact h
  | query address minConfirmations fails => exact h
  | scan tip found => exact h

/-- A server that has caught up with a node whose switches left the delivered blocks alone has been
given the blocks of the chain. -/
theorem Replayed.delivered_eq (h : Replayed codec s) (hin : InStep s) (hc : s.completed = true)
    (hf : s.index.isFullyIndexed = true) : s.delivered = s.node.chain := by
  have htip := (h.tip hc).2
  have hheight := h.synced.height
  unfold Index.isFullyIndexed at hf
  simp only [Bool.and_eq_true, decide_eq_true_eq] at hf
  unfold Node.blockCount at htip
  exact hin.eq_of_length_le (by omega)

/-- Every address listed by the node is valid, and no script is decoded. -/
def listedCodec : AddressCodec := ⟨fun _ => true, fun _ => none⟩

/-- A coinbase with one output. -/
def coinbase (txid : String) : Transaction := ⟨txid, [none], [⟨0, 100000000, some ["X"], none⟩]⟩

/-- A block is delivered and then replaced by another, and the chain grows by one block. -/
def replacedBlock : List Event :=
  [.chain 1 [[coinbase "a"]], .sync, .sync, .sync, .sync,
    .chain 1 [[coinbase "b"], [coinbase "c"]], .sync, .sync, .sync]

end Server

end X2XCoin
