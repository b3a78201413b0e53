import X2XCoin.Server.Queries

/-!
# Interrupted synchronisation

`syncToTip` beside a node whose chain only grows.  A run may fail at a call to the node or end with
an
exception in the middle of a block, and the server may be restarted with any snapshot of the index
that was taken before.
-/

namespace X2XCoin

namespace Server

/-! ## Writes to the index -/

inductive Operation
  | removeOutpoint (key : Key)
  | addOutpoint (utxo : IndexedUtxo)

/-- The new entry under the key, if the operation writes it. -/
def Operation.write (key : Key) : Operation → Option (Option IndexedUtxo)
  | .removeOutpoint removed => if key = removed then some none else none
  | .addOutpoint utxo => if key = utxo.key then some (some utxo) else none

def Index.perform (index : Index) : Operation → Index
  | .removeOutpoint key => index.removeOutpoint key
  | .addOutpoint utxo => index.addOutpoint utxo

section

variable (codec : AddressCodec)

/-- What `applyBlockToIndex` does to the index, in order. -/
def blockOperations (block : Block) (height : ℤ) : List Operation :=
  block.flatMap fun tx => (tx.vin.filterMap id).map .removeOutpoint ++
    (createdUtxos codec tx height).map .addOutpoint

variable {codec}

theorem Index.applyBlockToIndex_eq (index : Index) (block : Block) (height : ℤ) :
    index.applyBlockToIndex codec block height =
      (blockOperations codec block height).foldl Index.perform index := by
  rw [blockOperations, List.foldl_flatMap, Index.applyBlockToIndex]
  simp only [Index.processTransaction_eq, List.foldl_append, List.foldl_map, Index.perform]

theorem blockOperations_take_subset (block : Block) (height : ℤ) (n : ℕ) :
    blockOperations codec (block.take n) height ⊆ blockOperations codec block height := by
  intro op hop
  obtain ⟨tx, htx, h⟩ := List.mem_flatMap.mp hop
  exact List.mem_flatMap.mpr ⟨tx, List.mem_of_mem_take htx, h⟩

end

namespace Index

theorem lookup_perform (index : Index) (op : Operation) (key : Key) :
    (index.perform op).outpoints.lookup key =
      (op.write key).getD (index.outpoints.lookup key) := by
  cases op with
  | removeOutpoint removed =>
    change (index.removeOutpoint removed).outpoints.lookup key = _
    rw [lookup_removeOutpoint, Operation.write]
    split_ifs <;> rfl
  | addOutpoint utxo =>
    change (index.addOutpoint utxo).outpoints.lookup key = _
    rw [lookup_addOutpoint, Operation.write]
    split_ifs <;> rfl

theorem lookup_performAll (ops : List Operation) (index : Index) (key : Key) :
    (ops.foldl perform index).outpoints.lookup key =
      LastWrite.run (Operation.write key) ops (index.outpoints.lookup key) := by
  induction ops generalizing index with
  | nil => rfl
  | cons op ops ih =>
    rw [List.foldl_cons, ih, lookup_perform]
    rfl

theorem heights_performAll (ops : List Operation) (index : Index) :
    (ops.foldl perform index).heights = index.heights := by
  refine heights_foldl (fun index op => ?_) ops index
  cases op with
  | removeOutpoint key => exact heights_removeOutpoint index key
  | addOutpoint utxo => exact heights_addOutpoint index utxo

/-! ## The index by address -/

/-- The index by address holds sets, and no empty ones. -/
structure Tidy (index : Index) : Prop where
  nodup : ∀ address, (index.keysOf address).Nodup
  ne_nil : ∀ address, index.utxosByAddress.lookup address ≠ some []

/-- The index by address lists the stored outputs and nothing else. -/
structure Coherent (index : Index) : Prop extends Tidy index where
  mem_keysOf : ∀ address key, key ∈ index.keysOf address ↔
    ∃ utxo, index.outpoints.lookup key = some utxo ∧ utxo.address = address

/-- Equal as the maps of the source are: the order of their elements does not matter. -/
structure Same (a b : Index) : Prop where
  heights : a.heights = b.heights
  outpoints : ∀ key, a.outpoints.lookup key = b.outpoints.lookup key
  utxosByAddress : ∀ address, (a.utxosByAddress.lookup address).map List.toFinset =
    (b.utxosByAddress.lookup address).map List.toFinset

variable {a b index : Index}

theorem Coherent.map_toFinset (h : index.Coherent) (address : String) :
    (index.utxosByAddress.lookup address).map List.toFinset =
      if (index.keysOf address).toFinset = ∅ then none
      else some (index.keysOf address).toFinset := by
  have hne := h.ne_nil address
  unfold keysOf
  cases hlookup : index.utxosByAddress.lookup address with
  | none => rfl
  | some keys =>
    rw [hlookup] at hne
    have hkeys : keys ≠ [] := fun heq => hne (congrArg some heq)
    rw [Option.map_some, Option.getD_some, if_neg (by simpa using hkeys)]

theorem Coherent.same (ha : a.Coherent) (hb : b.Coherent) (hheights : a.heights = b.heights)
    (hlookup : ∀ key, a.outpoints.lookup key = b.outpoints.lookup key) : a.Same b := by
  refine ⟨hheights, hlookup, fun address => ?_⟩
  have hkeys : (a.keysOf address).toFinset = (b.keysOf address).toFinset := by
    ext key
    rw [List.mem_toFinset, List.mem_toFinset, ha.mem_keysOf, hb.mem_keysOf, hlookup]
  rw [ha.map_toFinset, hb.map_toFinset, hkeys]

theorem coherent_iff : index.Coherent ↔ index.maps.Coherent IndexedUtxo.address :=
  ⟨fun h => ⟨⟨h.nodup, h.ne_nil⟩, h.mem_keysOf⟩, fun h => ⟨⟨h.nodup, h.ne_nil⟩, h.mem_keysOf⟩⟩

theorem Coherent.removeOutpoint (h : index.Coherent) (key : Key) :
    (index.removeOutpoint key).Coherent := by
  rw [coherent_iff, maps_removeOutpoint]
  exact (coherent_iff.mp h).remove key

theorem Coherent.addOutpoint (h : index.Coherent) (utxo : IndexedUtxo) :
    (index.addOutpoint utxo).Coherent := by
  rw [coherent_iff, maps_addOutpoint]
  exact (coherent_iff.mp h).put utxo.key utxo

theorem Coherent.performAll (h : index.Coherent) (ops : List Operation) :
    (ops.foldl perform index).Coherent := by
  refine List.foldlRecOn ops _ h fun i hi op _ => ?_
  cases op with
  | removeOutpoint key => exact hi.removeOutpoint key
  | addOutpoint utxo => exact hi.addOutpoint utxo

/-- A block that is applied again overwrites what a part of it has written. -/
theorem Coherent.same_apply_again (h : index.Coherent) (codec : AddressCodec) (block : Block)
    (height : ℤ) {ops : List Operation} (hops : ops ⊆ blockOperations codec block height) :
    ((ops.foldl perform index).applyBlockToIndex codec block height).Same
      (index.applyBlockToIndex codec block height) := by
  rw [applyBlockToIndex_eq, applyBlockToIndex_eq]
  refine ((h.performAll ops).performAll _).same (h.performAll _) ?_ fun key => ?_
  · rw [heights_performAll, heights_performAll, heights_performAll]
  · rw [lookup_performAll, lookup_performAll, lookup_performAll, LastWrite.run_run_of_subset hops]

theorem coherent_empty (height : ℤ) : Coherent { indexedHeight := height } :=
  coherent_iff.mpr MirrorMap.coherent_empty

end Index

/-! ## Sessions -/

/-- A server beside its node, and the snapshots of its index that were taken. -/
structure Session where
  state : State
  snapshots : List Index := []

inductive SessionEvent
  /-- The chain of the node grows. -/
  | grow (blocks : List Block)
  /-- `syncToTip` is called or goes on, up to its next call to the node. -/
  | sync
  /-- A call to the node fails and ends `syncToTip`. -/
  | syncFails
  /-- An exception ends `syncToTip` after some operations on the index for a fetched block. -/
  | interrupted (operations : ℕ)
  | snapshotState
  /-- The server starts anew from one of the snapshots, or without one. -/
  | loadState (snapshot : ℕ)

section

variable (codec : AddressCodec) (startHeight : ℕ)

/-- The index that `loadState` leaves if there is no file. -/
def emptyIndex : Index := { indexedHeight := startHeight - 1 }

namespace State

/-- `syncStep` with any `START_HEIGHT`. -/
def syncStepFrom (s : State) : State :=
  match s.sync with
  | .idle => s.readTip (max (s.index.indexedHeight + 1) startHeight)
  | _ => s.syncStep codec

def interrupt (s : State) (operations : ℕ) : State :=
  match s.sync with
  | .fetching height _ =>
    let ops :=
      (s.node.chain[height.toNat]?.map fun block => blockOperations codec block height).getD []
    { s with
      index := (ops.take operations).foldl Index.perform s.index
      sync := .idle
      completed := false }
  | _ => { s with sync := .idle, completed := false }

def loadState (s : State) (index : Index) : State :=
  { s with
    index := index
    sync := .idle
    delivered := (s.node.chain.take (index.indexedHeight + 1).toNat).drop startHeight
    completed := false }

end State

namespace Session

def step (s : Session) : SessionEvent → Session
  | .grow blocks => { s with state := s.state.step codec (.chain s.state.node.chain.length blocks) }
  | .sync => { s with state := s.state.syncStepFrom codec startHeight }
  | .syncFails => { s with state := s.state.step codec .syncFails }
  | .interrupted operations => { s with state := s.state.interrupt codec operations }
  | .snapshotState => { s with snapshots := s.snapshots ++ [s.state.index] }
  | .loadState snapshot =>
    let index := s.snapshots[snapshot]?.getD (emptyIndex startHeight)
    { s with state := s.state.loadState startHeight index }

/-- A server without a file beside a node with a genesis block. -/
def start (genesis : Block) : Session :=
  { state := { node := { chain := [genesis] }, index := emptyIndex startHeight } }

end Session

/-! ## The index after some blocks and a part of the next one -/

/-- The operations for the blocks from `startHeight` up to a height. -/
def history (chain : List Block) : ℕ → List Operation
  | 0 => []
  | n + 1 => history chain n ++
      if startHeight ≤ n then (chain[n]?.map fun block => blockOperations codec block n).getD []
      else []

/-- The first `n` blocks are indexed, from `startHeight` on, and the operations `pending` of the
next one were performed in addition. -/
structure Follows (chain : List Block) (index : Index) (n : ℕ) (pending : List Operation) :
    Prop where
  coherent : index.Coherent
  height : index.indexedHeight + 1 = n
  le : startHeight ≤ n
  le_max : n ≤ max chain.length startHeight
  subset : ∀ op ∈ pending, ∃ block, chain[n]? = some block ∧ op ∈ blockOperations codec block n
  lookup : ∀ key, index.outpoints.lookup key =
    LastWrite.run (Operation.write key) (history codec startHeight chain n ++ pending) none

end

section

variable {codec : AddressCodec} {startHeight : ℕ} {chain : List Block} {index : Index} {n : ℕ}
  {pending : List Operation}

theorem history_congr {chain' : List Block}
    (h : ∀ m, startHeight ≤ m → m < n → chain[m]? = chain'[m]?) :
    history codec startHeight chain n = history codec startHeight chain' n := by
  induction n with
  | zero => rfl
  | succ n ih =>
    rw [history, history, ih fun m hm hlt => h m hm (by omega)]
    split_ifs with hle
    · rw [h n hle (by omega)]
    · rfl

variable (codec startHeight chain) in
theorem history_startHeight : history codec startHeight chain startHeight = [] := by
  have hempty : ∀ m ≤ startHeight, history codec startHeight chain m = [] := by
    intro m hm
    induction m with
    | zero => rfl
    | succ m ih => rw [history, ih (by omega), if_neg (by omega), List.append_nil]
  exact hempty startHeight le_rfl

theorem follows_emptyIndex :
    Follows codec startHeight chain (emptyIndex startHeight) startHeight [] := by
  refine ⟨Index.coherent_empty _, ?_, le_rfl, le_max_right _ _, by simp, fun key => ?_⟩
  · rw [emptyIndex]
    exact sub_add_cancel _ _
  · rw [history_startHeight]
    rfl

namespace Follows

section

variable (h : Follows codec startHeight chain index n pending)
include h

theorem chainTip (tip : ℤ) :
    Follows codec startHeight chain { index with chainTip := tip } n pending :=
  ⟨⟨⟨h.coherent.nodup, h.coherent.ne_nil⟩, h.coherent.mem_keysOf⟩, h.height, h.le, h.le_max,
    h.subset, h.lookup⟩

theorem grow (blocks : List Block) :
    Follows codec startHeight (chain ++ blocks) index n pending := by
  have hle := h.le_max
  refine ⟨h.coherent, h.height, h.le, ?_, fun op hop => ?_, fun key => ?_⟩
  · rw [List.length_append]
    omega
  · obtain ⟨block, hblock, hmem⟩ := h.subset op hop
    obtain ⟨hlt, -⟩ := List.getElem?_eq_some_iff.mp hblock
    exact ⟨block, (List.getElem?_append_left hlt).trans hblock, hmem⟩
  · rw [h.lookup key]
    congr 2
    refine history_congr fun m hm hlt => (List.getElem?_append_left ?_).symm
    omega

theorem deliver {block : Block} (hblock : chain[n]? = some block) :
    Follows codec startHeight chain
      { index.applyBlockToIndex codec block n with indexedHeight := n } (n + 1) [] := by
  obtain ⟨hlt, -⟩ := List.getElem?_eq_some_iff.mp hblock
  have hsubset : pending ⊆ blockOperations codec block n := by
    intro op hop
    obtain ⟨block', hblock', hmem⟩ := h.subset op hop
    rw [hblock] at hblock'
    exact Option.some.inj hblock' ▸ hmem
  rw [Index.applyBlockToIndex_eq]
  have hcoherent := h.coherent.performAll (blockOperations codec block n)
  refine ⟨⟨⟨hcoherent.nodup, hcoherent.ne_nil⟩, hcoherent.mem_keysOf⟩, ?_, h.le.trans n.le_succ,
    le_max_of_le_left hlt, by simp, fun key => ?_⟩
  · push_cast
    rfl
  · change ((blockOperations codec block n).foldl Index.perform index).outpoints.lookup key = _
    rw [Index.lookup_performAll, h.lookup key, LastWrite.run_append,
      LastWrite.run_run_of_subset hsubset, List.append_nil, history, if_pos h.le, hblock,
      LastWrite.run_append]
    rfl

theorem perform {ops : List Operation}
    (hops : ∀ op ∈ ops, ∃ block, chain[n]? = some block ∧ op ∈ blockOperations codec block n) :
    Follows codec startHeight chain (ops.foldl Index.perform index) n (pending ++ ops) := by
  have hheight := congrArg Prod.fst (Index.heights_performAll ops index)
  refine ⟨h.coherent.performAll ops, ?_, h.le, h.le_max, fun op hop => ?_, fun key => ?_⟩
  · rw [← h.height]
    exact congrArg (· + 1) hheight
  · exact (List.mem_append.mp hop).elim (h.subset op) (hops op)
  · rw [Index.lookup_performAll, h.lookup key, ← LastWrite.run_append, List.append_assoc]

theorem pending_eq_nil (hlen : chain.length ≤ n) : pending = [] := by
  refine List.eq_nil_iff_forall_not_mem.mpr fun op hop => ?_
  obtain ⟨block, hblock, -⟩ := h.subset op hop
  rw [List.getElem?_eq_none hlen] at hblock
  cases hblock

end

end Follows

/-! ## Runs -/

namespace Session

/-- The index and the snapshots follow the chain, and `syncToTip` stands at the next block. -/
structure Sound (codec : AddressCodec) (startHeight : ℕ) (s : Session) : Prop where
  follows : ∃ n pending, Follows codec startHeight s.state.node.chain s.state.index n pending
  fetching : ∀ h e, s.state.sync = .fetching h e → h = s.state.index.indexedHeight + 1 ∧ h ≤ e ∧
    e < s.state.node.chain.length
  counting : ∀ m, s.state.sync = .counting m → m = s.state.index.indexedHeight + 1
  completed : s.state.completed = true → s.state.sync = .idle ∧
    s.state.index.chainTip = s.state.node.blockCount ∧
      s.state.node.blockCount ≤ s.state.index.indexedHeight
  snapshots : ∀ index ∈ s.snapshots, ∃ n pending,
    Follows codec startHeight s.state.node.chain index n pending

variable {s : Session}

section

variable (h : Sound codec startHeight s)
include h

theorem Sound.readTip :
    Sound codec startHeight
      { s with state := s.state.readTip (s.state.index.indexedHeight + 1) } := by
  obtain ⟨n, pending, hfollows⟩ := h.follows
  refine ⟨⟨n, pending, hfollows.chainTip _⟩, fun k e heq => ?_, fun m heq => ?_,
    fun hcompleted => ⟨?_, rfl, ?_⟩, h.snapshots⟩
  · change SyncToTip.loop _ s.state.node.blockCount = _ at heq
    unfold SyncToTip.loop SYNC_BATCH_SIZE at heq
    split_ifs at heq with hle
    cases heq
    refine ⟨rfl, le_min hle (by omega), ?_⟩
    refine (min_le_left _ _).trans_lt ?_
    rw [Node.blockCount]
    exact sub_one_lt _
  · change SyncToTip.loop _ _ = _ at heq
    unfold SyncToTip.loop at heq
    split_ifs at heq
  · exact if_neg (not_le.mpr (of_decide_eq_true hcompleted))
  · exact Int.lt_add_one_iff.mp (of_decide_eq_true hcompleted)

theorem Sound.deliver {e : ℤ} (hsync : s.state.sync = .fetching (s.state.index.indexedHeight + 1) e) :
    s.state.node.chain.length - (s.state.index.indexedHeight + 1).toNat ≠ 0 ∧
    ∃ block, s.state.syncStep codec =
        s.state.deliver codec block (s.state.index.indexedHeight + 1) e ∧
      Sound codec startHeight { s with
        state := s.state.deliver codec block (s.state.index.indexedHeight + 1) e } := by
  obtain ⟨n, pending, hfollows⟩ := h.follows
  obtain ⟨-, hle, hlt⟩ := h.fetching _ _ hsync
  have hheight := hfollows.height
  rw [hheight] at hle hsync ⊢
  have hn : n < s.state.node.chain.length := by omega
  obtain ⟨block, hblock⟩ : ∃ block, s.state.node.chain[n]? = some block :=
    ⟨_, List.getElem?_eq_getElem hn⟩
  refine ⟨by simp only [Int.toNat_natCast]; omega, block, ?_, ⟨n + 1, [], hfollows.deliver hblock⟩,
    fun k e' heq => ?_, fun m heq => ?_, fun hcompleted => ?_, h.snapshots⟩
  · unfold State.syncStep
    rw [hsync]
    simp only [Int.toNat_natCast, hblock]
  · change (if (n : ℤ) < e then SyncToTip.fetching (n + 1) e else .counting (e + 1)) = _ at heq
    split_ifs at heq with hlt'
    cases heq
    exact ⟨rfl, by omega, hlt⟩
  · change (if (n : ℤ) < e then SyncToTip.fetching (n + 1) e else .counting (e + 1)) = _ at heq
    split_ifs at heq
    cases heq
    change e + 1 = n + 1
    omega
  · have hidle := (h.completed hcompleted).1
    rw [hsync] at hidle
    cases hidle

theorem Sound.syncStepFrom :
    s.state.syncStepFrom codec startHeight = s.state.readTip (s.state.index.indexedHeight + 1) ∨
    ∃ e, s.state.sync = .fetching (s.state.index.indexedHeight + 1) e ∧
      s.state.syncStepFrom codec startHeight = s.state.syncStep codec := by
  obtain ⟨n, pending, hfollows⟩ := h.follows
  have hheight := hfollows.height
  have hle := hfollows.le
  have hmax : max (s.state.index.indexedHeight + 1) startHeight = s.state.index.indexedHeight + 1 :=
    max_eq_left (by omega)
  unfold State.syncStepFrom
  cases hsync : s.state.sync with
  | idle =>
    left
    change s.state.readTip (max (s.state.index.indexedHeight + 1) startHeight) = _
    rw [hmax]
  | counting m =>
    left
    change s.state.syncStep codec = _
    unfold State.syncStep
    rw [hsync, h.counting m hsync]
  | fetching k e =>
    obtain ⟨rfl, -⟩ := h.fetching k e hsync
    exact .inr ⟨e, rfl, rfl⟩

theorem Sound.interrupt (operations : ℕ) :
    Sound codec startHeight { s with state := s.state.interrupt codec operations } := by
  obtain ⟨n, pending, hfollows⟩ := h.follows
  unfold State.interrupt
  split
  · rename_i k e hsync
    obtain ⟨rfl, -⟩ := h.fetching k e hsync
    have hheight := hfollows.height
    refine ⟨⟨n, _, hfollows.perform fun op hop => ?_⟩, nofun, nofun, nofun, h.snapshots⟩
    have hmem := List.mem_of_mem_take hop
    rw [hheight, Int.toNat_natCast] at hmem
    cases hblock : s.state.node.chain[n]? with
    | none =>
      rw [hblock] at hmem
      cases hmem
    | some block =>
      rw [hblock] at hmem
      exact ⟨block, rfl, hmem⟩
  · exact ⟨⟨n, pending, hfollows⟩, nofun, nofun, nofun, h.snapshots⟩

theorem Sound.step (e : SessionEvent) : Sound codec startHeight (s.step codec startHeight e) := by
  cases e with
  | grow blocks =>
    have hchain : s.state.node.chain.take s.state.node.chain.length ++ blocks =
        s.state.node.chain ++ blocks := by rw [List.take_length]
    obtain ⟨n, pending, hfollows⟩ := h.follows
    change Sound codec startHeight { s with state := { s.state with
      node := { s.state.node with chain := _ ++ blocks }, completed := false } }
    rw [hchain]
    refine ⟨⟨n, pending, hfollows.grow blocks⟩, fun k e heq => ?_, h.counting, nofun,
      fun index hindex => ?_⟩
    · obtain ⟨hk, hle, hlt⟩ := h.fetching k e heq
      refine ⟨hk, hle, hlt.trans_le ?_⟩
      rw [List.length_append]
      omega
    · obtain ⟨m, rest, hrest⟩ := h.snapshots index hindex
      exact ⟨m, rest, hrest.grow blocks⟩
  | sync =>
    change Sound codec startHeight { s with state := s.state.syncStepFrom codec startHeight }
    obtain heq | ⟨e, hsync, heq⟩ := h.syncStepFrom
    · rw [heq]
      exact h.readTip
    · obtain ⟨-, block, hdeliver, hsound⟩ := h.deliver hsync
      rw [heq, hdeliver]
      exact hsound
  | syncFails => exact ⟨h.follows, nofun, nofun, fun hc => ⟨rfl, (h.completed hc).2⟩, h.snapshots⟩
  | interrupted operations => exact h.interrupt operations
  | snapshotState =>
    refine ⟨h.follows, h.fetching, h.counting, h.completed, fun index hindex => ?_⟩
    obtain hindex | hindex := List.mem_append.mp hindex
    · exact h.snapshots index hindex
    · rw [List.mem_singleton.mp hindex]
      exact h.follows
  | loadState snapshot =>
    refine ⟨?_, nofun, nofun, nofun, h.snapshots⟩
    change ∃ n pending, Follows codec startHeight s.state.node.chain
      (s.snapshots[snapshot]?.getD (emptyIndex startHeight)) n pending
    cases hsnapshot : s.snapshots[snapshot]? with
    | none => exact ⟨startHeight, [], follows_emptyIndex⟩
    | some index => exact h.snapshots index (List.mem_of_getElem? hsnapshot)

end

theorem sound_run (codec : AddressCodec) (startHeight : ℕ) (genesis : Block)
    (events : List SessionEvent) :
    Sound codec startHeight
      (events.foldl (Session.step codec startHeight) (start startHeight genesis)) := by
  refine List.foldlRecOn events _ ?_ fun s hs e _ => hs.step e
  exact ⟨⟨startHeight, [], follows_emptyIndex⟩, nofun, nofun, nofun, nofun⟩

/-- Calls to the node that succeed bring the server to the end of the chain. -/
theorem Sound.exists_completed (h : Sound codec startHeight s) :
    ∃ k, ((List.replicate k SessionEvent.sync).foldl (Session.step codec startHeight)
      s).state.completed = true := by
  -- the number of blocks left decides
  generalize hleft : s.state.node.chain.length - (s.state.index.indexedHeight + 1).toNat = left
  induction left generalizing s with
  | zero =>
    obtain heq | ⟨e, hsync, -⟩ := h.syncStepFrom
    · obtain ⟨n, pending, hfollows⟩ := h.follows
      have hheight := hfollows.height
      refine ⟨1, ?_⟩
      change (s.state.syncStepFrom codec startHeight).completed = true
      rw [heq]
      refine decide_eq_true ?_
      rw [Node.blockCount]
      omega
    · exact absurd hleft (h.deliver hsync).1
  | succ left ih =>
    have hfetch : ∀ t : Session, Sound codec startHeight t →
        t.state.node.chain.length - (t.state.index.indexedHeight + 1).toNat = left + 1 →
        (∃ e, t.state.sync = .fetching (t.state.index.indexedHeight + 1) e) →
        ∃ k, ((List.replicate k SessionEvent.sync).foldl (Session.step codec startHeight)
          t).state.completed = true := by
      rintro t ht hleft ⟨e, hsync⟩
      obtain ⟨-, block, hdeliver, hsound⟩ := ht.deliver hsync
      obtain ⟨n, pending, hfollows⟩ := ht.follows
      have hheight := hfollows.height
      obtain ⟨k, hk⟩ := ih hsound (by
        change t.state.node.chain.length - (t.state.index.indexedHeight + 1 + 1).toNat = left
        omega)
      have hstep : t.state.syncStepFrom codec startHeight = t.state.syncStep codec := by
        rw [State.syncStepFrom, hsync]
      refine ⟨k + 1, ?_⟩
      rw [List.replicate_succ, List.foldl_cons, Session.step, hstep, hdeliver]
      exact hk
    obtain heq | ⟨e, hsync, -⟩ := h.syncStepFrom
    · have hle : s.state.index.indexedHeight + 1 ≤ s.state.node.blockCount := by
        obtain ⟨n, pending, hfollows⟩ := h.follows
        have hheight := hfollows.height
        rw [Node.blockCount]
        omega
      obtain ⟨k, hk⟩ := hfetch _ h.readTip hleft ⟨_, if_pos hle⟩
      refine ⟨k + 1, ?_⟩
      rw [List.replicate_succ, List.foldl_cons, Session.step, heq]
      exact hk
    · exact hfetch s h hleft ⟨e, hsync⟩

/-- The index of a server that has come to the end of the chain holds all of its blocks. -/
theorem Sound.follows_completed (h : Sound codec startHeight s)
    (hcompleted : s.state.completed = true) :
    Follows codec startHeight s.state.node.chain s.state.index
      (max s.state.node.chain.length startHeight) [] := by
  obtain ⟨n, pending, hfollows⟩ := h.follows
  obtain ⟨-, -, hle⟩ := h.completed hcompleted
  have hheight := hfollows.height
  rw [Node.blockCount] at hle
  have hlen : s.state.node.chain.length ≤ n := by omega
  obtain rfl := hfollows.pending_eq_nil hlen
  obtain rfl := le_antisymm hfollows.le_max (max_le hlen hfollows.le)
  exact hfollows

/-- Two servers that have come to the end of the same chain have the same index, whatever has
interrupted them.  A server always comes there, and always may apply a block again. -/
theorem resumption_exact (codec : AddressCodec) (startHeight : ℕ) (genesis : Block)
    (events events' : List SessionEvent) :
    let s := events.foldl (Session.step codec startHeight) (start startHeight genesis)
    let t := events'.foldl (Session.step codec startHeight) (start startHeight genesis)
    (s.state.completed = true → t.state.completed = true →
      s.state.node.chain = t.state.node.chain → s.state.index.Same t.state.index) ∧
    (∃ k, ((List.replicate k SessionEvent.sync).foldl (Session.step codec startHeight)
      s).state.completed = true) ∧
    ∀ block height k,
      ((s.state.index.applyBlockToIndex codec (block.take k) height).applyBlockToIndex codec block
        height).Same (s.state.index.applyBlockToIndex codec block height) := by
  intro s t
  have hs : Sound codec startHeight s := sound_run codec startHeight genesis events
  have ht : Sound codec startHeight t := sound_run codec startHeight genesis events'
  refine ⟨fun hcs hct hchain => ?_, hs.exists_completed, fun block height k => ?_⟩
  · have hfs := hs.follows_completed hcs
    have hft := ht.follows_completed hct
    rw [hchain] at hfs
    refine hfs.coherent.same hft.coherent (Prod.ext ?_ ?_) fun key => ?_
    · exact add_right_cancel (hfs.height.trans hft.height.symm)
    · change s.state.index.chainTip = t.state.index.chainTip
      rw [(hs.completed hcs).2.1, (ht.completed hct).2.1, Node.blockCount, Node.blockCount, hchain]
    · rw [hfs.lookup, hft.lookup]
  · obtain ⟨n, pending, hfollows⟩ := hs.follows
    rw [Index.applyBlockToIndex_eq s.state.index (block.take k)]
    exact hfollows.coherent.same_apply_again codec block height
      (blockOperations_take_subset block height k)

/-- A block with a transaction that spends another of the same block is interrupted after the first
one, a snapshot is taken, and the server starts from it. -/
def interruptedBlock : List SessionEvent :=
  [.grow [[coinbase "a", ⟨"b", [some ⟨"a", 0⟩], [⟨0, 100000000, some ["Y"], none⟩]⟩]], .sync, .sync,
    .interrupted 1, .snapshotState, .loadState 0, .sync, .sync, .sync]

/-- The same without an interruption. -/
def uninterruptedBlock : List SessionEvent :=
  interruptedBlock.take 1 ++ [.sync, .sync, .sync, .sync]

theorem resumption_interruptedBlock :
    (interruptedBlock.foldl (Session.step listedCodec 0)
        (start 0 [coinbase "g"])).state.index.Same
      (uninterruptedBlock.foldl (Session.step listedCodec 0)
        (start 0 [coinbase "g"])).state.index :=
  (resumption_exact listedCodec 0 [coinbase "g"] interruptedBlock uninterruptedBlock).1
    (by decide) (by decide) rfl

end Session

end

end Server

end X2XCoin
