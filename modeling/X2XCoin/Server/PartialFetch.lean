import X2XCoin.Server.IndexerRuns

/-!
# Blocks that are fetched in part

`fetchBlock` and `expandTxidsIfNeeded` over calls to the node that may fail, in runs of `syncToTip`
beside a node whose chain only grows.  `expandTxidsIfNeeded` leaves out the transactions that it
does
not get.
-/

namespace X2XCoin

namespace Server

/-! ## Calls to the node -/

/-- How the node answers with a block. -/
inductive BlockFormat
  | transactions
  | txids

/-- Which of the calls to the node succeed up to the next step of `syncToTip`. -/
structure Answers where
  getblockcount : Bool
  getblockbynumber : Option BlockFormat
  getblockhash : Bool
  getblock : Option BlockFormat
  /-- By the place of the transaction in the block. -/
  getrawtransaction : ℕ → Bool

def expandTxidsIfNeeded (answers : Answers) (block : Block) : BlockFormat → Block
  | .transactions => block
  | .txids => (block.zipIdx.filter fun p => answers.getrawtransaction p.2).map Prod.fst

/-- `fetchBlock` of a block of the chain; `none` if it throws. -/
def fetchBlock (answers : Answers) (block : Block) : Option Block :=
  match answers.getblockbynumber with
  | some format => some (expandTxidsIfNeeded answers block format)
  | none =>
    if answers.getblockhash then answers.getblock.map (expandTxidsIfNeeded answers block) else none

inductive RpcEvent
  /-- The chain of the node grows. -/
  | grow (blocks : List Block)
  /-- `syncToTip` is called or goes on. -/
  | sync (answers : Answers)

section

variable (codec : AddressCodec)

namespace State

def syncStepWith (s : State) (answers : Answers) : State :=
  match s.sync with
  | .fetching height batchEnd =>
    match s.node.chain[height.toNat]?.bind (fetchBlock answers) with
    | none => { s with sync := .idle }
    | some block => s.deliver codec block height batchEnd
  | _ => if answers.getblockcount then s.syncStep codec else { s with sync := .idle }

def rpcStep (s : State) : RpcEvent → State
  | .grow blocks => s.step codec (.chain s.node.chain.length blocks)
  | .sync answers => s.syncStepWith codec answers

end State

end

/-! ## What is applied -/

/-- Every transaction of every block after the genesis block up to the indexed height was applied to
the index. -/
def AllApplied (s : State) : Prop :=
  ∀ height : ℕ, 1 ≤ height → (height : ℤ) ≤ s.index.indexedHeight →
    ∀ block, s.node.chain[height]? = some block →
      ∃ applied, s.delivered[height]? = some applied ∧ block ⊆ applied

/-- No transaction is missing in a block that is fetched after the genesis block. -/
def FetchesAll (s : State) : RpcEvent → Prop
  | .grow _ => True
  | .sync answers => ∀ height batchEnd block fetched, s.sync = .fetching height batchEnd →
      1 ≤ height → s.node.chain[height.toNat]? = some block →
        fetchBlock answers block = some fetched → block ⊆ fetched

/-- The synchroniser is not ahead of the chain. -/
structure Behind (s : State) : Prop where
  synced : Synced s
  le : s.delivered.length ≤ s.node.chain.length

section

variable {codec : AddressCodec} {s t : State}

theorem Behind.syncStepWith_cases (codec : AddressCodec) (h : Behind s) (answers : Answers) :
    (Behind (s.syncStepWith codec answers) ∧
      (s.syncStepWith codec answers).index.indexedHeight = s.index.indexedHeight ∧
      (s.syncStepWith codec answers).node = s.node ∧
      (s.syncStepWith codec answers).delivered = s.delivered ∧ FetchesAll s (.sync answers)) ∨
    ∃ e block fetched, s.sync = .fetching (s.index.indexedHeight + 1) e ∧
      s.index.indexedHeight + 1 ≤ e ∧
      s.node.chain[s.delivered.length]? = some block ∧ fetchBlock answers block = some fetched ∧
      s.syncStepWith codec answers = s.deliver codec fetched (s.index.indexedHeight + 1) e := by
  have hidle : Behind { s with sync := .idle } :=
    ⟨h.synced.of_heights rfl (.inr rfl) rfl, h.le⟩
  have hread : Behind (s.readTip (s.index.indexedHeight + 1)) := ⟨h.synced.readTip rfl, h.le⟩
  unfold State.syncStepWith
  cases hsync : s.sync with
  | idle =>
    left
    have hnone : FetchesAll s (.sync answers) := fun _ _ _ _ heq => by
      rw [hsync] at heq
      cases heq
    simp only
    split_ifs
    · rw [State.syncStep, hsync]
      simp only [h.synced.nextHeight]
      exact ⟨hread, rfl, rfl, rfl, hnone⟩
    · exact ⟨hidle, rfl, rfl, rfl, hnone⟩
  | counting n =>
    left
    have hnone : FetchesAll s (.sync answers) := fun _ _ _ _ heq => by
      rw [hsync] at heq
      cases heq
    simp only
    split_ifs
    · rw [State.syncStep, hsync]
      simp only [h.synced.counting n hsync]
      exact ⟨hread, rfl, rfl, rfl, hnone⟩
    · exact ⟨hidle, rfl, rfl, rfl, hnone⟩
  | fetching n e =>
    obtain ⟨rfl, he⟩ := h.synced.fetching n e hsync
    have hlen : (s.index.indexedHeight + 1).toNat = s.delivered.length := by
      rw [h.synced.height, Int.toNat_natCast]
    simp only [hlen]
    cases hfetch : s.node.chain[s.delivered.length]?.bind (fetchBlock answers) with
    | none =>
      refine .inl ⟨hidle, rfl, rfl, rfl, fun k e' block fetched heq _ hblock hfetched => ?_⟩
      rw [hsync] at heq
      cases heq
      rw [hlen] at hblock
      rw [hblock, Option.bind_some, hfetched] at hfetch
      cases hfetch
    | some fetched =>
      obtain ⟨block, hblock, hfetched⟩ := Option.bind_eq_some_iff.mp hfetch
      exact .inr ⟨e, block, fetched, rfl, he, hblock, hfetched, rfl⟩

theorem Behind.step (h : Behind s) (e : RpcEvent) : Behind (s.rpcStep codec e) := by
  cases e with
  | grow blocks =>
    refine ⟨h.synced.of_heights rfl (.inl rfl) rfl, h.le.trans ?_⟩
    change _ ≤ (s.node.chain.take s.node.chain.length ++ blocks).length
    rw [List.take_length, List.length_append]
    exact Nat.le_add_right _ _
  | sync answers =>
    change Behind (s.syncStepWith codec answers)
    obtain ⟨hbehind, -⟩ | ⟨e, block, fetched, -, he, hblock, -, heq⟩ :=
      h.syncStepWith_cases codec answers
    · exact hbehind
    · rw [heq]
      refine ⟨h.synced.deliver rfl he, ?_⟩
      change (s.delivered ++ [fetched]).length ≤ s.node.chain.length
      rw [List.length_append, List.length_singleton]
      exact (List.getElem?_eq_some_iff.mp hblock).1

theorem behind_start (genesis : Block) : Behind (State.start genesis) :=
  ⟨synced_start genesis, Nat.zero_le _⟩

theorem allApplied_congr (hheight : t.index.indexedHeight = s.index.indexedHeight)
    (hchain : ∀ height < s.delivered.length, t.node.chain[height]? = s.node.chain[height]?)
    (hdelivered : t.delivered = s.delivered) (h : Synced s) : AllApplied t ↔ AllApplied s := by
  have hlen := h.height
  unfold AllApplied
  rw [hheight, hdelivered]
  refine forall_congr' fun height => forall_congr' fun _ => forall_congr' fun hle => ?_
  rw [hchain height (by omega)]

/-- After a block is delivered: what was applied before, and the transactions of the block. -/
theorem allApplied_deliver (h : Behind s) {block fetched : Block} {e : ℤ}
    (hblock : s.node.chain[s.delivered.length]? = some block) :
    AllApplied (s.deliver codec fetched (s.index.indexedHeight + 1) e) ↔
      AllApplied s ∧ (1 ≤ s.index.indexedHeight + 1 → block ⊆ fetched) := by
  have hlen := h.synced.height
  change (∀ height : ℕ, 1 ≤ height → (height : ℤ) ≤ s.index.indexedHeight + 1 →
    ∀ block, s.node.chain[height]? = some block →
      ∃ applied, (s.delivered ++ [fetched])[height]? = some applied ∧ block ⊆ applied) ↔ _
  constructor
  · refine fun hall => ⟨fun height hpos hle b hb => ?_, fun hpos => ?_⟩
    · obtain ⟨applied, happlied, hsubset⟩ := hall height hpos (by omega) b hb
      rw [List.getElem?_append_left (by omega)] at happlied
      exact ⟨applied, happlied, hsubset⟩
    · obtain ⟨applied, happlied, hsubset⟩ :=
        hall s.delivered.length (by omega) (by omega) block hblock
      rw [List.getElem?_append_right le_rfl, Nat.sub_self] at happlied
      cases happlied
      exact hsubset
  · rintro ⟨hall, hnew⟩ height hpos hle b hb
    by_cases hlt : height < s.delivered.length
    · obtain ⟨applied, happlied, hsubset⟩ := hall height hpos (by omega) b hb
      exact ⟨applied, (List.getElem?_append_left hlt).trans happlied, hsubset⟩
    · obtain rfl : height = s.delivered.length := by omega
      rw [hblock] at hb
      cases hb
      refine ⟨fetched, ?_, hnew (by omega)⟩
      rw [List.getElem?_append_right le_rfl, Nat.sub_self]
      rfl

theorem allApplied_step (h : Behind s) (e : RpcEvent) :
    AllApplied (s.rpcStep codec e) ↔ AllApplied s ∧ FetchesAll s e := by
  cases e with
  | grow blocks =>
    have hlen := h.le
    have hchain : ∀ height < s.delivered.length,
        (s.rpcStep codec (.grow blocks)).node.chain[height]? = s.node.chain[height]? := by
      intro height hlt
      change (s.node.chain.take s.node.chain.length ++ blocks)[height]? = _
      rw [List.take_length, List.getElem?_append_left (hlt.trans_le hlen)]
    have hiff : AllApplied (s.rpcStep codec (.grow blocks)) ↔ AllApplied s :=
      allApplied_congr (by rfl) hchain (by rfl) h.synced
    rw [hiff]
    exact (and_iff_left trivial).symm
  | sync answers =>
    change AllApplied (s.syncStepWith codec answers) ↔ _
    obtain ⟨-, hheight, hnode, hdelivered, hall⟩ |
      ⟨e, block, fetched, hsync, -, hblock, hfetched, heq⟩ := h.syncStepWith_cases codec answers
    · rw [allApplied_congr hheight (fun _ _ => by rw [hnode]) hdelivered h.synced]
      exact (and_iff_left hall).symm
    · rw [heq, allApplied_deliver h hblock]
      refine and_congr_right fun _ => ⟨fun himp k e' b f hk hpos hb hf => ?_, fun hall hpos => ?_⟩
      · rw [hsync] at hk
        cases hk
        rw [h.synced.height, Int.toNat_natCast, hblock] at hb
        cases hb
        rw [hfetched] at hf
        cases hf
        exact himp hpos
      · refine hall _ e block fetched hsync hpos ?_ hfetched
        rw [h.synced.height, Int.toNat_natCast, hblock]

end

/-- A node whose blocks list transaction ids, and which does not find the second transaction. -/
def secondMissing : Answers := ⟨true, some .txids, true, none, fun n => n = 0⟩

/-- A block with two transactions is synchronised. -/
def lostTransaction : List RpcEvent :=
  [.grow [[coinbase "a", ⟨"b", [some ⟨"a", 0⟩], [⟨0, 100000000, some ["Y"], none⟩]⟩]],
    .sync secondMissing, .sync secondMissing, .sync secondMissing, .sync secondMissing]

end Server

end X2XCoin
