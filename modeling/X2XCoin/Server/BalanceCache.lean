import X2XCoin.Server.IndexerRuns

/-!
# The cache of balances

`balance` and `invalidate` of `AddressQueryService.java`, interleaved with changes of the index.  A
call takes a step to look into the cache, one for `balanceFast` and one to put its result into the
cache; a change of the index takes a step and its `invalidate` another.
-/

namespace X2XCoin

namespace Server

def BALANCE_CACHE_MS : ℤ := 15000
def ZERO_SCANNING_CACHE_MS : ℤ := 4000

inductive Source
  | index
  | explorer
  deriving DecidableEq

structure BalanceResult where
  satoshis : Int64
  scanning : Bool
  deriving DecidableEq

/-- A balance with the step of the `balanceFast` that it goes back to. -/
structure Balance extends BalanceResult where
  source : Source
  computedAt : ℕ
  deriving DecidableEq

structure CachedBalance extends Balance where
  expiresAtMs : ℤ

namespace BalanceCache

/-- Where a call of `balance` stands.  The heights in the response are those of the index when the
response is made. -/
inductive Phase
  | computing
  | computed (result : BalanceResult) (computedAt : ℕ)
  | failed
  | returned (balance : Balance) (indexedHeight chainTip : ℤ)

structure Call where
  address : String
  startedAt : ℕ
  phase : Phase

structure Change where
  address : String
  changedAt : ℕ
  invalidatedAt : Option ℕ

structure State where
  index : Index := {}
  balanceCache : AList (fun _ : String => CachedBalance) := ∅
  calls : List Call := []
  changes : List Change := []
  steps : ℕ := 0

inductive Event
  /-- A call of `balance` starts and looks into the cache. -/
  | get (address : String) (now : ℤ)
  | balanceFast (call : ℕ) (node : Node) (fails : Key → Bool) (scheduled : Bool)
  | put (call : ℕ) (explorerBalance : Option Int64) (now : ℤ)
  /-- The outputs of an address change in the index, by a scan, the explorer or the node. -/
  | change (address : String) (update : Index → Index)
  | invalidate (change : ℕ)

section

variable (codec : AddressCodec)

/-- `balanceFast` for a valid address, with whether it removes outputs from the index. -/
def balanceFast (index : Index) (node : Node) (address : String) (fails : Key → Bool)
    (scheduled : Bool) : Index × Bool × BalanceResult :=
  let removes := (index.listIndexedUtxos address 1).any fun utxo =>
    !(fails utxo.key || node.gettxout utxo.key)
  let (index, live) := index.query codec node address 1 fails
  let total := (live.map IndexedUtxo.amountSatoshis).foldl (· + ·) 0
  (index, removes, ⟨total, total = 0 && !index.isFullyIndexed && scheduled⟩)

/-- The balance that `balance` makes of the result and the answer of the explorer. -/
def withExplorer (result : BalanceResult) (computedAt : ℕ) (explorerBalance : Option Int64) :
    Balance :=
  match explorerBalance with
  | some explorerBalance =>
    if result.satoshis = 0 ∧ 0 < explorerBalance then
      ⟨⟨explorerBalance, true⟩, .explorer, computedAt⟩
    else ⟨result, .index, computedAt⟩
  | none => ⟨result, .index, computedAt⟩

def cacheMs (balance : Balance) : ℤ :=
  if balance.satoshis = 0 ∧ balance.scanning then ZERO_SCANNING_CACHE_MS else BALANCE_CACHE_MS

namespace State

def respond (s : State) (balance : Balance) : Phase :=
  .returned balance s.index.indexedHeight s.index.chainTip

/-- What a call finds when it starts. -/
def look (s : State) (address : String) (now : ℤ) : Phase :=
  match s.balanceCache.lookup address with
  | some cached => if now < cached.expiresAtMs then s.respond cached.toBalance else .computing
  | none => .computing

/-- The step of `balanceFast`.  If it removes outputs it notifies before it returns. -/
def compute (s : State) (call : ℕ) (c : Call) (node : Node) (fails : Key → Bool)
    (scheduled : Bool) : State :=
  if codec.isValidP2pkh c.address then
    let (index, removes, result) := balanceFast codec s.index node c.address fails scheduled
    let calls := s.calls.set call { c with phase := .computed result s.steps }
    if removes then
      { s with
        index := index
        balanceCache := s.balanceCache.erase c.address
        calls := calls
        changes := s.changes ++ [⟨c.address, s.steps, some s.steps⟩] }
    else { s with index := index, calls := calls }
  else { s with calls := s.calls.set call { c with phase := .failed } }

def store (s : State) (call : ℕ) (c : Call) (balance : Balance) (now : ℤ) : State :=
  { s with
    balanceCache := s.balanceCache.insert c.address ⟨balance, now + cacheMs balance⟩
    calls := s.calls.set call { c with phase := s.respond balance } }

/-- An event for which its call or change is not ready does nothing. -/
def act (s : State) : Event → State
  | .get address now => { s with calls := s.calls ++ [⟨address, s.steps, s.look address now⟩] }
  | .balanceFast call node fails scheduled =>
    match s.calls[call]? with
    | some c =>
      match c.phase with
      | .computing => s.compute codec call c node fails scheduled
      | _ => s
    | none => s
  | .put call explorerBalance now =>
    match s.calls[call]? with
    | some c =>
      match c.phase with
      | .computed result computedAt =>
        s.store call c (withExplorer result computedAt explorerBalance) now
      | _ => s
    | none => s
  | .change address update =>
    { s with index := update s.index, changes := s.changes ++ [⟨address, s.steps, none⟩] }
  | .invalidate change =>
    match s.changes[change]? with
    | some ⟨address, changedAt, none⟩ =>
      { s with
        balanceCache := s.balanceCache.erase address
        changes := s.changes.set change ⟨address, changedAt, some s.steps⟩ }
    | _ => s

def step (s : State) (event : Event) : State :=
  { s.act codec event with steps := s.steps + 1 }

end State

end

/-! ## Lost invalidations -/

/-- A balance of an address is not older than the changes of the address whose invalidation is
complete, up to the given step. -/
def Current (changes : List Change) (address : String) (balance : Balance) (upTo : ℕ) : Prop :=
  balance.source = .index → ∀ change ∈ changes, change.address = address →
    ∀ done, change.invalidatedAt = some done → done < upTo → change.changedAt ≤ balance.computedAt

/-- No call has returned a balance that was computed before a change whose `invalidate` was complete
when the call started. -/
def NotLost (s : State) : Prop :=
  ∀ call ∈ s.calls, ∀ balance indexedHeight chainTip,
    call.phase = .returned balance indexedHeight chainTip →
      Current s.changes call.address balance call.startedAt

/-- A result is put into the cache only if no change since its computation has been invalidated
already. -/
def PutsInTime (s : State) : Event → Prop
  | .put call explorerBalance _ =>
    ∀ c, s.calls[call]? = some c → ∀ result computedAt, c.phase = .computed result computedAt →
      Current s.changes c.address (withExplorer result computedAt explorerBalance) s.steps
  | _ => True

/-! ## Runs that put in time -/

/-- A change with the steps that it has taken so far. -/
def Change.Sound (steps : ℕ) (change : Change) : Prop :=
  change.changedAt < steps ∧
    ∀ done, change.invalidatedAt = some done → change.changedAt ≤ done ∧ done < steps

/-- A call computes after it has started and returns what was current then. -/
def Call.Sound (changes : List Change) (steps : ℕ) (call : Call) : Prop :=
  call.startedAt < steps ∧
    match call.phase with
    | .computed _ computedAt => call.startedAt ≤ computedAt
    | .returned balance _ _ => Current changes call.address balance call.startedAt
    | _ => True

structure Sound (s : State) : Prop where
  changes : ∀ change ∈ s.changes, change.Sound s.steps
  calls : ∀ call ∈ s.calls, call.Sound s.changes s.steps
  cache : ∀ address cached, s.balanceCache.lookup address = some cached →
    Current s.changes address cached.toBalance s.steps

theorem Sound.notLost {s : State} (hs : Sound s) : NotLost s := by
  intro call hcall balance indexedHeight chainTip hphase
  have hsound := (hs.calls call hcall).2
  rw [hphase] at hsound
  exact hsound

/-- The later changes are the earlier ones as far as these were complete. -/
def Extends (changes later : List Change) (steps : ℕ) : Prop :=
  ∀ change ∈ later, ∀ done, change.invalidatedAt = some done → done < steps → change ∈ changes

theorem Extends.refl (changes : List Change) (steps : ℕ) : Extends changes changes steps :=
  fun _ h _ _ _ => h

variable {address : String} {balance : Balance} {i : ℕ} {c : Call} {steps : ℕ}
  {changes : List Change}

theorem Extends.append_singleton (changes : List Change) {change : Change}
    (h : ∀ done, change.invalidatedAt = some done → steps ≤ done) :
    Extends changes (changes ++ [change]) steps := by
  intro change' hmem done hdone hlt
  rw [List.mem_append, List.mem_singleton] at hmem
  obtain hmem | rfl := hmem
  · exact hmem
  · exact absurd (h done hdone) (by omega)

theorem Extends.set (changes : List Change) (i : ℕ) (address : String) (changedAt steps : ℕ) :
    Extends changes (changes.set i ⟨address, changedAt, some steps⟩) steps := by
  intro change hmem done hdone hlt
  obtain hmem | rfl := List.mem_or_eq_of_mem_set hmem
  · exact hmem
  · cases hdone
    exact absurd hlt (lt_irrefl _)

theorem Current.extend {changes later : List Change} {upTo steps : ℕ}
    (h : Current changes address balance upTo) (hle : upTo ≤ steps)
    (hext : Extends changes later steps) : Current later address balance upTo := by
  intro hsource change hmem haddress done hdone hlt
  exact h hsource change (hext change hmem done hdone (by omega)) haddress done hdone hlt

theorem Call.Sound.extend {changes later : List Change} {call : Call} (h : call.Sound changes steps)
    (hext : Extends changes later steps) : call.Sound later (steps + 1) := by
  obtain ⟨hstarted, hphase⟩ := h
  refine ⟨by omega, ?_⟩
  cases hp : call.phase with
  | computing => trivial
  | failed => trivial
  | computed result computedAt =>
    rw [hp] at hphase
    exact hphase
  | returned balance indexedHeight chainTip =>
    rw [hp] at hphase
    exact Current.extend hphase (by omega) hext

theorem Change.Sound.succ {change : Change} (h : change.Sound steps) :
    change.Sound (steps + 1) := by
  refine ⟨h.1.trans (Nat.lt_succ_self _), fun done hdone => ?_⟩
  obtain ⟨hle, hlt⟩ := h.2 done hdone
  exact ⟨hle, by omega⟩

variable {s s' : State}

section

variable (hs : Sound s)
include hs

/-- What is current for the changes that are complete is current for good. -/
theorem Sound.current (upTo : ℕ) (h : Current s.changes address balance s.steps) :
    Current s.changes address balance upTo := by
  intro hsource change hmem haddress done hdone _
  exact h hsource change hmem haddress done hdone ((hs.changes change hmem).2 done hdone).2

/-- A step keeps what is sound if the calls, changes and cached balances that it makes are. -/
theorem Sound.next (hsteps : s'.steps = s.steps + 1) (hext : Extends s.changes s'.changes s.steps)
    (hchanges : ∀ change ∈ s'.changes, change ∈ s.changes ∨ change.Sound (s.steps + 1))
    (hcalls : ∀ call ∈ s'.calls, call ∈ s.calls ∨ call.Sound s'.changes (s.steps + 1))
    (hcache : ∀ address cached, s'.balanceCache.lookup address = some cached →
      Current s'.changes address cached.toBalance (s.steps + 1)) : Sound s' := by
  refine ⟨fun change hmem => ?_, fun call hmem => ?_, ?_⟩
  · rw [hsteps]
    exact (hchanges change hmem).elim (fun hold => (hs.changes change hold).succ) id
  · rw [hsteps]
    exact (hcalls call hmem).elim (fun hold => (hs.calls call hold).extend hext) id
  · rw [hsteps]
    exact hcache

/-- A step that completes no change keeps the cached balances current. -/
theorem Sound.cache_extend
    (hext : ∀ change ∈ changes, ∀ done, change.invalidatedAt = some done → change ∈ s.changes)
    (h : Current s.changes address balance s.steps) :
    Current changes address balance (s.steps + 1) := by
  intro hsource change hmem haddress done hdone hlt
  have hold := hext change hmem done hdone
  exact hs.current (s.steps + 1) h hsource change hold haddress done hdone hlt

theorem Sound.idle : Sound { s with steps := s.steps + 1 } :=
  hs.next rfl (Extends.refl _ _) (fun _ h => .inl h) (fun _ h => .inl h)
    fun address cached h => hs.current _ (hs.cache address cached h)

theorem Sound.look (address : String) (now : ℤ) :
    Call.Sound s.changes (s.steps + 1) ⟨address, s.steps, s.look address now⟩ := by
  refine ⟨Nat.lt_succ_self _, ?_⟩
  unfold State.look
  cases hlook : s.balanceCache.lookup address with
  | none => trivial
  | some cached =>
    dsimp only
    split_ifs
    · exact hs.cache address cached hlook
    · trivial

theorem Sound.get (address : String) (now : ℤ) :
    Sound { s with
      calls := s.calls ++ [⟨address, s.steps, s.look address now⟩], steps := s.steps + 1 } := by
  refine hs.next rfl (Extends.refl _ _) (fun _ h => .inl h) (fun call hcall => ?_)
    fun address cached h => hs.current _ (hs.cache address cached h)
  rw [List.mem_append, List.mem_singleton] at hcall
  refine hcall.imp_right ?_
  rintro rfl
  exact hs.look address now

theorem Sound.change (address : String) (index : Index) :
    Sound { s with
      index := index, changes := s.changes ++ [⟨address, s.steps, none⟩]
      steps := s.steps + 1 } := by
  refine hs.next rfl (Extends.append_singleton _ (by simp)) (fun change hmem => ?_)
    (fun _ h => .inl h) fun address cached h => ?_
  · rw [List.mem_append, List.mem_singleton] at hmem
    refine hmem.imp_right ?_
    rintro rfl
    exact ⟨Nat.lt_succ_self _, by simp⟩
  · refine hs.cache_extend (fun change hmem done hdone => ?_) (hs.cache address cached h)
    rw [List.mem_append, List.mem_singleton] at hmem
    refine hmem.resolve_right fun heq => ?_
    rw [heq] at hdone
    cases hdone

/-- A cached balance of an address other than the one invalidated is current. -/
theorem Sound.cache_erase (hext : ∀ change ∈ changes, change ∈ s.changes ∨ change.address = address)
    {address' : String} {cached : CachedBalance}
    (h : (s.balanceCache.erase address).lookup address' = some cached) :
    Current changes address' cached.toBalance (s.steps + 1) := by
  have hne : address' ≠ address := by
    rintro rfl
    rw [AList.lookup_erase] at h
    cases h
  rw [AList.lookup_erase_ne hne] at h
  intro hsource change hmem haddress done hdone hlt
  have hold := (hext change hmem).resolve_right fun heq => hne (haddress.symm.trans heq)
  exact hs.current (s.steps + 1) (hs.cache address' cached h) hsource change hold haddress done
    hdone hlt

theorem Sound.invalidate {changedAt : ℕ} (hi : s.changes[i]? = some ⟨address, changedAt, none⟩) :
    Sound { s with
      balanceCache := s.balanceCache.erase address
      changes := s.changes.set i ⟨address, changedAt, some s.steps⟩
      steps := s.steps + 1 } := by
  have hchanged := (hs.changes _ (List.mem_of_getElem? hi)).1
  refine hs.next rfl (Extends.set _ _ _ _ _) (fun change hmem => ?_) (fun _ h => .inl h)
    fun address' cached h => hs.cache_erase (fun change hmem => ?_) h
  · refine (List.mem_or_eq_of_mem_set hmem).imp_right ?_
    rintro rfl
    refine ⟨hchanged.trans (Nat.lt_succ_self _), ?_⟩
    rintro done ⟨⟩
    exact ⟨hchanged.le, Nat.lt_succ_self _⟩
  · refine (List.mem_or_eq_of_mem_set hmem).imp_right ?_
    rintro rfl
    rfl

theorem Sound.set (hi : s.calls[i]? = some c) {phase : Phase}
    (hphase : match phase with
      | .computed _ computedAt => c.startedAt ≤ computedAt
      | .returned balance _ _ => Current changes c.address balance c.startedAt
      | _ => True) :
    ∀ call ∈ s.calls.set i { c with phase := phase },
      call ∈ s.calls ∨ call.Sound changes (s.steps + 1) := by
  intro call hcall
  refine (List.mem_or_eq_of_mem_set hcall).imp_right ?_
  rintro rfl
  have hstarted := (hs.calls c (List.mem_of_getElem? hi)).1
  exact ⟨hstarted.trans (Nat.lt_succ_self _), hphase⟩

theorem Sound.compute (codec : AddressCodec) (hi : s.calls[i]? = some c) (node : Node)
    (fails : Key → Bool) (scheduled : Bool) :
    Sound { s.compute codec i c node fails scheduled with steps := s.steps + 1 } := by
  have hstarted := (hs.calls c (List.mem_of_getElem? hi)).1
  unfold State.compute
  dsimp only
  split_ifs
  · -- The removal of outputs is a change that is complete at once.
    refine hs.next rfl (Extends.append_singleton _ (by simp)) (fun change hmem => ?_)
      (hs.set hi hstarted.le) fun address cached h => hs.cache_erase (fun change hmem => ?_) h
    · rw [List.mem_append, List.mem_singleton] at hmem
      refine hmem.imp_right ?_
      rintro rfl
      exact ⟨Nat.lt_succ_self _, by simp⟩
    · rw [List.mem_append, List.mem_singleton] at hmem
      refine hmem.imp_right ?_
      rintro rfl
      rfl
  · exact hs.next rfl (Extends.refl _ _) (fun _ h => .inl h) (hs.set hi hstarted.le)
      fun address cached h => hs.current _ (hs.cache address cached h)
  · exact hs.next rfl (Extends.refl _ _) (fun _ h => .inl h) (hs.set hi trivial)
      fun address cached h => hs.current _ (hs.cache address cached h)

/-- What was computed after the call started is current for the call. -/
theorem Sound.current_computed (hi : s.calls[i]? = some c) {result : BalanceResult}
    (hphase : c.phase = .computed result balance.computedAt) :
    Current s.changes c.address balance c.startedAt := by
  intro _ change hmem _ done hdone hlt
  have hstarted := (hs.calls c (List.mem_of_getElem? hi)).2
  rw [hphase] at hstarted
  have hchanged := ((hs.changes change hmem).2 done hdone).1
  exact hchanged.trans (hlt.le.trans hstarted)

end

theorem withExplorer_computedAt (result : BalanceResult) (computedAt : ℕ)
    (explorerBalance : Option Int64) :
    (withExplorer result computedAt explorerBalance).computedAt = computedAt := by
  unfold withExplorer
  cases explorerBalance with
  | none => rfl
  | some explorerBalance => exact apply_ite Balance.computedAt _ _ _ |>.trans (ite_self _)

theorem Sound.store (hs : Sound s) (hi : s.calls[i]? = some c) {result : BalanceResult}
    (hphase : c.phase = .computed result balance.computedAt)
    (hput : Current s.changes c.address balance s.steps) (now : ℤ) :
    Sound { s.store i c balance now with steps := s.steps + 1 } := by
  refine hs.next rfl (Extends.refl _ _) (fun _ h => .inl h)
    (hs.set hi (hs.current_computed hi hphase)) fun address cached h => hs.current _ ?_
  by_cases haddress : address = c.address
  · rw [haddress] at h ⊢
    obtain rfl := Option.some.inj ((AList.lookup_insert _).symm.trans h)
    exact hput
  · exact hs.cache address cached ((AList.lookup_insert_ne haddress).symm.trans h)

theorem Sound.step (codec : AddressCodec) (event : Event) (hs : Sound s)
    (hput : PutsInTime s event) : Sound (s.step codec event) := by
  unfold State.step
  cases event with
  | get address now => exact hs.get address now
  | balanceFast call node fails scheduled =>
    rw [State.act]
    split
    · split
      · exact hs.compute codec ‹_› node fails scheduled
      · exact hs.idle
    · exact hs.idle
  | put call explorerBalance now =>
    rw [State.act]
    split
    · split
      · rename_i c hi _ result computedAt hphase
        have hcomputed : c.phase =
            .computed result (withExplorer result computedAt explorerBalance).computedAt := by
          rw [withExplorer_computedAt]
          exact hphase
        exact hs.store hi hcomputed (hput c hi result computedAt hphase) now
      · exact hs.idle
    · exact hs.idle
  | change address update => exact hs.change address (update s.index)
  | invalidate change =>
    rw [State.act]
    split
    · exact hs.invalidate ‹_›
    · exact hs.idle

/-- A call that starts right after a late put finds the balance. -/
theorem putsInTime_of_notLost (codec : AddressCodec) (event : Event)
    (h : ∀ address now, NotLost ((s.step codec event).step codec (.get address now))) :
    PutsInTime s event := by
  cases event with
  | get address now => trivial
  | balanceFast call node fails scheduled => trivial
  | change address update => trivial
  | invalidate change => trivial
  | put call explorerBalance now =>
    intro c hi result computedAt hphase
    generalize hbalance : withExplorer result computedAt explorerBalance = balance
    have hstep : s.step codec (.put call explorerBalance now) =
        { s.store call c balance now with steps := s.steps + 1 } := by
      simp only [State.step, State.act, hi, hphase, hbalance]
    have hlook : (s.step codec (.put call explorerBalance now)).look c.address now =
        (s.step codec (.put call explorerBalance now)).respond balance := by
      have hlonger : now < now + cacheMs balance := by
        unfold cacheMs ZERO_SCANNING_CACHE_MS BALANCE_CACHE_MS
        split_ifs <;> omega
      rw [hstep]
      simp only [State.look, State.store, AList.lookup_insert, hlonger, if_true]
    have hlost := h c.address now ⟨c.address, s.steps + 1, _⟩
      (List.mem_append_right _ (List.mem_singleton_self _)) balance _ _ hlook
    rw [State.step, State.act, hstep] at hlost
    intro hsource change hmem haddress done hdone hlt
    exact hlost hsource change hmem haddress done hdone (Nat.lt_succ_of_lt hlt)

theorem sound_start : Sound {} := ⟨by simp, by simp, fun _ _ h => by cases h⟩

/-- A call of `balance` that starts at any point of an interleaving never returns a balance from
before a change already invalidated, exactly if every result is put in time. -/
theorem notLost_iff (codec : AddressCodec) (events : List Event) :
    (∀ before, before <+: events → ∀ address now,
      NotLost ((before.foldl (State.step codec) {}).step codec (.get address now))) ↔
      Run.Meets (State.step codec) PutsInTime {} events := by
  have hkeep : ∀ s event, Sound s → PutsInTime s event → Sound (s.step codec event) :=
    fun s event hs hput => hs.step codec event hput
  have hsafe : ∀ s, Sound s → ∀ address now, NotLost (s.step codec (.get address now)) :=
    fun s hs address now => (hs.step codec (.get address now) trivial).notLost
  exact (Run.meets_iff_of_detects hkeep hsafe
    (fun s event _ h => putsInTime_of_notLost codec event h) sound_start).symm

/-- A balance is computed, an output arrives and the cache is invalidated; then the balance is put
into the cache, where the next call finds it. -/
def lateStore : List Event :=
  [.get "X" 0, .balanceFast 0 ⟨[], []⟩ (fun _ => false) false,
    .change "X" fun index => { index.addOutpoint ⟨"t", 0, "X", 500, 0⟩ with chainTip := 0 },
    .invalidate 0, .put 0 none 1, .get "X" 2]

theorem lateStore_lost : ¬ NotLost (lateStore.foldl (State.step listedCodec) {}) := by
  intro h
  have hcall : (lateStore.foldl (State.step listedCodec) {}).calls[1]? =
      some ⟨"X", 5, .returned ⟨⟨0, false⟩, .index, 1⟩ (-1) 0⟩ := rfl
  have hchange : (lateStore.foldl (State.step listedCodec) {}).changes[0]? =
      some ⟨"X", 2, some 3⟩ := rfl
  have hcurrent := h _ (List.mem_of_getElem? hcall) _ _ _ rfl
  have hle : 2 ≤ 1 := hcurrent rfl _ (List.mem_of_getElem? hchange) rfl 3 rfl (by decide)
  exact absurd hle (by decide)

end BalanceCache

end Server

end X2XCoin
