import X2XCoin.Lib.Forest
import X2XCoin.Node.Header

/-!
# Skip pointers

`GetAncestor` and `BuildSkip` of the block index, `SetTip` and `FindFork` of a chain and
`LastCommonAncestor`.  Entries are added and linked in any order.  A pointer to an entry is its
hash.
A failed assertion, or the use of a pointer to nothing, is `none`; `some none` is the null pointer.
-/

namespace X2XCoin

namespace SkipList

open Forest (up Above climb meet Graded Highest)

/-! ## Heights -/

def invertLowestOne (n : ℕ) : ℕ := n &&& (n - 1)

def getSkipHeight (height : ℕ) : ℕ :=
  if height < 2 then 0
  else if height % 2 = 1 then invertLowestOne (invertLowestOne (height - 1)) + 1
  else invertLowestOne height

theorem invertLowestOne_le (n : ℕ) : invertLowestOne n ≤ n - 1 := Nat.and_le_right

theorem getSkipHeight_lt {height : ℕ} (h : 0 < height) : getSkipHeight height < height := by
  unfold getSkipHeight
  split_ifs
  · exact h
  · have hfirst := invertLowestOne_le (height - 1)
    have hsecond := invertLowestOne_le (invertLowestOne (height - 1))
    omega
  · have hfirst := invertLowestOne_le height
    omega

/-! ## The index -/

structure State where
  mapBlockIndex : BlockMap := ∅
  pskip : AList (fun _ : Uint256 => Uint256) := ∅
  /-- The entries of a chain by height. -/
  vChain : List (Option Uint256) := []

namespace State

/-- `pprev`. -/
def parent (s : State) (hash : Uint256) : Option Uint256 :=
  (s.mapBlockIndex.lookup hash).bind IndexEntry.pprev

def nHeight (s : State) (hash : Uint256) : ℕ :=
  (s.mapBlockIndex.lookup hash).elim 0 fun e => e.nHeight

/-- One round of the loop of `GetAncestor`. -/
def next (s : State) (height : ℕ) (pindexWalk : Uint256) (heightWalk : ℕ) :
    Option (Uint256 × ℕ) :=
  let heightSkip := getSkipHeight heightWalk
  let heightSkipPrev := getSkipHeight (heightWalk - 1)
  match (s.pskip.lookup pindexWalk).filter fun _ => heightSkip = height ∨
    (heightSkip > height ∧
      ¬ ((heightSkipPrev : ℤ) < heightSkip - 2 ∧ heightSkipPrev ≥ height)) with
  | some pskip => some (pskip, heightSkip)
  | none => (s.parent pindexWalk).map fun pprev => (pprev, heightWalk - 1)

theorem next_eq_some {s : State} {height : ℕ} {pindexWalk pindex : Uint256}
    {heightWalk heightNext : ℕ}
    (h : s.next height pindexWalk heightWalk = some (pindex, heightNext)) :
    (s.pskip.lookup pindexWalk = some pindex ∧ heightNext = getSkipHeight heightWalk ∧
      height ≤ heightNext) ∨ (s.parent pindexWalk = some pindex ∧ heightNext = heightWalk - 1) := by
  unfold next at h
  dsimp only at h
  split at h
  · rename_i pskip hskip
    obtain ⟨hskip, hgood⟩ := Option.filter_eq_some_iff.mp hskip
    obtain ⟨rfl, rfl⟩ := Prod.mk.inj (Option.some.inj h)
    have hgood := of_decide_eq_true hgood
    exact .inl ⟨hskip, rfl, by omega⟩
  · obtain ⟨pprev, hprev, heq⟩ := Option.map_eq_some_iff.mp h
    obtain ⟨rfl, rfl⟩ := Prod.mk.inj heq
    exact .inr ⟨hprev, rfl⟩

theorem next_lt {s : State} {height : ℕ} {pindexWalk pindex : Uint256} {heightWalk heightNext : ℕ}
    (hlt : height < heightWalk)
    (h : s.next height pindexWalk heightWalk = some (pindex, heightNext)) :
    heightNext < heightWalk := by
  obtain ⟨-, rfl, -⟩ | ⟨-, rfl⟩ := next_eq_some h
  · exact getSkipHeight_lt (by omega)
  · omega

/-- The loop of `GetAncestor`. -/
def walk (s : State) (height : ℕ) (pindexWalk : Uint256) (heightWalk : ℕ) : Option Uint256 :=
  if _hlt : height < heightWalk then
    match _h : s.next height pindexWalk heightWalk with
    | none => none
    | some (pindex, heightNext) => s.walk height pindex heightNext
  else some pindexWalk
termination_by heightWalk
decreasing_by exact next_lt _hlt _h

def getAncestor (s : State) (hash : Uint256) (height : ℤ) : Option (Option Uint256) :=
  match s.mapBlockIndex.lookup hash with
  | none => none
  | some e =>
    if height > e.nHeight ∨ height < 0 then some none
    else (s.walk height.toNat hash e.nHeight).map some

/-- A pointer that may be null. -/
def setSkip (s : State) (hash : Uint256) : Option Uint256 → State
  | some pskip => { s with pskip := s.pskip.insert hash pskip }
  | none => { s with pskip := s.pskip.erase hash }

def buildSkip (s : State) (hash : Uint256) : Option State :=
  match s.parent hash with
  | none => some s
  | some pprev => (s.getAncestor pprev (getSkipHeight (s.nHeight hash))).map (s.setSkip hash)

/-- A new entry, below the entry of another hash if there is one. -/
def newEntry (s : State) (index : CBlockIndex) (hashPrev : Uint256) : IndexEntry :=
  let pprev := s.mapBlockIndex.lookup hashPrev
  { index with
    nHeight := (pprev.map fun i => i.nHeight + 1).getD 0
    pprev := pprev.map fun _ => hashPrev }

def insert (s : State) (index : CBlockIndex) (hashPrev : Uint256) : State :=
  match s.mapBlockIndex.lookup index.hash with
  | some _ => s
  | none =>
    { s with
      mapBlockIndex := s.mapBlockIndex.insert index.hash (s.newEntry index hashPrev) }

/-! ## Chains -/

def height (s : State) : ℤ := s.vChain.length - 1

def contains (s : State) (hash : Uint256) : Bool := s.vChain[s.nHeight hash]? = some (some hash)

/-- The loop of `SetTip`. -/
def fill (s : State) : ℕ → List (Option Uint256) → Option Uint256 → List (Option Uint256)
  | fuel + 1, vChain, some hash =>
    if vChain[s.nHeight hash]? = some (some hash) then vChain
    else s.fill fuel (vChain.set (s.nHeight hash) (some hash)) (s.parent hash)
  | _, vChain, _ => vChain

def setTip (s : State) : Option Uint256 → State
  | none => { s with vChain := [] }
  | some hash =>
    let size := s.nHeight hash + 1
    let vChain := s.vChain.take size ++ List.replicate (size - s.vChain.length) none
    { s with vChain := s.fill size vChain (some hash) }

def findFork (s : State) : Option Uint256 → Option (Option Uint256)
  | none => some none
  | some hash => do
    let pindex ← if s.nHeight hash > s.height then s.getAncestor hash s.height else some (some hash)
    some (climb s.parent s.contains (s.nHeight hash + 1) pindex)

def lastCommonAncestor (s : State) (pa pb : Uint256) : Option (Option Uint256) := do
  let (a, b) ←
    if s.nHeight pa > s.nHeight pb then (s.getAncestor pa (s.nHeight pb)).map fun a => (a, some pb)
    else if s.nHeight pb > s.nHeight pa then
      (s.getAncestor pb (s.nHeight pa)).map fun b => (some pa, b)
    else some (some pa, some pb)
  let (a, b) := meet s.parent (s.nHeight pa + 1) a b
  if a = b then some a else none

end State

/-! ## Runs -/

inductive Op
  | insert (index : CBlockIndex) (hashPrev : Uint256)
  | buildSkip (hash : Uint256)
  | setTip (hash : Option Uint256)

/-- The tip of a chain is an entry of the index or null. -/
def step (s : State) : Op → Option State
  | .insert index hashPrev => some (s.insert index hashPrev)
  | .buildSkip hash => s.buildSkip hash
  | .setTip hash =>
    some (if hash.all fun hash => (s.mapBlockIndex.lookup hash).isSome then s.setTip hash else s)

def run (ops : List Op) : Option State := ops.foldlM step {}

/-! ## Linked entries -/

/-- An entry of the index with the given height. -/
def Filed (s : State) (height : ℕ) (pindex : Option Uint256) : Prop :=
  ∃ hash, pindex = some hash ∧ (s.mapBlockIndex.lookup hash).isSome ∧ s.nHeight hash = height

structure Linked (s : State) : Prop where
  tree : ParentMap.WellFormed (s.mapBlockIndex.lookup ·) IndexEntry.pprev fun e => e.nHeight
  hash_eq : ∀ hash e, s.mapBlockIndex.lookup hash = some e → e.hash = hash
  skip : ∀ hash pskip, s.pskip.lookup hash = some pskip →
    (s.mapBlockIndex.lookup hash).isSome ∧
      up s.parent (s.nHeight hash - getSkipHeight (s.nHeight hash)) hash = some pskip
  chain : ∀ height pindex, s.vChain[height]? = some pindex → Filed s height pindex

variable {s : State}

theorem Linked.graded (hs : Linked s) : Graded s.parent s.nHeight := hs.tree.graded

/-- Every round has an entry to go to, and the entries it goes to are ancestors. -/
theorem Linked.walk_eq (hs : Linked s) {height heightWalk : ℕ} {pindexWalk : Uint256}
    (hheight : s.nHeight pindexWalk = heightWalk) (hle : height ≤ heightWalk) :
    s.walk height pindexWalk heightWalk = up s.parent (heightWalk - height) pindexWalk := by
  induction heightWalk using Nat.strong_induction_on generalizing pindexWalk with
  | _ heightWalk ih =>
    rw [State.walk]
    split_ifs with hlt
    · split
      · rename_i hnone
        cases hp : s.parent pindexWalk with
        | none =>
          have := hs.graded.root pindexWalk hp
          omega
        | some pprev =>
          unfold State.next at hnone
          dsimp only at hnone
          rw [hp] at hnone
          split at hnone <;> cases hnone
      · rename_i pindex heightNext hnext
        have hless := State.next_lt hlt hnext
        obtain ⟨hskip, rfl, hge⟩ | ⟨hprev, rfl⟩ := State.next_eq_some hnext
        · obtain ⟨-, hup⟩ := hs.skip pindexWalk pindex hskip
          rw [hheight] at hup
          have hnew := hs.graded.height_up hup
          rw [ih _ hless (by omega) hge]
          have hsplit : heightWalk - height = heightWalk - getSkipHeight heightWalk +
              (getSkipHeight heightWalk - height) := by omega
          rw [hsplit, Forest.up_add, hup, Option.bind_some]
        · have hnew := hs.graded.child pindexWalk pindex hprev
          rw [ih _ hless (by omega) (by omega)]
          have hsplit : heightWalk - height = heightWalk - 1 - height + 1 := by omega
          rw [hsplit, up, hprev, Option.bind_some]
    · have hsub : heightWalk - height = 0 := by omega
      rw [hsub, up]

theorem nHeight_of_lookup {hash : Uint256} {e : IndexEntry}
    (h : s.mapBlockIndex.lookup hash = some e) : s.nHeight hash = e.nHeight := by
  rw [State.nHeight, h, Option.elim_some]

theorem getAncestor_null {hash : Uint256} (h : (s.mapBlockIndex.lookup hash).isSome) {height : ℤ}
    (hout : height < 0 ∨ s.nHeight hash < height) : s.getAncestor hash height = some none := by
  obtain ⟨e, he⟩ := Option.isSome_iff_exists.mp h
  rw [nHeight_of_lookup he] at hout
  simp only [State.getAncestor, he]
  exact if_pos hout.symm

theorem Linked.getAncestor_eq (hs : Linked s) {hash : Uint256}
    (h : (s.mapBlockIndex.lookup hash).isSome) {height : ℕ} (hle : height ≤ s.nHeight hash) :
    ∃ pindex, up s.parent (s.nHeight hash - height) hash = some pindex ∧
      s.nHeight pindex = height ∧ s.getAncestor hash height = some (some pindex) := by
  obtain ⟨pindex, hup⟩ := hs.graded.exists_up (Nat.sub_le (s.nHeight hash) height)
  have hheight := hs.graded.height_up hup
  refine ⟨pindex, hup, by omega, ?_⟩
  obtain ⟨e, he⟩ := Option.isSome_iff_exists.mp h
  have hwalk := hs.walk_eq (nHeight_of_lookup he) (nHeight_of_lookup he ▸ hle)
  rw [nHeight_of_lookup he] at hup hle
  have hin : ¬ ((height : ℤ) > e.nHeight ∨ (height : ℤ) < 0) := by omega
  simp only [State.getAncestor, he, if_neg hin, Int.toNat_natCast, hwalk, hup, Option.map_some]

/-! ## What keeps entries linked -/

theorem linked_empty : Linked {} where
  tree := ⟨nofun, nofun⟩
  hash_eq := nofun
  skip := nofun
  chain := nofun

theorem lookup_insert {index : CBlockIndex} (hashPrev : Uint256)
    (hnew : s.mapBlockIndex.lookup index.hash = none) (hash : Uint256) :
    (s.insert index hashPrev).mapBlockIndex.lookup hash =
      Function.update (s.mapBlockIndex.lookup ·) index.hash (some (s.newEntry index hashPrev))
        hash := by
  simp only [State.insert, hnew]
  by_cases heq : hash = index.hash
  · rw [heq, Function.update_self]
    exact AList.lookup_insert _
  · rw [Function.update_of_ne heq]
    exact AList.lookup_insert_ne heq

theorem Filed.mono {s' : State} {height : ℕ} {pindex : Option Uint256}
    (hsub : ∀ hash e, s.mapBlockIndex.lookup hash = some e → s'.mapBlockIndex.lookup hash = some e)
    (h : Filed s height pindex) : Filed s' height pindex := by
  obtain ⟨hash, rfl, hsome, rfl⟩ := h
  obtain ⟨e, he⟩ := Option.isSome_iff_exists.mp hsome
  have he' := hsub hash e he
  exact ⟨hash, rfl, by rw [he', Option.isSome_some],
    (nHeight_of_lookup he').trans (nHeight_of_lookup he).symm⟩

theorem parent_mono {s' : State}
    (hsub : ∀ hash e, s.mapBlockIndex.lookup hash = some e → s'.mapBlockIndex.lookup hash = some e)
    (hash pprev : Uint256) (h : s.parent hash = some pprev) : s'.parent hash = some pprev := by
  obtain ⟨e, he, hp⟩ := Option.bind_eq_some_iff.mp h
  rw [State.parent, hsub hash e he, Option.bind_some, hp]

theorem Linked.insert (hs : Linked s) (index : CBlockIndex) (hashPrev : Uint256) :
    Linked (s.insert index hashPrev) := by
  cases hold : s.mapBlockIndex.lookup index.hash with
  | some e =>
    have hsame : s.insert index hashPrev = s := by simp only [State.insert, hold]
    rw [hsame]
    exact hs
  | none =>
    have hlookup := lookup_insert hashPrev hold
    have hsub : ∀ hash e, s.mapBlockIndex.lookup hash = some e →
        (s.insert index hashPrev).mapBlockIndex.lookup hash = some e := by
      intro hash e he
      have hne : hash ≠ index.hash := by
        rintro rfl
        rw [hold] at he
        cases he
      rw [hlookup, Function.update_of_ne hne, he]
    have hskip : (s.insert index hashPrev).pskip = s.pskip := by simp only [State.insert, hold]
    have hchain : (s.insert index hashPrev).vChain = s.vChain := by simp only [State.insert, hold]
    refine ⟨?_, ?_, ?_, ?_⟩
    · rw [funext hlookup]
      refine hs.tree.insert hold ?_ ?_
      · intro k hp
        obtain ⟨e, he, rfl⟩ := Option.map_eq_some_iff.mp hp
        exact ⟨e, he, by simp only [State.newEntry, he, Option.map_some, Option.getD_some]⟩
      · intro hp
        rw [State.newEntry, Option.map_eq_none_iff.mp hp]
        rfl
    · intro hash e he
      rw [hlookup] at he
      by_cases heq : hash = index.hash
      · rw [heq, Function.update_self] at he
        rw [← Option.some.inj he, heq]
        rfl
      · rw [Function.update_of_ne heq] at he
        exact hs.hash_eq hash e he
    · intro hash pskip h
      rw [hskip] at h
      obtain ⟨hsome, hup⟩ := hs.skip hash pskip h
      obtain ⟨e, he⟩ := Option.isSome_iff_exists.mp hsome
      have hheight : (s.insert index hashPrev).nHeight hash = s.nHeight hash :=
        (nHeight_of_lookup (hsub hash e he)).trans (nHeight_of_lookup he).symm
      rw [hheight, hsub hash e he]
      exact ⟨rfl, Forest.up_mono (parent_mono hsub) hup⟩
    · intro height pindex h
      rw [hchain] at h
      exact (hs.chain height pindex h).mono hsub

theorem Linked.buildSkip (hs : Linked s) (hash : Uint256) :
    ∃ s', s.buildSkip hash = some s' ∧ Linked s' := by
  cases hp : s.parent hash with
  | none => exact ⟨s, by simp only [State.buildSkip, hp], hs⟩
  | some pprev =>
    have hheight := hs.graded.child hash pprev hp
    obtain ⟨e, he, hprev⟩ := Option.bind_eq_some_iff.mp hp
    obtain ⟨e', he', -⟩ := hs.tree.parent_some he hprev
    have hsome : (s.mapBlockIndex.lookup pprev).isSome := by rw [he', Option.isSome_some]
    have hle : getSkipHeight (s.nHeight hash) ≤ s.nHeight pprev := by
      have := @getSkipHeight_lt (s.nHeight hash) (by omega)
      omega
    obtain ⟨pskip, hup, -, hanc⟩ := hs.getAncestor_eq hsome hle
    refine ⟨s.setSkip hash (some pskip), ?_, hs.tree, hs.hash_eq, ?_, hs.chain⟩
    · simp only [State.buildSkip, hp, hanc, Option.map_some]
    · intro hash' pskip' h
      by_cases heq : hash' = hash
      · subst heq
        obtain rfl := Option.some.inj ((AList.lookup_insert _).symm.trans h)
        have hsub : s.nHeight hash' - getSkipHeight (s.nHeight hash') =
            s.nHeight pprev - getSkipHeight (s.nHeight hash') + 1 := by omega
        refine ⟨Option.isSome_iff_exists.mpr ⟨e, he⟩, ?_⟩
        show up s.parent (s.nHeight hash' - getSkipHeight (s.nHeight hash')) hash' = some pskip
        rw [hsub, up, hp, Option.bind_some, hup]
      · exact hs.skip hash' pskip' ((AList.lookup_insert_ne heq).symm.trans h)

/-! ## Setting the tip -/

/-- Above the given height all entries are in place; up to it they are in place or null, the null
ones last. -/
structure Filling (s : State) (vChain : List (Option Uint256)) (height : ℕ) : Prop where
  above : ∀ k pindex, height < k → vChain[k]? = some pindex → Filed s k pindex
  below : ∀ k pindex, k ≤ height → vChain[k]? = some pindex →
    Filed s k pindex ∨ ∀ l, k ≤ l → l ≤ height → vChain[l]? = some none

theorem Linked.fill_filed (hs : Linked s) {fuel : ℕ} {vChain : List (Option Uint256)}
    {hash : Uint256} (hsome : (s.mapBlockIndex.lookup hash).isSome) (hfuel : s.nHeight hash < fuel)
    (hfill : Filling s vChain (s.nHeight hash)) :
    ∀ k pindex, (s.fill fuel vChain (some hash))[k]? = some pindex → Filed s k pindex := by
  induction fuel generalizing vChain hash with
  | zero => omega
  | succ fuel ih =>
    rw [State.fill]
    split_ifs with hstop
    · intro k pindex h
      by_cases hk : s.nHeight hash < k
      · exact hfill.above k pindex hk h
      · refine (hfill.below k pindex (by omega) h).resolve_right fun hnull => ?_
        have := hnull (s.nHeight hash) (by omega) le_rfl
        rw [hstop] at this
        cases this
    · have hset : ∀ k pindex, s.nHeight hash ≤ k →
          (vChain.set (s.nHeight hash) (some hash))[k]? = some pindex → Filed s k pindex := by
        intro k pindex hk h
        rw [List.getElem?_set] at h
        split_ifs at h with heq hlen
        · exact ⟨hash, (Option.some.inj h).symm, hsome, heq⟩
        · exact hfill.above k pindex (by omega) h
      cases hp : s.parent hash with
      | none =>
        have hroot := hs.graded.root hash hp
        have hdone : ∀ vChain, s.fill fuel vChain none = vChain := by
          intro vChain
          cases fuel <;> rfl
        rw [hdone]
        exact fun k pindex h => hset k pindex (by omega) h
      | some pprev =>
        have hheight := hs.graded.child hash pprev hp
        obtain ⟨e, he, hprev⟩ := Option.bind_eq_some_iff.mp hp
        obtain ⟨e', he', -⟩ := hs.tree.parent_some he hprev
        refine ih (by rw [he', Option.isSome_some]) (by omega) ⟨fun k pindex hk h => ?_, ?_⟩
        · exact hset k pindex (by omega) h
        · intro k pindex hk h
          rw [List.getElem?_set_ne (by omega)] at h
          refine (hfill.below k pindex (by omega) h).imp_right fun hnull l hkl hl => ?_
          rw [List.getElem?_set_ne (by omega)]
          exact hnull l hkl (by omega)

theorem Linked.setTip (hs : Linked s) {hash : Option Uint256}
    (hsome : ∀ h, hash = some h → (s.mapBlockIndex.lookup h).isSome) : Linked (s.setTip hash) := by
  cases hash with
  | none => exact ⟨hs.tree, hs.hash_eq, hs.skip, nofun⟩
  | some hash =>
    refine ⟨hs.tree, hs.hash_eq, hs.skip, ?_⟩
    refine hs.fill_filed (hsome hash rfl) (Nat.lt_succ_self _) ⟨fun k pindex hk h => ?_, ?_⟩
    · have hlen := (List.getElem?_eq_some_iff.mp h).1
      simp only [List.length_append, List.length_take, List.length_replicate] at hlen
      omega
    · intro k pindex hk h
      by_cases hold : k < s.vChain.length
      · left
        rw [List.getElem?_append_left (by simp; omega), List.getElem?_take_of_lt (by omega)] at h
        exact hs.chain k pindex h
      · right
        intro l hkl hl
        rw [List.getElem?_append_right (by simp; omega), List.getElem?_replicate]
        exact if_pos (by simp; omega)

theorem Linked.step (hs : Linked s) (op : Op) : ∃ s', step s op = some s' ∧ Linked s' := by
  cases op with
  | insert index hashPrev => exact ⟨_, rfl, hs.insert index hashPrev⟩
  | buildSkip hash => exact hs.buildSkip hash
  | setTip hash =>
    refine ⟨_, rfl, ?_⟩
    split_ifs with hall
    · refine hs.setTip fun h heq => ?_
      rw [heq] at hall
      exact hall
    · exact hs

theorem run_linked (ops : List Op) : ∃ s, run ops = some s ∧ Linked s := by
  have hrun : ∀ s, Linked s → ∃ s', ops.foldlM SkipList.step s = some s' ∧ Linked s' := by
    induction ops with
    | nil => exact fun s hs => ⟨s, rfl, hs⟩
    | cons op ops ih =>
      intro s hs
      obtain ⟨s', hstep, hs'⟩ := hs.step op
      obtain ⟨s'', hrun, hs''⟩ := ih s' hs'
      refine ⟨s'', ?_, hs''⟩
      rw [List.foldlM_cons, hstep]
      exact hrun
  exact hrun {} linked_empty

/-! ## Forks -/

theorem Linked.contains_iff (hs : Linked s) (hash : Uint256) :
    s.contains hash ↔ some hash ∈ s.vChain := by
  rw [State.contains, decide_eq_true_iff]
  refine ⟨List.mem_of_getElem?, fun hmem => ?_⟩
  obtain ⟨k, hk⟩ := List.mem_iff_getElem?.mp hmem
  obtain ⟨_, ⟨⟩, -, rfl⟩ := hs.chain k (some hash) hk
  exact hk

theorem Linked.findFork_highest (hs : Linked s) {hash : Uint256}
    (hsome : (s.mapBlockIndex.lookup hash).isSome) :
    ∃ r, s.findFork (some hash) = some r ∧
      Highest s.nHeight (fun pindex => Above s.parent hash pindex ∧ some pindex ∈ s.vChain) r := by
  have hheight : ∀ pindex, some pindex ∈ s.vChain → (s.nHeight pindex : ℤ) ≤ s.height := by
    intro pindex hmem
    obtain ⟨k, hk⟩ := List.mem_iff_getElem?.mp hmem
    obtain ⟨_, ⟨⟩, -, rfl⟩ := hs.chain k (some pindex) hk
    have := (List.getElem?_eq_some_iff.mp hk).1
    rw [State.height]
    omega
  -- Ancestors above the height of the chain are not in the chain.
  have hclimb : ∀ start, Above s.parent hash start →
      (∀ pindex, some pindex ∈ s.vChain → Above s.parent hash pindex →
        s.nHeight pindex ≤ s.nHeight start) →
      Highest s.nHeight (fun pindex => Above s.parent hash pindex ∧ some pindex ∈ s.vChain)
        (climb s.parent s.contains (s.nHeight hash + 1) (some start)) := by
    intro start hstart hlow
    have hfuel : s.nHeight start < s.nHeight hash + 1 :=
      Nat.lt_succ_of_le (hs.graded.height_le hstart)
    refine (hs.graded.climb_highest s.contains hfuel).congr fun pindex => ?_
    rw [hs.contains_iff]
    refine and_congr_left fun hmem => ⟨hstart.trans, fun habove => ?_⟩
    exact hs.graded.above_of_height_le hstart habove (hlow pindex hmem habove)
  rw [State.findFork]
  split_ifs with hhigh
  · by_cases hempty : s.height < 0
    · rw [getAncestor_null hsome (.inl hempty)]
      refine ⟨none, rfl, fun pindex hp => ?_⟩
      have := hheight pindex hp.2
      omega
    · obtain ⟨n, hn⟩ := Int.eq_ofNat_of_zero_le (not_lt.mp hempty)
      rw [hn] at hhigh hheight ⊢
      have hle : n ≤ s.nHeight hash := by omega
      obtain ⟨start, hup, hstart, hanc⟩ := hs.getAncestor_eq hsome hle
      rw [hanc]
      refine ⟨_, rfl, hclimb start ⟨_, hup⟩ fun pindex hmem _ => ?_⟩
      have := hheight pindex hmem
      omega
  · exact ⟨_, rfl, hclimb hash (Above.refl hash) fun pindex _ habove => hs.graded.height_le habove⟩

/-- `LastCommonAncestor` returns the highest common ancestor. -/
theorem Linked.lastCommonAncestor_highest (hs : Linked s) {pa pb : Uint256}
    (ha : (s.mapBlockIndex.lookup pa).isSome) (hb : (s.mapBlockIndex.lookup pb).isSome) :
    ∃ r, s.lastCommonAncestor pa pb = some r ∧
      Highest s.nHeight (fun pindex => Above s.parent pa pindex ∧ Above s.parent pb pindex) r := by
  -- From ancestors of one height the loop goes on, and no common ancestor is higher than they are.
  have hloop : ∀ a b, Above s.parent pa a → Above s.parent pb b → s.nHeight a = s.nHeight b →
      (s.nHeight a = s.nHeight pa ∨ s.nHeight a = s.nHeight pb) →
      ∃ r, meet s.parent (s.nHeight pa + 1) (some a) (some b) = (r, r) ∧ Highest s.nHeight
        (fun pindex => Above s.parent pa pindex ∧ Above s.parent pb pindex) r := by
    intro a b hpa hpb hheight hlow
    have hfuel : s.nHeight a < s.nHeight pa + 1 := Nat.lt_succ_of_le (hs.graded.height_le hpa)
    obtain ⟨r, hmeet, hhighest⟩ := hs.graded.meet_highest hheight hfuel
    refine ⟨r, hmeet, hhighest.congr fun pindex => ⟨?_, fun hcommon => ?_⟩⟩
    · exact fun hcommon => ⟨hpa.trans hcommon.1, hpb.trans hcommon.2⟩
    · have hlea := hs.graded.height_le hcommon.1
      have hleb := hs.graded.height_le hcommon.2
      exact ⟨hs.graded.above_of_height_le hpa hcommon.1 (by omega),
        hs.graded.above_of_height_le hpb hcommon.2 (by omega)⟩
  obtain hlt | heq | hlt := lt_trichotomy (s.nHeight pa) (s.nHeight pb)
  · obtain ⟨b, hup, hheight, hanc⟩ := hs.getAncestor_eq hb hlt.le
    obtain ⟨r, hmeet, hhighest⟩ := hloop pa b (Above.refl pa) ⟨_, hup⟩ hheight.symm (.inl rfl)
    refine ⟨r, ?_, hhighest⟩
    simp [State.lastCommonAncestor, hlt, not_lt_of_gt hlt, hanc, hmeet]
  · obtain ⟨r, hmeet, hhighest⟩ := hloop pa pb (Above.refl pa) (Above.refl pb) heq (.inl rfl)
    refine ⟨r, ?_, hhighest⟩
    simp [State.lastCommonAncestor, heq, heq ▸ hmeet]
  · obtain ⟨a, hup, hheight, hanc⟩ := hs.getAncestor_eq ha hlt.le
    obtain ⟨r, hmeet, hhighest⟩ := hloop a pb ⟨_, hup⟩ (Above.refl pb) hheight (.inr hheight)
    refine ⟨r, ?_, hhighest⟩
    simp [State.lastCommonAncestor, hlt, hanc, hmeet]

/-! ## The result -/

/-- After any run of insertions, `BuildSkip` and `SetTip`, which no assertion stops: `GetAncestor`
returns the entry that `pprev` leads to, `FindFork` the highest ancestor in the chain and
`LastCommonAncestor` the highest common ancestor. -/
theorem skipList_correct (ops : List Op) :
    (∀ n, 1 ≤ n → getSkipHeight n < n) ∧ ∃ s, run ops = some s ∧
      (∀ hash, (s.mapBlockIndex.lookup hash).isSome →
        (∀ height : ℤ, height < 0 ∨ s.nHeight hash < height →
          s.getAncestor hash height = some none) ∧
        (∀ height : ℕ, height ≤ s.nHeight hash → ∃ pindex,
          up s.parent (s.nHeight hash - height) hash = some pindex ∧ s.nHeight pindex = height ∧
            s.getAncestor hash height = some (some pindex)) ∧
        ∃ r, s.findFork (some hash) = some r ∧ Highest s.nHeight
          (fun pindex => Above s.parent hash pindex ∧ some pindex ∈ s.vChain) r) ∧
      ∀ pa pb, (s.mapBlockIndex.lookup pa).isSome → (s.mapBlockIndex.lookup pb).isSome →
        ∃ r, s.lastCommonAncestor pa pb = some r ∧ Highest s.nHeight
          (fun pindex => Above s.parent pa pindex ∧ Above s.parent pb pindex) r := by
  refine ⟨fun n hn => getSkipHeight_lt hn, ?_⟩
  obtain ⟨s, hrun, hs⟩ := run_linked ops
  refine ⟨s, hrun, fun hash hsome => ⟨?_, ?_, ?_⟩, fun pa pb ha hb => ?_⟩
  · exact fun height hout => getAncestor_null hsome hout
  · exact fun height hle => hs.getAncestor_eq hsome hle
  · exact hs.findFork_highest hsome
  · exact hs.lastCommonAncestor_highest ha hb

theorem Linked.isSome_up (hs : Linked s) {n : ℕ} {hash pindex : Uint256}
    (hsome : (s.mapBlockIndex.lookup hash).isSome) (hup : up s.parent n hash = some pindex) :
    (s.mapBlockIndex.lookup pindex).isSome := by
  induction n generalizing hash with
  | zero => exact Option.some.inj hup ▸ hsome
  | succ n ih =>
    obtain ⟨pprev, hp, hup⟩ := Option.bind_eq_some_iff.mp hup
    obtain ⟨e, he, hprev⟩ := Option.bind_eq_some_iff.mp hp
    obtain ⟨e', he', -⟩ := hs.tree.parent_some he hprev
    exact ih (Option.isSome_iff_exists.mpr ⟨e', he'⟩) hup

/-- The skip pointers give what `getAncestor` reads off the path of an entry. -/
theorem Linked.getAncestor_eq_path (hs : Linked s) {hash : Uint256} {e : IndexEntry}
    (he : s.mapBlockIndex.lookup hash = some e) (height : ℤ) :
    s.getAncestor hash height =
      some ((X2XCoin.getAncestor (s.mapBlockIndex.path hash) height).map CBlockIndex.hash) := by
  have hsome : (s.mapBlockIndex.lookup hash).isSome := Option.isSome_iff_exists.mpr ⟨e, he⟩
  have hheight := nHeight_of_lookup he
  obtain ⟨n, rfl⟩ | hneg := (le_or_gt 0 height).imp_left Int.eq_ofNat_of_zero_le
  · have hfind : X2XCoin.getAncestor (s.mapBlockIndex.path hash) n =
        ((ParentMap.path (s.mapBlockIndex.lookup ·) IndexEntry.pprev (·.nHeight) hash).find?
          fun w => w.nHeight = n).map IndexEntry.toCBlockIndex := by
      rw [X2XCoin.getAncestor, BlockMap.path, List.find?_map]
      simp only [Function.comp_def, Nat.cast_inj]
    rw [hfind, hs.tree.find?_path n he]
    by_cases hle : n ≤ e.nHeight
    · obtain ⟨pindex, hup, -, hanc⟩ := hs.getAncestor_eq hsome (hheight ▸ hle)
      obtain ⟨e', he'⟩ := Option.isSome_iff_exists.mp (hs.isSome_up hsome hup)
      have hup' : up (fun k => (s.mapBlockIndex.lookup k).bind IndexEntry.pprev) (e.nHeight - n)
          hash = some pindex := hheight ▸ hup
      rw [hanc, if_pos hle, hup', Option.bind_some, he', Option.map_some, Option.map_some,
        hs.hash_eq pindex e' he']
    · rw [if_neg hle]
      exact getAncestor_null hsome (.inr (by omega))
  · have hnone : X2XCoin.getAncestor (s.mapBlockIndex.path hash) height = none := by
      rw [X2XCoin.getAncestor, List.find?_eq_none]
      intro i _ hi
      have := of_decide_eq_true hi
      omega
    rw [hnone]
    exact getAncestor_null hsome (.inl hneg)

end SkipList

end X2XCoin
