import Mathlib.Tactic

/-!
# The filter for header spam

`CNodeHeaders` counts how often a peer announces headers of a height, in a map with at most
`maxSize`
heights.  When the map is full a new point first erases the smallest height, also if it is the
height
that is announced.
-/

namespace X2XCoin

namespace HeaderSpam

/-- The limits of the filter. -/
structure Limits where
  maxSize : ℕ
  maxAvg : ℕ

/-- The map from heights to occurrences. -/
structure Points where
  heights : Finset ℕ := ∅
  occurrence : ℕ → ℕ := fun _ => 0

variable (limits : Limits)

/-- The smallest height is erased. -/
def eraseFirst (p : Points) : Points :=
  if h : p.heights.Nonempty then { p with heights := p.heights.erase (p.heights.min' h) } else p

/-- One more occurrence of the height. -/
def record (p : Points) (height : ℕ) : Points where
  heights := insert height p.heights
  occurrence := Function.update p.occurrence height
    ((if height ∈ p.heights then p.occurrence height else 0) + 1)

def addPoint (p : Points) (height : ℕ) : Points :=
  record (if p.heights.card = limits.maxSize then eraseFirst p else p) height

/-- The heights from `nBegin` to `nEnd`, if both are positive. -/
def announced (call : ℤ × ℤ) : List ℕ :=
  if 0 < call.1 ∧ 0 < call.2 then List.range' call.1.toNat (call.2.toNat + 1 - call.1.toNat) else []

def addHeaders (p : Points) (call : ℤ × ℤ) : Points :=
  if limits.maxSize ≠ 0 ∧ limits.maxAvg ≠ 0 then (announced call).foldl (addPoint limits) p else p

/-- The number of the received headers. -/
def nHeaders (p : Points) : ℕ := ∑ h ∈ p.heights, p.occurrence h

/-- The condition of the ban; the average is compared as a fraction, the last product has 64 bits. -/
def banNode (p : Points) : Prop :=
  (3 * limits.maxAvg * p.heights.card ≤ 2 * nHeaders p ∧ limits.maxAvg ≤ p.heights.card) ∨
  (limits.maxAvg * p.heights.card ≤ nHeaders p ∧ limits.maxSize ≤ nHeaders p) ∨
  limits.maxSize * 3 % 2 ^ 64 ≤ nHeaders p

instance (p : Points) : Decidable (banNode limits p) := inferInstanceAs (Decidable (_ ∨ _ ∨ _))

/-- `updateState`: the map and whether the ban is reported. -/
def updateState (p : Points) : Points × Bool :=
  if p.heights.card = 0 then (p, false)
  else if banNode limits p then ({}, true) else (p, false)

/-- A peer and whether a ban was reported for it. -/
structure Peer where
  points : Points := {}
  reported : Bool := false

/-- A message with headers: `addHeaders` and `updateState`. -/
def receive (peer : Peer) (call : ℤ × ℤ) : Peer :=
  let (points, ban) := updateState limits (addHeaders limits peer.points call)
  { points, reported := peer.reported || ban }

/-! ## The count -/

theorem occurrence_record_self (p : Points) (height : ℕ) : (record p height).occurrence height =
    (if height ∈ p.heights then p.occurrence height else 0) + 1 := Function.update_self _ _ _

theorem occurrence_record_of_ne (p : Points) {height h : ℕ} (hne : h ≠ height) :
    (record p height).occurrence h = p.occurrence h := Function.update_of_ne hne _ _

theorem card_record (p : Points) (height : ℕ) :
    (record p height).heights.card = if height ∈ p.heights then p.heights.card else p.heights.card + 1 :=
  Finset.card_insert_eq_ite

theorem nHeaders_record (p : Points) (height : ℕ) : nHeaders (record p height) = nHeaders p + 1 := by
  have hrest : ∀ s : Finset ℕ, height ∉ s →
      ∑ h ∈ s, (record p height).occurrence h = ∑ h ∈ s, p.occurrence h := by
    intro s hs
    refine Finset.sum_congr rfl fun h hh => occurrence_record_of_ne p ?_
    rintro rfl
    exact hs hh
  rw [nHeaders, nHeaders]
  show ∑ h ∈ insert height p.heights, _ = _
  by_cases hmem : height ∈ p.heights
  · rw [Finset.insert_eq_self.mpr hmem, ← Finset.add_sum_erase _ _ hmem,
      ← Finset.add_sum_erase _ p.occurrence hmem, hrest _ (Finset.notMem_erase _ _), occurrence_record_self,
      if_pos hmem]
    omega
  · rw [Finset.sum_insert hmem, hrest _ hmem, occurrence_record_self, if_neg hmem]
    omega

/-- Every height of the map occurred. -/
def Counted (p : Points) : Prop := ∀ h ∈ p.heights, 1 ≤ p.occurrence h

theorem Counted.record {p : Points} (hp : Counted p) (height : ℕ) : Counted (record p height) := by
  intro h hh
  by_cases heq : h = height
  · rw [heq, occurrence_record_self]
    exact Nat.le_add_left 1 _
  · rw [occurrence_record_of_ne p heq]
    exact hp h ((Finset.mem_insert.mp hh).resolve_left heq)

variable {p : Points} {adds : List ℕ} {peer : Peer} {bound : ℕ} {call : ℤ × ℤ}

theorem Counted.card_le (hp : Counted p) : p.heights.card ≤ nHeaders p := by
  rw [Finset.card_eq_sum_ones]
  exact Finset.sum_le_sum hp

theorem Counted.eraseFirst {p : Points} (hp : Counted p) : Counted (eraseFirst p) := by
  rw [HeaderSpam.eraseFirst]
  split_ifs
  · exact fun h hh => hp h (Finset.mem_of_mem_erase hh)
  · exact hp

theorem card_eraseFirst (h : 0 < p.heights.card) :
    (eraseFirst p).heights.card = p.heights.card - 1 := by
  have hne := Finset.card_pos.mp h
  rw [eraseFirst, dif_pos hne, Finset.card_erase_of_mem (Finset.min'_mem _ hne)]

/-! ## Maps that were never full -/

/-- The map counts what was announced. -/
structure Exact (p : Points) (adds : List ℕ) : Prop where
  heights : p.heights = adds.toFinset
  occurrence : ∀ h ∈ adds, p.occurrence h = adds.count h

theorem Exact.nHeaders {p : Points} {adds : List ℕ} (h : Exact p adds) : nHeaders p = adds.length := by
  rw [HeaderSpam.nHeaders, h.heights, ← List.sum_toFinset_count_eq_length]
  exact Finset.sum_congr rfl fun i hi => h.occurrence i (List.mem_toFinset.mp hi)

theorem Exact.counted (h : Exact p adds) : Counted p := by
  intro i hi
  rw [h.heights, List.mem_toFinset] at hi
  rw [h.occurrence i hi]
  exact List.one_le_count_iff.mpr hi

theorem Exact.addPoint {p : Points} {adds : List ℕ} (h : Exact p adds)
    (hcard : p.heights.card ≠ limits.maxSize) (height : ℕ) :
    Exact (addPoint limits p height) (adds ++ [height]) := by
  rw [HeaderSpam.addPoint, if_neg hcard]
  constructor
  · rw [HeaderSpam.record, h.heights, List.toFinset_append]
    ext i
    simp
  · intro i hi
    rw [List.count_append]
    by_cases heq : i = height
    · subst heq
      rw [occurrence_record_self, List.count_singleton_self]
      congr 1
      split_ifs with hmem
      · exact h.occurrence i (List.mem_toFinset.mp (h.heights ▸ hmem))
      · rw [h.heights, List.mem_toFinset] at hmem
        exact (List.count_eq_zero_of_not_mem hmem).symm
    · have hin : i ∈ adds := (List.mem_append.mp hi).resolve_right fun hs =>
        heq (List.mem_singleton.mp hs)
      rw [occurrence_record_of_ne p heq, h.occurrence i hin,
        List.count_eq_zero_of_not_mem (fun hs => heq (List.mem_singleton.mp hs)), Nat.add_zero]

/-- The map was full: it stays so up to one height, and there are enough headers. -/
structure Crowded (p : Points) : Prop where
  counted : Counted p
  le_card : limits.maxSize ≤ p.heights.card + 1
  card_le : p.heights.card ≤ limits.maxSize
  le_nHeaders : limits.maxSize ≤ nHeaders p

variable {limits}

theorem Crowded.addPoint {p : Points} (h : Crowded limits p) (hpos : 0 < limits.maxSize) (height : ℕ) :
    Crowded limits (addPoint limits p height) := by
  rw [HeaderSpam.addPoint]
  split_ifs with hfull
  · have hcard := card_eraseFirst (p := p) (hfull ▸ hpos)
    have hcounted := h.counted.eraseFirst
    have hle := hcounted.card_le
    refine ⟨hcounted.record height, ?_, ?_, ?_⟩
    · rw [card_record]
      split_ifs <;> omega
    · rw [card_record]
      split_ifs <;> omega
    · rw [nHeaders_record]
      omega
  · have hle := h.le_card
    have hge := h.card_le
    refine ⟨h.counted.record height, ?_, ?_, ?_⟩
    · rw [card_record]
      split_ifs <;> omega
    · rw [card_record]
      split_ifs <;> omega
    · rw [nHeaders_record]
      exact h.le_nHeaders.trans (Nat.le_succ _)

theorem Crowded.foldl_addPoint (h : Crowded limits p) (hpos : 0 < limits.maxSize) (hs : List ℕ) :
    Crowded limits (hs.foldl (HeaderSpam.addPoint limits) p) := by
  induction hs generalizing p with
  | nil => exact h
  | cons height hs ih => exact ih (h.addPoint hpos height)

theorem Exact.foldl_addPoint (h : Exact p adds) (hlt : p.heights.card < limits.maxSize)
    (hs : List ℕ) :
    (Exact (hs.foldl (HeaderSpam.addPoint limits) p) (adds ++ hs) ∧
      (hs.foldl (HeaderSpam.addPoint limits) p).heights.card < limits.maxSize) ∨
    Crowded limits (hs.foldl (HeaderSpam.addPoint limits) p) := by
  induction hs generalizing p adds with
  | nil => exact .inl ⟨by rwa [List.append_nil], hlt⟩
  | cons height hs ih =>
    have hexact := h.addPoint limits hlt.ne height
    have hcard : (HeaderSpam.addPoint limits p height).heights.card ≤ p.heights.card + 1 := by
      rw [HeaderSpam.addPoint, if_neg hlt.ne, card_record]
      split_ifs <;> omega
    rw [List.append_cons]
    rcases Nat.lt_or_ge (HeaderSpam.addPoint limits p height).heights.card limits.maxSize with hlt' | hge
    · exact ih hexact hlt'
    · refine .inr (Crowded.foldl_addPoint ⟨hexact.counted, by omega, by omega, ?_⟩ (by omega) hs)
      exact hge.trans hexact.counted.card_le

theorem Exact.foldl_addPoint_of_lt (h : Exact p adds) (hbound : bound < limits.maxSize)
    {hs : List ℕ} (hadds : ∀ i ∈ adds, i ∈ Finset.Icc 1 bound)
    (hhs : ∀ i ∈ hs, i ∈ Finset.Icc 1 bound) :
    Exact (hs.foldl (HeaderSpam.addPoint limits) p) (adds ++ hs) := by
  induction hs generalizing p adds with
  | nil => rwa [List.append_nil]
  | cons height hs ih =>
    rw [List.forall_mem_cons] at hhs
    have hcard : p.heights.card ≤ bound := by
      rw [h.heights]
      calc adds.toFinset.card
          ≤ (Finset.Icc 1 bound).card :=
            Finset.card_le_card fun i hi => hadds i (List.mem_toFinset.mp hi)
        _ = bound := by rw [Nat.card_Icc, Nat.add_sub_cancel]
    rw [List.append_cons]
    refine ih (h.addPoint limits (by omega) height) ?_ hhs.2
    exact List.forall_mem_append.mpr ⟨hadds, List.forall_mem_singleton.mpr hhs.1⟩

/-! ## Messages -/

/-- A ban was reported, or everything announced is counted and is less than the bound. -/
def Tracked (bound : ℕ) (peer : Peer) (adds : List ℕ) : Prop :=
  peer.reported = true ∨ (Exact peer.points adds ∧ adds.length < bound)

theorem exact_nil : Exact {} [] := ⟨rfl, fun _ hh => absurd hh List.not_mem_nil⟩

theorem addHeaders_eq (hsize : 0 < limits.maxSize) (havg : 0 < limits.maxAvg) (p : Points)
    (call : ℤ × ℤ) : addHeaders limits p call = (announced call).foldl (addPoint limits) p :=
  if_pos ⟨hsize.ne', havg.ne'⟩

/-- A message after which enough headers are a reason for the ban is tracked. -/
theorem Tracked.receive {bound : ℕ} {peer : Peer} {adds : List ℕ} (hpos : 0 < bound) {call : ℤ × ℤ}
    (h : Exact (addHeaders limits peer.points call) (adds ++ announced call) ∧
        (bound ≤ nHeaders (addHeaders limits peer.points call) →
          banNode limits (addHeaders limits peer.points call)) ∨
      0 < nHeaders (addHeaders limits peer.points call) ∧
        banNode limits (addHeaders limits peer.points call)) :
    Tracked bound (receive limits peer call) (adds ++ announced call) := by
  set p := addHeaders limits peer.points call with hp
  have hempty : p.heights.card = 0 → nHeaders p = 0 := by
    intro hcard
    rw [nHeaders, Finset.card_eq_zero.mp hcard, Finset.sum_empty]
  rw [HeaderSpam.receive, ← hp, updateState]
  split_ifs with hcard hban
  · rcases h with ⟨hexact, -⟩ | ⟨hne, -⟩
    · exact .inr ⟨hexact, by rw [← hexact.nHeaders, hempty hcard]; exact hpos⟩
    · exact absurd (hempty hcard) hne.ne'
  · exact .inl (Bool.or_true _)
  · rcases h with ⟨hexact, hreason⟩ | ⟨-, hb⟩
    · refine .inr ⟨hexact, ?_⟩
      rw [← hexact.nHeaders]
      exact Nat.lt_of_not_le fun hle => hban (hreason hle)
    · exact absurd hb hban

theorem reported_receive (h : peer.reported = true) (call : ℤ × ℤ) :
    (receive limits peer call).reported = true := by
  rw [HeaderSpam.receive]
  exact Bool.or_eq_true_iff.mpr (.inl h)

/-- The largest height up to which the loop over the heights ends. -/
def maxHeight : ℕ := 2 ^ 31 - 2

theorem announced_mem_Icc (h : call.2 ≤ maxHeight) :
    ∀ i ∈ announced call, i ∈ Finset.Icc 1 maxHeight := by
  intro i hi
  rw [announced] at hi
  split_ifs at hi with hcall
  · rw [List.mem_range'_1] at hi
    rw [Finset.mem_Icc]
    omega
  · exact absurd hi List.not_mem_nil

/-- With an average of one the map is never full unless the ban is reported. -/
theorem Tracked.receive_of_avg_one (hsize : 0 < limits.maxSize) (havg : limits.maxAvg = 1)
    (h : Tracked limits.maxSize peer adds) (call : ℤ × ℤ) :
    Tracked limits.maxSize (HeaderSpam.receive limits peer call) (adds ++ announced call) := by
  rcases h with hreported | ⟨hexact, hlt⟩
  · exact .inl (reported_receive hreported call)
  have hban : ∀ {p : Points}, Counted p → limits.maxSize ≤ nHeaders p → banNode limits p := by
    intro p hcounted hle
    refine .inr (.inl ⟨?_, hle⟩)
    rw [havg, Nat.one_mul]
    exact hcounted.card_le
  have hcard : peer.points.heights.card < limits.maxSize :=
    (hexact.counted.card_le.trans_eq hexact.nHeaders).trans_lt hlt
  apply Tracked.receive hsize
  rw [addHeaders_eq hsize (havg ▸ Nat.one_pos)]
  rcases hexact.foldl_addPoint hcard (announced call) with ⟨hexact, -⟩ | hcrowded
  · exact .inl ⟨hexact, hban hexact.counted⟩
  · exact .inr ⟨hsize.trans_le hcrowded.le_nHeaders, hban hcrowded.counted hcrowded.le_nHeaders⟩

theorem Tracked.receive_of_room (hsize : maxHeight < limits.maxSize) (havg : 0 < limits.maxAvg)
    (h : Tracked (limits.maxSize * 3) peer adds) (hadds : ∀ i ∈ adds, i ∈ Finset.Icc 1 maxHeight)
    (hcall : call.2 ≤ maxHeight) :
    Tracked (limits.maxSize * 3) (HeaderSpam.receive limits peer call) (adds ++ announced call) := by
  rcases h with hreported | ⟨hexact, hlt⟩
  · exact .inl (reported_receive hreported call)
  have hpos : 0 < limits.maxSize := Nat.zero_lt_of_lt hsize
  apply Tracked.receive (by omega)
  rw [addHeaders_eq hpos havg]
  exact .inl ⟨hexact.foldl_addPoint_of_lt hsize hadds (announced_mem_Icc hcall),
    fun hle => .inr (.inr ((Nat.mod_le _ _).trans hle))⟩

/-- What all messages announce. -/
def allAnnounced (calls : List (ℤ × ℤ)) : List ℕ := calls.flatMap announced

/-- Messages from a new peer that announce at most `maxSize` heights three times as often lead to
the ban. -/
def Catches (limits : Limits) : Prop :=
  ∀ calls : List (ℤ × ℤ), (∀ call ∈ calls, call.2 ≤ maxHeight) → ∀ heights : Finset ℕ,
    heights.card ≤ limits.maxSize →
    3 * limits.maxSize ≤ (allAnnounced calls).countP (· ∈ heights) →
    (calls.foldl (receive limits) {}).reported = true

theorem tracked_run
    (hstep : ∀ peer adds call, Tracked bound peer adds →
      (∀ i ∈ adds, i ∈ Finset.Icc 1 maxHeight) → call.2 ≤ (maxHeight : ℤ) →
      Tracked bound (receive limits peer call) (adds ++ announced call))
    {calls : List (ℤ × ℤ)} (hcalls : ∀ call ∈ calls, call.2 ≤ maxHeight)
    (h : Tracked bound peer adds) (hadds : ∀ i ∈ adds, i ∈ Finset.Icc 1 maxHeight) :
    Tracked bound (calls.foldl (receive limits) peer) (adds ++ allAnnounced calls) := by
  induction calls generalizing peer adds with
  | nil => rwa [allAnnounced, List.flatMap_nil, List.append_nil]
  | cons call calls ih =>
    rw [List.forall_mem_cons] at hcalls
    rw [allAnnounced, List.flatMap_cons, ← List.append_assoc]
    exact ih hcalls.2 (hstep peer adds call h hadds hcalls.1)
      (List.forall_mem_append.mpr ⟨hadds, announced_mem_Icc hcalls.1⟩)

/-- The announcements that are tracked are too few unless the ban is reported. -/
theorem catches_of_tracked (hpos : 0 < bound) (hbound : bound ≤ 3 * limits.maxSize)
    (hstep : ∀ peer adds call, Tracked bound peer adds →
      (∀ i ∈ adds, i ∈ Finset.Icc 1 maxHeight) → call.2 ≤ (maxHeight : ℤ) →
      Tracked bound (receive limits peer call) (adds ++ announced call))
    : Catches limits := by
  intro calls hcalls heights _ hcount
  have hinit : Tracked bound {} [] := .inr ⟨exact_nil, hpos⟩
  rcases tracked_run hstep hcalls hinit (fun i hi => absurd hi List.not_mem_nil) with
    hreported | ⟨-, hlt⟩
  · exact hreported
  · rw [List.nil_append] at hlt
    exact absurd (hcount.trans (List.countP_le_length)) (by omega)

/-! ## A full map -/

/-- The map is full and every height occurred once. -/
structure Steady (limits : Limits) (p : Points) : Prop where
  heights : p.heights = Finset.Icc 1 limits.maxSize
  occurrence : ∀ h ∈ p.heights, p.occurrence h = 1

theorem announced_one (n : ℕ) : announced (1, n) = List.range' 1 n := by
  rw [announced]
  split_ifs with h
  · show List.range' 1 (n + 1 - 1) = _
    rw [Nat.add_sub_cancel]
  · have hn : n = 0 := by
      by_contra hne
      exact h ⟨Int.one_pos, Int.natCast_pos.mpr (Nat.pos_of_ne_zero hne)⟩
    rw [hn]
    rfl

theorem exact_addHeaders (hsize : 0 < limits.maxSize) (havg : 0 < limits.maxAvg) :
    Exact (addHeaders limits {} (1, limits.maxSize)) (List.range' 1 limits.maxSize) := by
  have hlist : List.range' 1 limits.maxSize = List.range' 1 (limits.maxSize - 1) ++ [limits.maxSize] := by
    obtain ⟨n, hn⟩ := Nat.exists_eq_add_one_of_ne_zero hsize.ne'
    rw [hn, List.range'_1_concat, Nat.add_sub_cancel, Nat.add_comm]
  have hbelow : ∀ i ∈ List.range' 1 (limits.maxSize - 1), i ∈ Finset.Icc 1 (limits.maxSize - 1) := by
    intro i hi
    rw [List.mem_range'_1] at hi
    rw [Finset.mem_Icc]
    omega
  have hfirst := exact_nil.foldl_addPoint_of_lt (Nat.sub_lt hsize Nat.one_pos)
    (fun i hi => absurd hi List.not_mem_nil) hbelow
  rw [List.nil_append] at hfirst
  rw [addHeaders_eq hsize havg, announced_one, hlist, List.foldl_append]
  refine hfirst.addPoint limits ?_ limits.maxSize
  rw [hfirst.heights, List.toFinset_card_of_nodup List.nodup_range', List.length_range']
  omega

theorem steady_addHeaders (hsize : 0 < limits.maxSize) (havg : 0 < limits.maxAvg) :
    Steady limits (addHeaders limits {} (1, limits.maxSize)) := by
  have hexact := exact_addHeaders hsize havg
  constructor
  · rw [hexact.heights]
    ext i
    rw [List.mem_toFinset, List.mem_range'_1, Finset.mem_Icc]
    omega
  · intro h hh
    rw [hexact.heights, List.mem_toFinset] at hh
    rw [hexact.occurrence h hh]
    exact List.count_eq_one_of_mem List.nodup_range' hh

theorem Steady.card_eq (h : Steady limits p) : p.heights.card = limits.maxSize := by
  rw [h.heights, Nat.card_Icc, Nat.add_sub_cancel]

theorem Steady.addPoint_one (h : Steady limits p) (hsize : 0 < limits.maxSize) :
    Steady limits (addPoint limits p 1) := by
  have hone : 1 ∈ p.heights := by
    rw [h.heights, Finset.mem_Icc]
    omega
  have hmin : p.heights.min' ⟨1, hone⟩ = 1 := by
    refine le_antisymm (Finset.min'_le _ _ hone) ?_
    refine Finset.le_min' _ _ _ fun i hi => ?_
    rw [h.heights, Finset.mem_Icc] at hi
    exact hi.1
  have hcard := h.card_eq
  rw [addPoint, if_pos hcard, eraseFirst, dif_pos ⟨1, hone⟩, hmin]
  constructor
  · show insert 1 (p.heights.erase 1) = _
    rw [Finset.insert_erase hone, h.heights]
  · intro i hi
    by_cases heq : i = 1
    · rw [heq, occurrence_record_self, if_neg (Finset.notMem_erase _ _)]
    · rw [occurrence_record_of_ne _ heq]
      exact h.occurrence i (Finset.mem_of_mem_erase ((Finset.mem_insert.mp hi).resolve_left heq))

theorem Steady.not_banNode (h : Steady limits p) (hsize : 0 < limits.maxSize)
    (hmax : limits.maxSize ≤ maxHeight) (havg : 2 ≤ limits.maxAvg) : ¬ banNode limits p := by
  have hcard := h.card_eq
  have hcount : nHeaders p = limits.maxSize := by
    rw [nHeaders, Finset.sum_congr rfl h.occurrence, ← Finset.card_eq_sum_ones, hcard]
  have hprod : 2 * limits.maxSize ≤ limits.maxAvg * limits.maxSize := Nat.mul_le_mul_right _ havg
  have hmod : limits.maxSize * 3 % 2 ^ 64 = limits.maxSize * 3 := by
    rw [maxHeight] at hmax
    exact Nat.mod_eq_of_lt (by omega)
  rw [banNode, hcard, hcount, Nat.mul_assoc, hmod]
  omega

theorem receive_of_steady (h : Steady limits (addHeaders limits peer.points call))
    (hsize : 0 < limits.maxSize) (hmax : limits.maxSize ≤ maxHeight) (havg : 2 ≤ limits.maxAvg) :
    Steady limits (receive limits peer call).points ∧
      (receive limits peer call).reported = peer.reported := by
  rw [receive, updateState, if_neg (h.card_eq ▸ hsize.ne'), if_neg (h.not_banNode hsize hmax havg)]
  exact ⟨h, Bool.or_false _⟩

theorem reported_replicate (h : Steady limits peer.points) (hsize : 0 < limits.maxSize)
    (hmax : limits.maxSize ≤ maxHeight) (havg : 2 ≤ limits.maxAvg) (n : ℕ) :
    ((List.replicate n (1, 1)).foldl (receive limits) peer).reported = peer.reported := by
  induction n generalizing peer with
  | zero => rfl
  | succ n ih =>
    have hsteady : Steady limits (addHeaders limits peer.points (1, 1)) := by
      rw [addHeaders_eq hsize (by omega)]
      exact h.addPoint_one hsize
    obtain ⟨hpoints, hreported⟩ := receive_of_steady hsteady hsize hmax havg
    rw [List.replicate_succ, List.foldl_cons, ih hpoints, hreported]

/-- All heights of the map are announced once and then the first one again and again. -/
def repeatFirst (n : ℕ) : List (ℤ × ℤ) := (1, (n : ℤ)) :: List.replicate (3 * n) (1, 1)

theorem countP_repeatFirst (n : ℕ) :
    3 * n ≤ (allAnnounced (repeatFirst n)).countP (· ∈ ({1} : Finset ℕ)) := by
  have hflat : (List.replicate (3 * n) ((1 : ℤ), (1 : ℤ))).flatMap announced =
      List.replicate (3 * n) 1 := by
    rw [List.flatMap_replicate]
    show (List.replicate (3 * n) [1]).flatten = _
    rw [List.flatten_replicate_singleton]
  rw [allAnnounced, repeatFirst, List.flatMap_cons, hflat, List.countP_append, List.countP_replicate,
    if_pos (by decide)]
  exact Nat.le_add_left _ _

theorem not_catches (hsize : 0 < limits.maxSize) (hmax : limits.maxSize ≤ maxHeight)
    (havg : 2 ≤ limits.maxAvg) : ¬ Catches limits := by
  intro h
  have hcalls : ∀ call ∈ repeatFirst limits.maxSize, call.2 ≤ (maxHeight : ℤ) := by
    rw [repeatFirst, List.forall_mem_cons]
    refine ⟨Int.ofNat_le.mpr hmax, fun call hcall => ?_⟩
    rw [List.eq_of_mem_replicate hcall]
    decide
  have hreported := h _ hcalls {1} (by rw [Finset.card_singleton]; exact hsize)
    (countP_repeatFirst limits.maxSize)
  have hsteady : Steady limits (addHeaders limits ({} : Peer).points (1, limits.maxSize)) :=
    steady_addHeaders hsize (by omega)
  obtain ⟨hpoints, hfirst⟩ := receive_of_steady hsteady hsize hmax havg
  rw [repeatFirst, List.foldl_cons, reported_replicate hpoints hsize hmax havg, hfirst] at hreported
  exact absurd hreported Bool.false_ne_true

end HeaderSpam

open HeaderSpam

end X2XCoin
