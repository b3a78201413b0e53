import X2XCoin.Lib.FixedWindow
import X2XCoin.Lib.MapFold

/-!
# The limit on requests

`allow` and `maybePrune` of `RequestRateLimiter.java`, called one at a time on a clock that does not
go back.
-/

namespace X2XCoin

namespace Server

namespace RateLimiter

open FixedWindow (Answer answers admittedFrom)

structure Window where
  startMs : Int64
  count : Int32

abbrev Windows := AList fun _ : String => Window

/-! ## The limiter -/

section

variable (windowMs : Int64)

/-- The window started at least that long ago. -/
def Window.isOlder (window : Window) (now ageMs : Int64) : Bool := ageMs ≤ now - window.startMs

/-- The window of a request, new if there is none or the one there is has expired, and whether it
is new. -/
def currentWindow (windows : Windows) (key : String) (now : Int64) : Window × Bool :=
  match windows.lookup key with
  | none => (⟨now, 0⟩, true)
  | some window => if window.isOlder now windowMs then (⟨now, 0⟩, true) else (window, false)

/-- `allow` with a positive limit. -/
def allow (windows : Windows) (key : String) (limit : Int32) (now : Int64) : Windows × Answer :=
  let (window, starts) := currentWindow windowMs windows key now
  if limit ≤ window.count then (windows.insert key window, ⟨now.toInt, starts, false⟩)
  else (windows.insert key { window with count := window.count + 1 }, ⟨now.toInt, starts, true⟩)

def maybePrune (windows : Windows) (now : Int64) : Windows :=
  if windows.entries.length < 8000 then windows
  else windows.entries.foldl (fun kept e =>
    if e.2.isOlder now (windowMs * 2) then kept.erase e.1 else kept) windows

inductive Call where
  | allow (key : String) (limit : Int32)
  | maybePrune

/-- A call at a time, with the answer to a request.  A limit that is not positive allows every
request. -/
def call (windows : Windows) (now : Int64) : Call → Windows × Option (String × Answer)
  | .allow key limit =>
    if limit ≤ 0 then (windows, some (key, ⟨now.toInt, false, true⟩))
    else
      let (windows, answer) := allow windowMs windows key limit now
      (windows, some (key, answer))
  | .maybePrune => (maybePrune windowMs windows now, none)

/-- The answers to the requests among the calls, in order. -/
def serve : Windows → List (Int64 × Call) → List (String × Answer)
  | _, [] => []
  | windows, (now, c) :: calls =>
    (call windowMs windows now c).2.toList ++ serve (call windowMs windows now c).1 calls

end

def answersFor (key : String) (log : List (String × Answer)) : List Answer :=
  (log.filter fun p => p.1 = key).map Prod.snd

def Call.isAllow : Call → Bool
  | .allow _ _ => true
  | .maybePrune => false

/-- The clock is never negative and does not go back. -/
structure Clocked (calls : List (Int64 × Call)) : Prop where
  nonneg : ∀ c ∈ calls, 0 ≤ c.1
  sorted : calls.Pairwise fun a b => a.1 ≤ b.1

/-! ## Windows and time -/

/-- Windows that started at some time of the clock, with counts that are not negative. -/
def Sound (windows : Windows) (last : Int64) : Prop :=
  ∀ key window, windows.lookup key = some window →
    0 ≤ window.startMs ∧ window.startMs ≤ last ∧ 0 ≤ window.count

theorem Window.isOlder_iff {window : Window} {now ageMs : Int64} (hstart : 0 ≤ window.startMs)
    (hnow : window.startMs ≤ now) :
    window.isOlder now ageMs ↔ ageMs.toInt ≤ now.toInt - window.startMs.toInt := by
  have hzero : (0 : Int64).toInt = 0 := rfl
  rw [Int64.le_iff_toInt_le] at hstart hnow
  have hlt := now.toInt_lt
  rw [isOlder, decide_eq_true_iff, Int64.le_iff_toInt_le, Int64.toInt_sub, Int.bmod_eq_of_le]
  · omega
  · omega

/-- What a request finds of no use: no window or one that has expired. -/
def Stale (windowMs : Int64) (windows : Windows) (key : String) (now : Int64) : Prop :=
  ∀ window, windows.lookup key = some window →
    windowMs.toInt ≤ now.toInt - window.startMs.toInt

variable {windowMs : Int64} {windows : Windows} {last now : Int64} {key : String}

theorem Sound.mono (h : Sound windows last) (hnow : last ≤ now) : Sound windows now :=
  fun key window hw =>
    ⟨(h key window hw).1, Int64.le_trans (h key window hw).2.1 hnow, (h key window hw).2.2⟩

theorem Stale.mono (h : Stale windowMs windows key last) (hnow : last ≤ now) :
    Stale windowMs windows key now := by
  intro window hw
  have := h window hw
  rw [Int64.le_iff_toInt_le] at hnow
  omega

theorem currentWindow_of_stale (hs : Sound windows now) (h : Stale windowMs windows key now) :
    currentWindow windowMs windows key now = (⟨now, 0⟩, true) := by
  unfold currentWindow
  cases hw : windows.lookup key with
  | none => rfl
  | some window =>
    obtain ⟨hstart, hle, -⟩ := hs key window hw
    exact if_pos ((Window.isOlder_iff hstart hle).mpr (h window hw))

theorem currentWindow_sound (windowMs : Int64) (key : String) (hs : Sound windows now)
    (hnow : 0 ≤ now) :
    0 ≤ (currentWindow windowMs windows key now).1.startMs ∧
      (currentWindow windowMs windows key now).1.startMs ≤ now ∧
      0 ≤ (currentWindow windowMs windows key now).1.count := by
  unfold currentWindow
  cases hw : windows.lookup key with
  | none => exact ⟨hnow, Int64.le_refl now, Int32.le_refl 0⟩
  | some window =>
    dsimp only
    split_ifs
    · exact ⟨hnow, Int64.le_refl now, Int32.le_refl 0⟩
    · exact hs key window hw

theorem lookup_allow (limit : Int32) (key' : String) :
    (allow windowMs windows key limit now).1.lookup key' =
      if key' = key then
        some (if limit ≤ (currentWindow windowMs windows key now).1.count then
          (currentWindow windowMs windows key now).1
        else { (currentWindow windowMs windows key now).1 with
          count := (currentWindow windowMs windows key now).1.count + 1 })
      else windows.lookup key' := by
  unfold allow
  dsimp only
  by_cases hkey : key' = key
  · rw [if_pos hkey, hkey]
    split_ifs <;> exact AList.lookup_insert _
  · rw [if_neg hkey]
    split_ifs <;> exact AList.lookup_insert_ne hkey

theorem toInt_add_one {count limit : Int32} (h : ¬ limit ≤ count) :
    (count + 1).toInt = count.toInt + 1 := by
  have hone : (1 : Int32).toInt = 1 := rfl
  rw [Int32.le_iff_toInt_le] at h
  have hlow := count.le_toInt
  have hhigh := limit.toInt_lt
  rw [Int32.toInt_add, hone, Int.bmod_eq_of_le] <;> omega

theorem Sound.allow (windowMs : Int64) (hs : Sound windows now) (hnow : 0 ≤ now) (key : String)
    (limit : Int32) :
    Sound (allow windowMs windows key limit now).1 now := by
  intro key' window hw
  rw [lookup_allow] at hw
  split_ifs at hw with hkey hfull
  · obtain rfl := Option.some.inj hw
    exact currentWindow_sound windowMs key hs hnow
  · obtain rfl := Option.some.inj hw
    obtain ⟨hstart, hle, hcount⟩ := currentWindow_sound windowMs key hs hnow
    refine ⟨hstart, hle, ?_⟩
    rw [Int32.le_iff_toInt_le] at hcount ⊢
    rw [toInt_add_one hfull]
    exact hcount.trans (by omega)
  · exact hs key' window hw

/-! ## Pruning -/

theorem lookup_maybePrune (windowMs : Int64) (windows : Windows) (now : Int64) (key : String) :
    (maybePrune windowMs windows now).lookup key = windows.lookup key ∨
      (maybePrune windowMs windows now).lookup key = none ∧
        ∃ window, windows.lookup key = some window ∧ window.isOlder now (windowMs * 2) := by
  unfold maybePrune
  split_ifs
  · exact .inl rfl
  · have hview := (AList.foldl_entries_view (I := fun _ : Windows => True) (P := fun _ _ => True)
      (fun kept key window => if window.isOlder now (windowMs * 2) then kept.erase key else kept)
      (fun kept key => kept.lookup key)
      (fun window kept => if window.isOlder now (windowMs * 2) then none else kept)
      (fun kept key window _ _ => ⟨trivial, fun key' => by
        by_cases hkey : key' = key
        · rw [if_pos hkey, hkey]
          split_ifs <;> simp
        · rw [if_neg hkey]
          split_ifs <;> simp [hkey]⟩) windows (s := windows) trivial fun _ _ _ => trivial).2 key
    rw [hview]
    cases hw : windows.lookup key with
    | none => exact .inl rfl
    | some window =>
      by_cases hold : window.isOlder now (windowMs * 2)
      · exact .inr ⟨if_pos hold, window, rfl, hold⟩
      · exact .inl (if_neg hold)

theorem Sound.maybePrune (hs : Sound windows now) :
    Sound (maybePrune windowMs windows now) now := by
  intro key window hw
  obtain hsame | ⟨hnone, -⟩ := lookup_maybePrune windowMs windows now key
  · exact hs key window (hsame ▸ hw)
  · rw [hnone] at hw
    cases hw

/-- Two limiters between which no request can tell: a window that one of them lacks, or has another
of, has expired. -/
def Agree (windowMs : Int64) (left right : Windows) (now : Int64) : Prop :=
  ∀ key, left.lookup key = right.lookup key ∨
    Stale windowMs left key now ∧ Stale windowMs right key now

variable {calls : List (Int64 × Call)} {left right : Windows} {limit : Int32}

theorem Agree.mono (h : Agree windowMs left right last) (hnow : last ≤ now) :
    Agree windowMs left right now :=
  fun key => (h key).imp_right fun hstale => ⟨hstale.1.mono hnow, hstale.2.mono hnow⟩

theorem Agree.currentWindow_eq (h : Agree windowMs left right now) (hleft : Sound left now)
    (hright : Sound right now) (key : String) :
    currentWindow windowMs left key now = currentWindow windowMs right key now := by
  obtain hsame | ⟨hl, hr⟩ := h key
  · unfold currentWindow
    rw [hsame]
  · rw [currentWindow_of_stale hleft hl, currentWindow_of_stale hright hr]

theorem Agree.allow {left right : Windows} (h : Agree windowMs left right now)
    (hleft : Sound left now) (hright : Sound right now) (key : String) (limit : Int32) :
    (allow windowMs left key limit now).2 = (allow windowMs right key limit now).2 ∧
      Agree windowMs (RateLimiter.allow windowMs left key limit now).1
        (RateLimiter.allow windowMs right key limit now).1 now := by
  have hwindow := h.currentWindow_eq hleft hright key
  constructor
  · unfold RateLimiter.allow
    rw [hwindow]
    dsimp only
    split_ifs <;> rfl
  · intro key'
    by_cases hkey : key' = key
    · left
      rw [lookup_allow, lookup_allow, if_pos hkey, if_pos hkey, hwindow]
    · refine (h key').imp ?_ ?_
      · intro hsame
        rw [lookup_allow, lookup_allow, if_neg hkey, if_neg hkey, hsame]
      · intro hstale
        constructor
        · intro window hw
          rw [lookup_allow, if_neg hkey] at hw
          exact hstale.1 window hw
        · intro window hw
          rw [lookup_allow, if_neg hkey] at hw
          exact hstale.2 window hw

theorem Agree.maybePrune {left right : Windows} (hpos : 1 ≤ windowMs.toInt)
    (hlt : windowMs.toInt < 2 ^ 62) (h : Agree windowMs left right now) (hleft : Sound left now) :
    Agree windowMs (maybePrune windowMs left now) right now := by
  have htwo : (windowMs * 2).toInt = 2 * windowMs.toInt := by
    have hconst : (2 : Int64).toInt = 2 := rfl
    rw [Int64.toInt_mul, hconst, Int.bmod_eq_of_le] <;> omega
  intro key
  obtain hsame | ⟨hnone, window, hw, hold⟩ := lookup_maybePrune windowMs left now key
  · refine (h key).imp (hsame.trans ·) fun hstale => ⟨fun window hw => ?_, hstale.2⟩
    exact hstale.1 window (hsame ▸ hw)
  · have hexpired : windowMs.toInt ≤ now.toInt - window.startMs.toInt := by
      have := (Window.isOlder_iff (hleft key window hw).1 (hleft key window hw).2.1).mp hold
      omega
    refine .inr ⟨fun window hw => ?_, fun window' hw' => ?_⟩
    · rw [hnone] at hw
      cases hw
    · obtain hsame | hstale := h key
      · rw [hw] at hsame
        obtain rfl := Option.some.inj (hsame.trans hw')
        exact hexpired
      · exact hstale.2 window' hw'

theorem serve_filter (hpos : 1 ≤ windowMs.toInt) (hlt : windowMs.toInt < 2 ^ 62)
    (hcalls : Clocked calls) (hlast : ∀ c ∈ calls, last ≤ c.1) (hleft : Sound left last)
    (hright : Sound right last) (h : Agree windowMs left right last) :
    serve windowMs left calls = serve windowMs right (calls.filter fun c => c.2.isAllow) := by
  induction calls generalizing left right last with
  | nil => rfl
  | cons c calls ih =>
    obtain ⟨now, c⟩ := c
    have hnow : last ≤ now := hlast (now, c) List.mem_cons_self
    have hzero : 0 ≤ now := hcalls.nonneg (now, c) List.mem_cons_self
    replace hleft := hleft.mono hnow
    replace hright := hright.mono hnow
    replace h := h.mono hnow
    obtain ⟨hlater, hsorted⟩ := List.pairwise_cons.mp hcalls.sorted
    have hrest : Clocked calls := ⟨fun c hc => hcalls.nonneg c (List.mem_cons_of_mem _ hc), hsorted⟩
    cases c with
    | allow key limit =>
      rw [List.filter_cons_of_pos rfl, serve, serve]
      simp only [call]
      split_ifs
      · rw [ih hrest hlater hleft hright h]
      · obtain ⟨hanswer, hagree⟩ := h.allow hleft hright key limit
        rw [ih hrest hlater (hleft.allow windowMs hzero key limit)
          (hright.allow windowMs hzero key limit) hagree, hanswer]
    | maybePrune =>
      rw [List.filter_cons_of_neg (by simp [Call.isAllow]), serve]
      exact ih hrest hlater hleft.maybePrune hright (h.maybePrune hpos hlt hleft)

/-! ## The windows of one key -/

/-- The times at which a key asks. -/
def requestTimes (key : String) : List (Int64 × Call) → List ℤ
  | [] => []
  | (now, .allow key' _) :: calls =>
    if key' = key then now.toInt :: requestTimes key calls else requestTimes key calls
  | (_, .maybePrune) :: calls => requestTimes key calls

/-- The window of a key as numbers. -/
def Window.cell (window : Window) : FixedWindow.Window :=
  ⟨window.startMs.toInt, window.count.toInt.toNat⟩

theorem currentWindow_eq_opened (windowMs : Int64) (hs : Sound windows now) (key : String) :
    (currentWindow windowMs windows key now).1.cell =
        FixedWindow.opened windowMs.toInt ((windows.lookup key).map Window.cell) now.toInt ∧
      (currentWindow windowMs windows key now).2 =
        FixedWindow.fresh windowMs.toInt ((windows.lookup key).map Window.cell) now.toInt := by
  unfold currentWindow FixedWindow.opened
  cases hw : windows.lookup key with
  | none => exact ⟨rfl, rfl⟩
  | some window =>
    have hold : window.isOlder now windowMs ↔ windowMs.toInt ≤ now.toInt - window.startMs.toInt :=
      Window.isOlder_iff (hs key window hw).1 (hs key window hw).2.1
    have hfresh : FixedWindow.fresh windowMs.toInt (some window.cell) now.toInt =
        window.isOlder now windowMs := by
      rw [Bool.eq_iff_iff, hold]
      exact decide_eq_true_iff
    simp only [Option.map_some, hfresh]
    cases window.isOlder now windowMs <;> exact ⟨rfl, rfl⟩

theorem allow_eq_request (windowMs : Int64) (hs : Sound windows now) (hnow : 0 ≤ now) (key : String)
    {L : ℕ} (hL : limit.toInt = L) :
    (allow windowMs windows key limit now).2 =
        (FixedWindow.request windowMs.toInt L ((windows.lookup key).map Window.cell) now.toInt).2 ∧
      ((allow windowMs windows key limit now).1.lookup key).map Window.cell = some
        (FixedWindow.request windowMs.toInt L ((windows.lookup key).map Window.cell)
          now.toInt).1 := by
  obtain ⟨hopened, hfresh⟩ := currentWindow_eq_opened windowMs hs key
  obtain ⟨-, -, hcount⟩ := currentWindow_sound windowMs key hs hnow
  have hzero : (0 : Int32).toInt = 0 := rfl
  rw [lookup_allow, if_pos rfl]
  unfold allow FixedWindow.request
  dsimp only
  rw [← hopened, ← hfresh]
  generalize hw : (currentWindow windowMs windows key now).1 = window at hcount ⊢
  rw [Int32.le_iff_toInt_le] at hcount
  by_cases hfull : limit ≤ window.count
  · have hroom : ¬ window.cell.count < L := by
      rw [Int32.le_iff_toInt_le] at hfull
      simp only [Window.cell]
      omega
    rw [if_pos hfull, if_pos hfull, if_neg hroom]
    exact ⟨rfl, rfl⟩
  · have hroom : window.cell.count < L := by
      rw [Int32.le_iff_toInt_le] at hfull
      simp only [Window.cell]
      omega
    have hsucc : (window.count + 1).toInt.toNat = window.count.toInt.toNat + 1 := by
      rw [toInt_add_one hfull]
      omega
    rw [if_neg hfull, if_neg hfull, if_pos hroom]
    exact ⟨rfl, congrArg some (by simp only [Window.cell, hsucc])⟩

/-- Without pruning the answers for a key are those of its window. -/
theorem answersFor_serve {L : ℕ} (hpos : 0 < L) (hL : limit.toInt = L) (hcalls : Clocked calls)
    (hallow : ∀ c ∈ calls, c.2.isAllow)
    (hlimit : ∀ c ∈ calls, ∀ limit', c.2 = .allow key limit' → limit' = limit)
    (hlast : ∀ c ∈ calls, last ≤ c.1) (hs : Sound windows last) :
    answersFor key (serve windowMs windows calls) =
      answers windowMs.toInt L ((windows.lookup key).map Window.cell) (requestTimes key calls) := by
  induction calls generalizing windows last with
  | nil => rfl
  | cons c calls ih =>
    obtain ⟨now, c⟩ := c
    have hzero : 0 ≤ now := hcalls.nonneg (now, c) List.mem_cons_self
    replace hs := hs.mono (hlast (now, c) List.mem_cons_self)
    obtain ⟨hlater, hsorted⟩ := List.pairwise_cons.mp hcalls.sorted
    have hrest : Clocked calls := ⟨fun c hc => hcalls.nonneg c (List.mem_cons_of_mem _ hc), hsorted⟩
    rw [List.forall_mem_cons] at hallow hlimit
    cases c with
    | maybePrune => cases hallow.1
    | allow key' limit' =>
      by_cases hkey : key' = key
      · subst hkey
        obtain rfl := hlimit.1 limit' rfl
        have hsome : ¬ limit' ≤ 0 := by
          have hzero : (0 : Int32).toInt = 0 := rfl
          rw [Int32.le_iff_toInt_le]
          omega
        obtain ⟨hanswer, hcell⟩ := allow_eq_request windowMs hs hzero key' hL
        have htail := ih hrest hallow.2 hlimit.2 hlater (hs.allow windowMs hzero key' limit')
        rw [hcell] at htail
        rw [requestTimes, if_pos rfl, answers, ← htail, ← hanswer, serve]
        simp [call, hsome, answersFor]
      · have hother : (call windowMs windows now (.allow key' limit')).1.lookup key =
            windows.lookup key := by
          simp only [call]
          split_ifs
          · rfl
          · rw [lookup_allow, if_neg (Ne.symm hkey)]
        have hsound : Sound (call windowMs windows now (.allow key' limit')).1 now := by
          simp only [call]
          split_ifs
          · exact hs
          · exact hs.allow windowMs hzero key' limit'
        have htail := ih hrest hallow.2 hlimit.2 hlater hsound
        rw [hother] at htail
        rw [requestTimes, if_neg hkey, ← htail, serve]
        simp only [call]
        split_ifs <;> simp [answersFor, hkey]

theorem requestTimes_filter (key : String) (calls : List (Int64 × Call)) :
    requestTimes key (calls.filter fun c => c.2.isAllow) = requestTimes key calls := by
  induction calls with
  | nil => rfl
  | cons c calls ih =>
    obtain ⟨now, c⟩ := c
    cases c with
    | allow key' limit =>
      rw [List.filter_cons_of_pos rfl, requestTimes, requestTimes, ih]
    | maybePrune =>
      rw [List.filter_cons_of_neg (by simp [Call.isAllow]), requestTimes, ih]

theorem exists_of_mem_requestTimes {time : ℤ} (h : time ∈ requestTimes key calls) :
    ∃ c ∈ calls, c.1.toInt = time := by
  induction calls with
  | nil => cases h
  | cons c calls ih =>
    obtain ⟨now, c⟩ := c
    cases c with
    | allow key' limit =>
      rw [requestTimes] at h
      split_ifs at h
      · obtain rfl | h := List.mem_cons.mp h
        · exact ⟨_, List.mem_cons_self, rfl⟩
        · exact (ih h).imp fun _ hc => ⟨List.mem_cons_of_mem _ hc.1, hc.2⟩
      · exact (ih h).imp fun _ hc => ⟨List.mem_cons_of_mem _ hc.1, hc.2⟩
    | maybePrune => exact (ih h).imp fun _ hc => ⟨List.mem_cons_of_mem _ hc.1, hc.2⟩

theorem requestTimes_sorted (key : String) (hsorted : calls.Pairwise fun a b => a.1 ≤ b.1) :
    (requestTimes key calls).Pairwise (· ≤ ·) := by
  induction calls with
  | nil => exact List.Pairwise.nil
  | cons c calls ih =>
    rw [List.pairwise_cons] at hsorted
    obtain ⟨now, c⟩ := c
    have hlater : ∀ time ∈ requestTimes key calls, now.toInt ≤ time := by
      intro time htime
      obtain ⟨c, hc, rfl⟩ := exists_of_mem_requestTimes htime
      exact Int64.le_iff_toInt_le.mp (hsorted.1 c hc)
    cases c with
    | allow key' limit =>
      rw [requestTimes]
      split_ifs
      · exact List.pairwise_cons.mpr ⟨hlater, ih hsorted.2⟩
      · exact ih hsorted.2
    | maybePrune => exact ih hsorted.2

/-! ## The limit -/

theorem sound_empty (last : Int64) : Sound ∅ last := by
  intro key window hw
  cases hw

theorem serve_empty_filter (hpos : 1 ≤ windowMs.toInt) (hlt : windowMs.toInt < 2 ^ 62)
    (hcalls : Clocked calls) :
    serve windowMs ∅ calls = serve windowMs ∅ (calls.filter fun c => c.2.isAllow) :=
  serve_filter hpos hlt hcalls hcalls.nonneg (sound_empty 0) (sound_empty 0) fun _ => .inl rfl

theorem answersFor_serve_empty (hpos : 1 ≤ windowMs.toInt) (hlt : windowMs.toInt < 2 ^ 62)
    (hlimit : 0 < limit.toInt) (hcalls : Clocked calls)
    (hfixed : ∀ c ∈ calls, ∀ limit', c.2 = .allow key limit' → limit' = limit) :
    answersFor key (serve windowMs ∅ calls) =
      answers windowMs.toInt limit.toInt.toNat none (requestTimes key calls) := by
  have hkept : Clocked (calls.filter fun c => c.2.isAllow) :=
    ⟨fun c hc => hcalls.nonneg c (List.mem_of_mem_filter hc), hcalls.sorted.filter _⟩
  rw [serve_empty_filter hpos hlt hcalls, ← requestTimes_filter]
  exact answersFor_serve (by omega) (by omega) hkept (fun c hc => (List.mem_filter.mp hc).2)
    (fun c hc => hfixed c (List.mem_of_mem_filter hc)) hkept.nonneg (sound_empty 0)

/-- A key with a fixed limit is admitted at most twice the limit in any interval of the window's
length and at most the limit from one start of its window to the next, and two sequences of calls
that differ in pruning only have the same answers. -/
theorem serve_bounded (windowMs : Int64) (hpos : 1 ≤ windowMs.toInt) (hlt : windowMs.toInt < 2 ^ 62)
    (key : String) (limit : Int32) (hlimit : 0 < limit.toInt) (calls : List (Int64 × Call))
    (hcalls : Clocked calls)
    (hfixed : ∀ c ∈ calls, ∀ limit', c.2 = .allow key limit' → limit' = limit) :
    (∀ a : ℤ, (answersFor key (serve windowMs ∅ calls)).countP (admittedFrom windowMs.toInt a) ≤
      2 * limit.toInt.toNat) ∧
    (∀ before x middle after,
      answersFor key (serve windowMs ∅ calls) = before ++ x :: (middle ++ after) →
        x.starts = true → (∀ y ∈ middle, y.starts = false) →
        (x :: middle).countP Answer.allowed ≤ limit.toInt.toNat) ∧
    ∀ others, Clocked others →
      (others.filter fun c => c.2.isAllow) = (calls.filter fun c => c.2.isAllow) →
      serve windowMs ∅ others = serve windowMs ∅ calls := by
  have hL : 0 < limit.toInt.toNat := by omega
  rw [answersFor_serve_empty hpos hlt hlimit hcalls hfixed]
  refine ⟨fun a => ?_, ?_, ?_⟩
  · exact FixedWindow.countP_admittedFrom_le hL a _ (requestTimes_sorted key hcalls.sorted)
  · intro before x middle after heq hx hmiddle
    exact FixedWindow.countP_window_le hL none _ heq hx hmiddle
  · intro others hothers hsame
    rw [serve_empty_filter hpos hlt hothers, serve_empty_filter hpos hlt hcalls, hsame]

/-- Two requests before a window ends and two after it, with a prune in between. -/
theorem serve_bounded_twoWindows :
    (answersFor "ip" (serve 10 ∅ [(0, .allow "ip" 2), (9, .allow "ip" 2), (9, .maybePrune),
        (10, .allow "ip" 2), (11, .allow "ip" 2), (12, .allow "ip" 2)])).countP
      (admittedFrom 10 5) ≤ 4 :=
  (serve_bounded 10 (by decide) (by decide) "ip" 2 (by decide)
    [(0, .allow "ip" 2), (9, .allow "ip" 2), (9, .maybePrune), (10, .allow "ip" 2),
      (11, .allow "ip" 2), (12, .allow "ip" 2)]
    ⟨by decide, by decide⟩ (by simp +contextual)).1 5

/-- What others ask and when windows are pruned makes no difference to a key. -/
theorem answersFor_isolated {others : List (Int64 × Call)} (hpos : 1 ≤ windowMs.toInt)
    (hlt : windowMs.toInt < 2 ^ 62) (hlimit : 0 < limit.toInt) (hcalls : Clocked calls)
    (hothers : Clocked others)
    (hfixed : ∀ c ∈ calls ++ others, ∀ limit', c.2 = .allow key limit' → limit' = limit)
    (hsame : requestTimes key calls = requestTimes key others) :
    answersFor key (serve windowMs ∅ calls) = answersFor key (serve windowMs ∅ others) := by
  rw [List.forall_mem_append] at hfixed
  rw [answersFor_serve_empty hpos hlt hlimit hcalls hfixed.1, hsame,
    answersFor_serve_empty hpos hlt hlimit hothers hfixed.2]

theorem answersFor_isolated_two :
    answersFor "a" (serve 10 ∅ [(0, .allow "b" 1), (2, .allow "a" 1)]) =
      answersFor "a" (serve 10 ∅ [(1, .maybePrune), (2, .allow "a" 1)]) :=
  answersFor_isolated (by decide) (by decide) (show 0 < (1 : Int32).toInt by decide)
    ⟨by decide, by decide⟩ ⟨by decide, by decide⟩ (by simp +contextual) (by decide)

end RateLimiter

end Server

end X2XCoin
