import Mathlib.Tactic

/-!
# Fixed windows

A counter that admits at most `L` requests in a window.  A window starts at the first request that
finds none, or finds one that started `W` or more before.
-/

namespace FixedWindow

structure Window where
  start : ℤ
  count : ℕ

/-- The answer to a request, with whether the request started a window. -/
structure Answer where
  now : ℤ
  starts : Bool
  allowed : Bool
  deriving DecidableEq

section

variable (W : ℤ) (L : ℕ)

/-- There is no window for a request at the time. -/
def fresh (cell : Option Window) (now : ℤ) : Bool := cell.all fun w => W ≤ now - w.start

/-- The window that a request falls into. -/
def opened (cell : Option Window) (now : ℤ) : Window :=
  if fresh W cell now then ⟨now, 0⟩ else cell.getD ⟨now, 0⟩

/-- The window after a request and the answer. -/
def request (cell : Option Window) (now : ℤ) : Window × Answer :=
  let w := opened W cell now
  if w.count < L then ({ w with count := w.count + 1 }, ⟨now, fresh W cell now, true⟩)
  else (w, ⟨now, fresh W cell now, false⟩)

/-- The answers to requests at the given times. -/
def answers : Option Window → List ℤ → List Answer
  | _, [] => []
  | cell, now :: times =>
    (request W L cell now).2 :: answers (some (request W L cell now).1) times

/-- The request was admitted in the interval of length `W` from `a` on. -/
def admittedFrom (a : ℤ) (x : Answer) : Bool := x.allowed ∧ a ≤ x.now ∧ x.now < a + W

end

variable {W : ℤ} {L : ℕ}

/-- Everything that a request can do: it starts a window or falls into the one there is, which has
room for it or not. -/
theorem request_cases (hL : 0 < L) (w : Window) (now : ℤ) :
    (W ≤ now - w.start ∧ request W L (some w) now = (⟨now, 1⟩, ⟨now, true, true⟩)) ∨
    (now - w.start < W ∧ w.count < L ∧
      request W L (some w) now = (⟨w.start, w.count + 1⟩, ⟨now, false, true⟩)) ∨
    (now - w.start < W ∧ L ≤ w.count ∧ request W L (some w) now = (w, ⟨now, false, false⟩)) := by
  by_cases hfresh : W ≤ now - w.start
  · refine .inl ⟨hfresh, ?_⟩
    simp [request, opened, fresh, hfresh, hL]
  · by_cases hroom : w.count < L
    · refine .inr (.inl ⟨not_le.mp hfresh, hroom, ?_⟩)
      simp [request, opened, fresh, hfresh, hroom]
    · refine .inr (.inr ⟨not_le.mp hfresh, not_lt.mp hroom, ?_⟩)
      simp [request, opened, fresh, hfresh, hroom]

theorem request_none (hL : 0 < L) (now : ℤ) :
    request W L none now = (⟨now, 1⟩, ⟨now, true, true⟩) := by
  simp [request, opened, fresh, hL]

/-! ## Intervals -/

/-- Where a run stands that has admitted `c` requests of the interval: those of the window that is
open, and at most `L` of the one before if the open window started in the interval. -/
structure Standing (W : ℤ) (L : ℕ) (a : ℤ) (w : Window) (last : ℤ) (c : ℕ) : Prop where
  count_le : w.count ≤ L
  start_le : w.start ≤ last
  before : last < a → c = 0
  earlier : w.start < a → c ≤ w.count
  within : a ≤ w.start → w.start < a + W → c ≤ L + w.count
  total : c ≤ 2 * L

theorem Standing.request (hL : 0 < L) {a : ℤ} {w : Window} {last now : ℤ} {c : ℕ}
    (h : Standing W L a w last c) (hnow : last ≤ now) :
    Standing W L a (request W L (some w) now).1 now
      (c + if admittedFrom W a (request W L (some w) now).2 then 1 else 0) := by
  obtain ⟨hcount, hstart, hbefore, hearlier, hwithin, htotal⟩ := h
  obtain ⟨hfresh, heq⟩ | ⟨hopen, hroom, heq⟩ | ⟨hopen, hfull, heq⟩ := request_cases hL w now
  · rw [heq]
    simp only [admittedFrom, true_and, decide_eq_true_eq]
    constructor <;> grind
  · rw [heq]
    simp only [admittedFrom, true_and, decide_eq_true_eq]
    constructor <;> grind
  · rw [heq]
    simp only [admittedFrom, Bool.false_eq_true, false_and, decide_false, if_false]
    constructor <;> grind

theorem Standing.countP_le (hL : 0 < L) {a : ℤ} {w : Window} {last : ℤ} {c : ℕ}
    (h : Standing W L a w last c) (times : List ℤ) (hlast : ∀ now ∈ times, last ≤ now)
    (hsorted : times.Pairwise (· ≤ ·)) :
    c + (answers W L (some w) times).countP (admittedFrom W a) ≤ 2 * L := by
  induction times generalizing w last c with
  | nil => exact h.total
  | cons now times ih =>
    rw [List.pairwise_cons] at hsorted
    have hstep := ih (h.request hL (hlast now List.mem_cons_self)) hsorted.1 hsorted.2
    rw [answers, List.countP_cons]
    omega

theorem countP_admittedFrom_le (hL : 0 < L) (a : ℤ) (times : List ℤ)
    (hsorted : times.Pairwise (· ≤ ·)) :
    (answers W L none times).countP (admittedFrom W a) ≤ 2 * L := by
  cases times with
  | nil => exact Nat.zero_le _
  | cons now times =>
    rw [List.pairwise_cons] at hsorted
    have hstanding : Standing W L a ⟨now, 1⟩ now
        (if admittedFrom W a ⟨now, true, true⟩ then 1 else 0) := by
      simp only [admittedFrom, true_and, decide_eq_true_eq]
      constructor <;> grind
    rw [answers, request_none hL, List.countP_cons, add_comm]
    exact hstanding.countP_le hL times hsorted.1 hsorted.2

/-! ## Windows -/

/-- Requests that start no window are admitted while there is room in the one that is open. -/
theorem countP_allowed_le (hL : 0 < L) {w : Window} (hcount : w.count ≤ L) (times : List ℤ)
    {middle after : List Answer} (heq : answers W L (some w) times = middle ++ after)
    (hmiddle : ∀ x ∈ middle, x.starts = false) :
    w.count + middle.countP Answer.allowed ≤ L := by
  induction middle generalizing w times with
  | nil => exact hcount
  | cons x middle ih =>
    cases times with
    | nil => cases heq
    | cons now times =>
      rw [List.forall_mem_cons] at hmiddle
      rw [answers, List.cons_append, List.cons.injEq] at heq
      obtain ⟨hx, hrest⟩ := heq
      obtain ⟨-, hcase⟩ | ⟨-, hroom, hcase⟩ | ⟨-, -, hcase⟩ := request_cases (W := W) hL w now <;>
        rw [hcase] at hx hrest <;> subst hx
      · cases hmiddle.1
      · have hmore : w.count + 1 + middle.countP Answer.allowed ≤ L :=
          ih (w := ⟨w.start, w.count + 1⟩) hroom times hrest hmiddle.2
        rw [List.countP_cons_of_pos rfl]
        omega
      · rw [List.countP_cons_of_neg (by simp)]
        exact ih hcount times hrest hmiddle.2

/-- From one start of a window to the next at most `L` requests are admitted. -/
theorem countP_window_le (hL : 0 < L) (cell : Option Window) (times : List ℤ)
    {before middle after : List Answer} {x : Answer}
    (heq : answers W L cell times = before ++ x :: (middle ++ after)) (hx : x.starts = true)
    (hmiddle : ∀ y ∈ middle, y.starts = false) :
    (x :: middle).countP Answer.allowed ≤ L := by
  induction before generalizing cell times with
  | nil =>
    cases times with
    | nil => cases heq
    | cons now times =>
      rw [answers, List.nil_append, List.cons.injEq] at heq
      obtain ⟨rfl, hrest⟩ := heq
      have hrequest : request W L cell now = (⟨now, 1⟩, ⟨now, true, true⟩) := by
        cases cell with
        | none => exact request_none hL now
        | some w =>
          obtain ⟨-, hcase⟩ | ⟨-, -, hcase⟩ | ⟨-, -, hcase⟩ := request_cases (W := W) hL w now
          · exact hcase
          · rw [hcase] at hx
            cases hx
          · rw [hcase] at hx
            cases hx
      rw [hrequest] at hrest ⊢
      have hmore : 1 + middle.countP Answer.allowed ≤ L :=
        countP_allowed_le (w := ⟨now, 1⟩) hL hL times hrest hmiddle
      rw [List.countP_cons_of_pos rfl]
      omega
  | cons y before ih =>
    cases times with
    | nil => cases heq
    | cons now times =>
      rw [answers, List.cons_append, List.cons.injEq] at heq
      exact ih _ times heq.2

end FixedWindow
