import X2XCoin.Primitives.Block

/-!
# Validation results

`CValidationState` of `consensus/validation.h` and `Check α`, the result of a check: it succeeds with
a value, writes a `CValidationState`, throws, fails an assertion or reads outside a vector.  The debug
message of a rejection is left out.
-/

namespace X2XCoin

/-- "reject" message codes; `none` is the zero that a rejection without a code carries. -/
inductive RejectCode where
  | none | malformed | invalid | obsolete | duplicate | nonstandard | dust | insufficientFee
  | checkpoint
  deriving DecidableEq, Repr

inductive ModeState where
  /-- Everything ok. -/
  | valid
  /-- Network rule violation. -/
  | invalid
  /-- Run-time error. -/
  | error
  deriving DecidableEq, Repr

/-- What a check records about a block or a transaction. -/
structure CValidationState where
  mode : ModeState := .valid
  nDoS : ℕ := 0
  chRejectCode : RejectCode := .none
  strRejectReason : String := ""
  corruptionPossible : Bool := false
  deriving DecidableEq, Repr

namespace CValidationState

/-- `DoS(level, false, code, reason, corruption)`. -/
def doS (st : CValidationState) (level : ℕ) (code : RejectCode) (reason : String)
    (corruptionIn : Bool) : CValidationState :=
  let st := { st with
    chRejectCode := code, strRejectReason := reason, corruptionPossible := corruptionIn }
  if st.mode = .error then st else { st with nDoS := st.nDoS + level, mode := .invalid }

def error (st : CValidationState) (reason : String) : CValidationState :=
  { st with
    strRejectReason := if st.mode = .valid then reason else st.strRejectReason, mode := .error }

def isInvalid (st : CValidationState) : Bool := st.mode = .invalid

end CValidationState

/-- The ways a check does not succeed. -/
inductive Failure where
  /-- The check returns `false` and leaves this state. -/
  | rejected (state : CValidationState)
  /-- An exception escapes. -/
  | thrown (what : String)
  /-- An assertion fails. -/
  | assertion
  /-- A vector is read outside its bounds. -/
  | outOfBounds
  deriving DecidableEq, Repr

/-- The result of a check that computes an `α` when it succeeds. -/
abbrev Check (α : Type) := Except Failure α

instance {α : Type} [DecidableEq α] : DecidableEq (Check α) :=
  inferInstanceAs (DecidableEq (Except Failure α))

/-- A rejection on a fresh state, as `state.DoS(level, …)` writes it. -/
def dos (level : ℕ) (code : RejectCode) (reason : String) (corruptionIn : Bool) : Failure :=
  .rejected (({} : CValidationState).doS level code reason corruptionIn)

/-- `state.Invalid(false, code, reason)` on a fresh state. -/
def invalid (code : RejectCode) (reason : String) : Failure :=
  dos 0 code reason false

/-- Go on when `c` holds, fail with `f` otherwise. -/
def ensure (c : Prop) [Decidable c] (f : Failure) : Check Unit :=
  if c then .ok () else .error f

/-- A test made only when `c` holds. -/
def onlyIf (c : Prop) [Decidable c] (x : Check Unit) : Check Unit :=
  if c then x else .ok ()

/-- The value of a computation that ends in the failure `f` on `none`. -/
def orFail {α : Type} (f : Failure) : Option α → Check α
  | some a => .ok a
  | none => .error f

/-- A check succeeds with a value that satisfies `P`. -/
def okAnd {α : Type} (x : Check α) (P : α → Bool) : Bool :=
  match x with
  | .ok a => P a
  | .error _ => false

theorem okAnd_eq_true {α : Type} {x : Check α} {P : α → Bool} :
    okAnd x P = true ↔ ∃ a, x = .ok a ∧ P a = true := by
  cases x <;> simp [okAnd]

section Inversion

variable {α β : Type} {c : Prop} [Decidable c] {f f' : Failure}

@[simp] theorem ensure_eq_ok {u : Unit} : ensure c f = .ok u ↔ c := by
  unfold ensure
  split_ifs with h <;> simp [h]

theorem ensure_pos (h : c) : ensure c f = .ok () := if_pos h

@[simp] theorem ensure_eq_error : ensure c f = .error f' ↔ ¬ c ∧ f = f' := by
  unfold ensure
  split_ifs with h <;> simp [h]

@[simp] theorem onlyIf_eq_ok {x : Check Unit} {u : Unit} :
    onlyIf c x = .ok u ↔ (c → x = .ok ()) := by
  unfold onlyIf
  split_ifs with h <;> simp [h]

@[simp] theorem check_bind_eq_ok {x : Check α} {k : α → Check β} {b : β} :
    (x >>= k) = .ok b ↔ ∃ a, x = .ok a ∧ k a = .ok b := by
  cases x <;> simp [Bind.bind, Except.bind]

theorem check_ok_bind (a : α) (k : α → Check β) : (Except.ok a >>= k : Check β) = k a := rfl

/-- The first failure of a sequence is that of its first part, or that of the rest. -/
@[simp] theorem check_bind_eq_error {x : Check α} {k : α → Check β} :
    (x >>= k) = .error f ↔ x = .error f ∨ ∃ a, x = .ok a ∧ k a = .error f := by
  cases x <;> simp [Bind.bind, Except.bind]

@[simp] theorem check_pure_eq_ok {a b : α} : (pure a : Check α) = .ok b ↔ a = b := by
  simp [pure, Except.pure]

@[simp] theorem orFail_eq_ok {o : Option α} {a : α} : orFail f o = .ok a ↔ o = some a := by
  cases o <;> simp [orFail]

theorem check_forM_eq_ok {l : List α} {k : α → Check Unit} {u : Unit} :
    l.forM k = .ok u ↔ ∀ a ∈ l, k a = .ok () := by
  induction l with
  | nil => simp [List.forM]
  | cons a l ih =>
    rw [show (a :: l).forM k = k a >>= fun _ => l.forM k from rfl, check_bind_eq_ok,
      List.forall_mem_cons]
    constructor
    · rintro ⟨⟨⟩, ha, hl⟩
      exact ⟨ha, ih.mp hl⟩
    · rintro ⟨ha, hl⟩
      exact ⟨(), ha, ih.mpr hl⟩

/-- A loop that succeeds is followed step by step by another loop, up to a relation. -/
theorem check_foldlM_simulation {ι : Type} {f : α → ι → Check α} {g : β → ι → Check β}
    {R : β → α → Prop} {l : List ι} {a a' : α} {b : β}
    (hstep : ∀ i ∈ l, ∀ a b a', R b a → f a i = .ok a' → ∃ b', g b i = .ok b' ∧ R b' a')
    (hR : R b a) (h : l.foldlM f a = .ok a') : ∃ b', l.foldlM g b = .ok b' ∧ R b' a' := by
  induction l generalizing a b with
  | nil =>
    obtain rfl : a = a' := by simpa using h
    exact ⟨b, rfl, hR⟩
  | cons i l ih =>
    rw [List.foldlM_cons, check_bind_eq_ok] at h
    obtain ⟨a₁, h₁, h₂⟩ := h
    obtain ⟨b₁, hb₁, hR₁⟩ := hstep i List.mem_cons_self a b a₁ hR h₁
    obtain ⟨b', hb', hR'⟩ := ih (fun j hj => hstep j (List.mem_cons_of_mem i hj)) hR₁ h₂
    refine ⟨b', ?_, hR'⟩
    rw [List.foldlM_cons, check_bind_eq_ok]
    exact ⟨b₁, hb₁, hb'⟩

end Inversion

end X2XCoin
