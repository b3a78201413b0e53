import X2XCoin.Lib.Bytes

/-!
# Readers

A reader takes a value off the front of a byte string, or fails.
-/

namespace ByteCodec

/-- Readers of values of type `α`. -/
abbrev Reader (α : Type) := StateT Bytes Option α

variable {α β : Type}

def Reads (r : Reader α) (bs : Bytes) (x : α) : Prop := ∀ rest, r.run (bs ++ rest) = some (x, rest)

namespace Reads

theorem pure (x : α) : Reads (Pure.pure x) [] x := fun _ => rfl

variable {r : Reader α}

theorem bind {f : α → Reader β} {bs cs : Bytes} {x : α} {y : β} (hr : Reads r bs x)
    (hf : Reads (f x) cs y) : Reads (r >>= f) (bs ++ cs) y := by
  intro rest
  rw [List.append_assoc, StateT.run_bind, hr]
  exact hf rest

theorem bind_pure {f : α → β} {bs : Bytes} {x : α} (hr : Reads r bs x) :
    Reads (r >>= fun x => Pure.pure (f x)) bs (f x) := by
  intro rest
  rw [StateT.run_bind, hr]
  rfl

theorem check {P : α → Prop} [DecidablePred P] {bs : Bytes} {x : α} (hr : Reads r bs x)
    (hx : ¬ P x) :
    Reads (r >>= fun x => if P x then failure else Pure.pure x) bs x := by
  intro rest
  rw [StateT.run_bind, hr]
  simp only [Option.bind_eq_bind, Option.bind_some, if_neg hx]
  rfl

end Reads

theorem Reads.run_eq {r : Reader α} {bs : Bytes} {x : α} (h : Reads r bs x) :
    r.run bs = some (x, []) := by
  simpa using h []

theorem run_bind_eq_some {r : Reader α} {f : α → Reader β} {bs rest : Bytes} {y : β}
    (h : (r >>= f).run bs = some (y, rest)) :
    ∃ x bs', r.run bs = some (x, bs') ∧ (f x).run bs' = some (y, rest) := by
  rw [StateT.run_bind] at h
  obtain ⟨⟨x, bs'⟩, hx, hy⟩ := Option.bind_eq_some_iff.mp h
  exact ⟨x, bs', hx, hy⟩

/-! ## Fixed sizes -/

/-- The next `k` bytes. -/
def readFlat (k : ℕ) : Reader Bytes := fun bs =>
  if k ≤ bs.length then some (bs.take k, bs.drop k) else none

/-- The next `k` bytes as a little-endian number. -/
def readLE (k : ℕ) : Reader ℕ := do
  let bs ← readFlat k
  pure (leNat bs)

theorem reads_readFlat (bs : Bytes) : Reads (readFlat bs.length) bs bs := by
  intro rest
  simp [readFlat, StateT.run]

theorem reads_readLE {k n : ℕ} (h : n < 256 ^ k) : Reads (readLE k) (leBytes k n) n := by
  have hflat : Reads (readFlat k) (leBytes k n) (leBytes k n) := by
    simpa using reads_readFlat (leBytes k n)
  have := hflat.bind_pure (f := leNat)
  rwa [leNat_leBytes_of_lt h] at this

/-! ## Repetition -/

/-- The next `k` values. -/
def readMany (r : Reader α) : ℕ → Reader (List α)
  | 0 => pure []
  | k + 1 => do
    let x ← r
    let xs ← readMany r k
    pure (x :: xs)

theorem reads_readMany {β : Type} {r : Reader β} {write : α → Bytes} {f : α → β} {xs : List α}
    (h : ∀ x ∈ xs, Reads r (write x) (f x)) :
    Reads (readMany r xs.length) (xs.flatMap write) (xs.map f) := by
  induction xs with
  | nil => exact Reads.pure []
  | cons x xs ih =>
    rw [List.flatMap_cons]
    apply (h x List.mem_cons_self).bind
    exact (ih fun y hy => h y (List.mem_cons_of_mem x hy)).bind_pure

end ByteCodec
