import Mathlib.Tactic

/-!
# Linear shift registers

A register of `w` bits that is fed one word after another: `c` becomes `f c ^^^ d`, where `f` is
linear for the exclusive or.  Two runs differ by the run of the differences from zero.
-/

namespace ShiftRegister

variable {w : ℕ} (f : BitVec w → BitVec w)

/-- Feed words into the register. -/
def run (c : BitVec w) (ds : List (BitVec w)) : BitVec w := ds.foldl (fun c d => f c ^^^ d) c

theorem run_append (c : BitVec w) (as bs : List (BitVec w)) :
    run f c (as ++ bs) = run f (run f c as) bs := List.foldl_append

theorem run_cons (c d : BitVec w) (ds : List (BitVec w)) :
    run f c (d :: ds) = run f (f c ^^^ d) ds := rfl

variable {f}

theorem run_zeros (c : BitVec w) (n : ℕ) : run f c (List.replicate n 0#w) = f^[n] c := by
  induction n generalizing c with
  | zero => rfl
  | succ n ih => rw [List.replicate_succ, run_cons, BitVec.xor_zero, ih, Function.iterate_succ_apply]

section

variable (hf : ∀ a b, f (a ^^^ b) = f a ^^^ f b)
include hf

/-- The difference of two runs is the run of the differences. -/
theorem run_xor (a b : BitVec w) {as bs : List (BitVec w)} (hlen : as.length = bs.length) :
    run f a as ^^^ run f b bs = run f (a ^^^ b) (List.zipWith (· ^^^ ·) as bs) := by
  induction as generalizing a b bs with
  | nil =>
    obtain rfl := List.length_eq_zero_iff.mp hlen.symm
    rfl
  | cons d as ih =>
    cases bs with
    | nil => cases hlen
    | cons e bs =>
      have hxor : f a ^^^ d ^^^ (f b ^^^ e) = f (a ^^^ b) ^^^ (d ^^^ e) := by
        rw [hf]
        ac_rfl
      rw [run_cons, run_cons, ih _ _ (Nat.succ.inj hlen), hxor]
      rfl

/-- Words that are fed at the end are added to the run with zeros in their place. -/
theorem run_append_eq (c : BitVec w) (as bs : List (BitVec w)) :
    run f c (as ++ bs) = run f c (as ++ List.replicate bs.length 0#w) ^^^ run f 0#w bs := by
  have hzip : List.zipWith (· ^^^ ·) (List.replicate bs.length 0#w) bs = bs := by
    induction bs with
    | nil => rfl
    | cons b bs ih =>
      rw [List.length_cons, List.replicate_succ, List.zipWith_cons_cons, ih, BitVec.zero_xor]
  rw [run_append, run_append, run_xor hf _ _ (by rw [List.length_replicate]), BitVec.xor_zero, hzip]

/-- Words inside a window that lead away from zero lead to another state in the end. -/
theorem run_window_ne {S : Set (BitVec w)} (hS : Set.MapsTo f S S) (hker : ∀ c ∈ S, f c = 0#w → c = 0#w)
    (c : BitVec w) (front back : List (BitVec w)) {as bs : List (BitVec w)}
    (hlen : as.length = bs.length) (hmem : run f 0#w (List.zipWith (· ^^^ ·) as bs) ∈ S)
    (hne : run f 0#w (List.zipWith (· ^^^ ·) as bs) ≠ 0#w) :
    run f c (front ++ as ++ back) ≠ run f c (front ++ bs ++ back) := by
  have hiter : ∀ n, f^[n] (run f 0#w (List.zipWith (· ^^^ ·) as bs)) ≠ 0#w := by
    intro n
    induction n with
    | zero => exact hne
    | succ n ih =>
      rw [Function.iterate_succ_apply']
      exact fun hzero => ih (hker _ (hS.iterate n hmem) hzero)
  have hzip : List.zipWith (· ^^^ ·) back back = List.replicate back.length 0#w := by
    induction back with
    | nil => rfl
    | cons b back ih =>
      rw [List.zipWith_cons_cons, ih, BitVec.xor_self, List.length_cons, List.replicate_succ]
  intro heq
  have hdiff := BitVec.xor_eq_zero_iff.mpr heq
  rw [run_append, run_append, run_append f c (front ++ bs), run_append f c front bs, run_xor hf _ _ rfl,
    run_xor hf _ _ hlen, BitVec.xor_self, hzip, run_zeros] at hdiff
  exact hiter _ hdiff

end

end ShiftRegister
