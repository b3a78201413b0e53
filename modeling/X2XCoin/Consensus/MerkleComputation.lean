import X2XCoin.Consensus.MerkleBinding

/-!
# The loops of `MerkleComputation`

The computation with the counter `count` of 32 bits and the array `inner`, for any function in place
of the hash of a pair.  A loop that looks for a bit that is set shifts by more than 31 if there is
none; it does not return then.
-/

open ByteCodec MerkleCounter

namespace X2XCoin

namespace MerkleLoops

variable {α : Type} [BEq α] (node : α → α → α)

/-! ## The loops -/

/-- The variables of the first loop. -/
structure Progress (α : Type) where
  /-- The leaves processed so far, a `uint32_t`. -/
  count : ℕ
  /-- `inner[32]`. -/
  inner : ℕ → α
  mutated : Bool

/-- From `level` on, as long as the bit of `count` is 0, combine `h` with the entry of `inner`; `left`
levels are left. -/
def carry (count : ℕ) (inner : ℕ → α) : (left level : ℕ) → α → Bool → Option (ℕ × α × Bool)
  | 0, _, _, _ => none
  | left + 1, level, h, mutated =>
    if count.testBit level then some (level, h, mutated)
    else carry count inner left (level + 1) (node (inner level) h) (mutated || inner level == h)

/-- One turn of the first loop. -/
def readLeaf (s : Progress α) (h : α) : Option (Progress α) := do
  let count := (s.count + 1) % 2 ^ 32
  let (level, h, mutated) ← carry node count s.inner 32 0 h s.mutated
  pure ⟨count, Function.update s.inner level h, mutated⟩

/-- The first level from `level` on with a bit of `count`. -/
def lowestLevel (count : ℕ) : (left level : ℕ) → Option ℕ
  | 0, _ => none
  | left + 1, level => if count.testBit level then some level else lowestLevel count left (level + 1)

/-- The loop of the final sweep; the level goes up in each turn. -/
def finalSweep (inner : ℕ → α) : (turns count level : ℕ) → α → Option α
  | 0, _, _, _ => none
  | turns + 1, count, level, h =>
    if count = 2 ^ level then some h
    else do
      let count := (count + 2 ^ level) % 2 ^ 32
      let (level, h, _) ← carry node count inner (31 - level) (level + 1) (node h h) false
      finalSweep inner turns count level h

/-- `MerkleComputation`: the root and the `mutated` flag. -/
def merkleComputation (zero : α) : List α → Option (α × Bool)
  | [] => some (zero, false)
  | leaf :: leaves => do
    let s ← (leaf :: leaves).foldlM (readLeaf node) ⟨0, fun _ => zero, false⟩
    let level ← lowestLevel s.count 32 0
    let h ← finalSweep node s.inner 32 s.count level (s.inner level)
    pure (h, s.mutated)

/-! ## The digits -/

/-- The digits from `level` on that the bits of `n` select. -/
def digits (inner : ℕ → α) (level n : ℕ) : List (Option α) :=
  if h : n = 0 then []
  else (if n % 2 = 1 then some (inner level) else none) :: digits inner (level + 1) (n / 2)
termination_by n
decreasing_by omega

section

variable {node} {inner : ℕ → α} {level : ℕ}

omit [BEq α] in
theorem digits_zero : digits inner level 0 = [] := by
  rw [digits, dif_pos rfl]

omit [BEq α] in
theorem digits_odd (q : ℕ) :
    digits inner level (2 * q + 1) = some (inner level) :: digits inner (level + 1) q := by
  rw [digits, dif_neg (by omega), if_pos (by omega), show (2 * q + 1) / 2 = q by omega]

omit [BEq α] in
theorem digits_even {q : ℕ} (hq : q ≠ 0) :
    digits inner level (2 * q) = none :: digits inner (level + 1) q := by
  rw [digits, dif_neg (by omega), if_neg (by omega), show 2 * q / 2 = q by omega]

omit [BEq α] in
theorem digits_update {l : ℕ} (hl : l < level) (h : α) (n : ℕ) :
    digits (Function.update inner l h) level n = digits inner level n := by
  induction n using Nat.strong_induction_on generalizing level with
  | _ n ih =>
    obtain ⟨q, rfl | rfl⟩ := Nat.even_or_odd' n
    · by_cases hq : q = 0
      · rw [hq, mul_zero, digits_zero, digits_zero]
      · rw [digits_even hq, digits_even hq, ih q (by omega) (by omega)]
    · rw [digits_odd, digits_odd, ih q (by omega) (by omega), Function.update_of_ne hl.ne']

omit [BEq α] in
theorem all_isNone_digits {n : ℕ} (hn : n ≠ 0) :
    (digits inner level n).all Option.isNone = false := by
  induction n using Nat.strong_induction_on generalizing level with
  | _ n ih =>
    obtain ⟨q, rfl | rfl⟩ := Nat.even_or_odd' n
    · rw [digits_even (by omega), List.all_cons, ih q (by omega) (by omega), Bool.and_false]
    · rw [digits_odd]
      rfl

/-! ## One carry -/

theorem testBit_two_pow_mul_odd (level q : ℕ) : (2 ^ level * (2 * q + 1)).testBit level = true := by
  rw [Nat.testBit_two_pow_mul, Nat.sub_self]
  simp

theorem testBit_two_pow_mul_even (level q : ℕ) : (2 ^ level * (2 * q)).testBit level = false := by
  rw [Nat.testBit_two_pow_mul, Nat.sub_self]
  simp

theorem level_lt {level n : ℕ} (h : 2 ^ level * (n + 1) < 2 ^ 32) : level < 32 :=
  (Nat.pow_lt_pow_iff_right (by decide)).mp ((Nat.le_mul_of_pos_right _ n.succ_pos).trans_lt h)

/-- A carry ends at the lowest bit of `count`; it is a carry into the digits before. -/
theorem carry_spec (node : α → α → α) (inner : ℕ → α) (level : ℕ) {n : ℕ} (h : α)
    (mutated : Bool) (hn : 2 ^ level * (n + 1) < 2 ^ 32) :
    ∃ l h' q, carry node (2 ^ level * (n + 1)) inner (32 - level) level h mutated =
        some (l, h', mutated || (push node h (digits inner level n)).2) ∧
      level ≤ l ∧ 2 ^ level * (n + 1) = 2 ^ l * (2 * q + 1) ∧
      (push node h (digits inner level n)).1 =
        digits (Function.update inner l h') level (n + 1) ∧
      sweep node h (digits inner level n) = sweep node h' (none :: digits inner (l + 1) q) := by
  induction n using Nat.strong_induction_on generalizing level h mutated with
  | _ n ih =>
    have hleft : 32 - level = (31 - level) + 1 := by
      have := level_lt hn
      omega
    obtain ⟨q, rfl | rfl⟩ := Nat.even_or_odd' n
    · refine ⟨level, h, q, ?_, le_rfl, rfl, ?_, ?_⟩
      · rw [hleft, carry, if_pos (testBit_two_pow_mul_odd level q)]
        by_cases hq : q = 0
        · rw [hq, mul_zero, digits_zero, push, Bool.or_false]
        · rw [digits_even hq, push, Bool.or_false]
      · rw [digits_odd, digits_update (Nat.lt_succ_self _), Function.update_self]
        by_cases hq : q = 0
        · rw [hq, mul_zero, digits_zero, digits_zero, push]
        · rw [digits_even hq, push]
      · by_cases hq : q = 0
        · rw [hq, mul_zero, digits_zero, digits_zero]
          rfl
        · rw [digits_even hq]
    · have hcount : 2 ^ level * (2 * q + 1 + 1) = 2 ^ (level + 1) * (q + 1) := by ring
      have hbit : (2 ^ level * (2 * q + 1 + 1)).testBit level = false :=
        testBit_two_pow_mul_even level (q + 1)
      rw [hcount] at hn
      obtain ⟨l, h', q', hcarry, hl, hq', hpush, hsweep⟩ :=
        ih q (by omega) (level + 1) (node (inner level) h) (mutated || inner level == h) hn
      refine ⟨l, h', q', ?_, by omega, hcount.trans hq', ?_, ?_⟩
      · rw [hleft, carry, if_neg (by rw [hbit]; exact Bool.false_ne_true), hcount,
          show 31 - level = 32 - (level + 1) by omega, hcarry, digits_odd, push, Bool.or_assoc]
      · rw [digits_odd, show 2 * q + 1 + 1 = 2 * (q + 1) by ring, digits_even q.succ_ne_zero,
          ← hpush]
        rfl
      · rw [digits_odd, sweep, hsweep]

theorem carry_zero (left level : ℕ) (h : α) (mutated : Bool) :
    carry node 0 inner left level h mutated = none := by
  induction left generalizing level h mutated with
  | zero => rfl
  | succ left ih => rw [carry, if_neg (by rw [Nat.zero_testBit]; exact Bool.false_ne_true), ih]

/-! ## The first loop -/

theorem foldlM_readLeaf (node : α → α → α) (zero : α) {leaves : List α}
    (hlen : leaves.length < 2 ^ 32) :
    ∃ inner, leaves.foldlM (readLeaf node) ⟨0, fun _ => zero, false⟩ =
        some ⟨leaves.length, inner, (pushAll node leaves).2⟩ ∧
      digits inner 0 leaves.length = (pushAll node leaves).1 := by
  induction leaves using List.reverseRecOn with
  | nil => exact ⟨_, rfl, digits_zero⟩
  | append_singleton leaves leaf ih =>
    rw [List.length_append, List.length_singleton] at hlen
    obtain ⟨inner, hfold, hdigits⟩ := ih (by omega)
    obtain ⟨l, h', q, hcarry, -, -, hpush, -⟩ :=
      carry_spec node inner 0 leaf (pushAll node leaves).2 (by rwa [pow_zero, one_mul])
    rw [pow_zero, one_mul, Nat.sub_zero, hdigits] at hcarry
    rw [hdigits] at hpush
    have hall : pushAll node (leaves ++ [leaf]) =
        ((push node leaf (pushAll node leaves).1).1,
          (pushAll node leaves).2 || (push node leaf (pushAll node leaves).1).2) := by
      rw [pushAll, List.foldl_append]
      rfl
    refine ⟨Function.update inner l h', ?_, ?_⟩
    · rw [List.foldlM_append, hfold]
      simp only [Option.bind_eq_bind, Option.bind_some, List.foldlM_cons, List.foldlM_nil, readLeaf,
        Nat.mod_eq_of_lt hlen, hcarry, hall, List.length_append, List.length_singleton,
        Option.pure_def]
    · rw [hall, List.length_append, List.length_singleton, hpush]

theorem foldlM_readLeaf_eq_none (node : α → α → α) (zero : α) {leaves : List α}
    (hlen : 2 ^ 32 ≤ leaves.length) :
    leaves.foldlM (readLeaf node) ⟨0, fun _ => zero, false⟩ = none := by
  have htake : (leaves.take (2 ^ 32 - 1)).length = 2 ^ 32 - 1 := by
    rw [List.length_take]
    omega
  obtain ⟨inner, hfold, -⟩ := foldlM_readLeaf node zero
    (show (leaves.take (2 ^ 32 - 1)).length < 2 ^ 32 by omega)
  rw [← List.take_append_drop (2 ^ 32 - 1) leaves, List.foldlM_append, hfold, htake]
  cases hdrop : leaves.drop (2 ^ 32 - 1) with
  | nil =>
    have := List.drop_eq_nil_iff.mp hdrop
    omega
  | cons leaf rest =>
    rw [Option.bind_eq_bind, Option.bind_some, List.foldlM_cons, readLeaf,
      show (2 ^ 32 - 1 + 1) % 2 ^ 32 = 0 by norm_num, carry_zero]
    rfl

/-! ## The final sweep -/

omit [BEq α] in
theorem lowestLevel_spec (node : α → α → α) (inner : ℕ → α) (level : ℕ) {n : ℕ}
    (hn0 : n ≠ 0) (hn : 2 ^ level * n < 2 ^ 32) :
    ∃ l q, lowestLevel (2 ^ level * n) (32 - level) level = some l ∧
      2 ^ level * n = 2 ^ l * (2 * q + 1) ∧
      root node (digits inner level n) =
        some (sweep node (inner l) (none :: digits inner (l + 1) q)) := by
  induction n using Nat.strong_induction_on generalizing level with
  | _ n ih =>
    have hleft : 32 - level = (31 - level) + 1 := by
      obtain ⟨m, rfl⟩ := Nat.exists_eq_succ_of_ne_zero hn0
      have := level_lt hn
      omega
    obtain ⟨q, rfl | rfl⟩ := Nat.even_or_odd' n
    · have hcount : 2 ^ level * (2 * q) = 2 ^ (level + 1) * q := by ring
      have hbit := testBit_two_pow_mul_even level q
      rw [hcount] at hn
      obtain ⟨l, q', hlow, hq', hroot⟩ := ih q (by omega) (level + 1) (by omega) hn
      refine ⟨l, q', ?_, hcount.trans hq', ?_⟩
      · rw [hleft, lowestLevel, if_neg (by rw [hbit]; exact Bool.false_ne_true), hcount,
          show 31 - level = 32 - (level + 1) by omega, hlow]
      · rw [digits_even (by omega), root, hroot]
    · refine ⟨level, q, ?_, rfl, ?_⟩
      · rw [hleft, lowestLevel, if_pos (testBit_two_pow_mul_odd level q)]
      · rw [digits_odd, root]

theorem two_pow_mul_le {level q : ℕ} (hq : q ≠ 0) (h : 2 ^ level * (2 * q + 1) ≤ 2 ^ 31) :
    2 ^ (level + 1) * (q + 1) ≤ 2 ^ 31 := by
  have hlt : 2 ^ level * 2 < 2 ^ 31 :=
    (Nat.mul_lt_mul_of_pos_left (by omega : 2 < 2 * q + 1) (Nat.two_pow_pos level)).trans_le h
  rw [← pow_succ] at hlt
  have hlevel := (Nat.pow_lt_pow_iff_right (by decide)).mp hlt
  obtain ⟨k, hk⟩ : 2 ^ (level + 1) ∣ 2 ^ 31 := Nat.pow_dvd_pow 2 hlevel.le
  rw [hk] at h ⊢
  refine Nat.mul_le_mul_left _ (Nat.succ_le_of_lt ?_)
  have h' : 2 ^ (level + 1) * q < 2 ^ (level + 1) * k := by
    refine lt_of_lt_of_le ?_ h
    rw [pow_succ, mul_assoc]
    exact Nat.mul_lt_mul_of_pos_left (Nat.lt_succ_self _) (Nat.two_pow_pos level)
  exact lt_of_mul_lt_mul_left h' (Nat.zero_le _)

theorem finalSweep_succ {turns count : ℕ} (h : α) (hne : count ≠ 2 ^ level) :
    finalSweep node inner (turns + 1) count level h =
      (carry node ((count + 2 ^ level) % 2 ^ 32) inner (32 - (level + 1)) (level + 1) (node h h)
        false).bind fun s => finalSweep node inner turns ((count + 2 ^ level) % 2 ^ 32) s.1 s.2.1 := by
  rw [finalSweep, if_neg hne, show 32 - (level + 1) = 31 - level by omega]
  rfl

theorem finalSweep_spec {turns q : ℕ} (h : α) (hturns : 32 - level ≤ turns)
    (hq : 2 ^ level * (2 * q + 1) ≤ 2 ^ 31) :
    finalSweep node inner turns (2 ^ level * (2 * q + 1)) level h =
      some (sweep node h (none :: digits inner (level + 1) q)) := by
  induction turns generalizing level q h with
  | zero =>
    have := level_lt (hq.trans_lt (by norm_num))
    omega
  | succ turns ih =>
    by_cases hzero : q = 0
    · rw [hzero, mul_zero, zero_add, mul_one, finalSweep, if_pos rfl, digits_zero]
      rfl
    · have hne : 2 ^ level * (2 * q + 1) ≠ 2 ^ level := by
        have := Nat.mul_lt_mul_of_pos_left (by omega : 1 < 2 * q + 1) (Nat.two_pow_pos level)
        omega
      have hle := two_pow_mul_le hzero hq
      have hcount : (2 ^ level * (2 * q + 1) + 2 ^ level) % 2 ^ 32 = 2 ^ (level + 1) * (q + 1) := by
        rw [show 2 ^ level * (2 * q + 1) + 2 ^ level = 2 ^ (level + 1) * (q + 1) by ring]
        exact Nat.mod_eq_of_lt (hle.trans_lt (by norm_num))
      obtain ⟨l, h', q', hcarry, hl, hq', -, hsweep⟩ := carry_spec node inner (level + 1)
        (node h h) false (hle.trans_lt (by norm_num))
      rw [finalSweep_succ h hne, hcount, hcarry, Option.bind_some, sweep,
        if_neg (by rw [all_isNone_digits hzero]; exact Bool.false_ne_true), hsweep]
      rw [hq'] at hle ⊢
      exact ih h' (by omega) hle

theorem finalSweep_eq_none {turns q : ℕ} (h : α) (hlo : 2 ^ 31 < 2 ^ level * (2 * q + 1))
    (hhi : 2 ^ level * (2 * q + 1) < 2 ^ 32) :
    finalSweep node inner turns (2 ^ level * (2 * q + 1)) level h = none := by
  induction turns generalizing level q h with
  | zero => rfl
  | succ turns ih =>
    have hlevel : 2 ^ level ≤ 2 ^ 31 := Nat.pow_le_pow_right (by decide) (by
      have := level_lt hhi
      omega)
    have hsum : 2 ^ level * (2 * q + 1) + 2 ^ level = 2 ^ (level + 1) * (q + 1) := by ring
    rw [finalSweep_succ h (by omega), hsum]
    by_cases htop : 2 ^ (level + 1) * (q + 1) < 2 ^ 32
    · obtain ⟨l, h', q', hcarry, -, hq', -, -⟩ := carry_spec node inner (level + 1)
        (node h h) false htop
      have hlo' : 2 ^ 31 < 2 ^ (level + 1) * (q + 1) := by
        rw [← hsum]
        exact hlo.trans_le (Nat.le_add_right _ _)
      rw [Nat.mod_eq_of_lt htop, hcarry, Option.bind_some]
      rw [hq'] at htop hlo' ⊢
      exact ih h' hlo' htop
    · -- a multiple of 2 ^ (level + 1) below 2 ^ 32 plus half of it is at most 2 ^ 32
      have hdvd : 2 ^ (level + 1) ∣ 2 ^ 32 := Nat.pow_dvd_pow 2 (by
        have := level_lt hhi
        omega)
      obtain ⟨k, hk⟩ := hdvd
      have heq : 2 ^ (level + 1) * (q + 1) = 2 ^ 32 := by
        refine le_antisymm ?_ (not_lt.mp htop)
        rw [hk]
        refine Nat.mul_le_mul_left _ (Nat.succ_le_of_lt ?_)
        have hlt : 2 ^ (level + 1) * q < 2 ^ (level + 1) * k := ?_
        exact lt_of_mul_lt_mul_left hlt (Nat.zero_le _)
        rw [← hk, pow_succ, mul_assoc]
        exact (Nat.mul_lt_mul_of_pos_left (Nat.lt_succ_self _) (Nat.two_pow_pos level)).trans hhi
      rw [heq, Nat.mod_self, carry_zero, Option.bind_none]

end

/-! ## What is computed -/

/-- The loops return for at most `2 ^ 31` leaves, and what the counter of digits gives. -/
theorem merkleComputation_eq (zero : α) (leaves : List α) :
    merkleComputation node zero leaves =
      if leaves.length ≤ 2 ^ 31 then
        some ((root node (pushAll node leaves).1).getD zero, (pushAll node leaves).2)
      else none := by
  cases leaves with
  | nil => rfl
  | cons leaf leaves =>
    rw [merkleComputation]
    by_cases hlen : (leaf :: leaves).length < 2 ^ 32
    · obtain ⟨inner, hfold, hdigits⟩ := foldlM_readLeaf node zero hlen
      obtain ⟨l, q, hlow, hq, hroot⟩ := lowestLevel_spec node inner 0
        (Nat.succ_ne_zero leaves.length) (by rwa [pow_zero, one_mul])
      rw [pow_zero, one_mul] at hlow hq
      rw [show leaves.length.succ = (leaf :: leaves).length from rfl] at hlow hq hroot
      rw [hdigits] at hroot
      rw [hfold, Option.bind_eq_bind, Option.bind_some, hroot, Option.getD_some]
      simp only [Nat.sub_zero] at hlow
      simp only [hlow, Option.bind_eq_bind, Option.bind_some]
      rw [hq] at hlen ⊢
      split_ifs with hle
      · rw [finalSweep_spec _ (Nat.sub_le _ _) hle]
        rfl
      · rw [finalSweep_eq_none _ (not_le.mp hle) hlen]
        rfl
    · rw [foldlM_readLeaf_eq_none node zero (not_lt.mp hlen), if_neg (by omega)]
      rfl

/-- Up to `2 ^ 31` leaves this is the root in the index of a block. -/
theorem merkleComputation_hashPair (crypto : Crypto) {leaves : List Uint256}
    (hlen : leaves.length ≤ 2 ^ 31) :
    merkleComputation (hashPair crypto) 0 leaves = some (computeMerkleRoot crypto leaves) := by
  simp only [merkleComputation_eq, if_pos hlen, computeMerkleRoot, Merkle.pushAll_eq, Merkle.root_eq]

end MerkleLoops

/-! ## Binding -/

section

open MerkleLoops

variable {α : Type} [DecidableEq α] {node : α → α → α} {zero : α}

/-- The value of a tree over values. -/
def treeValue (node : α → α → α) (t : MerkleCounter.Tree α) : α :=
  t.eval (Sum.elim id fun p : α × α => node p.1 p.2) Sum.inl fun l r => Sum.inr (l, r)

/-- What is computed is the value of the tree over the leaves. -/
theorem root_pushAll_eq_treeValue (node : α → α → α) (leaves : List α) :
    root node (pushAll node leaves).1 = (treeOf leaves).1.map (treeValue node) ∧
      ((pushAll node leaves).2 = false → (treeOf leaves).2 = false) := by
  have hnode : ∀ l r : MerkleCounter.Tree α, treeValue node (.node l r) =
      node (treeValue node l) (treeValue node r) := fun _ _ => rfl
  have hleaves : leaves = (leaves.map Tree.leaf).map (treeValue node) := by
    rw [List.map_map]
    exact (List.map_id leaves).symm
  obtain ⟨hpush, hflag⟩ := pushAll_map hnode (leaves.map Tree.leaf)
  rw [← hleaves] at hpush hflag
  rw [hpush, root_map hnode]
  exact ⟨rfl, hflag⟩

omit [DecidableEq α] in
/-- Trees over leaves that are no values of `node` have different values. -/
theorem treeValue_inj (hinj : Function.Injective2 node) {leaves : List α}
    (hleaf : ∀ x ∈ leaves, ∀ l r, node l r ≠ x) {t t' : MerkleCounter.Tree α}
    (ht : ∀ x ∈ t.flatten, x ∈ leaves)
    (ht' : ∀ x ∈ t'.flatten, x ∈ leaves) (h : treeValue node t = treeValue node t') : t = t' := by
  have hmessages : ∀ {t : MerkleCounter.Tree α}, (∀ x ∈ t.flatten, x ∈ leaves) →
      t.messages (Sum.elim id fun p : α × α => node p.1 p.2) Sum.inl (fun l r => Sum.inr (l, r)) ⊆
        {m | ∀ x, m = Sum.inl x → x ∈ leaves} := by
    intro t ht
    induction t with
    | leaf x =>
      rintro _ rfl y hy
      exact Sum.inl.inj hy ▸ ht x (List.mem_singleton.mpr rfl)
    | node l r ihl ihr =>
      simp only [Tree.flatten, List.mem_append, or_imp, forall_and] at ht
      rintro m (rfl | hm | hm)
      · rintro _ ⟨⟩
      · exact ihl ht.1 hm
      · exact ihr ht.2 hm
  refine Tree.eval_inj ?_ (fun heq => Prod.mk.inj (Sum.inr.inj heq))
    (fun x _ y heq => Sum.inl.inj heq) (fun _ _ _ _ => Sum.inl_ne_inr) (fun _ _ _ _ => Sum.inl_ne_inr)
    (hmessages ht) (hmessages ht') h
  rintro (x | p) hm (y | q) hm' heq
  · exact congrArg Sum.inl heq
  · exact absurd heq.symm (hleaf x (hm x rfl) _ _)
  · exact absurd heq (hleaf y (hm' y rfl) _ _)
  · obtain ⟨hl, hr⟩ := hinj heq
    rw [Prod.ext hl hr]

/-- Two lists of leaves with the same root, neither flagged, are the same unless exactly one of them
is empty; and the root that is returned, which it is up to `2 ^ 31` leaves, is the one of the tree
that is built level by level. -/
theorem merkleRoot_binds (hinj : Function.Injective2 node) {a b : List α}
    (hleaf : ∀ x ∈ a ++ b, ∀ l r, node l r ≠ x) :
    (∀ r, merkleComputation node zero a = some (r, false) →
      merkleComputation node zero b = some (r, false) → (a = b ↔ (a = [] ↔ b = []))) ∧
    ∀ leaves, ((merkleComputation node zero leaves).isSome ↔ leaves.length ≤ 2 ^ 31) ∧
      ∀ r mutated, merkleComputation node zero leaves = some (r, mutated) →
        r = (levelRoot node leaves).getD zero := by
  constructor
  · intro r ha hb
    refine ⟨fun heq => by rw [heq], fun hempty => ?_⟩
    rw [merkleComputation_eq] at ha hb
    split_ifs at ha hb
    obtain ⟨hra, hfa⟩ := Prod.mk.inj (Option.some.inj ha)
    obtain ⟨hrb, hfb⟩ := Prod.mk.inj (Option.some.inj hb)
    by_cases hnil : a = []
    · rw [hnil, hempty.mp hnil]
    · obtain ⟨ta, hta⟩ := exists_treeOf hnil
      obtain ⟨tb, htb⟩ := exists_treeOf fun h => hnil (hempty.mpr h)
      obtain ⟨hva, hflaga⟩ := root_pushAll_eq_treeValue node a
      obtain ⟨hvb, hflagb⟩ := root_pushAll_eq_treeValue node b
      rw [hva, hta, Option.map_some, Option.getD_some] at hra
      rw [hvb, htb, Option.map_some, Option.getD_some] at hrb
      have heq : ta = tb := treeValue_inj hinj hleaf
        (fun x hx => List.mem_append_left _ (mem_of_treeOf hta hx))
        (fun x hx => List.mem_append_right _ (mem_of_treeOf htb hx)) (hra.trans hrb.symm)
      rw [← unpad_treeOf (Prod.ext hta (hflaga hfa)), heq, unpad_treeOf (Prod.ext htb (hflagb hfb))]
  · intro leaves
    rw [merkleComputation_eq]
    by_cases hlen : leaves.length ≤ 2 ^ 31
    · rw [if_pos hlen]
      refine ⟨iff_of_true rfl hlen, fun r mutated h => ?_⟩
      rw [← root_pushAll]
      exact (Prod.mk.inj (Option.some.inj h)).1.symm
    · rw [if_neg hlen]
      exact ⟨iff_of_false Bool.false_ne_true hlen, fun _ _ => nofun⟩

end

open MerkleLoops in
/-- Three leaves, in the free trees. -/
theorem merkleRoot_binds_threeLeaves :
    let leaves : List (MerkleCounter.Tree ℕ) := [.leaf 1, .leaf 2, .leaf 3]
    ∃ r, merkleComputation MerkleCounter.Tree.node (.leaf 0) leaves = some (r, false) ∧
      r = (levelRoot MerkleCounter.Tree.node leaves).getD (.leaf 0) := by
  intro leaves
  have hroot : merkleComputation MerkleCounter.Tree.node (.leaf 0) leaves =
      some (.node (.node (.leaf 1) (.leaf 2)) (.node (.leaf 3) (.leaf 3)), false) := by
    decide +kernel
  have hleaf : ∀ x ∈ leaves ++ leaves, ∀ l r, MerkleCounter.Tree.node l r ≠ x := by
    simp [leaves]
  exact ⟨_, hroot, ((merkleRoot_binds (fun _ _ _ _ h => MerkleCounter.Tree.node.inj h) hleaf).2
    leaves).2 _ _ hroot⟩

open MerkleLoops in
/-- No leaves and one leaf that is zero have the same root. -/
theorem merkleRoot_noLeaves :
    Function.Injective2 (MerkleCounter.Tree.node (ι := ℕ)) ∧
    (∀ x ∈ [] ++ [MerkleCounter.Tree.leaf 0], ∀ l r, MerkleCounter.Tree.node l r ≠ x) ∧
    merkleComputation MerkleCounter.Tree.node (.leaf 0) [] =
      some (MerkleCounter.Tree.leaf 0, false) ∧
    merkleComputation MerkleCounter.Tree.node (.leaf 0) [.leaf 0] =
      some (MerkleCounter.Tree.leaf 0, false) :=
  ⟨fun _ _ _ _ h => MerkleCounter.Tree.node.inj h, by simp, rfl, by decide +kernel⟩

end X2XCoin
