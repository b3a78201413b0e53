import X2XCoin.Consensus.Retarget
import X2XCoin.Node.AcceptBlock

/-!
# The difficulty of headers

`ContextualCheckBlockHeader` tests the difficulty of a header above the last proof-of-work block
with the flags that its ancestors have at that time; `ConnectBlock` makes the test when all bodies
are
there.
-/

namespace X2XCoin

/-! ## Flags -/

namespace HeaderDifficulty

/-- An entry and its ancestors, by height. -/
def branch (index : ℕ → CBlockIndex) : ℕ → List CBlockIndex
  | 0 => [index 0]
  | n + 1 => index (n + 1) :: branch index n

/-- The entries of a branch with other flags. -/
def flagged (flag : ℕ → Bool) (index : ℕ → CBlockIndex) (height : ℕ) : CBlockIndex :=
  { index height with nStatus := { (index height).nStatus with proofOfStake := flag height } }

/-- The flag of the entry at a height, if the bodies at the heights `received` are there. -/
def knownStake (p : Params) (stake received : ℕ → Bool) (height : ℕ) : Bool :=
  decide ((height : ℤ) > p.nLastPOWBlock) || received height && stake height

/-- The last height with a flag, or zero. -/
def lastStake (flag : ℕ → Bool) : ℕ → ℕ
  | 0 => 0
  | n + 1 => if flag (n + 1) then n + 1 else lastStake flag n

/-- `ConnectBlock` accepts the difficulty of a block of proof of stake on top of the branch, with
all bodies received. -/
def Connects (p : Params) (stake : ℕ → Bool) (index : ℕ → CBlockIndex) (n : ℕ) (nBits : UInt32) :
    Prop :=
  nBits = getNextTargetRequired p (branch (flagged (knownStake p stake fun _ => true) index) n) true

/-- `ContextualCheckBlockHeader` accepts the difficulty of a header on top of the branch. -/
def HeaderPasses (p : Params) (activeHeight : ℤ) (stake received : ℕ → Bool)
    (index : ℕ → CBlockIndex) (n : ℕ) (nBits : UInt32) : Prop :=
  ¬ (activeHeight > p.nLastPOWBlock ∧ (n + 1 : ℤ) > p.nLastPOWBlock ∧
    nBits ≠ getNextTargetRequired p (branch (flagged (knownStake p stake received) index) n) true)

/-! ## The last two blocks of proof of stake -/

section

variable {flag known : ℕ → Bool} {n : ℕ}

theorem lastStake_le (flag : ℕ → Bool) (n : ℕ) : lastStake flag n ≤ n := by
  induction n with
  | zero => exact le_rfl
  | succ n ih =>
    rw [lastStake]
    split_ifs
    · exact le_rfl
    · exact ih.trans n.le_succ

theorem flag_lastStake (h : lastStake flag n ≠ 0) : flag (lastStake flag n) = true := by
  induction n with
  | zero => exact absurd rfl h
  | succ n ih =>
    rw [lastStake] at h ⊢
    split_ifs at h ⊢ with hflag
    · exact hflag
    · exact ih h

theorem le_lastStake {m : ℕ} (hm : m ≤ n) (hflag : flag m = true) : m ≤ lastStake flag n := by
  induction n with
  | zero => exact hm
  | succ n ih =>
    rw [lastStake]
    split_ifs with hn
    · exact hm
    · obtain rfl | hlt := hm.eq_or_lt
      · exact absurd hflag hn
      · exact ih (Nat.lt_succ_iff.mp hlt)

theorem lastStake_mono (h : ∀ m, known m = true → flag m = true) :
    lastStake known n ≤ lastStake flag n := by
  by_cases hzero : lastStake known n = 0
  · rw [hzero]
    exact Nat.zero_le _
  · exact le_lastStake (lastStake_le _ _) (h _ (flag_lastStake hzero))

theorem lastStake_eq (h : ∀ m, known m = true → flag m = true)
    (hknown : lastStake flag n ≠ 0 → known (lastStake flag n) = true) :
    lastStake known n = lastStake flag n := by
  refine le_antisymm (lastStake_mono h) ?_
  by_cases hzero : lastStake flag n = 0
  · rw [hzero]
    exact Nat.zero_le _
  · exact le_lastStake (lastStake_le _ _) (hknown hzero)

end

section

variable {index : ℕ → CBlockIndex}

theorem branch_eq_cons (index : ℕ → CBlockIndex) (n : ℕ) :
    ∃ rest, branch index n = index n :: rest := by
  cases n with
  | zero => exact ⟨[], rfl⟩
  | succ n => exact ⟨branch index n, rfl⟩

theorem getLastBlockIndex_branch (flag : ℕ → Bool) (index : ℕ → CBlockIndex) (n : ℕ) :
    getLastBlockIndex true (branch (flagged flag index) n) =
      branch (flagged flag index) (lastStake flag n) := by
  induction n with
  | zero => rfl
  | succ n ih =>
    obtain ⟨rest, hrest⟩ := branch_eq_cons (flagged flag index) n
    have hflag : (flagged flag index (n + 1)).isProofOfStake = flag (n + 1) := rfl
    rw [hrest] at ih
    rw [branch, hrest, getLastBlockIndex, hflag, lastStake]
    by_cases h : flag (n + 1) = true
    · rw [if_neg (not_not.mpr h), if_pos h, branch, hrest]
    · rw [if_pos h, if_neg h, ih]

/-- The target after a branch is calculated from its last two blocks of proof of stake. -/
theorem getNextTargetRequired_branch (p : Params) (flag : ℕ → Bool) (index : ℕ → CBlockIndex)
    (n : ℕ) : getNextTargetRequired p (branch (flagged flag index) n) true =
      if lastStake flag n = 0 ∨ lastStake flag (lastStake flag n - 1) = 0 then
        getCompact (getTargetLimit p (index n).getBlockTime true)
      else calculateNextTargetRequired p (index (lastStake flag n))
        (index (lastStake flag (lastStake flag n - 1))).getBlockTime true := by
  obtain ⟨rest, hrest⟩ := branch_eq_cons (flagged flag index) n
  have htime : ((branch (flagged flag index) n).head?.map CBlockIndex.getBlockTime).getD 0 =
      (index n).getBlockTime := by
    rw [hrest]
    rfl
  rw [getNextTargetRequired, htime, getLastBlockIndex_branch]
  cases hprev : lastStake flag n with
  | zero =>
    rw [if_pos (.inl rfl)]
    rfl
  | succ prev =>
    obtain ⟨rest', hrest'⟩ := branch_eq_cons (flagged flag index) prev
    have hsecond := getLastBlockIndex_branch flag index prev
    rw [hrest'] at hsecond
    simp only [branch, hrest', hsecond, Nat.add_sub_cancel, Nat.succ_ne_zero, false_or]
    cases hprevPrev : lastStake flag prev with
    | zero => rfl
    | succ prevPrev =>
      obtain ⟨rest'', hrest''⟩ := branch_eq_cons (flagged flag index) prevPrev
      simp only [branch, hrest'', Nat.succ_ne_zero, if_false]
      rfl

end

/-! ## Headers on a branch -/

section

variable {p : Params} {stake received : ℕ → Bool} {n : ℕ}

/-- The last two blocks of proof of stake, if there are two, are above the last proof-of-work block
or their bodies have been received. -/
def StakesReceived (p : Params) (stake received : ℕ → Bool) (n : ℕ) : Prop :=
  let prev := lastStake (knownStake p stake fun _ => true) n
  let prevPrev := lastStake (knownStake p stake fun _ => true) (prev - 1)
  prev ≠ 0 → prevPrev ≠ 0 → ((prev : ℤ) ≤ p.nLastPOWBlock → received prev = true) ∧
    ((prevPrev : ℤ) ≤ p.nLastPOWBlock → received prevPrev = true)

theorem knownStake_of_knownStake {m : ℕ} (h : knownStake p stake received m = true) :
    knownStake p stake (fun _ => true) m = true := by
  simp only [knownStake, Bool.or_eq_true, Bool.and_eq_true, Bool.true_and] at h ⊢
  exact h.imp_right And.right

theorem knownStake_iff {m : ℕ} (h : knownStake p stake (fun _ => true) m = true) :
    knownStake p stake received m = true ↔ ((m : ℤ) ≤ p.nLastPOWBlock → received m = true) := by
  simp only [knownStake, Bool.or_eq_true, Bool.and_eq_true, Bool.true_and, decide_eq_true_eq] at h ⊢
  constructor
  · rintro (hgt | ⟨hreceived, -⟩) hle
    · exact absurd hgt (not_lt.mpr hle)
    · exact hreceived
  · intro himp
    by_cases hgt : (m : ℤ) > p.nLastPOWBlock
    · exact .inl hgt
    · exact .inr ⟨himp (not_lt.mp hgt), h.resolve_left hgt⟩

theorem getNextTargetRequired_eq (h : StakesReceived p stake received n) (index : ℕ → CBlockIndex) :
    getNextTargetRequired p (branch (flagged (knownStake p stake received) index) n) true =
      getNextTargetRequired p (branch (flagged (knownStake p stake fun _ => true) index) n)
        true := by
  have hle : ∀ m, knownStake p stake received m = true →
      knownStake p stake (fun _ => true) m = true := fun m => knownStake_of_knownStake
  rw [getNextTargetRequired_branch, getNextTargetRequired_branch]
  by_cases hlimit : lastStake (knownStake p stake fun _ => true) n = 0 ∨ lastStake
      (knownStake p stake fun _ => true) (lastStake (knownStake p stake fun _ => true) n - 1) = 0
  · -- with fewer flags there are not two blocks either
    rw [if_pos hlimit, if_pos]
    by_contra hboth
    rw [not_or] at hboth
    have hprev := lastStake_mono (n := n) hle
    have hknown := hle _ (flag_lastStake hboth.1)
    have hsecond := hle _ (flag_lastStake hboth.2)
    have hlt := lastStake_le (knownStake p stake received)
      (lastStake (knownStake p stake received) n - 1)
    obtain hzero | hzero := hlimit
    · omega
    · have hle' := @le_lastStake _ (lastStake (knownStake p stake fun _ => true) n - 1) _ (by omega)
        hsecond
      omega
  · rw [not_or] at hlimit
    obtain ⟨hprev, hprevPrev⟩ := h hlimit.1 hlimit.2
    have heq := lastStake_eq hle fun hne => (knownStake_iff (flag_lastStake hne)).mpr hprev
    have heq' := lastStake_eq hle fun hne => (knownStake_iff (flag_lastStake hne)).mpr hprevPrev
    rw [heq, heq']

/-- An entry of which only the time and the target matter. -/
def stakeEntry (nTime nBits : UInt32) : CBlockIndex where
  hash := 0
  nVersion := 1
  hashMerkleRoot := 0
  nTime := nTime
  nBits := nBits
  nNonce := 0

/-- A target that two blocks at given heights lead to, and no other two. -/
def splitIndex (prev prevPrev height : ℕ) : CBlockIndex :=
  stakeEntry
    (if height = prev then 1769900240 else if height = prevPrev then 1769900120 else 1769900000)
    (if height = prev then 0x1d00ffff else 0x1c00ffff)

theorem calculate_splitIndex {prev prevPrev : ℕ} (hlt : prevPrev < prev) :
    calculateNextTargetRequired mainParams (splitIndex prev prevPrev prev)
      (splitIndex prev prevPrev prevPrev).getBlockTime true = 0x1d00ffff := by
  simp only [splitIndex, if_pos, if_neg hlt.ne]
  decide +kernel

theorem calculate_splitIndex_ne {prev prevPrev a b : ℕ} (hne : ¬ (a = prev ∧ b = prevPrev))
    (hb : b ≠ prev) :
    calculateNextTargetRequired mainParams (splitIndex prev prevPrev a)
      (splitIndex prev prevPrev b).getBlockTime true ≠ 0x1d00ffff := by
  simp only [splitIndex, if_neg hb]
  by_cases ha : a = prev
  · simp only [if_pos ha, if_neg fun h => hne ⟨ha, h⟩]
    decide +kernel
  · simp only [if_neg ha]
    split_ifs <;> decide +kernel

end

/-- All headers that connect are accepted while the bodies at the heights `received` are there,
exactly if those of the last two blocks of proof of stake are. -/
theorem headerPasses_iff (activeHeight : ℤ) (stake received : ℕ → Bool) (n : ℕ) :
    (∀ index nBits, Connects mainParams stake index n nBits →
        HeaderPasses mainParams activeHeight stake received index n nBits) ↔
      (activeHeight > mainParams.nLastPOWBlock → (n + 1 : ℤ) > mainParams.nLastPOWBlock →
        StakesReceived mainParams stake received n) := by
  constructor
  · intro h hactive hn hprev hprevPrev
    -- entries with a target that only the last two blocks lead to
    have hlt : lastStake (knownStake mainParams stake fun _ => true)
        (lastStake (knownStake mainParams stake fun _ => true) n - 1) <
        lastStake (knownStake mainParams stake fun _ => true) n :=
      (lastStake_le _ _).trans_lt (by omega)
    have hsame := h (splitIndex _ _) 0x1d00ffff (by
      rw [Connects, getNextTargetRequired_branch, if_neg (not_or.mpr ⟨hprev, hprevPrev⟩),
        calculate_splitIndex hlt])
    rw [HeaderPasses, getNextTargetRequired_branch] at hsame
    have htarget := not_not.mp fun hne => hsame ⟨hactive, hn, hne⟩
    split_ifs at htarget with hlimit
    · rw [getTargetLimit_main] at htarget
      exact absurd htarget (by decide +kernel)
    · rw [not_or] at hlimit
      have hle : lastStake (knownStake mainParams stake received) n ≤ _ :=
        lastStake_mono fun m => knownStake_of_knownStake
      have hlt' := lastStake_le (knownStake mainParams stake received)
        (lastStake (knownStake mainParams stake received) n - 1)
      have hselected := by_contra fun hne => calculate_splitIndex_ne hne (by omega) htarget.symm
      have hknown := flag_lastStake hlimit.1
      have hknown' := flag_lastStake hlimit.2
      rw [hselected.1] at hknown
      rw [hselected.2] at hknown'
      exact ⟨(knownStake_iff (flag_lastStake hprev)).mp hknown,
        (knownStake_iff (flag_lastStake hprevPrev)).mp hknown'⟩
  · rintro h index nBits hconnects ⟨hactive, hn, hne⟩
    rw [getNextTargetRequired_eq (h hactive hn)] at hne
    exact hne hconnects

/-- A branch of blocks of proof of stake, 128 seconds apart at the limit, but for the last
proof-of-work height, where the spacing is 64 seconds. -/
def steadyIndex (height : ℕ) : CBlockIndex :=
  { stakeEntry (UInt32.ofNat
      (if height = 110000 then 1783897552 else 1769817616 + 128 * height)) 0x1e0fffff with
    nHeight := height }

theorem getBlockTime_steadyIndex {height : ℕ} (h : height < 110000) :
    (steadyIndex height).getBlockTime = 1769817616 + 128 * height := by
  change ((UInt32.ofNat _).toNat : ℤ) = _
  rw [if_neg h.ne, UInt32.toNat_ofNat']
  omega

theorem calculate_steadyIndex {height : ℕ} (h : height + 1 < 110000) :
    calculateNextTargetRequired mainParams (steadyIndex (height + 1))
      (steadyIndex height).getBlockTime true = 0x1e0fffff := by
  have htime := getBlockTime_steadyIndex h
  have hfirst := getBlockTime_steadyIndex (show height < 110000 by omega)
  have hspacing :
      (steadyIndex (height + 1)).getBlockTime - (steadyIndex height).getBlockTime = 128 := by
    rw [htime, hfirst]
    push_cast
    ring
  have hV3 : mainParams.isProtocolV3 (steadyIndex (height + 1)).getBlockTime = true := by
    rw [htime, Params.isProtocolV3, Bool.and_eq_true, decide_eq_true_eq, decide_eq_true_eq]
    change _ > (1769817602 : ℤ) ∧ _
    omega
  have hbits : (steadyIndex (height + 1)).nBits = 0x1e0fffff := rfl
  rw [calculateNextTargetRequired_main hV3 (by rw [hbits]; decide +kernel)
    (by rw [hbits]; decide +kernel) (by omega), hspacing, hbits]
  decide +kernel

theorem lastStake_true {flag : ℕ → Bool} {n : ℕ} (h : flag n = true) : lastStake flag n = n :=
  le_antisymm (lastStake_le _ _) (le_lastStake le_rfl h)

/-- Everything on the branch connects, and the header after it does too, but it does not pass while
the body of the last block is missing. -/
theorem steadyIndex_not_headerPasses :
    (∀ height < 110000,
      Connects mainParams (fun _ => true) steadyIndex height (steadyIndex (height + 1)).nBits) ∧
    ∃ nBits, Connects mainParams (fun _ => true) steadyIndex 110000 nBits ∧
      ¬ HeaderPasses mainParams 110001 (fun _ => true) (fun height => height < 110000) steadyIndex
        110000 nBits := by
  have hall : ∀ m, knownStake mainParams (fun _ => true) (fun _ => true) m = true := by
    simp [knownStake]
  have hlimit : ∀ nTime, getCompact (getTargetLimit mainParams nTime true) = 0x1e0fffff := by
    intro nTime
    rw [getTargetLimit_main]
    decide +kernel
  refine ⟨fun height hlt => ?_, _, rfl, fun hpasses => ?_⟩
  · rw [Connects, getNextTargetRequired_branch, lastStake_true (hall _), lastStake_true (hall _),
      hlimit]
    split_ifs with hfirst
    · rfl
    · obtain ⟨m, rfl⟩ : ∃ m, height = m + 1 := ⟨height - 1, by omega⟩
      exact (calculate_steadyIndex hlt).symm
  · -- without its flag the block is passed over, and the spacing before it counts
    have hmissing : lastStake (knownStake mainParams (fun _ => true) fun height => height < 110000)
        110000 = 109999 := by
      rw [lastStake, if_neg (by decide), lastStake, if_pos (by decide)]
    have hbefore : lastStake (knownStake mainParams (fun _ => true) fun height => height < 110000)
        (109999 - 1) = 109998 := lastStake_true (by decide)
    have hseen : calculateNextTargetRequired mainParams (steadyIndex 109999)
        (steadyIndex 109998).getBlockTime true = 0x1e0fffff :=
      calculate_steadyIndex (show 109998 + 1 < 110000 by decide)
    refine hpasses ⟨by decide, by decide, ?_⟩
    rw [getNextTargetRequired_branch, getNextTargetRequired_branch, lastStake_true (hall _),
      lastStake_true (hall _), hmissing, hbefore, if_neg (by decide), if_neg (by decide), hseen]
    decide +kernel

end HeaderDifficulty

end X2XCoin
