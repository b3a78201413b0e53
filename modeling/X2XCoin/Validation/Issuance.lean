import X2XCoin.Validation.AmountOverflow
import X2XCoin.Validation.Conservation

/-!
# The sum of all subsidies

`issued h` adds up the largest subsidy that each of the first `h` blocks of the main net can be
granted.  `lastRepresentable` is the last height at which the sum is an amount of 64 bits.
-/

namespace X2XCoin

/-! ## The schedule -/

/-- The largest subsidy on top of a chain of the given height; proof of work ends at
`nLastPOWBlock`. -/
def largestSubsidy (chainHeight : ℤ) : ℤ :=
  max (if chainHeight + 1 ≤ mainParams.nLastPOWBlock then (getProofOfWorkSubsidy chainHeight).toInt
    else 0) (getProofOfStakeSubsidy chainHeight).toInt

/-- The sum of the largest subsidies at the heights from 1 to `h`. -/
def issued (h : ℕ) : ℤ := ∑ n ∈ Finset.range h, largestSubsidy n

/-- The amount of a schedule of steps above a height, with the last height of each step. -/
def scheduled : ℕ → List (ℤ × CAmount) → ℤ
  | _, [] => 0
  | a, s :: steps => (s.1 - a) * (s.2 * COIN).toInt + scheduled s.1.toNat steps

/-- The subsidy of the first step that reaches the height. -/
def stepSubsidy (steps : List (ℤ × CAmount)) (chainHeight : ℤ) : ℤ :=
  match steps.find? fun s => chainHeight + 1 ≤ s.1 with
  | some s => (s.2 * COIN).toInt
  | none => (1000 * COIN).toInt

variable {n : ℤ} {steps : List (ℤ × CAmount)}

theorem stepSubsidy_cons_of_le {s : ℤ × CAmount} (h : n + 1 ≤ s.1) :
    stepSubsidy (s :: steps) n = (s.2 * COIN).toInt := by
  rw [stepSubsidy, List.find?_cons_of_pos (by exact decide_eq_true h)]

theorem stepSubsidy_cons_of_lt {s : ℤ × CAmount} (h : s.1 < n + 1) :
    stepSubsidy (s :: steps) n = stepSubsidy steps n := by
  rw [stepSubsidy, List.find?_cons_of_neg (by simpa using h)]
  rfl

/-- The last height of the schedule. -/
def lastStep (a : ℕ) (steps : List (ℤ × CAmount)) : ℕ := steps.foldl (fun _ s => s.1.toNat) a

/-- The steps follow each other. -/
def Ascending : ℕ → List (ℤ × CAmount) → Prop
  | _, [] => True
  | a, s :: steps => (a : ℤ) ≤ s.1 ∧ Ascending s.1.toNat steps

instance decidableAscending : (a : ℕ) → (steps : List (ℤ × CAmount)) → Decidable (Ascending a steps)
  | _, [] => inferInstanceAs (Decidable True)
  | _, s :: steps =>
    have := decidableAscending s.1.toNat steps
    inferInstanceAs (Decidable (_ ∧ _))

theorem Ascending.le_lastStep {a : ℕ} (h : Ascending a steps) : a ≤ lastStep a steps := by
  induction steps generalizing a with
  | nil => exact le_rfl
  | cons s steps ih =>
    have hle : a ≤ s.1.toNat := (Int.le_toNat (by have := h.1; omega)).mpr h.1
    exact hle.trans (ih h.2)

theorem sum_stepSubsidy {a : ℕ} (h : Ascending a steps) :
    ∑ n ∈ Finset.Ico a (lastStep a steps), stepSubsidy steps n = scheduled a steps := by
  induction steps generalizing a with
  | nil => rw [lastStep, List.foldl_nil, Finset.Ico_self, Finset.sum_empty, scheduled]
  | cons s steps ih =>
    obtain ⟨hle, hrest⟩ := h
    have hcast : (s.1.toNat : ℤ) = s.1 := Int.toNat_of_nonneg (by omega)
    have hfirst : ∑ n ∈ Finset.Ico a s.1.toNat, stepSubsidy (s :: steps) n =
        (s.1 - a) * (s.2 * COIN).toInt := by
      rw [Finset.sum_congr rfl fun n hn => stepSubsidy_cons_of_le (by
        have := (Finset.mem_Ico.mp hn).2
        omega), Finset.sum_const, Nat.card_Ico, nsmul_eq_mul]
      congr 1
      omega
    have hothers : ∑ n ∈ Finset.Ico s.1.toNat (lastStep s.1.toNat steps), stepSubsidy (s :: steps) n =
        ∑ n ∈ Finset.Ico s.1.toNat (lastStep s.1.toNat steps), stepSubsidy steps n := by
      refine Finset.sum_congr rfl fun n hn => stepSubsidy_cons_of_lt ?_
      have := (Finset.mem_Ico.mp hn).1
      omega
    rw [scheduled, ← ih hrest, ← hfirst, ← hothers]
    exact (Finset.sum_Ico_consecutive _ (by omega) hrest.le_lastStep).symm

/-! ## The main net -/

theorem toInt_getProofOfStakeSubsidy (hn : 1 ≤ n) :
    (getProofOfStakeSubsidy n).toInt = stepSubsidy stakeSubsidySteps n := by
  rw [getProofOfStakeSubsidy, stepSubsidy, if_pos (by omega)]
  cases stakeSubsidySteps.find? fun s => n + 1 ≤ s.1 <;> rfl

theorem ascending_stakeSubsidySteps : Ascending 1 stakeSubsidySteps := by decide

theorem lastStep_stakeSubsidySteps : lastStep 1 stakeSubsidySteps = 4993200 := by decide

theorem stepSubsidy_tail (hn : 4993200 ≤ n) :
    stepSubsidy stakeSubsidySteps n = (1000 * COIN).toInt := by
  have hnone : stakeSubsidySteps.find? (fun s => n + 1 ≤ s.1) = none := by
    have hall : ∀ s ∈ stakeSubsidySteps, s.1 ≤ 4993200 := by decide
    rw [List.find?_eq_none]
    intro s hs
    have := hall s hs
    simp only [decide_eq_true_eq]
    omega
  rw [stepSubsidy, hnone]

theorem le_stepSubsidy (n : ℤ) : (100 * COIN).toInt ≤ stepSubsidy stakeSubsidySteps n := by
  have hall : ∀ s ∈ stakeSubsidySteps, (100 * COIN).toInt ≤ (s.2 * COIN).toInt := by decide
  rw [stepSubsidy]
  split
  · next s hs => exact hall s (List.mem_of_find?_eq_some hs)
  · decide

theorem getProofOfWorkSubsidy_le (hn : 1 ≤ n) :
    (getProofOfWorkSubsidy n).toInt ≤ (100 * COIN).toInt := by
  rw [getProofOfWorkSubsidy, if_neg (by omega)]
  split_ifs <;> decide

theorem largestSubsidy_zero : largestSubsidy 0 = (11000000 * COIN).toInt := by decide

theorem largestSubsidy_eq (hn : 1 ≤ n) : largestSubsidy n = stepSubsidy stakeSubsidySteps n := by
  rw [largestSubsidy, toInt_getProofOfStakeSubsidy hn]
  refine max_eq_right ?_
  have hstake := le_stepSubsidy n
  have hwork := getProofOfWorkSubsidy_le hn
  have hzero : 0 ≤ (100 * COIN).toInt := by decide
  split_ifs <;> omega

theorem largestSubsidy_nonneg (n : ℤ) : 0 ≤ largestSubsidy n :=
  le_max_of_le_right (getProofOfStakeSubsidy_bounds n).1

theorem issued_mono {a b : ℕ} (h : a ≤ b) : issued a ≤ issued b :=
  Finset.sum_le_sum_of_subset_of_nonneg (Finset.range_mono h) fun n _ _ => largestSubsidy_nonneg n

theorem issued_add (a k : ℕ) :
    issued (a + k) = issued a + ∑ n ∈ Finset.Ico a (a + k), largestSubsidy n := by
  simp only [issued, Finset.range_eq_Ico]
  exact (Finset.sum_Ico_consecutive _ (Nat.zero_le a) (Nat.le_add_right a k)).symm

theorem issued_of_steps (h : Ascending 1 steps)
    (hsteps : ∀ n : ℤ, 1 ≤ n → largestSubsidy n = stepSubsidy steps n) :
    issued (lastStep 1 steps) = (11000000 * COIN).toInt + scheduled 1 steps := by
  have hone : issued 1 = largestSubsidy 0 := by
    rw [issued, Finset.sum_range_one]
    rfl
  obtain ⟨k, hk⟩ := Nat.exists_eq_add_of_le h.le_lastStep
  rw [← sum_stepSubsidy h, hk, issued_add, hone, largestSubsidy_zero]
  congr 1
  refine Finset.sum_congr rfl fun n hn => hsteps n ?_
  exact Int.ofNat_le.mpr (Finset.mem_Ico.mp hn).1

theorem scheduled_stakeSubsidySteps :
    (11000000 * COIN).toInt + scheduled 1 stakeSubsidySteps = 7119826390000000000 := by
  decide

theorem issued_tail (k : ℕ) : issued (4993200 + k) = 7119826390000000000 + k * 100000000000 := by
  have htail : ∀ n ∈ Finset.Ico 4993200 (4993200 + k), largestSubsidy n = 100000000000 := by
    intro n hn
    have hle : (4993200 : ℤ) ≤ n := Int.ofNat_le.mpr (Finset.mem_Ico.mp hn).1
    rw [largestSubsidy_eq (by omega), stepSubsidy_tail hle]
    rfl
  rw [issued_add, Finset.sum_congr rfl htail, Finset.sum_const, Nat.card_Ico, Nat.add_sub_cancel_left,
    nsmul_eq_mul, ← lastStep_stakeSubsidySteps,
    issued_of_steps ascending_stakeSubsidySteps fun n hn => largestSubsidy_eq hn,
    scheduled_stakeSubsidySteps]

/-- The last height up to which all subsidies together are an amount. -/
def lastRepresentable : ℕ := 26028656

theorem issued_le_iff (h : ℕ) : issued h ≤ MAX_MONEY.toInt ↔ h ≤ lastRepresentable := by
  have hlast : issued lastRepresentable ≤ MAX_MONEY.toInt := by
    rw [lastRepresentable, show 26028656 = 4993200 + 21035456 from rfl, issued_tail]
    decide
  have hnext : MAX_MONEY.toInt < issued (lastRepresentable + 1) := by
    rw [lastRepresentable, show 26028656 + 1 = 4993200 + 21035457 from rfl, issued_tail]
    decide
  constructor
  · intro hle
    by_contra hlt
    exact absurd (hnext.trans_le (issued_mono (Nat.succ_le_of_lt (Nat.lt_of_not_le hlt)))) (not_lt.mpr hle)
  · exact fun hle => (issued_mono hle).trans hlast

/-- A block is granted at most the largest subsidy of its height. -/
theorem blockSubsidy_le_largestSubsidy (n : ℕ) (block : CBlock) :
    (blockSubsidy n block).toInt ≤ largestSubsidy n := by
  rw [blockSubsidy]
  split_ifs
  · exact le_max_right _ _
  · rcases Nat.eq_zero_or_pos n with rfl | hn
    · exact le_max_left _ _
    · have hn' : (1 : ℤ) ≤ n := Int.ofNat_le.mpr hn
      rw [largestSubsidy_eq hn']
      exact (getProofOfWorkSubsidy_le hn').trans (le_stepSubsidy n)

theorem granted_le_issued (h : ℕ) (blocks : List CBlock) :
    issued h + ChainState.granted h blocks ≤ issued (h + blocks.length) := by
  induction blocks generalizing h with
  | nil => rw [ChainState.granted, add_zero, List.length_nil, Nat.add_zero]
  | cons b blocks ih =>
    have hb := blockSubsidy_le_largestSubsidy h b
    have hrest := ih (h + 1)
    have hstep : issued (h + 1) = issued h + largestSubsidy h := Finset.sum_range_succ _ _
    rw [ChainState.granted, List.length_cons, show h + (blocks.length + 1) = h + 1 + blocks.length by ring]
    rw [Nat.cast_succ] at hrest
    omega

/-! ## Sums of unspent outputs -/

section

variable {view : CoinsView}

theorem CoinsView.Nonneg.total_nonneg (hn : view.Nonneg) : 0 ≤ view.total := by
  refine List.sum_nonneg fun x hx => ?_
  obtain ⟨e, he, rfl⟩ := List.mem_map.mp hx
  exact CCoins.value_nonneg (hn e.1 e.2 (List.mem_dlookup view.coins.nodupKeys he))

theorem CoinsView.Nonneg.output_nonneg (hn : view.Nonneg) {o : COutPoint} {out : CTxOut}
    (h : view.output o = some out) : 0 ≤ out.nValue.toInt := by
  rw [CoinsView.output, Option.bind_eq_some_iff] at h
  obtain ⟨c, hc, hout⟩ := h
  obtain ⟨hmem, hnull⟩ := CCoins.output_eq_some.mp hout
  rw [← CTxOut.value_of_not_isNull hnull]
  exact hn _ c hc out (List.mem_of_getElem? hmem)

theorem exists_spendInput {txin : CTxIn} {out : CTxOut} (h : view.output txin.prevout = some out) :
    ∃ view' undo, spendInput view txin = some (view', undo) := by
  rw [CoinsView.output, Option.bind_eq_some_iff] at h
  obtain ⟨c, hc, hout⟩ := h
  obtain ⟨hmem, hnull⟩ := CCoins.output_eq_some.mp hout
  rw [spendInput, hc, Option.getD_some, hmem]
  simp only [Option.bind_eq_bind, Option.bind_some, hnull, Bool.false_eq_true, if_false]
  exact ⟨_, _, rfl⟩

theorem CoinsView.Nonneg.valueIn_le_total (hn : view.Nonneg) {vin : List CTxIn}
    (hnodup : (vin.map CTxIn.prevout).Nodup) : view.valueIn vin ≤ view.total := by
  induction vin generalizing view with
  | nil => exact hn.total_nonneg
  | cons i vin ih =>
    rw [List.map_cons, List.nodup_cons] at hnodup
    rw [CoinsView.valueIn, List.map_cons, List.sum_cons]
    cases hout : view.output i.prevout with
    | none =>
      rw [Option.map_none, Option.getD_none, zero_add]
      exact ih hn hnodup.2
    | some out =>
      obtain ⟨view', undo, hspend⟩ := exists_spendInput hout
      have hrest := ih (nonneg_spendInput hn hspend) hnodup.2
      -- The other outputs are still there after the first one is spent.
      have hsame : view'.valueIn vin = view.valueIn vin := by
        rw [CoinsView.valueIn, CoinsView.valueIn]
        congr 1
        refine List.map_congr_left fun j hj => ?_
        have hne : j.prevout ≠ i.prevout := fun heq => hnodup.1 (heq ▸ List.mem_map_of_mem hj)
        rw [output_spendInput hspend, if_neg hne]
      have hundo : undo.txout = out := Option.some.inj ((txout_spendInput hspend).symm.trans hout)
      rw [hsame, CoinsView.valueIn, total_spendInput hspend, hundo] at hrest
      rw [Option.map_some, Option.getD_some]
      omega

theorem CoinsView.Nonneg.leadingSum_le_valueIn (hn : view.Nonneg) (vin : List CTxIn) :
    leadingSum (inputValue view) vin ≤ view.valueIn vin := by
  have hvalue : ∀ i : CTxIn, 0 ≤ ((view.output i.prevout).map fun o => o.nValue.toInt).getD 0 := by
    intro i
    cases hout : view.output i.prevout with
    | none => exact le_rfl
    | some out => exact hn.output_nonneg hout
  induction vin with
  | nil => exact le_rfl
  | cons i vin ih =>
    rw [leadingSum, inputValue, CoinsView.getOutputFor_eq, CoinsView.valueIn, List.map_cons,
      List.sum_cons]
    rw [CoinsView.valueIn] at ih
    cases hout : view.output i.prevout with
    | none =>
      rw [Option.map_none, Option.map_none, Option.getD_none, zero_add]
      exact (leadingSum_nonneg vin).trans ih
    | some out =>
      have hout0 := hn.output_nonneg hout
      simp only [Option.map_some, Option.getD_some, if_neg (not_lt.mpr hout0)]
      omega

/-- `GetValueIn` over distinct inputs does not overflow in a view whose total is an amount. -/
theorem CoinsView.Nonneg.getValueInAdditions_inRange (hn : view.Nonneg)
    (htotal : view.total ≤ MAX_MONEY.toInt) {tx : CTransaction}
    (hnodup : (tx.vin.map CTxIn.prevout).Nodup) :
    ∀ ad ∈ getValueInAdditions tx view, ad.InRange := by
  cases hcb : tx.isCoinBase with
  | true =>
    rw [getValueInAdditions, hcb, if_pos rfl]
    exact fun ad had => absurd had List.not_mem_nil
  | false =>
    refine (getValueInAdditions_inRange_iff hcb fun o out hout =>
      moneyRange_iff.mpr (hn.output_nonneg hout)).mpr ?_
    exact (hn.leadingSum_le_valueIn _).trans ((hn.valueIn_le_total hnodup).trans htotal)

end

/-! ## Fees -/

/-- What a transaction adds to `nFees`. -/
def feeTally (tx : CTransaction) (st : ConnectState) : List Addition :=
  if tx.isCoinBase ∨ tx.isCoinStake then []
  else
    match tx.getValueOut, st.view.getValueIn tx with
    | some nValueOut, some nValueIn => [(st.nFees, nValueIn - nValueOut)]
    | _, _ => []

/-- The additions to `nFees` in a loop over transactions. -/
def feeTallies (step : ConnectState → CTransaction → Check ConnectState) :
    ConnectState → List CTransaction → List Addition
  | _, [] => []
  | st, tx :: vtx =>
    feeTally tx st ++
      match step st tx with
      | .error _ => []
      | .ok st' => feeTallies step st' vtx

/-- The additions to `nFees` when a block is connected to a chain. -/
def ChainState.feeTallies (crypto : Crypto) (p : Params) (s : ChainState) (block : CBlock) :
    List Addition :=
  match s.path.head? with
  | none => []
  | some pprev =>
    if block.getHash crypto = p.hashGenesisBlock then []
    else X2XCoin.feeTallies (connectTx crypto true (blockScriptFlags p block) (pprev.nHeight + 1)
      (newIndex crypto p s.path block).nHeight) { view := s.view } block.vtx

section

variable {crypto : Crypto} {tx : CTransaction} {st st' : ConnectState} {fScriptChecks : Bool}
  {flags : UInt32} {nSpendHeight : ℤ} {nHeight : ℕ}

theorem feeTallies_cons {step : ConnectState → CTransaction → Check ConnectState}
    (h : step st tx = .ok st') (vtx : List CTransaction) :
    feeTallies step st (tx :: vtx) = feeTally tx st ++ feeTallies step st' vtx := by
  rw [feeTallies, h]

/-- The transactions that claim the reward add nothing to the fees. -/
theorem feeTallies_append {step : ConnectState → CTransaction → Check ConnectState}
    {first : List CTransaction} (hfirst : ∀ tx ∈ first, tx.isCoinBase = true ∨ tx.isCoinStake = true)
    (h : first.foldlM step st = .ok st') (rest : List CTransaction) :
    feeTallies step st (first ++ rest) = feeTallies step st' rest := by
  induction first generalizing st with
  | nil =>
    obtain rfl : st = st' := by simpa using h
    rfl
  | cons tx first ih =>
    rw [List.foldlM_cons, check_bind_eq_ok] at h
    obtain ⟨st₁, h₁, h₂⟩ := h
    obtain ⟨htx, hfirst⟩ := List.forall_mem_cons.mp hfirst
    rw [List.cons_append, feeTallies_cons h₁, feeTally, if_pos htx, List.nil_append, ih hfirst h₂]

/-- The exact fees of ordinary transactions: they come out of the total, `nFees` is their sum at 64
bits, and if the sum is an amount no addition overflows. -/
theorem connectTxs_fees {vtx : List CTransaction}
    (hord : ∀ tx ∈ vtx, Ordinary tx) (hn : st.view.Nonneg)
    (h : connectTxs crypto fScriptChecks flags nSpendHeight nHeight st vtx = .ok st') :
    ∃ fees : ℤ, 0 ≤ fees ∧ fees ≤ st.view.total ∧
      (∃ k : ℤ, st'.nFees.toInt = st.nFees.toInt + fees - 2 ^ 64 * k) ∧
      (0 ≤ st.nFees.toInt → st.nFees.toInt + fees < 2 ^ 63 → ∀ ad ∈
        feeTallies (connectTx crypto fScriptChecks flags nSpendHeight nHeight) st vtx, ad.InRange) := by
  induction vtx generalizing st with
  | nil =>
    obtain rfl : st = st' := by simpa [connectTxs] using h
    exact ⟨0, le_rfl, hn.total_nonneg, ⟨0, by omega⟩, fun _ _ ad had => absurd had List.not_mem_nil⟩
  | cons tx vtx ih =>
    rw [connectTxs, List.foldlM_cons, check_bind_eq_ok] at h
    obtain ⟨st₁, h₁, h₂⟩ := h
    obtain ⟨htx, hord⟩ := List.forall_mem_cons.mp hord
    obtain ⟨v, w, hv, hw, hfee, htotal, hnFees, -, hn₁⟩ := connectTx_ordinary htx hn h₁
    have htally : feeTally tx st = [(st.nFees, v - w)] := by
      rw [feeTally, htx.1, htx.2.1, if_neg (by simp), hw, hv]
    generalize v - w = fee at hfee htotal hnFees htally
    obtain ⟨fees, hfees, hle, ⟨k, hk⟩, hrange⟩ := ih hord hn₁ h₂
    refine ⟨fee.toInt + fees, by omega, by omega, ?_, fun hpos hlt => ?_⟩
    · rcases toInt_add_eq st.nFees fee with heq | heq | heq <;> rw [← hnFees] at heq
      · exact ⟨k, by omega⟩
      · exact ⟨k + 1, by omega⟩
      · exact ⟨k - 1, by omega⟩
    · have hsum : st₁.nFees.toInt = st.nFees.toInt + fee.toInt := by
        rw [hnFees]
        exact toInt_add_of_lt hpos hfee (by omega)
      rw [feeTallies_cons h₁, htally, List.forall_mem_append, List.forall_mem_singleton]
      refine ⟨⟨?_, ?_⟩, hrange (by omega) (by omega)⟩
      · show (-2 ^ 63 : ℤ) ≤ st.nFees.toInt + fee.toInt
        omega
      · show st.nFees.toInt + fee.toInt < 2 ^ 63
        omega

/-- A reward that passes its test leaves no room for fees beyond an amount. -/
theorem fees_lt {total fees k : ℤ} {nFees reward subsidy : CAmount} (htotal : total ≤ MAX_MONEY.toInt)
    (hle : fees ≤ total + reward.toInt)
    (hk : nFees.toInt = fees - 2 ^ 64 * k) (hsubsidy : 0 ≤ subsidy.toInt ∧ subsidy.toInt < 2 ^ 62)
    (hreward : ¬ reward > nFees + subsidy) : fees < 2 ^ 63 := by
  rw [gt_iff_lt, Int64.lt_iff_toInt_lt, not_lt] at hreward
  rw [toInt_MAX_MONEY] at htotal
  have hreward' := reward.toInt_lt
  have hfees := nFees.le_toInt
  have hfees' := nFees.toInt_lt
  have hsum := (nFees + subsidy).toInt_lt
  have hsum' := (nFees + subsidy).le_toInt
  by_contra hge
  -- The sum of the fees has wrapped once, so the reward would have to be negative.
  have hk1 : k = 1 := by omega
  rcases toInt_add_eq nFees subsidy with heq | heq | heq <;> omega

/-- The fees of a block whose reward passes its test. -/
theorem RewardedRun.feeTallies_inRange {subsidy : CAmount} {view : CoinsView} {vtx : List CTransaction}
    (h : RewardedRun (connectTx crypto fScriptChecks flags nSpendHeight nHeight) subsidy view vtx st)
    (htotal : view.total ≤ MAX_MONEY.toInt) (hsubsidy : 0 ≤ subsidy.toInt ∧ subsidy.toInt < 2 ^ 62) :
    ∀ ad ∈ feeTallies (connectTx crypto fScriptChecks flags nSpendHeight nHeight) { view := view } vtx,
      ad.InRange := by
  obtain ⟨first, rest, st₁, reward, rfl, hclaim, hord, hfirst, hrest, htotal₁, hfees₁, hn₁, hreward⟩ :=
    h
  obtain ⟨fees, -, hle, ⟨k, hk⟩, hrange⟩ := connectTxs_fees hord hn₁ hrest
  have hz : st₁.nFees.toInt = 0 := by rw [hfees₁]; rfl
  have hlt : fees < 2 ^ 63 :=
    fees_lt htotal (by omega) (by rw [hk, hz, zero_add]) hsubsidy hreward
  rw [feeTallies_append hclaim hfirst]
  exact hrange hz.ge (by omega)

end

/-! ## Chains -/

namespace ChainState

variable {crypto : Crypto} {p : Params} {s s' : ChainState}

/-- The fees of a block that is connected to a chain whose total is an amount. -/
theorem feeTallies_inRange {block : CBlock} (hn : s.view.Nonneg)
    (htotal : s.view.total ≤ MAX_MONEY.toInt) (hv3 : p.isProtocolV3 block.getBlockTime = true)
    (hno : block.NoStakeInWork) (h : s.connectNext crypto p block = .ok s') :
    ∀ ad ∈ s.feeTallies crypto p block, ad.InRange := by
  obtain ⟨r, hr, -⟩ := connectNext_ok h
  rw [feeTallies]
  cases hhead : s.path.head? with
  | none => exact fun ad had => absurd had List.not_mem_nil
  | some pprev =>
    by_cases hgen : block.getHash crypto = p.hashGenesisBlock
    · simp only [if_pos hgen]
      exact fun ad had => absurd had List.not_mem_nil
    · obtain ⟨hblock, pprev', st, hhead', -, hloop, hreward, -⟩ := connectBlock_ok hr hgen
      obtain rfl : pprev = pprev' := Option.some.inj (hhead.symm.trans hhead')
      simp only [if_neg hgen]
      exact (block_run hblock hn hv3 hno hloop hreward).feeTallies_inRange htotal
        (blockSubsidy_bounds _ block)

/-- A chain of the main net that conserves money. -/
structure Conserving (crypto : Crypto) (blocks : List CBlock) (s : ChainState) : Prop where
  connected : mainGenesis.connectAll crypto mainParams blocks = .ok s
  protocolV3 : ∀ b ∈ blocks, mainParams.isProtocolV3 b.getBlockTime = true
  noStakeInWork : ∀ b ∈ blocks, b.NoStakeInWork

theorem Conserving.total_le {blocks : List CBlock} (h : Conserving crypto blocks s) :
    s.view.total ≤ issued blocks.length ∧ s.view.Nonneg := by
  obtain ⟨htotal, hn⟩ := connectAll_total_le mainGenesis_nonneg h.protocolV3 h.noStakeInWork h.connected
  have hzero : mainGenesis.view.total = 0 := rfl
  have hheight : mainGenesis.height = ((0 : ℕ) : ℤ) := rfl
  have hissued : issued 0 = 0 := rfl
  have hgranted := granted_le_issued 0 blocks
  rw [hzero, hheight, zero_add] at htotal
  rw [hissued, zero_add, Nat.zero_add] at hgranted
  exact ⟨htotal.trans hgranted, hn⟩

end ChainState

/-- All subsidies up to the height together are an amount, and so are the sums of distinct unspent
outputs of the chains up to there and the fees of their blocks. -/
structure Representable (h : ℕ) : Prop where
  issued : issued h ≤ MAX_MONEY.toInt
  valueIn : ∀ crypto blocks s, blocks.length ≤ h → ChainState.Conserving crypto blocks s →
    ∀ tx : CTransaction, (tx.vin.map CTxIn.prevout).Nodup →
      s.view.valueIn tx.vin ≤ MAX_MONEY.toInt ∧ ∀ ad ∈ getValueInAdditions tx s.view, ad.InRange
  fees : ∀ crypto blocks b s s', (blocks ++ [b]).length ≤ h → ChainState.Conserving crypto blocks s →
    ChainState.Conserving crypto (blocks ++ [b]) s' →
    ∀ ad ∈ s.feeTallies crypto mainParams b, ad.InRange

/-- The issuance of the main net is representable exactly up to height 26028656. -/
theorem issuance_representable_iff (h : ℕ) : Representable h ↔ h ≤ lastRepresentable := by
  constructor
  · exact fun hrep => (issued_le_iff h).mp hrep.issued
  · intro hle
    have hissued := (issued_le_iff h).mpr hle
    have htotal : ∀ {crypto blocks s}, blocks.length ≤ h → ChainState.Conserving crypto blocks s →
        s.view.total ≤ MAX_MONEY.toInt := fun hlen hs =>
      hs.total_le.1.trans ((issued_mono hlen).trans hissued)
    refine ⟨hissued, fun crypto blocks s hlen hs tx hnodup => ?_, ?_⟩
    · have hn := hs.total_le.2
      exact ⟨(hn.valueIn_le_total hnodup).trans (htotal hlen hs),
        hn.getValueInAdditions_inRange (htotal hlen hs) hnodup⟩
    · intro crypto blocks b s s' hlen hs hs'
      have hnext : s.connectNext crypto mainParams b = .ok s' := by
        have := hs'.connected
        rw [ChainState.connectAll, List.foldlM_append, check_bind_eq_ok] at this
        obtain ⟨s₁, h₁, h₂⟩ := this
        obtain rfl : s = s₁ := Except.ok.inj (hs.connected.symm.trans h₁)
        simpa using h₂
      have hb : b ∈ blocks ++ [b] := List.mem_append_right _ List.mem_cons_self
      refine ChainState.feeTallies_inRange hs.total_le.2 (htotal ?_ hs) (hs'.protocolV3 b hb)
        (hs'.noStakeInWork b hb) hnext
      rw [List.length_append] at hlen
      omega

/-- The tail emission takes the sum past the largest amount. -/
theorem issued_exceeds_MAX_MONEY : MAX_MONEY.toInt < issued 26028657 := by
  rw [show 26028657 = 4993200 + 21035457 from rfl, issued_tail]
  decide

end X2XCoin
