import X2XCoin.Lib.Mask
import X2XCoin.Primitives.Amount

/-!
# Coin selection

`ApproximateBestSubset` and `CWallet::SelectCoinsMinConf`.  The random choices are a shuffle of the
coins, the order among coins of equal value after `std::sort`, and a bit for every coin in every
repetition of the search.
-/

namespace X2XCoin

namespace Wallet

def MIN_CHANGE : CAmount := CENT

structure COutput where
  tx : Uint256
  i : ℕ
  /-- `tx->vout[i].nValue`. -/
  nValue : CAmount
  nDepth : ℤ
  fSpendable : Bool
  isFromMe : Bool
  /-- The numbers of ancestors and descendants in the mempool, if the transaction is there. -/
  chainLength : Option (ℕ × ℕ)
  deriving DecidableEq

namespace COutput

/-- The pair that is put into `setCoinsRet`. -/
def coin (output : COutput) : Uint256 × ℕ := (output.tx, output.i)

def withinChainLimit (output : COutput) (chainLimit : ℕ) : Bool :=
  match output.chainLength with
  | none => true
  | some (ancestors, descendants) => ancestors < chainLimit && descendants < chainLimit

end COutput

/-! ## The search for a subset -/

/-- The variables of `ApproximateBestSubset`. -/
structure Search where
  nTotal : CAmount
  vfIncluded : List Bool
  fReachedTarget : Bool
  nBest : CAmount
  vfBest : List Bool

namespace Search

variable (vValue : List CAmount) (nTargetValue : CAmount)

/-- A coin is included; if that reaches the target it is taken out again. -/
def tryCoin (s : Search) (i : ℕ) : Search :=
  let nTotal := s.nTotal + vValue.getD i 0
  let vfIncluded := s.vfIncluded.set i true
  if nTargetValue ≤ nTotal then
    let best := if nTotal < s.nBest then (nTotal, vfIncluded) else (s.nBest, s.vfBest)
    { nTotal := nTotal - vValue.getD i 0
      vfIncluded := vfIncluded.set i false
      fReachedTarget := true
      nBest := best.1
      vfBest := best.2 }
  else { s with nTotal := nTotal, vfIncluded := vfIncluded }

/-- The first pass takes coins at random, the second those that are not included. -/
def pass (random : Option (ℕ → Bool)) (s : Search) : Search :=
  (List.range vValue.length).foldl (fun s i =>
    if (match random with
      | some bit => bit i
      | none => !s.vfIncluded.getD i false) then s.tryCoin vValue nTargetValue i
    else s) s

def repetition (bit : ℕ → Bool) (s : Search) : Search :=
  let s := { s with
    nTotal := 0
    vfIncluded := List.replicate vValue.length false
    fReachedTarget := false }
  let s := s.pass vValue nTargetValue (some bit)
  if s.fReachedTarget then s else s.pass vValue nTargetValue none

end Search

def approximateBestSubset (vValue : List CAmount) (nTotalLower nTargetValue : CAmount)
    (bit : ℕ → ℕ → Bool) : List Bool × CAmount :=
  let s := (List.range 1000).foldl (fun (s : Search) nRep =>
    if s.nBest = nTargetValue then s else s.repetition vValue nTargetValue (bit nRep))
    ⟨0, [], false, nTotalLower, List.replicate vValue.length true⟩
  (s.vfBest, s.nBest)

/-! ## The selection -/

/-- The outcomes of the random choices. -/
structure Choices where
  shuffle : List COutput → List COutput
  shuffle_perm : ∀ vCoins, (shuffle vCoins).Perm vCoins
  sort : List COutput → List COutput
  sort_perm : ∀ vValue, (sort vValue).Perm vValue
  sort_sorted : ∀ vValue, (sort vValue).Pairwise fun a b => b.nValue ≤ a.nValue
  bit : ℕ → ℕ → Bool
  bit' : ℕ → ℕ → Bool

/-- The result of the loop over the coins: a coin of the target value, or the coins below, their sum
and the smallest of the others. -/
inductive Scan
  | exact (coin : COutput)
  | rest (vValue : List COutput) (nTotalLower : CAmount) (coinLowestLarger : Option COutput)

section

variable (nTargetValue : CAmount) (nConfMine nConfTheirs : ℤ) (nMaxAncestors : ℕ)

def eligible (output : COutput) : Bool :=
  output.fSpendable && (if output.isFromMe then nConfMine else nConfTheirs) ≤ output.nDepth &&
    output.withinChainLimit nMaxAncestors

def scanCoins : List COutput → List COutput → CAmount → Option COutput → Scan
  | [], vValue, nTotalLower, coinLowestLarger => .rest vValue nTotalLower coinLowestLarger
  | output :: vCoins, vValue, nTotalLower, coinLowestLarger =>
    if !eligible nConfMine nConfTheirs nMaxAncestors output then
      scanCoins vCoins vValue nTotalLower coinLowestLarger
    else if output.nValue = nTargetValue then .exact output
    else if output.nValue < nTargetValue + MIN_CHANGE then
      scanCoins vCoins (vValue ++ [output]) (nTotalLower + output.nValue) coinLowestLarger
    else if output.nValue < (coinLowestLarger.map COutput.nValue).getD Int64.maxValue then
      scanCoins vCoins vValue nTotalLower (some output)
    else scanCoins vCoins vValue nTotalLower coinLowestLarger

/-- The coins are put into the set and their values are added up. -/
def collect (coins : List COutput) : Finset (Uint256 × ℕ) × CAmount :=
  coins.foldl (fun (set, nValue) output => (insert output.coin set, nValue + output.nValue)) (∅, 0)

/-- The search for the target and, if it is not met, for the target and the minimal change. -/
def bestSubset (choices : Choices) (vValue : List CAmount) (nTotalLower : CAmount) :
    List Bool × CAmount :=
  let best := approximateBestSubset vValue nTotalLower nTargetValue choices.bit
  if best.2 ≠ nTargetValue ∧ nTargetValue + MIN_CHANGE ≤ nTotalLower then
    approximateBestSubset vValue nTotalLower (nTargetValue + MIN_CHANGE) choices.bit'
  else best

def selectCoinsMinConf (choices : Choices) (vCoins : List COutput) :
    Option (Finset (Uint256 × ℕ) × CAmount) :=
  match scanCoins nTargetValue nConfMine nConfTheirs nMaxAncestors (choices.shuffle vCoins) [] 0
      none with
  | .exact coin => some (collect [coin])
  | .rest vValue nTotalLower coinLowestLarger =>
    if nTotalLower = nTargetValue then some (collect vValue)
    else if nTotalLower < nTargetValue then coinLowestLarger.map fun coin => collect [coin]
    else
      let vValue := choices.sort vValue
      let best := bestSubset nTargetValue choices (vValue.map COutput.nValue) nTotalLower
      match coinLowestLarger with
      | some coin =>
        if (best.2 ≠ nTargetValue ∧ best.2 < nTargetValue + MIN_CHANGE) ∨
            coin.nValue ≤ best.2 then
          some (collect [coin])
        else some (collect (Mask.selected vValue best.1))
      | none => some (collect (Mask.selected vValue best.1))

end

/-! ## The search keeps its books -/

/-- The values as integers. -/
def values (vValue : List CAmount) : List ℤ := vValue.map Int64.toInt

/-- The values are not negative and their sum does not wrap. -/
structure Bounded (vValue : List CAmount) : Prop where
  nonneg : ∀ v ∈ values vValue, 0 ≤ v
  sum_lt : (values vValue).sum < 2 ^ 63

namespace Search

variable {vValue : List CAmount} {nTargetValue : CAmount} {s : Search}

/-- The totals are those of the masks, and the best one reaches the target. -/
structure Books (vValue : List CAmount) (nTargetValue : CAmount) (s : Search) : Prop where
  length : s.vfIncluded.length = vValue.length
  total : s.nTotal.toInt = Mask.sum (values vValue) s.vfIncluded
  best : s.nBest.toInt = Mask.sum (values vValue) s.vfBest
  reached : nTargetValue.toInt ≤ s.nBest.toInt

theorem Books.tryCoin (h : s.Books vValue nTargetValue) (hb : Bounded vValue) {i : ℕ}
    (hi : i < vValue.length) (hfalse : s.vfIncluded[i]? = some false) :
    (s.tryCoin vValue nTargetValue i).Books vValue nTargetValue ∧
      ∀ j, j ≠ i → (s.tryCoin vValue nTargetValue i).vfIncluded[j]? = s.vfIncluded[j]? := by
  have hv : (values vValue)[i]? = some (vValue.getD i 0).toInt := by
    rw [values, List.getElem?_map, List.getD_eq_getElem?_getD, List.getElem?_eq_getElem hi]
    rfl
  have hset := Mask.sum_set_true hv hfalse
  have htotal : (s.nTotal + vValue.getD i 0).toInt =
      Mask.sum (values vValue) (s.vfIncluded.set i true) := by
    have hle : Mask.sum (values vValue) (s.vfIncluded.set i true) ≤ (values vValue).sum :=
      Mask.sum_le hb.nonneg
    have hnonneg : 0 ≤ Mask.sum (values vValue) (s.vfIncluded.set i true) :=
      Mask.sum_nonneg hb.nonneg
    have hlt := hb.sum_lt
    rw [Int64.toInt_add, h.total, hset, Int.bmod_eq_of_le] <;> omega
  have hback : (s.vfIncluded.set i true).set i false = s.vfIncluded := by
    rw [List.set_set]
    refine List.ext_getElem? fun j => ?_
    by_cases hj : i = j
    · rw [← hj, hfalse, List.getElem?_set_self (h.length ▸ hi)]
    · rw [List.getElem?_set_ne hj]
  have hlength : (s.vfIncluded.set i true).length = vValue.length := by
    rw [List.length_set, h.length]
  have hother : ∀ j, j ≠ i → (s.vfIncluded.set i true)[j]? = s.vfIncluded[j]? :=
    fun j hj => List.getElem?_set_ne hj.symm
  unfold Search.tryCoin
  simp only
  split_ifs with hreach hbetter
  · refine ⟨⟨by rw [hback, h.length], ?_, htotal, Int64.le_iff_toInt_le.mp hreach⟩, fun j hj => ?_⟩
    · simp only [hback, Int64.add_sub_cancel, h.total]
    · simp only [hback]
  · refine ⟨⟨by rw [hback, h.length], ?_, h.best, h.reached⟩, fun j hj => ?_⟩
    · simp only [hback, Int64.add_sub_cancel, h.total]
    · simp only [hback]
  · exact ⟨⟨hlength, htotal, h.best, h.reached⟩, hother⟩

theorem Books.pass (h : s.Books vValue nTargetValue) (hb : Bounded vValue)
    {random : Option (ℕ → Bool)}
    (hfalse : random.isSome → ∀ j < vValue.length, s.vfIncluded[j]? = some false) :
    (s.pass vValue nTargetValue random).Books vValue nTargetValue := by
  -- after the coins before `k` the others are as they were
  suffices hk : ∀ k ≤ vValue.length,
      ∀ t, t = (List.range k).foldl (fun (s : Search) i =>
        if (match random with
          | some bit => bit i
          | none => !s.vfIncluded.getD i false) then s.tryCoin vValue nTargetValue i else s) s →
      t.Books vValue nTargetValue ∧ ∀ j, k ≤ j → t.vfIncluded[j]? = s.vfIncluded[j]? from
    (hk _ le_rfl _ rfl).1
  intro k
  induction k with
  | zero =>
    rintro - t rfl
    exact ⟨h, fun _ _ => rfl⟩
  | succ k ih =>
    rintro hk t rfl
    obtain ⟨hbooks, hrest⟩ := ih (by omega) _ rfl
    rw [List.range_succ, List.foldl_append, List.foldl_cons, List.foldl_nil]
    generalize (List.range k).foldl _ s = t at hbooks hrest ⊢
    split_ifs with hcond
    · have hlt : k < t.vfIncluded.length := by rw [hbooks.length]; omega
      have hk' : t.vfIncluded[k]? = some false := by
        cases random with
        | some bit => rw [hrest k le_rfl, hfalse rfl k (by omega)]
        | none =>
          rw [List.getElem?_eq_getElem hlt]
          simpa [List.getD_eq_getElem?_getD, List.getElem?_eq_getElem hlt] using hcond
      obtain ⟨hbooks', hother⟩ := hbooks.tryCoin hb (by omega) hk'
      refine ⟨hbooks', fun j hj => ?_⟩
      rw [hother j (by omega), hrest j (by omega)]
    · exact ⟨hbooks, fun j hj => hrest j (by omega)⟩

theorem Books.repetition (hb : Bounded vValue)
    (hbest : s.nBest.toInt = Mask.sum (values vValue) s.vfBest)
    (hreached : nTargetValue.toInt ≤ s.nBest.toInt) (bit : ℕ → Bool) :
    (s.repetition vValue nTargetValue bit).Books vValue nTargetValue := by
  have hstart : Books vValue nTargetValue { s with
      nTotal := 0
      vfIncluded := List.replicate vValue.length false
      fReachedTarget := false } :=
    ⟨List.length_replicate, (Mask.sum_replicate_false _).symm, hbest, hreached⟩
  have hfalse : ∀ j < vValue.length, (List.replicate vValue.length false)[j]? = some false :=
    fun j hj => List.getElem?_replicate_of_lt hj
  have hfirst := @Books.pass _ _ _ hstart hb (some bit) fun _ => hfalse
  unfold Search.repetition
  simp only
  split_ifs
  · exact hfirst
  · exact hfirst.pass hb fun h => (by cases h)

end Search

/-- The best total is that of a subset and reaches the target. -/
theorem approximateBestSubset_spec {vValue : List CAmount} {nTotalLower nTargetValue : CAmount}
    (hb : Bounded vValue) (htotal : nTotalLower.toInt = (values vValue).sum)
    (htarget : nTargetValue.toInt ≤ nTotalLower.toInt) (bit : ℕ → ℕ → Bool) :
    let best := approximateBestSubset vValue nTotalLower nTargetValue bit
    best.2.toInt = Mask.sum (values vValue) best.1 ∧ nTargetValue.toInt ≤ best.2.toInt := by
  unfold approximateBestSubset
  generalize List.range 1000 = repetitions
  refine List.foldlRecOn (motive := fun s : Search =>
    s.nBest.toInt = Mask.sum (values vValue) s.vfBest ∧ nTargetValue.toInt ≤ s.nBest.toInt)
    repetitions _ ⟨?_, htarget⟩ fun s hs nRep _ => ?_
  · have hlen : vValue.length = (values vValue).length := (List.length_map _).symm
    simp only [hlen, Mask.sum_replicate_true, htotal]
  · split_ifs
    · exact hs
    · have h := Search.Books.repetition hb hs.1 hs.2 (bit nRep)
      exact ⟨h.best, h.reached⟩

/-! ## The loop over the coins -/

/-- The exact value of coins. -/
def worth (coins : List COutput) : ℤ := (coins.map fun output => output.nValue.toInt).sum

theorem worth_append (a b : List COutput) : worth (a ++ b) = worth a + worth b := by
  rw [worth, List.map_append, List.sum_append]
  rfl

theorem worth_singleton (output : COutput) : worth [output] = output.nValue.toInt :=
  List.sum_singleton

theorem worth_perm {a b : List COutput} (h : a.Perm b) : worth a = worth b := (h.map _).sum_eq

theorem worth_eq_values (coins : List COutput) :
    worth coins = (values (coins.map COutput.nValue)).sum := by
  rw [worth, values, List.map_map]
  rfl

theorem ofInt_worth_append (coins : List COutput) (output : COutput) :
    Int64.ofInt (worth coins) + output.nValue = Int64.ofInt (worth (coins ++ [output])) := by
  rw [worth_append, worth_singleton, Int64.ofInt_add, Int64.ofInt_toInt]

section

variable {nTargetValue : CAmount} {coins : List COutput} {vValue : List COutput}
  {nTotalLower : CAmount} {coinLowestLarger : Option COutput}

/-- What the loop can have found among the eligible coins: one of the target value, or the coins
below the target and the minimal change, their sum and one of the others. -/
inductive Scanned (nTargetValue : CAmount) (coins : List COutput) : Scan → Prop
  | exact {coin : COutput} : coin ∈ coins → coin.nValue = nTargetValue →
    Scanned nTargetValue coins (.exact coin)
  | rest {vValue : List COutput} {nTotalLower : CAmount} {coinLowestLarger : Option COutput} :
    vValue = coins.filter (fun output => output.nValue < nTargetValue + MIN_CHANGE) →
    nTotalLower = Int64.ofInt (worth vValue) →
    (coinLowestLarger = none → ∀ output ∈ coins, output.nValue < nTargetValue + MIN_CHANGE) →
    (∀ coin, coinLowestLarger = some coin →
      coin ∈ coins ∧ nTargetValue + MIN_CHANGE ≤ coin.nValue) →
    Scanned nTargetValue coins (.rest vValue nTotalLower coinLowestLarger)

theorem Scanned.nil : Scanned nTargetValue [] (.rest [] 0 none) :=
  .rest rfl rfl (fun _ _ h => absurd h List.not_mem_nil) (fun _ h => nomatch h)

theorem Scanned.lower (h : Scanned nTargetValue coins (.rest vValue nTotalLower coinLowestLarger))
    {output : COutput} (hlt : output.nValue < nTargetValue + MIN_CHANGE) :
    Scanned nTargetValue (coins ++ [output])
      (.rest (vValue ++ [output]) (nTotalLower + output.nValue) coinLowestLarger) := by
  cases h with
  | rest hvalue htotal hnone hsome =>
    refine .rest ?_ ?_ (fun h o ho => ?_) fun coin h => ?_
    · rw [List.filter_append, ← hvalue, List.filter_singleton, decide_eq_true hlt, cond_true]
    · rw [htotal, ofInt_worth_append]
    · rcases List.mem_append.mp ho with ho | ho
      · exact hnone h o ho
      · exact List.mem_singleton.mp ho ▸ hlt
    · exact ⟨List.mem_append_left _ (hsome coin h).1, (hsome coin h).2⟩

theorem Scanned.larger (h : Scanned nTargetValue coins (.rest vValue nTotalLower coinLowestLarger))
    {output : COutput} (hle : ¬output.nValue < nTargetValue + MIN_CHANGE) {largest : Option COutput}
    (hl : largest = some output ∨ largest = coinLowestLarger ∧ coinLowestLarger ≠ none) :
    Scanned nTargetValue (coins ++ [output]) (.rest vValue nTotalLower largest) := by
  cases h with
  | rest hvalue htotal hnone hsome =>
    refine .rest ?_ htotal (fun h => ?_) fun coin h => ?_
    · rw [List.filter_append, ← hvalue, List.filter_singleton, decide_eq_false hle, cond_false,
        List.append_nil]
    · rcases hl with hl | ⟨hl, hn⟩
      · rw [hl] at h
        cases h
      · exact absurd (hl ▸ h) hn
    · rcases hl with hl | ⟨hl, hn⟩
      · rw [hl, Option.some.injEq] at h
        subst h
        exact ⟨List.mem_append_right _ List.mem_cons_self, Int64.not_lt.mp hle⟩
      · have hcoin := hsome coin (hl ▸ h)
        exact ⟨List.mem_append_left _ hcoin.1, hcoin.2⟩

variable {nConfMine nConfTheirs : ℤ} {nMaxAncestors : ℕ}

theorem scanCoins_spec {vCoins : List COutput}
    (hvalue : ∀ output ∈ vCoins, output.nValue < Int64.maxValue)
    (h : Scanned nTargetValue coins (.rest vValue nTotalLower coinLowestLarger)) :
    Scanned nTargetValue (coins ++ vCoins.filter (eligible nConfMine nConfTheirs nMaxAncestors))
      (scanCoins nTargetValue nConfMine nConfTheirs nMaxAncestors vCoins vValue nTotalLower
        coinLowestLarger) := by
  induction vCoins generalizing coins vValue nTotalLower coinLowestLarger with
  | nil => simpa [scanCoins] using h
  | cons output vCoins ih =>
    have hvalue' : ∀ output ∈ vCoins, output.nValue < Int64.maxValue :=
      fun o ho => hvalue o (List.mem_cons_of_mem _ ho)
    rw [scanCoins]
    by_cases he : eligible nConfMine nConfTheirs nMaxAncestors output
    · rw [List.filter_cons_of_pos he, if_neg (by simp [he]), List.append_cons]
      split_ifs with hexact hlower hlowest
      · exact .exact (by simp) hexact
      · exact ih hvalue' (h.lower hlower)
      · exact ih hvalue' (h.larger hlower (.inl rfl))
      · refine ih hvalue' (h.larger hlower (.inr ⟨rfl, fun hnone => hlowest ?_⟩))
        rw [hnone]
        exact hvalue output List.mem_cons_self
    · rw [List.filter_cons_of_neg he, if_pos (by simp [he])]
      exact ih hvalue' h

end

/-! ## The selected coins -/

theorem collect_eq (coins : List COutput) :
    collect coins = ((coins.map COutput.coin).toFinset, Int64.ofInt (worth coins)) := by
  induction coins using List.reverseRecOn with
  | nil => rfl
  | append_singleton coins output ih =>
    rw [collect, List.foldl_append, ← collect, ih, List.map_append, List.toFinset_append,
      Finset.union_comm, ← ofInt_worth_append]
    rfl

theorem worth_nonneg {coins : List COutput} (h : ∀ output ∈ coins, 0 < output.nValue.toInt) :
    0 ≤ worth coins := by
  refine List.sum_nonneg fun v hv => ?_
  obtain ⟨output, hmem, rfl⟩ := List.mem_map.mp hv
  exact (h output hmem).le

theorem worth_subperm {a b : List COutput} (h : a.Subperm b)
    (hpos : ∀ output ∈ b, 0 < output.nValue.toInt) : worth a ≤ worth b := by
  obtain ⟨c, hperm, hsub⟩ := h
  rw [← worth_perm hperm]
  refine (hsub.map _).sum_le_sum fun v hv => ?_
  obtain ⟨output, hmem, rfl⟩ := List.mem_map.mp hv
  exact (hpos output hmem).le

/-- The coins whose transaction and index are in a set. -/
def ofSet (coins : List COutput) (setCoinsRet : Finset (Uint256 × ℕ)) : List COutput :=
  coins.filter fun output => output.coin ∈ setCoinsRet

theorem ofSet_perm_of_subperm {coins selected : List COutput}
    (hdistinct : (coins.map COutput.coin).Nodup) (h : selected.Subperm coins) :
    (ofSet coins (selected.map COutput.coin).toFinset).Perm selected := by
  have hnodup : coins.Nodup := hdistinct.of_map
  have hselected : selected.Nodup := by
    obtain ⟨l, hperm, hsub⟩ := h
    exact hperm.nodup_iff.mp (hsub.nodup hnodup)
  refine (List.perm_ext_iff_of_nodup (hnodup.filter _) hselected).mpr fun output => ?_
  rw [List.mem_filter, decide_eq_true_eq, List.mem_toFinset, List.mem_map]
  constructor
  · rintro ⟨hmem, output', hsel, hcoin⟩
    rwa [← List.inj_on_of_nodup_map hdistinct (h.subset hsel) hmem hcoin]
  · exact fun hsel => ⟨h.subset hsel, output, hsel, rfl⟩

/-! ## Sound, complete and without tiny change -/

section

variable {nTargetValue : CAmount}

/-- The value is the target, leaves at least the minimal change, or no coins could do so. -/
def AvoidsTinyChange (nTargetValue : CAmount) (coins : List COutput) (nValueRet : ℤ) : Prop :=
  nValueRet = nTargetValue.toInt ∨
  nTargetValue.toInt + MIN_CHANGE.toInt ≤ nValueRet ∨
  (∀ output ∈ coins, output.nValue.toInt < nTargetValue.toInt + MIN_CHANGE.toInt) ∧
    worth coins < nTargetValue.toInt + MIN_CHANGE.toInt

/-- The hypotheses on the eligible coins and the target. -/
structure Payable (nTargetValue : CAmount) (coins : List COutput) : Prop where
  pos : ∀ output ∈ coins, 0 < output.nValue.toInt
  sum_lt : worth coins < 2 ^ 63
  target_pos : 0 < nTargetValue.toInt
  target_lt : nTargetValue.toInt + MIN_CHANGE.toInt < 2 ^ 63

namespace Payable

variable {coins : List COutput}

theorem withChange (h : Payable nTargetValue coins) :
    (nTargetValue + MIN_CHANGE).toInt = nTargetValue.toInt + MIN_CHANGE.toInt := by
  have hpos := h.target_pos
  have hlt := h.target_lt
  have hchange : MIN_CHANGE.toInt = 1000000 := by decide
  rw [Int64.toInt_add, hchange, Int.bmod_eq_of_le] <;> omega

theorem of_subperm (h : Payable nTargetValue coins) {selected : List COutput}
    (hs : selected.Subperm coins) : Payable nTargetValue selected where
  pos := fun output ho => h.pos output (hs.subset ho)
  sum_lt := (worth_subperm hs h.pos).trans_lt h.sum_lt
  target_pos := h.target_pos
  target_lt := h.target_lt

theorem toInt_worth (h : Payable nTargetValue coins) :
    (Int64.ofInt (worth coins)).toInt = worth coins := by
  have hnonneg := worth_nonneg h.pos
  have hlt := h.sum_lt
  exact Int64.toInt_ofInt_of_le (by omega) (by omega)

theorem bounded (h : Payable nTargetValue coins) : Bounded (coins.map COutput.nValue) where
  nonneg := fun v hv => by
    rw [values, List.map_map] at hv
    obtain ⟨output, ho, rfl⟩ := List.mem_map.mp hv
    exact (h.pos output ho).le
  sum_lt := worth_eq_values coins ▸ h.sum_lt

end Payable

theorem worth_selected (coins : List COutput) (mask : List Bool) :
    worth (Mask.selected coins mask) = Mask.sum (values (coins.map COutput.nValue)) mask := by
  rw [worth_eq_values, Mask.sum, values, values, Mask.selected_map, Mask.selected_map]

/-- The search meets the target, or with the minimal change if all coins reach that. -/
theorem bestSubset_spec {coins : List COutput} (h : Payable nTargetValue coins) (choices : Choices)
    (hreach : nTargetValue.toInt ≤ worth coins) :
    let best := bestSubset nTargetValue choices (coins.map COutput.nValue)
      (Int64.ofInt (worth coins))
    best.2.toInt = worth (Mask.selected coins best.1) ∧ nTargetValue.toInt ≤ best.2.toInt ∧
      (best.2 = nTargetValue ∨ nTargetValue.toInt + MIN_CHANGE.toInt ≤ best.2.toInt ∨
        worth coins < nTargetValue.toInt + MIN_CHANGE.toInt) := by
  have htotal : (Int64.ofInt (worth coins)).toInt = (values (coins.map COutput.nValue)).sum := by
    rw [h.toInt_worth, worth_eq_values]
  have hfirst :=
    approximateBestSubset_spec h.bounded htotal (h.toInt_worth.symm ▸ hreach) choices.bit
  unfold bestSubset
  simp only [worth_selected]
  split_ifs with hagain
  · have hwith : (nTargetValue + MIN_CHANGE).toInt ≤ (Int64.ofInt (worth coins)).toInt :=
      Int64.le_iff_toInt_le.mp hagain.2
    have hsecond := approximateBestSubset_spec h.bounded htotal hwith choices.bit'
    have hmore := hsecond.2
    rw [h.withChange] at hmore
    have hchange : 0 ≤ MIN_CHANGE.toInt := by decide
    exact ⟨hsecond.1, by omega, .inr (.inl hmore)⟩
  · refine ⟨hfirst.1, hfirst.2, ?_⟩
    rcases not_and_or.mp hagain with hmet | hless
    · exact .inl (not_not.mp hmet)
    · rw [Int64.le_iff_toInt_le, h.withChange, h.toInt_worth, not_le] at hless
      exact .inr (.inr hless)

/-- The selected coins are among the eligible ones, reach the target and avoid tiny change. -/
structure Pays (nTargetValue : CAmount) (coins selected : List COutput) : Prop where
  subperm : selected.Subperm coins
  reached : nTargetValue.toInt ≤ worth selected
  avoids : AvoidsTinyChange nTargetValue coins (worth selected)

theorem Pays.larger {coins : List COutput} (h : Payable nTargetValue coins) {coin : COutput}
    (hmem : coin ∈ coins) (hle : nTargetValue + MIN_CHANGE ≤ coin.nValue) :
    Pays nTargetValue coins [coin] := by
  rw [Int64.le_iff_toInt_le, h.withChange, ← worth_singleton] at hle
  have hchange : 0 ≤ MIN_CHANGE.toInt := by decide
  exact ⟨List.singleton_subperm_iff.mpr hmem, by omega, .inr (.inl hle)⟩

theorem Pays.of_eq {coins selected : List COutput} (hsub : selected.Subperm coins)
    (h : worth selected = nTargetValue.toInt) : Pays nTargetValue coins selected :=
  ⟨hsub, h.ge, .inl h⟩

theorem Pays.perm {coins coins' selected : List COutput} (h : Pays nTargetValue coins selected)
    (hperm : coins.Perm coins') : Pays nTargetValue coins' selected := by
  refine ⟨h.subperm.trans hperm.subperm, h.reached, ?_⟩
  rcases h.avoids with heq | hmore | ⟨hall, hless⟩
  · exact .inl heq
  · exact .inr (.inl hmore)
  · refine .inr (.inr ⟨fun output ho => ?_, worth_perm hperm ▸ hless⟩)
    exact hall output (hperm.mem_iff.mpr ho)

theorem selectCoinsMinConf_collects {nConfMine nConfTheirs : ℤ} {nMaxAncestors : ℕ}
    {choices : Choices} {vCoins : List COutput}
    (hvalue : ∀ output ∈ vCoins, output.nValue < Int64.maxValue)
    {result : Finset (Uint256 × ℕ) × CAmount}
    (h : selectCoinsMinConf nTargetValue nConfMine nConfTheirs nMaxAncestors choices vCoins =
      some result) :
    ∃ selected : List COutput, selected.Subperm vCoins ∧ result = collect selected := by
  have hscan : Scanned nTargetValue
      ((choices.shuffle vCoins).filter (eligible nConfMine nConfTheirs nMaxAncestors))
      (scanCoins nTargetValue nConfMine nConfTheirs nMaxAncestors (choices.shuffle vCoins) [] 0
        none) :=
    scanCoins_spec (fun output ho => hvalue output ((choices.shuffle_perm vCoins).mem_iff.mp ho))
      Scanned.nil
  have hsub : ∀ selected : List COutput, selected.Subperm ((choices.shuffle vCoins).filter
      (eligible nConfMine nConfTheirs nMaxAncestors)) → selected.Subperm vCoins := fun _ hs =>
    (hs.trans List.filter_sublist.subperm).trans (choices.shuffle_perm vCoins).subperm
  unfold selectCoinsMinConf at h
  generalize scanCoins nTargetValue nConfMine nConfTheirs nMaxAncestors (choices.shuffle vCoins) []
    0 none = scan at hscan h
  cases hscan with
  | @exact coin hmem hexact =>
    simp only [Option.some.injEq] at h
    exact ⟨[coin], hsub _ (List.singleton_subperm_iff.mpr hmem), h.symm⟩
  | @rest vValue nTotalLower coinLowestLarger hfilter htotal hnone hsome =>
    have hlower : vValue.Subperm vCoins := by
      refine hsub vValue ?_
      rw [hfilter]
      exact List.filter_sublist.subperm
    have hmask : ∀ mask, (Mask.selected (choices.sort vValue) mask).Subperm vCoins := fun mask =>
      ((Mask.selected_sublist _ _).subperm.trans (choices.sort_perm vValue).subperm).trans hlower
    have hlarger : ∀ coin, coinLowestLarger = some coin → [coin].Subperm vCoins := fun coin hc =>
      hsub _ (List.singleton_subperm_iff.mpr (hsome coin hc).1)
    simp only at h
    split_ifs at h
    · exact ⟨vValue, hlower, (Option.some.inj h).symm⟩
    · obtain ⟨coin, hcoin, rfl⟩ := Option.map_eq_some_iff.mp h
      exact ⟨[coin], hlarger coin hcoin, rfl⟩
    · cases hc : coinLowestLarger with
      | none =>
        rw [hc] at h
        exact ⟨_, hmask _, (Option.some.inj h).symm⟩
      | some coin =>
        rw [hc] at h
        simp only at h
        split_ifs at h
        · exact ⟨[coin], hlarger coin hc, (Option.some.inj h).symm⟩
        · exact ⟨_, hmask _, (Option.some.inj h).symm⟩

/-- The selection fails for too few coins only; else it collects some of the eligible coins. -/
theorem selectCoinsMinConf_cases {nConfMine nConfTheirs : ℤ} {nMaxAncestors : ℕ} (choices : Choices)
    {vCoins coins : List COutput}
    (hcoins : coins =
      (choices.shuffle vCoins).filter (eligible nConfMine nConfTheirs nMaxAncestors))
    (hvalue : ∀ output ∈ vCoins, output.nValue < Int64.maxValue) (h : Payable nTargetValue coins) :
    (selectCoinsMinConf nTargetValue nConfMine nConfTheirs nMaxAncestors choices vCoins = none ∧
      worth coins < nTargetValue.toInt) ∨
    ∃ selected : List COutput, Pays nTargetValue coins selected ∧
      selectCoinsMinConf nTargetValue nConfMine nConfTheirs nMaxAncestors choices vCoins =
        some (collect selected) := by
  have hscan : Scanned nTargetValue coins (scanCoins nTargetValue nConfMine nConfTheirs
      nMaxAncestors (choices.shuffle vCoins) [] 0 none) := by
    rw [hcoins]
    exact scanCoins_spec
      (fun output ho => hvalue output ((choices.shuffle_perm vCoins).mem_iff.mp ho)) Scanned.nil
  unfold selectCoinsMinConf
  generalize scanCoins nTargetValue nConfMine nConfTheirs nMaxAncestors (choices.shuffle vCoins) []
    0 none = scan at hscan ⊢
  cases hscan with
  | @exact coin hmem hexact =>
    have hsub := List.singleton_subperm_iff.mpr hmem
    exact .inr ⟨[coin], .of_eq hsub (by rw [worth_singleton, hexact]), rfl⟩
  | @rest vValue nTotalLower coinLowestLarger hfilter htotal hnone hsome =>
    have hsub : vValue.Subperm coins := hfilter ▸ List.filter_sublist.subperm
    have hlower := h.of_subperm hsub
    have hall : coinLowestLarger = none → vValue = coins := by
      intro hn
      rw [hfilter, List.filter_eq_self]
      exact fun output ho => decide_eq_true (hnone hn output ho)
    simp only
    split_ifs with heq hless
    · refine .inr ⟨vValue, .of_eq hsub ?_, rfl⟩
      rw [← hlower.toInt_worth, ← htotal, heq]
    · cases coinLowestLarger with
      | none =>
        rw [Int64.lt_iff_toInt_lt, htotal, hlower.toInt_worth, hall rfl] at hless
        exact .inl ⟨rfl, hless⟩
      | some coin =>
        exact .inr ⟨[coin], .larger h (hsome coin rfl).1 (hsome coin rfl).2, rfl⟩
    · rw [Int64.not_lt, Int64.le_iff_toInt_le, htotal, hlower.toInt_worth] at hless
      have hperm := choices.sort_perm vValue
      have hsorted := hlower.of_subperm hperm.subperm
      have hbest := bestSubset_spec hsorted choices (worth_perm hperm ▸ hless)
      rw [worth_perm hperm, ← htotal] at hbest
      generalize bestSubset nTargetValue choices _ nTotalLower = best at hbest ⊢
      obtain ⟨hworth, hreached, hchange⟩ := hbest
      have hselected : (Mask.selected (choices.sort vValue) best.1).Subperm coins :=
        ((Mask.selected_sublist _ _).subperm.trans hperm.subperm).trans hsub
      cases coinLowestLarger with
      | none =>
        refine .inr ⟨_, ⟨hselected, hworth ▸ hreached, ?_⟩, rfl⟩
        rw [← hworth]
        rcases hchange with hchange | hchange | hchange
        · exact .inl (congrArg _ hchange)
        · exact .inr (.inl hchange)
        · refine .inr (.inr ⟨fun output ho => ?_, hall rfl ▸ hchange⟩)
          have hlt := hnone rfl output ho
          rwa [Int64.lt_iff_toInt_lt, h.withChange] at hlt
      | some coin =>
        simp only
        split_ifs with hlarger
        · exact .inr ⟨[coin], .larger h (hsome coin rfl).1 (hsome coin rfl).2, rfl⟩
        · refine .inr ⟨_, ⟨hselected, hworth ▸ hreached, ?_⟩, rfl⟩
          rw [← hworth]
          rw [not_or, not_and_or, not_not, Int64.not_lt, Int64.le_iff_toInt_le, h.withChange]
            at hlarger
          rcases hlarger.1 with hmet | hmore
          · exact .inl (congrArg _ hmet)
          · exact .inr (.inl hmore)

/-- The selection fails exactly for too few coins; else it returns eligible coins and their value,
which reaches the target and avoids tiny change. -/
theorem selectCoinsMinConf_spec {nConfMine nConfTheirs : ℤ} {nMaxAncestors : ℕ} (choices : Choices)
    (vCoins : List COutput) (hdistinct : (vCoins.map COutput.coin).Nodup)
    (hvalue : ∀ output ∈ vCoins, 0 < output.nValue.toInt ∧ output.nValue.toInt < 2 ^ 62)
    (htarget : 0 < nTargetValue.toInt ∧ nTargetValue.toInt ≤ 2 ^ 61)
    (hsum : worth (vCoins.filter (eligible nConfMine nConfTheirs nMaxAncestors)) < 2 ^ 63) :
    let coins := vCoins.filter (eligible nConfMine nConfTheirs nMaxAncestors)
    let result := selectCoinsMinConf nTargetValue nConfMine nConfTheirs nMaxAncestors choices vCoins
    (result = none ↔ worth coins < nTargetValue.toInt) ∧
    ∀ setCoinsRet nValueRet, result = some (setCoinsRet, nValueRet) →
      setCoinsRet ⊆ (coins.map COutput.coin).toFinset ∧
      nValueRet.toInt = worth (ofSet coins setCoinsRet) ∧
      nTargetValue.toInt ≤ nValueRet.toInt ∧
      AvoidsTinyChange nTargetValue coins nValueRet.toInt := by
  intro coins result
  have hperm : ((choices.shuffle vCoins).filter
      (eligible nConfMine nConfTheirs nMaxAncestors)).Perm coins :=
    (choices.shuffle_perm vCoins).filter _
  have hchange : MIN_CHANGE.toInt = 1000000 := by decide
  have hpayable : Payable nTargetValue coins :=
    ⟨fun output ho => (hvalue output (List.mem_of_mem_filter ho)).1, hsum, htarget.1, by omega⟩
  have hmax : ∀ output ∈ vCoins, output.nValue < Int64.maxValue := fun output ho => by
    rw [Int64.lt_iff_toInt_lt, Int64.toInt_maxValue]
    have hlt := (hvalue output ho).2
    omega
  rcases selectCoinsMinConf_cases choices rfl hmax (hpayable.of_subperm hperm.subperm) with
    ⟨hnone, hless⟩ | ⟨selected, hpays, hsome⟩
  · have hresult : result = none := hnone
    rw [worth_perm hperm] at hless
    refine ⟨iff_of_true hresult hless, fun setCoinsRet nValueRet h => ?_⟩
    rw [hresult] at h
    cases h
  · have hresult : result = some (collect selected) := hsome
    have hpays := hpays.perm hperm
    have hreached := hpays.reached
    have hle := worth_subperm hpays.subperm hpayable.pos
    refine ⟨iff_of_false (by simp [hresult]) (by omega), fun setCoinsRet nValueRet h => ?_⟩
    rw [hresult, Option.some.injEq, collect_eq, Prod.mk.injEq] at h
    obtain ⟨rfl, rfl⟩ := h
    rw [(hpayable.of_subperm hpays.subperm).toInt_worth]
    refine ⟨fun coin hcoin => ?_, ?_, hreached, hpays.avoids⟩
    · rw [List.mem_toFinset] at hcoin ⊢
      exact List.map_subset _ hpays.subperm.subset hcoin
    · have hcoins : (coins.map COutput.coin).Nodup :=
        hdistinct.sublist (List.filter_sublist.map _)
      exact (worth_perm (ofSet_perm_of_subperm hcoins hpays.subperm)).symm

/-- No shuffle, a stable sort and no coin taken in the first pass. -/
def inOrder : Choices where
  shuffle := id
  shuffle_perm := fun _ => .rfl
  sort := fun vValue => vValue.mergeSort fun a b => b.nValue ≤ a.nValue
  sort_perm := fun _ => List.mergeSort_perm _ _
  sort_sorted := fun vValue => by
    refine (List.pairwise_mergeSort (fun a b c hab hbc => ?_) (fun a b => ?_) vValue).imp
      fun h => of_decide_eq_true h
    · rw [decide_eq_true_eq] at *
      exact Int64.le_trans hbc hab
    · simpa using Int64.le_total b.nValue a.nValue
  bit := fun _ _ => false
  bit' := fun _ _ => false

/-- Coins of one value in confirmed transactions. -/
def coinsOf (n : ℕ) (nValue : CAmount) : List COutput :=
  (List.range n).map fun i => ⟨0, i, nValue, 10, true, false, none⟩

theorem selectCoinsMinConf_twoCoins :
    selectCoinsMinConf 3 1 6 25 inOrder (coinsOf 2 2) ≠ none ∧
      selectCoinsMinConf 5 1 6 25 inOrder (coinsOf 2 2) = none :=
  ⟨mt (selectCoinsMinConf_spec inOrder (coinsOf 2 2) (by decide) (by decide) (by decide)
      (by decide)).1.mp (by decide),
    (selectCoinsMinConf_spec inOrder (coinsOf 2 2) (by decide) (by decide) (by decide)
      (by decide)).1.mpr (by decide)⟩

/-- The sum of five coins wraps and the selection fails although two of them would do. -/
theorem fiveCoins_refused :
    ((coinsOf 5 (2 ^ 61 - 1)).map COutput.coin).Nodup ∧
    (∀ output ∈ coinsOf 5 (2 ^ 61 - 1), 0 < output.nValue.toInt ∧ output.nValue.toInt < 2 ^ 62) ∧
    (2 ^ 61 : CAmount).toInt ≤ worth ((coinsOf 5 (2 ^ 61 - 1)).filter (eligible 1 6 25)) ∧
    selectCoinsMinConf (2 ^ 61) 1 6 25 inOrder (coinsOf 5 (2 ^ 61 - 1)) = none := by
  decide +kernel

end

end Wallet

end X2XCoin
