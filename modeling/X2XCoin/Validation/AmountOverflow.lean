import X2XCoin.Validation.ConnectBlock

/-!
# Overflow of amount sums

The additions of `CheckTransaction`, `GetValueOut`, `CheckTxInputs` and `GetValueIn`.
`loopAdditions`
lists the pairs of amounts that a loop adds.  The model's amounts wrap, so the loops go on where the
source is undefined.
-/

namespace X2XCoin

/-- An addition of two signed amounts of 64 bits. -/
abbrev Addition := CAmount × CAmount

/-- The sum of the two amounts is an amount of 64 bits. -/
def Addition.InRange (a : Addition) : Prop :=
  -2 ^ 63 ≤ a.1.toInt + a.2.toInt ∧ a.1.toInt + a.2.toInt < 2 ^ 63

instance (a : Addition) : Decidable a.InRange := inferInstanceAs (Decidable (_ ∧ _))

/-- The additions of a loop from the running sum `a`: `value x` is what the turn for `x` adds, if it
comes to that, and `step` is the turn. -/
def loopAdditions {α : Type} (value : α → Option CAmount) (step : CAmount → α → Option CAmount) :
    CAmount → List α → List Addition
  | _, [] => []
  | a, x :: xs =>
    (value x).toList.map (fun v => (a, v)) ++
      match step a x with
      | none => []
      | some b => loopAdditions value step b xs

/-- The sum of the values up to the first element that has none or a negative one. -/
def leadingSum {α : Type} (value : α → Option CAmount) : List α → ℤ
  | [] => 0
  | x :: xs =>
    match value x with
    | none => 0
    | some v => if v.toInt < 0 then 0 else v.toInt + leadingSum value xs

section Loop

variable {α : Type} {value : α → Option CAmount} {step : CAmount → α → Option CAmount}

theorem leadingSum_nonneg (xs : List α) : 0 ≤ leadingSum value xs := by
  induction xs with
  | nil => exact le_rfl
  | cons x xs ih =>
    rw [leadingSum]
    split
    · exact le_rfl
    · split_ifs <;> omega

/-- A turn adds its value and goes on as long as the value and the sum are in range, and ends the
loop at a value that is missing or negative. -/
structure Adds (value : α → Option CAmount) (step : CAmount → α → Option CAmount) (xs : List α) :
    Prop where
  go : ∀ x ∈ xs, ∀ a v, 0 ≤ a.toInt → value x = some v → 0 ≤ v.toInt → a.toInt + v.toInt < 2 ^ 63 →
    step a x = some (a + v)
  stop : ∀ x ∈ xs, ∀ a, (∀ v, value x = some v → v.toInt < 0) → step a x = none

theorem Adds.tail {x : α} {xs : List α} (h : Adds value step (x :: xs)) : Adds value step xs :=
  ⟨fun y hy => h.go y (List.mem_cons_of_mem x hy), fun y hy => h.stop y (List.mem_cons_of_mem x hy)⟩

theorem toInt_add_of_lt {a b : CAmount} (ha : 0 ≤ a.toInt) (hb : 0 ≤ b.toInt)
    (h : a.toInt + b.toInt < 2 ^ 63) : (a + b).toInt = a.toInt + b.toInt := by
  have hs := (a + b).le_toInt
  have hs' := (a + b).toInt_lt
  rcases toInt_add_eq a b with he | he | he <;> omega

/-- No addition of the loop overflows exactly when the leading values sum to less than `2 ^ 63`. -/
theorem Adds.inRange_iff {xs : List α} (h : Adds value step xs) {a : CAmount} (ha : 0 ≤ a.toInt) :
    (∀ ad ∈ loopAdditions value step a xs, ad.InRange) ↔ a.toInt + leadingSum value xs < 2 ^ 63 := by
  have halt := a.toInt_lt
  induction xs generalizing a with
  | nil =>
    refine iff_of_true (by simp [loopAdditions]) ?_
    rw [leadingSum, add_zero]
    exact halt
  | cons x xs ih =>
    rw [loopAdditions, leadingSum]
    cases hv : value x with
    | none =>
      rw [h.stop x List.mem_cons_self a (by simp [hv])]
      simpa using halt
    | some v =>
      have hvlt := v.toInt_lt
      have hvle := v.le_toInt
      by_cases hneg : v.toInt < 0
      · -- the loop ends here, after an addition that cannot overflow
        have hstop : step a x = none := by
          refine h.stop x List.mem_cons_self a fun w hw => ?_
          rwa [← Option.some.inj (hv.symm.trans hw)]
        simp only [hstop, if_pos hneg, Option.toList_some, List.map_cons, List.map_nil, List.append_nil,
          List.forall_mem_singleton, Addition.InRange]
        omega
      · have hv0 := not_lt.mp hneg
        have hrest := @leadingSum_nonneg _ value xs
        by_cases hfits : a.toInt + v.toInt < 2 ^ 63
        · have hsum := toInt_add_of_lt ha hv0 hfits
          have hgo := h.go x List.mem_cons_self a v ha hv hv0 hfits
          simp only [hgo, if_neg hneg, Option.toList_some, List.map_cons, List.map_nil, List.singleton_append,
            List.forall_mem_cons, ih h.tail (a := a + v) (by omega) (a + v).toInt_lt, hsum]
          have hin : Addition.InRange (a, v) := ⟨by show _ ≤ a.toInt + v.toInt; omega, hfits⟩
          rw [and_iff_right hin]
          omega
        · simp only [if_neg hneg]
          refine iff_of_false (fun hall => ?_) (by omega)
          exact hfits (hall (a, v) (by simp)).2

end Loop

/-! ## The four functions -/

/-- What `CheckTransaction` adds for an output that passes the tests before the addition. -/
def checkedValue (tx : CTransaction) (txout : CTxOut) : Option CAmount :=
  if ¬ (txout.isEmpty ∧ ¬ tx.isCoinBase ∧ ¬ tx.isCoinStake) ∧ ¬ txout.nValue < 0 ∧
      ¬ txout.nValue > MAX_MONEY then some txout.nValue
  else none

def checkTransactionAdditions (tx : CTransaction) : List Addition :=
  if tx.vin ≠ [] ∧ tx.vout ≠ [] ∧ ¬ tx.serialize.length > MAX_BLOCK_SIZE then
    loopAdditions (checkedValue tx) (fun a txout => (checkTxOut tx a txout).toOption) 0 tx.vout
  else []

def getValueOutAdditions (tx : CTransaction) : List Addition :=
  loopAdditions (fun txout => some txout.nValue) CTransaction.addValueOut 0 tx.vout

/-- What `CheckTxInputs` adds for an input that passes the tests before the addition. -/
def checkedInputValue (tx : CTransaction) (view : CoinsView) (nSpendHeight : ℤ) (txin : CTxIn) :
    Option CAmount := do
  let coins ← view.accessCoins txin.prevout.hash
  if ¬ ((coins.fCoinBase ∨ coins.fCoinStake) ∧
      nSpendHeight - coins.nHeight < Params.default.nCoinbaseMaturity) ∧ ¬ coins.nTime > tx.nTime then
    coins.vout[txin.prevout.n.toNat]?.map CTxOut.nValue
  else none

/-- The additions of `CheckTxInputs` once the inputs are summed: those of `GetValueOut` and the tally
of the fee. -/
def feeAdditions (tx : CTransaction) (nValueIn : CAmount) : List Addition :=
  if tx.isCoinStake then []
  else getValueOutAdditions tx ++
    match tx.getValueOut with
    | none => []
    | some nValueOut =>
      if nValueIn < nValueOut ∨ nValueIn - nValueOut < 0 then [] else [(0, nValueIn - nValueOut)]

def checkTxInputsAdditions (tx : CTransaction) (view : CoinsView) (nSpendHeight : ℤ) :
    List Addition :=
  if view.haveInputs tx then
    loopAdditions (checkedInputValue tx view nSpendHeight)
      (fun a txin => (checkTxInput tx view nSpendHeight a txin).toOption) 0 tx.vin ++
    match tx.vin.foldlM (checkTxInput tx view nSpendHeight) 0 with
    | .error _ => []
    | .ok nValueIn => feeAdditions tx nValueIn
  else []

/-- What `GetValueIn` adds for an input. -/
def inputValue (view : CoinsView) (txin : CTxIn) : Option CAmount :=
  (view.getOutputFor txin).map CTxOut.nValue

def getValueInAdditions (tx : CTransaction) (view : CoinsView) : List Addition :=
  if tx.isCoinBase then []
  else loopAdditions (inputValue view)
    (fun nResult i => (view.getOutputFor i).map fun o => nResult + o.nValue) 0 tx.vin

/-- The outputs up to the first negative one sum to at most `MAX_MONEY`, and so do the outputs that
the inputs spend, up to the first that is not there. -/
structure SumsFit (tx : CTransaction) (view : CoinsView) : Prop where
  out : leadingSum (fun txout => some txout.nValue) tx.vout ≤ MAX_MONEY.toInt
  in_ : tx.isCoinBase = false → leadingSum (inputValue view) tx.vin ≤ MAX_MONEY.toInt

section

variable {tx : CTransaction} {view : CoinsView} {nSpendHeight : ℤ}

theorem lt_iff_le_MAX_MONEY {x : ℤ} : x < 2 ^ 63 ↔ x ≤ MAX_MONEY.toInt := by
  rw [toInt_MAX_MONEY]
  omega

theorem toInt_zero : (0 : CAmount).toInt = 0 := rfl

theorem adds_addValueOut (vout : List CTxOut) :
    Adds (fun txout => some txout.nValue) CTransaction.addValueOut vout where
  go := by
    intro o _ a v ha hv hv0 hlt
    obtain rfl := Option.some.inj hv
    have hsum := toInt_add_of_lt ha hv0 hlt
    have h₁ : moneyRange o.nValue = true := moneyRange_iff.mpr hv0
    have h₂ : moneyRange (a + o.nValue) = true := moneyRange_iff.mpr (by omega)
    simp [CTransaction.addValueOut, h₁, h₂]
  stop := by
    intro o _ a hneg
    have h₁ : moneyRange o.nValue = false := by
      rw [← Bool.not_eq_true, moneyRange_iff]
      exact not_le.mpr (hneg _ rfl)
    simp [CTransaction.addValueOut, h₁]

theorem adds_checkTxOut (vout : List CTxOut) :
    Adds (checkedValue tx) (fun a txout => (checkTxOut tx a txout).toOption) vout where
  go := by
    intro o _ a v ha hv hv0 hlt
    rw [checkedValue] at hv
    split_ifs at hv with hc
    obtain rfl := Option.some.inj hv
    have hsum := toInt_add_of_lt ha hv0 hlt
    have hr : moneyRange (a + o.nValue) = true := moneyRange_iff.mpr (by omega)
    have hok : checkTxOut tx a o = .ok (a + o.nValue) := by
      simp only [checkTxOut, check_bind_eq_ok, ensure_eq_ok, check_pure_eq_ok]
      exact ⟨(), hc.1, (), hc.2.1, (), hc.2.2, (), hr, trivial⟩
    rw [hok]
    rfl
  stop := by
    intro o _ a hneg
    cases hc : checkTxOut tx a o with
    | error => rfl
    | ok b =>
      simp only [checkTxOut, check_bind_eq_ok, ensure_eq_ok, check_pure_eq_ok] at hc
      obtain ⟨-, h₁, -, h₂, -, h₃, -⟩ := hc
      have hlt := hneg o.nValue (if_pos ⟨h₁, h₂, h₃⟩)
      exact absurd (Int64.lt_iff_toInt_lt.mpr hlt) h₂

theorem adds_checkTxInput (vin : List CTxIn) :
    Adds (checkedInputValue tx view nSpendHeight)
      (fun a txin => (checkTxInput tx view nSpendHeight a txin).toOption) vin where
  go := by
    intro i _ a v ha hv hv0 hlt
    simp only [checkedInputValue, Option.bind_eq_bind, Option.bind_eq_some_iff] at hv
    obtain ⟨coins, hcoins, hv⟩ := hv
    split_ifs at hv with hc
    obtain ⟨o, ho, rfl⟩ := Option.map_eq_some_iff.mp hv
    have hsum := toInt_add_of_lt ha hv0 hlt
    have h₁ : moneyRange o.nValue = true := moneyRange_iff.mpr hv0
    have h₂ : moneyRange (a + o.nValue) = true := moneyRange_iff.mpr (by omega)
    have hok : checkTxInput tx view nSpendHeight a i = .ok (a + o.nValue) := by
      simp only [checkTxInput, check_bind_eq_ok, orFail_eq_ok, ensure_eq_ok, check_pure_eq_ok]
      exact ⟨coins, hcoins, (), hc.1, (), hc.2, o, ho, (), ⟨h₁, h₂⟩, rfl⟩
    rw [hok]
    rfl
  stop := by
    intro i _ a hneg
    cases hc : checkTxInput tx view nSpendHeight a i with
    | error => rfl
    | ok b =>
      simp only [checkTxInput, check_bind_eq_ok, orFail_eq_ok, ensure_eq_ok, check_pure_eq_ok] at hc
      obtain ⟨coins, hcoins, -, h₁, -, h₂, o, ho, -, ⟨h₃, -⟩, -⟩ := hc
      have hval : checkedInputValue tx view nSpendHeight i = some o.nValue := by
        simp [checkedInputValue, hcoins, ho, h₁, h₂]
      exact absurd (moneyRange_iff.mp h₃) (not_le.mpr (hneg _ hval))

theorem adds_getOutputFor {vin : List CTxIn}
    (hview : ∀ i ∈ vin, ∀ o, view.getOutputFor i = some o → 0 ≤ o.nValue.toInt) :
    Adds (inputValue view) (fun a i => (view.getOutputFor i).map fun o => a + o.nValue) vin where
  go := by
    intro i _ a v _ hv _ _
    obtain ⟨o, ho, rfl⟩ := Option.map_eq_some_iff.mp hv
    simp only [ho, Option.map_some]
  stop := by
    intro i hi a hneg
    cases ho : view.getOutputFor i with
    | none => rfl
    | some o =>
      have hval : inputValue view i = some o.nValue := by rw [inputValue, ho, Option.map_some]
      exact absurd (hview i hi o ho) (not_le.mpr (hneg _ hval))

theorem leadingSum_mono {α : Type} {f g : α → Option CAmount} {xs : List α}
    (h : ∀ x ∈ xs, ∀ v, f x = some v → g x = some v) : leadingSum f xs ≤ leadingSum g xs := by
  induction xs with
  | nil => exact le_rfl
  | cons x xs ih =>
    have hih := ih fun y hy => h y (List.mem_cons_of_mem x hy)
    cases hf : f x with
    | none =>
      rw [leadingSum, hf]
      exact leadingSum_nonneg _
    | some v =>
      rw [leadingSum, leadingSum, hf, h x List.mem_cons_self v hf]
      simp only
      split_ifs <;> omega

/-! ## All additions of the four -/

theorem getValueOutAdditions_inRange_iff : (∀ ad ∈ getValueOutAdditions tx, ad.InRange) ↔
    leadingSum (fun txout => some txout.nValue) tx.vout ≤ MAX_MONEY.toInt := by
  rw [getValueOutAdditions, (adds_addValueOut tx.vout).inRange_iff toInt_zero.ge, toInt_zero, zero_add,
    lt_iff_le_MAX_MONEY]

theorem checkTransactionAdditions_inRange
    (h : leadingSum (fun txout => some txout.nValue) tx.vout ≤ MAX_MONEY.toInt) :
    ∀ ad ∈ checkTransactionAdditions tx, ad.InRange := by
  rw [checkTransactionAdditions]
  split_ifs
  · rw [(adds_checkTxOut tx.vout).inRange_iff toInt_zero.ge, toInt_zero, zero_add, lt_iff_le_MAX_MONEY]
    refine le_trans (leadingSum_mono fun o _ v hv => ?_) h
    rw [checkedValue] at hv
    split_ifs at hv
    exact hv
  · simp

theorem getValueInAdditions_inRange_iff (hcb : tx.isCoinBase = false)
    (hview : ∀ o out, view.output o = some out → moneyRange out.nValue = true) :
    (∀ ad ∈ getValueInAdditions tx view, ad.InRange) ↔
      leadingSum (inputValue view) tx.vin ≤ MAX_MONEY.toInt := by
  have hadds : Adds (inputValue view) (fun a i => (view.getOutputFor i).map fun o => a + o.nValue)
      tx.vin := by
    refine adds_getOutputFor fun i _ o ho => ?_
    rw [CoinsView.getOutputFor_eq] at ho
    exact moneyRange_iff.mp (hview _ o ho)
  rw [getValueInAdditions, hcb, if_neg (by simp), hadds.inRange_iff toInt_zero.ge, toInt_zero, zero_add,
    lt_iff_le_MAX_MONEY]

theorem feeAdditions_inRange (h : ∀ ad ∈ getValueOutAdditions tx, ad.InRange) (nValueIn : CAmount) :
    ∀ ad ∈ feeAdditions tx nValueIn, ad.InRange := by
  rw [feeAdditions]
  split_ifs
  · simp
  · refine List.forall_mem_append.mpr ⟨h, ?_⟩
    split
    · simp
    · next nValueOut _ =>
      have hlt := (nValueIn - nValueOut).toInt_lt
      have hle := (nValueIn - nValueOut).le_toInt
      split_ifs
      · simp
      · simp only [List.forall_mem_singleton, Addition.InRange, toInt_zero, zero_add]
        exact ⟨hle, hlt⟩

theorem leadingSum_singleton_lt {α : Type} (f : α → Option CAmount) (x : α) :
    leadingSum f [x] < 2 ^ 63 := by
  simp only [leadingSum]
  split
  · norm_num
  · next v _ =>
    have hlt := v.toInt_lt
    split_ifs
    · norm_num
    · omega

theorem checkTxInputsAdditions_inRange (h : SumsFit tx view) :
    ∀ ad ∈ checkTxInputsAdditions tx view nSpendHeight, ad.InRange := by
  rw [checkTxInputsAdditions]
  split_ifs with hhave
  · refine List.forall_mem_append.mpr ⟨?_, ?_⟩
    · rw [(adds_checkTxInput tx.vin).inRange_iff toInt_zero.ge, toInt_zero, zero_add]
      cases hcb : tx.isCoinBase with
      | true =>
        -- a coinbase has a single input
        obtain ⟨i, hvin⟩ : ∃ i, tx.vin = [i] := by
          rw [CTransaction.isCoinBase] at hcb
          split at hcb
          · next i hvin => exact ⟨i, hvin⟩
          · cases hcb
        rw [hvin]
        exact leadingSum_singleton_lt _ i
      | false =>
        rw [lt_iff_le_MAX_MONEY]
        refine le_trans (leadingSum_mono fun i hi v hv => ?_) (h.in_ hcb)
        obtain ⟨o, ho⟩ := (CoinsView.haveInputs_iff.mp hhave).resolve_left (by simp [hcb]) i hi
        simp only [checkedInputValue, Option.bind_eq_bind, Option.bind_eq_some_iff] at hv
        obtain ⟨coins, hcoins, hv⟩ := hv
        split_ifs at hv
        obtain ⟨o', ho', rfl⟩ := Option.map_eq_some_iff.mp hv
        rw [CoinsView.output, hcoins, Option.bind_some, CCoins.output_eq_some] at ho
        obtain rfl : o' = o := Option.some.inj (ho'.symm.trans ho.1)
        rw [inputValue, CoinsView.getOutputFor_eq, CoinsView.output, hcoins, Option.bind_some,
          CCoins.output_eq_some.mpr ho, Option.map_some]
    · split
      · simp
      · exact feeAdditions_inRange (getValueOutAdditions_inRange_iff.mpr h.out) _
  · simp

/-- The loop of `CheckTransaction` accepts the outputs. -/
def outputsAccepted (tx : CTransaction) : Prop :=
  ∃ nValueOut, tx.vout.foldlM (checkTxOut tx) 0 = .ok nValueOut

theorem foldlM_checkTxOut_iff {vout : List CTxOut} {a : CAmount} (ha : 0 ≤ a.toInt) :
    (∃ b, vout.foldlM (checkTxOut tx) a = .ok b) ↔
      (∀ o ∈ vout, ¬ (o.isEmpty ∧ ¬ tx.isCoinBase ∧ ¬ tx.isCoinStake) ∧ 0 ≤ o.nValue.toInt) ∧
        a.toInt + (vout.map fun o => o.nValue.toInt).sum ≤ MAX_MONEY.toInt := by
  induction vout generalizing a with
  | nil =>
    have hlt := lt_iff_le_MAX_MONEY.mp a.toInt_lt
    simpa using hlt
  | cons o vout ih =>
    simp only [List.foldlM_cons, check_bind_eq_ok, List.forall_mem_cons, List.map_cons, List.sum_cons]
    constructor
    · rintro ⟨b, c, hc, hb⟩
      simp only [checkTxOut, check_bind_eq_ok, ensure_eq_ok, check_pure_eq_ok] at hc
      obtain ⟨-, h₁, -, h₂, -, -, -, hr, rfl⟩ := hc
      have ho : 0 ≤ o.nValue.toInt := not_lt.mp fun h => h₂ (Int64.lt_iff_toInt_lt.mpr h)
      have hs := moneyRange_iff.mp hr
      have hsum := toInt_add_of_nonneg ha ho hs
      obtain ⟨hall, hle⟩ := (ih hs).mp ⟨b, hb⟩
      exact ⟨⟨⟨h₁, ho⟩, hall⟩, by omega⟩
    · rintro ⟨⟨⟨h₁, ho⟩, hall⟩, hle⟩
      have hrest : 0 ≤ (vout.map fun o => o.nValue.toInt).sum := by
        refine List.sum_nonneg fun x hx => ?_
        obtain ⟨o', ho', rfl⟩ := List.mem_map.mp hx
        exact (hall o' ho').2
      have hsum := toInt_add_of_lt ha ho (lt_iff_le_MAX_MONEY.mpr (by omega))
      have hs : 0 ≤ (a + o.nValue).toInt := by omega
      obtain ⟨b, hb⟩ := (ih hs).mpr ⟨hall, by omega⟩
      refine ⟨b, a + o.nValue, ?_, hb⟩
      simp only [checkTxOut, check_bind_eq_ok, ensure_eq_ok, check_pure_eq_ok]
      refine ⟨(), h₁, (), fun h => ?_, (), fun h => ?_, (), moneyRange_iff.mpr hs, trivial⟩
      · exact absurd (Int64.lt_iff_toInt_lt.mp h) (not_lt.mpr ho)
      · have hle := Int64.le_iff_toInt_le.mp (le_MAX_MONEY o.nValue)
        exact absurd (Int64.lt_iff_toInt_lt.mp h) (not_lt.mpr hle)

/-- No addition of the four functions overflows exactly when the sums fit, and `CheckTransaction`
accepts exactly the outputs in range with a sum in range, apart from empty outputs, which only a
coinbase or a coinstake may have. -/
theorem amountAdditions_inRange_iff (tx : CTransaction) (view : CoinsView) (nSpendHeight : ℤ)
    (hview : ∀ o out, view.output o = some out → moneyRange out.nValue = true) :
    ((∀ ad ∈ checkTransactionAdditions tx ++ getValueOutAdditions tx ++
        checkTxInputsAdditions tx view nSpendHeight ++ getValueInAdditions tx view, ad.InRange) ↔
      SumsFit tx view) ∧
    (outputsAccepted tx ↔
      (∀ o ∈ tx.vout, ¬ (o.isEmpty ∧ ¬ tx.isCoinBase ∧ ¬ tx.isCoinStake) ∧
        0 ≤ o.nValue.toInt ∧ o.nValue.toInt ≤ MAX_MONEY.toInt) ∧
      (tx.vout.map fun o => o.nValue.toInt).sum ≤ MAX_MONEY.toInt) := by
  constructor
  · simp only [List.forall_mem_append]
    constructor
    · rintro ⟨⟨⟨-, hout⟩, -⟩, hin⟩
      exact ⟨getValueOutAdditions_inRange_iff.mp hout,
        fun hcb => (getValueInAdditions_inRange_iff hcb hview).mp hin⟩
    · intro h
      refine ⟨⟨⟨checkTransactionAdditions_inRange h.out, getValueOutAdditions_inRange_iff.mpr h.out⟩,
        checkTxInputsAdditions_inRange h⟩, ?_⟩
      cases hcb : tx.isCoinBase with
      | true => simp [getValueInAdditions, hcb]
      | false => exact (getValueInAdditions_inRange_iff hcb hview).mpr (h.in_ hcb)
  · rw [outputsAccepted, foldlM_checkTxOut_iff toInt_zero.ge, toInt_zero, zero_add]
    have hmax : ∀ o : CTxOut, o.nValue.toInt ≤ MAX_MONEY.toInt := fun o =>
      Int64.le_iff_toInt_le.mp (le_MAX_MONEY _)
    simp only [hmax, and_true]

/-- Two outputs of one transaction, of `MAX_MONEY` and of one. -/
def overflowView : CoinsView :=
  { CoinsView.empty with
    coins := (∅ : AList fun _ : Uint256 => CCoins).insert 1
      { vout := [⟨MAX_MONEY, [OP_1]⟩, ⟨1, [OP_1]⟩], nHeight := 1, nVersion := 1 } }

/-- A transaction with the given inputs and outputs of that view. -/
def overflowTx (spent : List UInt32) (values : List CAmount) : CTransaction where
  nVersion := 1
  nTime := 1769817680
  vin := spent.map fun n => ⟨⟨1, n⟩, [], 0xffffffff⟩
  vout := values.map fun v => ⟨v, [OP_1]⟩
  nLockTime := 0

theorem overflowView_output_moneyRange (o : COutPoint) (out : CTxOut)
    (h : overflowView.output o = some out) : moneyRange out.nValue = true := by
  obtain ⟨coins, hcoins, hout⟩ := Option.bind_eq_some_iff.mp h
  have hlookup : overflowView.coins.lookup o.hash = some coins := hcoins
  by_cases heq : o.hash = 1
  · rw [heq, overflowView, AList.lookup_insert] at hlookup
    obtain rfl := Option.some.inj hlookup
    have hmem := List.mem_of_getElem? (CCoins.output_eq_some.mp hout).1
    simp only [List.mem_cons, List.not_mem_nil, or_false] at hmem
    obtain rfl | rfl := hmem <;> decide
  · rw [overflowView, AList.lookup_insert_ne heq, AList.lookup_empty] at hlookup
    cases hlookup

/-- Spending the large output alone, to an output of the same value, overflows nowhere. -/
theorem spendLarge_additions_inRange :
    SumsFit (overflowTx [0] [MAX_MONEY]) overflowView ∧
      ∀ ad ∈ checkTransactionAdditions (overflowTx [0] [MAX_MONEY]) ++
        getValueOutAdditions (overflowTx [0] [MAX_MONEY]) ++
        checkTxInputsAdditions (overflowTx [0] [MAX_MONEY]) overflowView 2 ++
        getValueInAdditions (overflowTx [0] [MAX_MONEY]) overflowView, ad.InRange := by
  have hfit : SumsFit (overflowTx [0] [MAX_MONEY]) overflowView :=
    ⟨by decide +kernel, fun _ => by decide +kernel⟩
  exact ⟨hfit, (amountAdditions_inRange_iff _ _ 2 overflowView_output_moneyRange).1.mpr hfit⟩

/-- Outputs of `MAX_MONEY` and one overflow in `CheckTransaction` and `GetValueOut`, and inputs of
those values in `CheckTxInputs` and `GetValueIn`. -/
theorem overflowTx_overflows :
    (MAX_MONEY, 1) ∈ checkTransactionAdditions (overflowTx [0] [MAX_MONEY, 1]) ∧
      (MAX_MONEY, 1) ∈ getValueOutAdditions (overflowTx [0] [MAX_MONEY, 1]) ∧
      (MAX_MONEY, 1) ∈ checkTxInputsAdditions (overflowTx [0, 1] [MAX_MONEY]) overflowView 2 ∧
      (MAX_MONEY, 1) ∈ getValueInAdditions (overflowTx [0, 1] [MAX_MONEY]) overflowView ∧
      ¬ Addition.InRange (MAX_MONEY, 1) := by
  decide +kernel

end

end X2XCoin
