import X2XCoin.JavaWallet.Transaction

/-!
# Building a payment

`TransactionSigner.buildUnsigned` and `Transaction.estimateFee`.  Java `long`s wrap.  The address
decoder is any function that returns 20 bytes or throws.  The keys and addresses of the outputs that
are spent only go to the list for the signatures and are left out.
-/

open ByteCodec

namespace X2XCoin

namespace JavaWallet

def DEFAULT_FEE_PER_KB : Int64 := 10000
def MIN_TX_FEE : Int64 := 10000
def TX_VERSION : Int32 := 1

/-- `Transaction.estimateFee`. -/
def estimateFee (feePerKb : Int64) (inputCount outputCount : Int32) : Int64 :=
  let bytes := 10 + 4 + inputCount.toInt64 * 148 + outputCount.toInt64 * 34
  max ((max feePerKb DEFAULT_FEE_PER_KB * bytes + 999) / 1000) MIN_TX_FEE

structure SpendableUtxo where
  txid : String
  vout : Int32
  amount : Int64

/-- The input that spends an output, not yet signed. -/
def SpendableUtxo.input (utxo : SpendableUtxo) : TxInput :=
  ⟨⟨utxo.txid, utxo.vout⟩, [], 0xFFFFFFFF, Transaction.length_nil_lt⟩

inductive BuildError
  | amountNotPositive
  | insufficientBalance
  | address (message : String)

def BuildError.message : BuildError → String
  | .amountNotPositive => "amount must be positive"
  | .insufficientBalance => "insufficient balance"
  | .address message => message

/-- The loop over the outputs, with the total and the inputs so far. -/
def selectInputs (sendAmount feePerKb : Int64) :
    List SpendableUtxo → Int64 → List TxInput → Int64 × List TxInput
  | [], totalInput, inputs => (totalInput, inputs)
  | utxo :: utxos, totalInput, inputs =>
    let totalInput := totalInput + utxo.amount
    let inputs := inputs ++ [utxo.input]
    let fee := estimateFee feePerKb (Int32.ofNat inputs.length) 2
    if sendAmount + fee ≤ totalInput then (totalInput, inputs)
    else selectInputs sendAmount feePerKb utxos totalInput inputs

theorem length_selectInputs_le (sendAmount feePerKb : Int64) (utxos : List SpendableUtxo)
    (totalInput : Int64) (inputs : List TxInput) :
    (selectInputs sendAmount feePerKb utxos totalInput inputs).2.length ≤
      inputs.length + utxos.length := by
  induction utxos generalizing totalInput inputs with
  | nil => exact le_rfl
  | cons utxo utxos ih =>
    rw [selectInputs]
    split_ifs
    · simp
    · refine (ih _ _).trans ?_
      simp only [List.length_append, List.length_cons, List.length_nil]
      omega

section

variable (decodeHash160 : String → Except String {hash : Bytes // hash.length = 20})

def payTo (address : String) (amount : Int64) : Except BuildError TxOutput :=
  match decodeHash160 address with
  | .error message => .error (.address message)
  | .ok hash => .ok ⟨amount, p2pkhScript hash, by simp [p2pkhScript, hash.2]⟩

/-- The payment and the change, if there is any. -/
def paymentOutputs (destinationAddress changeAddress : String) (sendAmount change : Int64) :
    Except BuildError {outputs : List TxOutput // outputs.length < 2 ^ 31} := do
  let payment ← payTo decodeHash160 destinationAddress sendAmount
  if 0 < change then
    let rest ← payTo decodeHash160 changeAddress change
    pure ⟨[payment, rest], Nat.lt_of_sub_pos (by decide : 0 < 2 ^ 31 - 2)⟩
  else pure ⟨[payment], Nat.lt_of_sub_pos (by decide : 0 < 2 ^ 31 - 1)⟩

/-- `TransactionSigner.buildUnsigned` at the time `now`. -/
def buildUnsigned (utxos : List SpendableUtxo) (hutxos : utxos.length < 2 ^ 31)
    (destinationAddress changeAddress : String) (sendAmount feePerKb now : Int64) :
    Except BuildError Transaction :=
  if sendAmount ≤ 0 then .error .amountNotPositive
  else
    let selected := selectInputs sendAmount feePerKb utxos 0 []
    let fee := estimateFee feePerKb (Int32.ofNat selected.2.length) 2
    if selected.1 < sendAmount + fee then .error .insufficientBalance
    else
      let change := selected.1 - sendAmount - fee
      match paymentOutputs decodeHash160 destinationAddress changeAddress sendAmount change with
      | .error e => .error e
      | .ok outputs => .ok
        { version := TX_VERSION
          time := now
          inputs := selected.2
          outputs := outputs
          lockTime := 0
          inputs_lt := (length_selectInputs_le sendAmount feePerKb utxos 0 []).trans_lt
            ((Nat.zero_add _).trans_lt hutxos)
          outputs_lt := outputs.2 }

end

/-! ## Exact arithmetic -/

def total (utxos : List SpendableUtxo) : ℤ := (utxos.map fun utxo => utxo.amount.toInt).sum

/-- The numerator of the fee, one thousand times the fee before it is rounded. -/
def feeNumerator (feePerKb : ℤ) (inputCount : ℕ) : ℤ :=
  max feePerKb 10000 * (10 + 4 + inputCount * 148 + 2 * 34) + 999

/-- The fee of a transaction with two outputs. -/
def exactFee (feePerKb : ℤ) (inputCount : ℕ) : ℤ :=
  max (feeNumerator feePerKb inputCount / 1000) 10000

/-- The transaction spends the first outputs of the list and pays all they hold. -/
def Balanced (utxos : List SpendableUtxo) (sendAmount feePerKb : Int64) (tx : Transaction) : Prop :=
  ∃ k ≤ utxos.length, tx.inputs = (utxos.take k).map SpendableUtxo.input ∧
    (tx.outputs.map TxOutput.amount).head? = some sendAmount ∧
    (tx.outputs.map fun output => output.amount.toInt).sum + exactFee feePerKb.toInt k =
      total (utxos.take k) ∧
    ∀ output ∈ tx.outputs, output.amount.toInt ≤ total (utxos.take k)

/-- What the builder should do: pay what it spends, and give up if no first outputs suffice. -/
def Accounts (utxos : List SpendableUtxo) (sendAmount feePerKb : Int64)
    (result : Except BuildError Transaction) : Prop :=
  (∀ tx, result = .ok tx → Balanced utxos sendAmount feePerKb tx) ∧
    (result = .error .insufficientBalance ↔
      ∀ k ≤ utxos.length, total (utxos.take k) < sendAmount.toInt + exactFee feePerKb.toInt k)

/-- The numbers of a transaction with the given number of inputs are `long`s. -/
def Fits (sendAmount feePerKb : Int64) (inputCount : ℕ) : Prop :=
  feeNumerator feePerKb.toInt inputCount < 2 ^ 63 ∧
    sendAmount.toInt + exactFee feePerKb.toInt inputCount < 2 ^ 63

theorem total_append (a b : List SpendableUtxo) : total (a ++ b) = total a + total b := by
  rw [total, List.map_append, List.sum_append]
  rfl

theorem feeNumerator_mono (feePerKb : ℤ) {j k : ℕ} (h : j ≤ k) :
    feeNumerator feePerKb j ≤ feeNumerator feePerKb k := by
  unfold feeNumerator
  gcongr

theorem exactFee_mono (feePerKb : ℤ) {j k : ℕ} (h : j ≤ k) :
    exactFee feePerKb j ≤ exactFee feePerKb k :=
  max_le_max_right _ (Int.ediv_le_ediv (by decide) (feeNumerator_mono feePerKb h))

theorem Fits.mono {sendAmount feePerKb : Int64} {j k : ℕ} (h : Fits sendAmount feePerKb k)
    (hjk : j ≤ k) : Fits sendAmount feePerKb j :=
  ⟨(feeNumerator_mono _ hjk).trans_lt h.1,
    lt_of_le_of_lt (by gcongr; exact exactFee_mono _ hjk) h.2⟩

/-! ## The fee -/

theorem toInt_max (a b : Int64) : (max a b).toInt = max a.toInt b.toInt := by
  change (if a ≤ b then b else a).toInt = _
  split_ifs with h
  · rw [max_eq_right (Int64.le_iff_toInt_le.mp h)]
  · rw [Int64.not_le, Int64.lt_iff_toInt_lt] at h
    rw [max_eq_left h.le]

theorem toInt_estimateFee (feePerKb : Int64) {n : ℕ} (hn : n < 2 ^ 31) :
    (estimateFee feePerKb (Int32.ofNat n) 2).toInt =
      max (((feeNumerator feePerKb.toInt n).bmod (2 ^ 64)).tdiv 1000) 10000 := by
  have hcount : (Int32.ofNat n).toInt64 = Int64.ofInt n := by
    rw [← Int64.ofInt_toInt (Int32.ofNat n).toInt64, Int32.toInt_toInt64, Int32.toInt_ofNat_of_lt hn]
  have hnumerator : max feePerKb DEFAULT_FEE_PER_KB *
      (10 + 4 + (Int32.ofNat n).toInt64 * 148 + (2 : Int32).toInt64 * 34) + 999 =
      Int64.ofInt (feeNumerator feePerKb.toInt n) := by
    rw [feeNumerator, Int64.ofInt_add, Int64.ofInt_mul, Int64.ofInt_add, Int64.ofInt_add,
      Int64.ofInt_mul, hcount, ← Int64.ofInt_toInt (max feePerKb _), toInt_max]
    rfl
  rw [estimateFee, hnumerator, toInt_max, Int64.toInt_div_of_ne_right _ _ (by decide),
    Int64.toInt_ofInt]
  rfl

theorem toInt_estimateFee_of_lt {feePerKb : Int64} {n : ℕ} (hn : n < 2 ^ 31)
    (h : feeNumerator feePerKb.toInt n < 2 ^ 63) :
    (estimateFee feePerKb (Int32.ofNat n) 2).toInt = exactFee feePerKb.toInt n := by
  have hpos : 0 ≤ feeNumerator feePerKb.toInt n := by unfold feeNumerator; positivity
  rw [toInt_estimateFee feePerKb hn, Int.bmod_eq_of_le (by omega) (by omega),
    Int.tdiv_eq_ediv_of_nonneg hpos, exactFee]

theorem toInt_estimateFee_lt {feePerKb : Int64} {n : ℕ} (hn : n < 2 ^ 31)
    (h : ¬ feeNumerator feePerKb.toInt n < 2 ^ 63) :
    (estimateFee feePerKb (Int32.ofNat n) 2).toInt < exactFee feePerKb.toInt n := by
  rw [toInt_estimateFee feePerKb hn, exactFee]
  generalize feeNumerator feePerKb.toInt n = p at h
  have hlt : p.bmod (2 ^ 64) < 2 ^ 63 := Int.bmod_lt (by decide)
  have hm := Int.bmod_eq_self_sub_mul_bdiv p (2 ^ 64)
  generalize p.bmod (2 ^ 64) = w at hlt hm
  have hdiv : w.tdiv 1000 ≤ max (w / 1000) 0 := by
    obtain hw | hw := le_or_gt 0 w
    · rw [Int.tdiv_eq_ediv_of_nonneg hw]
      exact le_max_left _ _
    · have := Int.tdiv_nonneg (neg_nonneg.mpr hw.le) (by decide : (0 : ℤ) ≤ 1000)
      rw [Int.neg_tdiv] at this
      omega
  omega

/-! ## The loop -/

section

variable (sendAmount feePerKb : Int64)

/-- The test of the loop and of the builder. -/
def Covered (selected : List SpendableUtxo) : Prop :=
  sendAmount + estimateFee feePerKb (Int32.ofNat selected.length) 2 ≤ Int64.ofInt (total selected)

instance (selected : List SpendableUtxo) : Decidable (Covered sendAmount feePerKb selected) :=
  inferInstanceAs (Decidable (_ ≤ _))

/-- The loop stops at the first outputs that pass the test, or at the end of the list. -/
theorem selectInputs_eq (utxos selected : List SpendableUtxo) : ∃ k ≤ utxos.length,
    selectInputs sendAmount feePerKb utxos (Int64.ofInt (total selected))
        (selected.map SpendableUtxo.input) =
      (Int64.ofInt (total (selected ++ utxos.take k)),
        (selected ++ utxos.take k).map SpendableUtxo.input) ∧
    (∀ j, 0 < j → j < k → ¬ Covered sendAmount feePerKb (selected ++ utxos.take j)) ∧
    (k = utxos.length ∨ Covered sendAmount feePerKb (selected ++ utxos.take k)) := by
  induction utxos generalizing selected with
  | nil => exact ⟨0, le_rfl, by simp [selectInputs], fun j h h' => absurd h' (by omega), .inl rfl⟩
  | cons utxo utxos ih =>
    have htotal : Int64.ofInt (total selected) + utxo.amount =
        Int64.ofInt (total (selected ++ [utxo])) := by
      rw [total_append, Int64.ofInt_add]
      simp [total]
    have hinputs : selected.map SpendableUtxo.input ++ [utxo.input] =
        (selected ++ [utxo]).map SpendableUtxo.input := by simp
    rw [selectInputs, htotal, hinputs, List.length_map]
    by_cases h : Covered sendAmount feePerKb (selected ++ [utxo])
    · refine ⟨1, by simp, if_pos h, fun j h h' => absurd h' (by omega), .inr h⟩
    · obtain ⟨k, hk, heq, hbefore, hlast⟩ := ih (selected ++ [utxo])
      simp only [List.append_assoc, List.singleton_append] at heq hbefore hlast
      refine ⟨k + 1, Nat.succ_le_succ hk, (if_neg h).trans heq, ?_, ?_⟩
      · intro j hj hjk
        obtain ⟨j, rfl⟩ := Nat.exists_eq_succ_of_ne_zero hj.ne'
        obtain rfl | hj := Nat.eq_zero_or_pos j
        · exact h
        · exact hbefore j hj (by omega)
      · exact hlast.imp (congrArg (· + 1)) id

end

/-! ## What the builder returns -/

section

variable {decodeHash160 : String → Except String {hash : Bytes // hash.length = 20}}
  {utxos : List SpendableUtxo} {hutxos : utxos.length < 2 ^ 31}
  {destinationAddress changeAddress : String} {sendAmount feePerKb now : Int64} {tx : Transaction}

variable {address : String} {amount : Int64} {change : Int64}

theorem payTo_eq_ok {output : TxOutput} (h : payTo decodeHash160 address amount = .ok output) :
    output.amount = amount := by
  unfold payTo at h
  split at h
  · cases h
  · cases h
    rfl

theorem payTo_ne : payTo decodeHash160 address amount ≠ .error .insufficientBalance := by
  unfold payTo
  split <;> exact fun h => by cases h

theorem paymentOutputs_eq_ok {outputs : {l : List TxOutput // l.length < 2 ^ 31}}
    (h : paymentOutputs decodeHash160 destinationAddress changeAddress sendAmount change =
      .ok outputs) :
    outputs.1.map TxOutput.amount = sendAmount :: if 0 < change then [change] else [] := by
  unfold paymentOutputs at h
  cases hpay : payTo decodeHash160 destinationAddress sendAmount with
  | error e => rw [hpay] at h; cases h
  | ok payment =>
    rw [hpay] at h
    change (if 0 < change then _ else _) = _ at h
    split_ifs at h ⊢
    · cases hrest : payTo decodeHash160 changeAddress change with
      | error e => rw [hrest] at h; cases h
      | ok rest =>
        rw [hrest] at h
        cases h
        rw [List.map_cons, List.map_singleton, payTo_eq_ok hpay, payTo_eq_ok hrest]
    · cases h
      rw [List.map_singleton, payTo_eq_ok hpay]

theorem paymentOutputs_ne :
    paymentOutputs decodeHash160 destinationAddress changeAddress sendAmount change ≠
      .error .insufficientBalance := by
  intro h
  unfold paymentOutputs at h
  cases hpay : payTo decodeHash160 destinationAddress sendAmount with
  | error e => rw [hpay] at h; cases h; exact payTo_ne hpay
  | ok payment =>
    rw [hpay] at h
    change (if 0 < change then _ else _) = _ at h
    split_ifs at h
    · cases hrest : payTo decodeHash160 changeAddress change with
      | error e => rw [hrest] at h; cases h; exact payTo_ne hrest
      | ok rest => rw [hrest] at h; cases h
    · cases h

/-- The output pays to the hash of a key. -/
def TxOutput.PaysToHash (output : TxOutput) : Prop :=
  ∃ hash160 : Bytes, hash160.length = 20 ∧ output.scriptPubKey = p2pkhScript hash160

theorem payTo_paysToHash {output : TxOutput} (h : payTo decodeHash160 address amount = .ok output) :
    output.PaysToHash := by
  unfold payTo at h
  split at h
  · cases h
  · rename_i hash _
    cases h
    exact ⟨hash, hash.2, rfl⟩

theorem paymentOutputs_paysToHash {outputs : {l : List TxOutput // l.length < 2 ^ 31}}
    (h : paymentOutputs decodeHash160 destinationAddress changeAddress sendAmount change =
      .ok outputs) :
    (∃ payment ∈ outputs.1, payTo decodeHash160 destinationAddress sendAmount = .ok payment) ∧
      ∀ output ∈ outputs.1, output.PaysToHash := by
  unfold paymentOutputs at h
  cases hpay : payTo decodeHash160 destinationAddress sendAmount with
  | error e => rw [hpay] at h; cases h
  | ok payment =>
    rw [hpay] at h
    change (if 0 < change then _ else _) = _ at h
    split_ifs at h
    · cases hrest : payTo decodeHash160 changeAddress change with
      | error e => rw [hrest] at h; cases h
      | ok rest =>
        rw [hrest] at h
        cases h
        refine ⟨⟨payment, List.mem_cons_self, rfl⟩, fun output houtput => ?_⟩
        obtain rfl | rfl := List.mem_pair.mp houtput
        · exact payTo_paysToHash hpay
        · exact payTo_paysToHash hrest
    · cases h
      refine ⟨⟨payment, List.mem_cons_self, rfl⟩, fun output houtput => ?_⟩
      obtain rfl := List.mem_singleton.mp houtput
      exact payTo_paysToHash hpay

/-- Every output of the wallet pays to the hash of a key, one of them to the destination. -/
theorem buildUnsigned_paysToHash (h : buildUnsigned decodeHash160 utxos hutxos destinationAddress
    changeAddress sendAmount feePerKb now = .ok tx) :
    (∃ payment ∈ tx.outputs, payTo decodeHash160 destinationAddress sendAmount = .ok payment) ∧
      ∀ output ∈ tx.outputs, output.PaysToHash := by
  unfold buildUnsigned at h
  split_ifs at h
  dsimp only at h
  split_ifs at h
  split at h
  · cases h
  · rename_i outputs hout
    cases h
    exact paymentOutputs_paysToHash hout

theorem pos_of_buildUnsigned (h : buildUnsigned decodeHash160 utxos hutxos destinationAddress
    changeAddress sendAmount feePerKb now = .ok tx) : 0 < sendAmount := by
  unfold buildUnsigned at h
  split_ifs at h with hsend
  exact Int64.not_le.mp hsend

/-- The result of a builder whose loop stops after `k` outputs. -/
structure Stops (utxos : List SpendableUtxo) (sendAmount feePerKb : Int64)
    (result : Except BuildError Transaction) (k : ℕ) : Prop where
  le : k ≤ utxos.length
  before : ∀ j, 0 < j → j < k → ¬ Covered sendAmount feePerKb (utxos.take j)
  last : k = utxos.length ∨ Covered sendAmount feePerKb (utxos.take k)
  error : result = .error .insufficientBalance ↔ ¬ Covered sendAmount feePerKb (utxos.take k)
  ok : ∀ tx, result = .ok tx →
    let change := Int64.ofInt (total (utxos.take k)) - sendAmount -
      estimateFee feePerKb (Int32.ofNat k) 2
    tx.inputs = (utxos.take k).map SpendableUtxo.input ∧
      tx.outputs.map TxOutput.amount = sendAmount :: if 0 < change then [change] else []

theorem exists_stops (hsend : 0 < sendAmount) : ∃ k, Stops utxos sendAmount feePerKb
    (buildUnsigned decodeHash160 utxos hutxos destinationAddress changeAddress sendAmount feePerKb
      now) k := by
  obtain ⟨k, hk, heq, hbefore, hlast⟩ := selectInputs_eq sendAmount feePerKb utxos []
  have hlen : (utxos.take k).length = k := by rw [List.length_take]; omega
  have heq' : selectInputs sendAmount feePerKb utxos 0 [] =
      (Int64.ofInt (total (utxos.take k)), (utxos.take k).map SpendableUtxo.input) := heq
  have hcovered : Covered sendAmount feePerKb (utxos.take k) ↔
      sendAmount + estimateFee feePerKb (Int32.ofNat k) 2 ≤ Int64.ofInt (total (utxos.take k)) := by
    rw [Covered, hlen]
  suffices h : _ ∧ _ from ⟨k, hk, hbefore, hlast, h.1, h.2⟩
  unfold buildUnsigned
  rw [if_neg (Int64.not_le.mpr hsend)]
  simp only [heq', List.length_map, hlen]
  by_cases h : Covered sendAmount feePerKb (utxos.take k)
  · rw [if_neg (Int64.not_lt.mpr (hcovered.mp h))]
    cases hout : paymentOutputs decodeHash160 destinationAddress changeAddress sendAmount
        (Int64.ofInt (total (utxos.take k)) - sendAmount -
          estimateFee feePerKb (Int32.ofNat k) 2) with
    | error e =>
      refine ⟨iff_of_false (fun he => ?_) (not_not.mpr h), fun tx htx => by cases htx⟩
      cases he
      exact paymentOutputs_ne hout
    | ok outputs =>
      refine ⟨iff_of_false (fun he => by cases he) (not_not.mpr h), fun tx htx => ?_⟩
      cases htx
      exact ⟨rfl, paymentOutputs_eq_ok hout⟩
  · rw [if_pos (Int64.not_le.mp (mt hcovered.mpr h))]
    exact ⟨iff_of_true rfl h, fun tx htx => by cases htx⟩

end

/-! ## Lists that leave room -/

section

variable {sendAmount feePerKb : Int64} {n : ℕ}

theorem toInt_needed (hfits : Fits sendAmount feePerKb n) (hsend : 0 < sendAmount)
    (hn : n < 2 ^ 31) : (sendAmount + estimateFee feePerKb (Int32.ofNat n) 2).toInt =
      sendAmount.toInt + exactFee feePerKb.toInt n := by
  have hpos : 0 < sendAmount.toInt := Int64.lt_iff_toInt_lt.mp hsend
  have hfee : 10000 ≤ exactFee feePerKb.toInt n := le_max_right _ _
  rw [Int64.toInt_add, toInt_estimateFee_of_lt hn hfits.1]
  have := hfits.2
  exact Int.bmod_eq_of_le (by omega) (by omega)

theorem covered_iff {selected : List SpendableUtxo} (hfits : Fits sendAmount feePerKb selected.length)
    (hsend : 0 < sendAmount) (hn : selected.length < 2 ^ 31)
    (hnonneg : 0 ≤ total selected) (htotal : total selected < 2 ^ 63) :
    Covered sendAmount feePerKb selected ↔
      sendAmount.toInt + exactFee feePerKb.toInt selected.length ≤ total selected := by
  rw [Covered, Int64.le_iff_toInt_le, toInt_needed hfits hsend hn,
    Int64.toInt_ofInt_of_le (by omega) htotal]

variable {utxos : List SpendableUtxo} {result : Except BuildError Transaction} {k : ℕ}

theorem total_nonneg (hamount : ∀ utxo ∈ utxos, 0 ≤ utxo.amount) : 0 ≤ total utxos := by
  refine List.sum_nonneg fun v hv => ?_
  obtain ⟨utxo, hmem, rfl⟩ := List.mem_map.mp hv
  exact Int64.le_iff_toInt_le.mp (hamount utxo hmem)

theorem total_take_le (hamount : ∀ utxo ∈ utxos, 0 ≤ utxo.amount) (j : ℕ) :
    total (utxos.take j) ≤ total utxos := by
  have h := total_nonneg fun utxo hmem => hamount utxo (List.mem_of_mem_drop (i := j) hmem)
  rw [← List.take_append_drop j utxos, total_append, List.take_append_drop]
  omega

/-- With numbers that fit the builder accounts for what it spends. -/
theorem Stops.accounts (hstops : Stops utxos sendAmount feePerKb result k)
    (hutxos : utxos.length < 2 ^ 31) (hfits : Fits sendAmount feePerKb utxos.length)
    (hsend : 0 < sendAmount) (hamount : ∀ utxo ∈ utxos, 0 ≤ utxo.amount)
    (htotal : total utxos < 2 ^ 63) : Accounts utxos sendAmount feePerKb result := by
  have hpos : 0 < sendAmount.toInt := Int64.lt_iff_toInt_lt.mp hsend
  have hnonneg : ∀ j, 0 ≤ total (utxos.take j) := fun j =>
    total_nonneg fun utxo hmem => hamount utxo (List.mem_of_mem_take hmem)
  have hlt : ∀ j, total (utxos.take j) < 2 ^ 63 := fun j =>
    (total_take_le hamount j).trans_lt htotal
  have hcovered : ∀ j ≤ utxos.length, Covered sendAmount feePerKb (utxos.take j) ↔
      sendAmount.toInt + exactFee feePerKb.toInt j ≤ total (utxos.take j) := by
    intro j hj
    have hlen : (utxos.take j).length = j := by rw [List.length_take]; omega
    rw [covered_iff (by rw [hlen]; exact hfits.mono hj) hsend (by omega) (hnonneg j) (hlt j), hlen]
  have hfee : ∀ j, 10000 ≤ exactFee feePerKb.toInt j := fun j => le_max_right _ _
  constructor
  · intro tx htx
    obtain ⟨hinputs, houtputs⟩ := hstops.ok tx htx
    have hk : Covered sendAmount feePerKb (utxos.take k) := by
      by_contra h
      cases htx.symm.trans (hstops.error.mpr h)
    rw [hcovered k hstops.le] at hk
    have hchange : (Int64.ofInt (total (utxos.take k)) - sendAmount -
        estimateFee feePerKb (Int32.ofNat k) 2).toInt =
        total (utxos.take k) - sendAmount.toInt - exactFee feePerKb.toInt k := by
      have hT := hlt k
      have hT0 := hnonneg k
      have hS := Int64.toInt_lt sendAmount
      have hF := (hfits.mono hstops.le).2
      have hfeek := hfee k
      rw [Int64.toInt_sub, Int64.toInt_sub, Int64.toInt_ofInt_of_le (by omega) hT,
        toInt_estimateFee_of_lt (hstops.le.trans_lt hutxos) (hfits.mono hstops.le).1,
        Int.bmod_eq_of_le (n := total (utxos.take k) - _) (by omega) (by omega)]
      exact Int.bmod_eq_of_le (by omega) (by omega)
    generalize Int64.ofInt (total (utxos.take k)) - sendAmount -
      estimateFee feePerKb (Int32.ofNat k) 2 = change at hchange houtputs
    have hmap : (tx.outputs.map fun output => output.amount.toInt) =
        (tx.outputs.map TxOutput.amount).map Int64.toInt := by rw [List.map_map]; rfl
    have hmem : ∀ output ∈ tx.outputs, output.amount ∈ tx.outputs.map TxOutput.amount :=
      fun output h => List.mem_map_of_mem h
    rw [houtputs] at hmap hmem
    have hfeek := hfee k
    refine ⟨k, hstops.le, hinputs, by rw [houtputs]; rfl, ?_, fun output houtput => ?_⟩
    · rw [hmap]
      split_ifs with h
      · simp only [List.map_cons, List.map_nil, List.sum_cons, List.sum_nil]
        omega
      · rw [Int64.not_lt, Int64.le_iff_toInt_le, hchange] at h
        simp only [List.map_cons, List.map_nil, List.sum_cons, List.sum_nil]
        change _ ≤ (0 : ℤ) at h
        omega
    · have hout := hmem output houtput
      split_ifs at hout with h
      · obtain h | h := List.mem_pair.mp hout <;> rw [h] <;> omega
      · rw [List.mem_singleton.mp hout]
        omega
  · rw [hstops.error]
    constructor
    · intro h j hj
      obtain rfl | hj0 := Nat.eq_zero_or_pos j
      · have := hfee 0
        show (0 : ℤ) < _
        omega
      · have hlast := hstops.last.resolve_right h
        obtain hlt | rfl := (hlast.symm ▸ hj : j ≤ k).lt_or_eq
        · exact not_le.mp (mt (hcovered j hj).mpr (hstops.before j hj0 hlt))
        · exact not_le.mp (mt (hcovered j hj).mpr h)
    · intro h hk
      exact absurd ((hcovered k hstops.le).mp hk) (not_le.mpr (h k hstops.le))

theorem total_replicate (j : ℕ) : total (List.replicate j ⟨"", 0, 0⟩) = 0 := by
  rw [total, List.map_replicate, List.sum_replicate]
  exact smul_zero j

/-- What is needed, as the builder computes it, is too small if a number does not fit. -/
theorem toInt_wrapped_lt (hfits : ¬ Fits sendAmount feePerKb n) (hsend : 0 < sendAmount)
    (hn : n < 2 ^ 31) : (sendAmount + estimateFee feePerKb (Int32.ofNat n) 2).toInt <
      sendAmount.toInt + exactFee feePerKb.toInt n := by
  have hpos : 0 < sendAmount.toInt := Int64.lt_iff_toInt_lt.mp hsend
  have hfee : 10000 ≤ exactFee feePerKb.toInt n := le_max_right _ _
  have hF0 : 10000 ≤ (estimateFee feePerKb (Int32.ofNat n) 2).toInt := by
    rw [toInt_estimateFee feePerKb hn]
    exact le_max_right _ _
  have hS := Int64.toInt_lt sendAmount
  have hF := Int64.toInt_lt (estimateFee feePerKb (Int32.ofNat n) 2)
  have hlo := Int64.le_toInt (sendAmount + estimateFee feePerKb (Int32.ofNat n) 2)
  have hhi := Int64.toInt_lt (sendAmount + estimateFee feePerKb (Int32.ofNat n) 2)
  rw [Int64.toInt_add, Int.bmod_eq_self_sub_mul_bdiv] at hlo hhi ⊢
  by_cases hnumerator : feeNumerator feePerKb.toInt n < 2 ^ 63
  · rw [toInt_estimateFee_of_lt hn hnumerator] at hlo hhi hF ⊢
    have hlarge : ¬ sendAmount.toInt + exactFee feePerKb.toInt n < 2 ^ 63 :=
      fun h => hfits ⟨hnumerator, h⟩
    omega
  · have hlt := toInt_estimateFee_lt hn hnumerator
    omega

/-- Outputs whose numbers do not fit and that the builder spends, although they do not suffice. -/
theorem exists_not_accounts (hfits : ¬ Fits sendAmount feePerKb n) (hsend : 0 < sendAmount)
    (hn0 : 0 < n) (hn : n < 2 ^ 31) : ∃ utxos : List SpendableUtxo, utxos.length = n ∧
      (∀ utxo ∈ utxos, 0 ≤ utxo.amount) ∧ total utxos < 2 ^ 63 ∧
      ∀ result k, Stops utxos sendAmount feePerKb result k →
        ¬ Accounts utxos sendAmount feePerKb result := by
  have hpos : 0 < sendAmount.toInt := Int64.lt_iff_toInt_lt.mp hsend
  have hfee : ∀ j, 10000 ≤ exactFee feePerKb.toInt j := fun j => le_max_right _ _
  generalize hneeded : sendAmount + estimateFee feePerKb (Int32.ofNat n) 2 = needed
  have hlast := toInt_wrapped_lt hfits hsend hn
  rw [hneeded] at hlast
  let nothing : SpendableUtxo := ⟨"", 0, 0⟩
  let last : SpendableUtxo := ⟨"", 0, max 0 needed⟩
  have htotal : total (List.replicate (n - 1) nothing ++ [last]) = (max 0 needed).toInt := by
    rw [total_append, total_replicate]
    simp [total, last]
  have hlen : (List.replicate (n - 1) nothing ++ [last]).length = n := by
    rw [List.length_append, List.length_replicate, List.length_singleton]
    omega
  have hcovered : Covered sendAmount feePerKb (List.replicate (n - 1) nothing ++ [last]) := by
    rw [Covered, hlen, hneeded, htotal, Int64.ofInt_toInt, Int64.le_iff_toInt_le, toInt_max]
    exact le_max_right _ _
  refine ⟨_, hlen, ?_, ?_, fun result k hstops haccounts => ?_⟩
  · intro utxo hmem
    rw [Int64.le_iff_toInt_le]
    obtain h | h := List.mem_append.mp hmem
    · rw [List.eq_of_mem_replicate h]
    · rw [List.mem_singleton.mp h, toInt_max]
      exact le_max_left _ _
  · rw [htotal]
    exact Int64.toInt_lt _
  · have hk : Covered sendAmount feePerKb
        ((List.replicate (n - 1) nothing ++ [last]).take k) := by
      obtain h | h := hstops.last
      · rw [h, List.take_length]
        exact hcovered
      · exact h
    refine hstops.error.mp (haccounts.2.mpr fun j hj => ?_) hk
    rw [hlen] at hj
    obtain hj | rfl := hj.lt_or_eq
    · rw [List.take_append_of_le_length (by rw [List.length_replicate]; omega),
        List.take_replicate, total_replicate]
      have := hfee j
      omega
    · rw [List.take_of_length_le hlen.le, htotal, toInt_max]
      have := hfee j
      exact max_lt (show (0 : ℤ) < _ by omega) hlast

/-- Two outputs whose sum does not fit and that the builder does not spend, although they
suffice. -/
theorem exists_not_accounts_of_total (hfits : Fits sendAmount feePerKb 2) (hsend : 0 < sendAmount) :
    ∃ utxos : List SpendableUtxo, utxos.length = 2 ∧ (∀ utxo ∈ utxos, 0 ≤ utxo.amount) ∧
      total utxos = 2 ^ 63 ∧ ∀ result k, Stops utxos sendAmount feePerKb result k →
        ¬ Accounts utxos sendAmount feePerKb result := by
  have hpos : 0 < sendAmount.toInt := Int64.lt_iff_toInt_lt.mp hsend
  have hfee : ∀ j, 10000 ≤ exactFee feePerKb.toInt j := fun j => le_max_right _ _
  refine ⟨[⟨"", 0, 1⟩, ⟨"", 0, Int64.maxValue⟩], rfl, by decide, by decide,
    fun result k hstops haccounts => ?_⟩
  have hnot : ¬ Covered sendAmount feePerKb
      ([(⟨"", 0, 1⟩ : SpendableUtxo), ⟨"", 0, Int64.maxValue⟩].take k) := by
    obtain hk | hk := hstops.le.lt_or_eq
    · change k < 2 at hk
      have hsmall : total ([(⟨"", 0, 1⟩ : SpendableUtxo), ⟨"", 0, Int64.maxValue⟩].take k) = k := by
        obtain rfl | rfl := Nat.le_one_iff_eq_zero_or_eq_one.mp (Nat.lt_succ_iff.mp hk) <;> rfl
      have hlen : ([(⟨"", 0, 1⟩ : SpendableUtxo), ⟨"", 0, Int64.maxValue⟩].take k).length ≤ 2 := by
        rw [List.length_take]
        exact min_le_right _ _
      rw [covered_iff (hfits.mono hlen) hsend (by omega) (by omega) (by omega), hsmall]
      have := hfee ([(⟨"", 0, 1⟩ : SpendableUtxo), ⟨"", 0, Int64.maxValue⟩].take k).length
      omega
    · rw [hk, Covered, Int64.le_iff_toInt_le]
      change ¬ (sendAmount + estimateFee feePerKb (Int32.ofNat 2) 2).toInt ≤ -2 ^ 63
      rw [toInt_needed hfits hsend (by decide)]
      have := hfee 2
      omega
  have hall := haccounts.2.mp (hstops.error.mpr hnot) 2 le_rfl
  change (2 : ℤ) ^ 63 < _ at hall
  have := hfits.2
  omega

end

/-- A decoder that takes every address. -/
def decodeAny (_ : String) : Except String {hash : Bytes // hash.length = 20} :=
  .ok ⟨List.replicate 20 0, rfl⟩

end JavaWallet

end X2XCoin
