import X2XCoin.JavaWallet.Builder
import X2XCoin.Mempool.Policy

/-!
# Dust

The change of a transaction that the wallet builds, against the dust threshold of the node.
-/

open ByteCodec

namespace X2XCoin

namespace JavaWallet

def defaultMinRelayTxFee : Wallet.CFeeRate := ⟨10000⟩

/-- An output of the wallet as the node sees it. -/
def TxOutput.toNode (output : TxOutput) : CTxOut := ⟨output.amount, output.scriptPubKey⟩

/-- What is left of the first outputs after the payment and the fee. -/
def changeOf (utxos : List SpendableUtxo) (sendAmount feePerKb : Int64) (inputCount : ℕ) : ℤ :=
  total (utxos.take inputCount) - sendAmount.toInt - exactFee feePerKb.toInt inputCount

/-- No output is dust, and the node does not reject the transaction as dust whatever its inputs have
become. -/
def NotDust (policy : StandardPolicy) (tx : Transaction) : Prop :=
  (∀ output ∈ tx.outputs, output.toNode.isDust policy.minRelayTxFee = false) ∧
    ∀ vin, policy.isStandardTx { tx.toNode with vin := vin } ≠ .error "dust"

/-! ## The threshold -/

theorem getDustThreshold_p2pkhScript {hash160 : Bytes} (h : hash160.length = 20) (amount : Int64) :
    CTxOut.getDustThreshold defaultMinRelayTxFee ⟨amount, p2pkhScript hash160⟩ = 5460 := by
  have hlength : (p2pkhScript hash160).length = 25 := by simp [p2pkhScript, h]
  have hspendable : CScript.isUnspendable (p2pkhScript hash160) = false := by
    rw [CScript.isUnspendable, hlength]
    exact rfl
  have hsize : (CTxOut.serialize ⟨amount, p2pkhScript hash160⟩).length = 34 := by
    simp [CTxOut.serialize, writeBytes, writeCompactSize, hlength, length_leBytes]
  simp only [CTxOut.getDustThreshold, hspendable, hsize]
  decide

/-! ## The outputs of the builder -/

section

variable {decodeHash160 : String → Except String {hash : Bytes // hash.length = 20}}
  {utxos : List SpendableUtxo} {hutxos : utxos.length < 2 ^ 31}
  {destinationAddress changeAddress : String} {sendAmount feePerKb now : Int64} {tx : Transaction}

theorem TxOutput.PaysToHash.isDust_eq_false_iff {output : TxOutput} (h : output.PaysToHash) :
    output.toNode.isDust defaultMinRelayTxFee = false ↔ 5460 ≤ output.amount.toInt := by
  obtain ⟨hash160, hlength, hscript⟩ := h
  rw [TxOutput.toNode, hscript, CTxOut.isDust, getDustThreshold_p2pkhScript hlength,
    decide_eq_false_iff_not, Int64.not_lt, Int64.le_iff_toInt_le]
  rfl

/-- With numbers that fit the wallet returns the payment, and the change that is left if it is
positive. -/
theorem amounts_of_buildUnsigned (hamount : ∀ utxo ∈ utxos, 0 ≤ utxo.amount)
    (htotal : total utxos < 2 ^ 63) (hfits : Fits sendAmount feePerKb utxos.length)
    (h : buildUnsigned decodeHash160 utxos hutxos destinationAddress changeAddress sendAmount
      feePerKb now = .ok tx) :
    0 ≤ changeOf utxos sendAmount feePerKb tx.inputs.length ∧
      tx.outputs.map (fun output => output.amount.toInt) =
        if 0 < changeOf utxos sendAmount feePerKb tx.inputs.length then
          [sendAmount.toInt, changeOf utxos sendAmount feePerKb tx.inputs.length]
        else [sendAmount.toInt] := by
  have hsend := pos_of_buildUnsigned h
  obtain ⟨k, hstops⟩ : ∃ k, Stops utxos sendAmount feePerKb (buildUnsigned decodeHash160 utxos
    hutxos destinationAddress changeAddress sendAmount feePerKb now) k := exists_stops hsend
  obtain ⟨-, houtputs⟩ := hstops.ok tx h
  obtain ⟨j, hj, hinputs, -, hbalanced, -⟩ :=
    (hstops.accounts hutxos hfits hsend hamount htotal).1 tx h
  have hlen : tx.inputs.length = j := by
    rw [hinputs, List.length_map, List.length_take, min_eq_left hj]
  generalize Int64.ofInt (total (utxos.take k)) - sendAmount -
    estimateFee feePerKb (Int32.ofNat k) 2 = change at houtputs
  have hmap : (tx.outputs.map fun output => output.amount.toInt) =
      (tx.outputs.map TxOutput.amount).map Int64.toInt := by rw [List.map_map]; rfl
  rw [houtputs] at hmap
  rw [hmap] at hbalanced ⊢
  rw [hlen, changeOf]
  by_cases hchange : 0 < change
  · have hpos : 0 < change.toInt := Int64.lt_iff_toInt_lt.mp hchange
    rw [if_pos hchange] at hbalanced ⊢
    simp only [List.map_cons, List.map_nil, List.sum_cons, List.sum_nil] at hbalanced ⊢
    have hleft : total (utxos.take j) - sendAmount.toInt - exactFee feePerKb.toInt j =
      change.toInt := by omega
    rw [hleft, if_pos hpos]
    exact ⟨hpos.le, rfl⟩
  · rw [if_neg hchange] at hbalanced ⊢
    simp only [List.map_cons, List.map_nil, List.sum_cons, List.sum_nil] at hbalanced ⊢
    have hleft : total (utxos.take j) - sendAmount.toInt - exactFee feePerKb.toInt j = 0 := by
      omega
    rw [hleft]
    exact ⟨le_rfl, rfl⟩

theorem vout_toNode (tx : Transaction) : tx.toNode.vout = tx.outputs.map TxOutput.toNode := rfl

end

/-- The settings of a node without options. -/
def defaultPolicy : StandardPolicy := ⟨true, 15000, true, defaultMinRelayTxFee⟩

/-- An output that holds one coin, the fee of its payment and what is left. -/
def oneCoinWith (left : Int64) : List SpendableUtxo := [⟨"", 0, 100010000 + left⟩]

/-- The payment of the coin, with the rest as change. -/
def oneCoinPayment (left : Int64) : Transaction where
  version := TX_VERSION
  time := 0
  inputs := (oneCoinWith left).map SpendableUtxo.input
  outputs := [⟨100000000, p2pkhScript (List.replicate 20 0), by decide⟩,
    ⟨left, p2pkhScript (List.replicate 20 0), by decide⟩]
  lockTime := 0
  inputs_lt := Nat.lt_of_sub_pos (by decide : 0 < 2 ^ 31 - 1)
  outputs_lt := Nat.lt_of_sub_pos (by decide : 0 < 2 ^ 31 - 2)

end JavaWallet

end X2XCoin
