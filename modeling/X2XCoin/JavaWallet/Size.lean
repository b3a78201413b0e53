import X2XCoin.JavaWallet.Signing

/-!
# The size of a signed payment

The bytes that `buildAndSign` returns against the size that `estimateFee` charges for, which counts
one byte for the number of inputs.
-/

open ByteCodec

namespace X2XCoin

namespace JavaWallet

/-- The size that `estimateFee` charges for. -/
def estimatedSize (inputCount : ℕ) : ℕ := 10 + 4 + inputCount * 148 + 2 * 34

/-- The numbers of a signature are not zero and below the order of the group. -/
def Secp256k1.InRange (lib : Secp256k1) : Prop :=
  ∀ privateKey hash r s, lib.generateSignature privateKey hash = some (r, s) →
    (1 ≤ r ∧ r < secp256k1Order) ∧ 1 ≤ s ∧ s < secp256k1Order

/-! ## Signatures -/

theorem length_toByteArray (value : ℕ) : (toByteArray value).length = value.size / 8 + 1 :=
  length_beBytes _ _

theorem length_encodeDer {r s : ℕ} (hr : r < 2 ^ 256) (hs : s < 2 ^ 256) :
    (encodeDer r s).length = (r.size / 8 + 1) + (s.size / 8 + 1) + 6 := by
  rw [encodeDer_eq, length_derFrame, unsigned_eq hr, unsigned_eq hs, length_toByteArray,
    length_toByteArray]

/-- The first number may need a byte for its sign, the second one, which is the lower, does not. -/
theorem length_signDer_le {r s : ℕ} (hr : r < secp256k1Order) (hs : s < secp256k1Order) :
    (signDer r s).length ≤ 71 := by
  have horder : secp256k1Order < 2 ^ 256 := by decide
  have hhalf : secp256k1Order / 2 < 2 ^ 255 := by decide
  have hlow : (if s > secp256k1Order / 2 then secp256k1Order - s else s) < 2 ^ 255 := by
    split_ifs <;> omega
  have hrsize := Nat.size_le.mpr (hr.trans horder)
  have hssize := Nat.size_le.mpr hlow
  rw [signDer, length_encodeDer (hr.trans horder) (by omega)]
  omega

theorem length_largest_signDer : (signDer (2 ^ 255) (2 ^ 254)).length = 71 := by
  have hlow : ¬ 2 ^ 254 > secp256k1Order / 2 := by decide
  rw [signDer, if_neg hlow, length_encodeDer (by decide) (by decide), Nat.size_pow, Nat.size_pow]

theorem length_eq_of_buildScriptSig {derSignature publicKey scriptSig : Bytes}
    (h : buildScriptSig derSignature publicKey = some scriptSig) :
    scriptSig.length = derSignature.length + publicKey.length + 3 := by
  simp only [buildScriptSig, Option.bind_eq_bind, Option.bind_eq_some_iff, Option.pure_def,
    Option.some.injEq] at h
  obtain ⟨sig, hsig, key, hkey, rfl⟩ := h
  rw [List.length_append, (length_writeShortBytes hsig).1, (length_writeShortBytes hkey).1,
    sigWithHashType, List.length_append, List.length_singleton]
  omega

theorem buildScriptSig_isSome {derSignature publicKey : Bytes} (hsig : derSignature.length < 252)
    (hkey : publicKey.length < 253) : (buildScriptSig derSignature publicKey).isSome := by
  have hsig' : ¬ 0xfd ≤ (sigWithHashType derSignature).length := by
    rw [sigWithHashType, List.length_append, List.length_singleton]
    omega
  rw [buildScriptSig, writeShortBytes, if_neg hsig', writeShortBytes, if_neg (by omega)]
  rfl

section

variable {lib : Secp256k1} {unsignedTx : Transaction}

/-- The script of a signed input has the length of its signature and 36 bytes. -/
theorem length_of_signInput {i : ℕ} {signingInput : SigningInput} {original signed : TxInput}
    (h : signInput lib unsignedTx i signingInput original = some signed) :
    ∃ hash r s, lib.generateSignature signingInput.privateKey hash = some (r, s) ∧
      signed.scriptSig.length = (signDer r s).length + 36 := by
  simp only [signInput, Option.bind_eq_bind, Option.bind_eq_some_iff] at h
  obtain ⟨hash160, -, message, -, ⟨r, s⟩, hrs, publicKey, -, h⟩ := h
  split at h
  · cases h
  · next scriptSig hscript =>
    obtain rfl := Option.some.inj h
    refine ⟨_, r, s, hrs, ?_⟩
    rw [length_eq_of_buildScriptSig hscript, publicKey.2]

section

variable {P : TxInput → Prop} {signingInputs : List SigningInput}
  (hP : ∀ i signingInput original signed, signInput lib unsignedTx i signingInput original = some signed → P signed)
include hP

/-- What holds for each turn of the loop holds for all inputs. -/
theorem forall_of_signInputs {i : ℕ} {inputs signed : List TxInput}
    (h : signInputs lib unsignedTx signingInputs i inputs = some signed) :
    ∀ input ∈ signed, P input := by
  induction inputs generalizing i signed with
  | nil =>
    obtain rfl := Option.some.inj h
    simp
  | cons original inputs ih =>
    simp only [signInputs, Option.bind_eq_bind, Option.bind_eq_some_iff, Option.pure_def,
      Option.some.injEq] at h
    obtain ⟨signingInput, -, head, hhead, rest, hrest, rfl⟩ := h
    exact List.forall_mem_cons.mpr ⟨hP i signingInput original head hhead, ih hrest⟩

theorem forall_of_signedTransaction {signed : Transaction}
    (h : signedTransaction lib unsignedTx signingInputs = some signed) :
    ∀ input ∈ signed.inputs, P input := by
  unfold signedTransaction at h
  split at h
  · cases h
  · next signedInputs hinputs =>
    obtain rfl := Option.some.inj h
    exact forall_of_signInputs hP hinputs

end

end

/-! ## The transaction -/

variable {n : ℕ} {t : Transaction}

theorem length_writeCompactSize_of_lt (h : n < 253) : (writeCompactSize n).length = 1 := by
  rw [writeCompactSize, if_pos h, length_leBytes]

theorem length_writeCompactSize_of_le (h : 253 ≤ n) : 3 ≤ (writeCompactSize n).length := by
  rw [writeCompactSize, if_neg (by omega)]
  split_ifs <;> simp [length_leBytes]

theorem length_writeCompactSize_le (h : n ≤ 0xffffffff) : (writeCompactSize n).length ≤ 5 := by
  unfold writeCompactSize
  split_ifs <;> simp [length_leBytes]

theorem length_serialize_input {input : CTxIn} (h : input.scriptSig.length < 253) :
    input.serialize.length = 41 + input.scriptSig.length := by
  simp only [CTxIn.serialize, COutPoint.serialize, writeUint256, writeBytes, List.length_append,
    length_leBytes, length_writeCompactSize_of_lt h]
  omega

theorem TxOutput.PaysToHash.length_serialize {output : TxOutput} (h : output.PaysToHash) :
    (CTxOut.serialize ⟨output.amount, output.scriptPubKey⟩).length = 34 := by
  obtain ⟨hash160, hlength, hscript⟩ := h
  have hlen : output.scriptPubKey.length = 25 := by
    rw [hscript]
    simp [p2pkhScript, hlength]
  simp only [CTxOut.serialize, writeBytes, List.length_append, length_leBytes, hlen,
    length_writeCompactSize_of_lt (show 25 < 253 by decide)]

/-- The size of a transaction whose inputs are signed and whose outputs pay to hashes of keys. -/
theorem length_serialize_toNode (hin : ∀ input ∈ t.inputs, input.scriptSig.length < 253)
    (hout : ∀ output ∈ t.outputs, output.PaysToHash) (hcount : t.outputs.length < 253) :
    t.toNode.serialize.length = 13 + (writeCompactSize t.inputs.length).length +
      (t.inputs.map fun input => 41 + input.scriptSig.length).sum + 34 * t.outputs.length := by
  have hins : (t.toNode.vin.flatMap CTxIn.serialize).length =
      (t.inputs.map fun input => 41 + input.scriptSig.length).sum := by
    rw [List.length_flatMap, Transaction.toNode, List.map_map]
    exact congrArg List.sum
      (List.map_congr_left fun input h => length_serialize_input (hin input h))
  have houts : (t.toNode.vout.flatMap CTxOut.serialize).length = 34 * t.outputs.length := by
    have hmap : t.toNode.vout.map (fun output => output.serialize.length) =
        t.outputs.map fun _ => 34 := by
      rw [Transaction.toNode, List.map_map]
      exact List.map_congr_left fun output h => (hout output h).length_serialize
    rw [List.length_flatMap, hmap, List.map_const', List.sum_replicate, smul_eq_mul, mul_comm]
  have hvin : t.toNode.vin.length = t.inputs.length := List.length_map _
  have hvout : t.toNode.vout.length = t.outputs.length := List.length_map _
  simp only [CTransaction.serialize, writeVector, List.length_append, length_leBytes, hins, houts,
    hvin, hvout, length_writeCompactSize_of_lt hcount]
  omega

/-- The size of a transaction with the largest signatures. -/
def largestSize (inputCount outputCount : ℕ) : ℕ :=
  13 + (writeCompactSize inputCount).length + inputCount * 148 + 34 * outputCount

theorem length_serialize_le (hin : ∀ input ∈ t.inputs, input.scriptSig.length ≤ 107)
    (hout : ∀ output ∈ t.outputs, output.PaysToHash) (hcount : t.outputs.length < 253) :
    t.toNode.serialize.length ≤ largestSize t.inputs.length t.outputs.length := by
  have hsum : (t.inputs.map fun input => 41 + input.scriptSig.length).sum ≤
      t.inputs.length * 148 := by
    have := List.sum_le_card_nsmul (t.inputs.map fun input => 41 + input.scriptSig.length) 148
      (List.forall_mem_map.mpr fun input h => by have := hin input h; omega)
    rwa [List.length_map, smul_eq_mul] at this
  rw [length_serialize_toNode (fun input h => (hin input h).trans_lt (by decide)) hout hcount,
    largestSize]
  omega

theorem length_serialize_eq (hin : ∀ input ∈ t.inputs, input.scriptSig.length = 107)
    (hout : ∀ output ∈ t.outputs, output.PaysToHash) (hcount : t.outputs.length < 253) :
    t.toNode.serialize.length = largestSize t.inputs.length t.outputs.length := by
  have hsum : (t.inputs.map fun input => 41 + input.scriptSig.length).sum =
      t.inputs.length * 148 := by
    rw [List.map_congr_left fun input h => by rw [hin input h], List.map_const', List.sum_replicate,
      smul_eq_mul]
  rw [length_serialize_toNode (fun input h => (hin input h).trans_lt (by decide)) hout hcount,
    largestSize, hsum]

/-! ## The builder with other addresses -/

section

variable {decodeHash160 : String → Except String {hash : Bytes // hash.length = 20}}
  {utxos : List SpendableUtxo} {hutxos : utxos.length < 2 ^ 31}
  {destinationAddress changeAddress : String} {sendAmount feePerKb now : Int64} {tx : Transaction}

theorem paymentOutputs_decodeAny {change : Int64}
    {outputs : {l : List TxOutput // l.length < 2 ^ 31}}
    (h : paymentOutputs decodeHash160 destinationAddress changeAddress sendAmount change =
      .ok outputs) :
    ∃ outputs', paymentOutputs decodeAny destinationAddress changeAddress sendAmount change =
        .ok outputs' ∧ outputs'.1.length = outputs.1.length := by
  obtain ⟨outputs', h'⟩ : ∃ outputs', paymentOutputs decodeAny destinationAddress changeAddress
      sendAmount change = .ok outputs' := by
    unfold paymentOutputs
    by_cases hchange : 0 < change
    · exact ⟨_, if_pos hchange⟩
    · exact ⟨_, if_neg hchange⟩
  refine ⟨outputs', h', ?_⟩
  have hlength := congrArg List.length
    ((paymentOutputs_eq_ok h').trans (paymentOutputs_eq_ok h).symm)
  rwa [List.length_map, List.length_map] at hlength

/-- A payment has the same inputs and as many outputs whatever its addresses are. -/
theorem buildUnsigned_decodeAny (h : buildUnsigned decodeHash160 utxos hutxos destinationAddress
    changeAddress sendAmount feePerKb now = .ok tx) :
    ∃ tx', buildUnsigned decodeAny utxos hutxos destinationAddress changeAddress sendAmount feePerKb
        now = .ok tx' ∧ tx'.inputs = tx.inputs ∧ tx'.outputs.length = tx.outputs.length := by
  unfold buildUnsigned at h ⊢
  split_ifs at h ⊢ with hsend
  dsimp only at h ⊢
  split_ifs at h ⊢ with hcovered
  split at h
  · cases h
  · next outputs hout =>
    cases h
    obtain ⟨outputs', hout', hlength⟩ := paymentOutputs_decodeAny hout
    rw [hout']
    exact ⟨_, rfl, rfl, hlength⟩

/-- The inputs spend the first outputs, and there are one or two outputs. -/
theorem buildUnsigned_shape (h : buildUnsigned decodeHash160 utxos hutxos destinationAddress
    changeAddress sendAmount feePerKb now = .ok tx) :
    tx.inputs.length ≤ utxos.length ∧
      (∀ input ∈ tx.inputs, ∃ utxo ∈ utxos, input.outPoint.txid = utxo.txid) ∧
      (tx.outputs.length = 1 ∨ tx.outputs.length = 2) := by
  obtain ⟨k, hstops⟩ : ∃ k, Stops utxos sendAmount feePerKb (buildUnsigned decodeHash160 utxos
    hutxos destinationAddress changeAddress sendAmount feePerKb now) k :=
      exists_stops (pos_of_buildUnsigned h)
  obtain ⟨hinputs, houtputs⟩ := hstops.ok tx h
  refine ⟨?_, ?_, ?_⟩
  · rw [hinputs, List.length_map]
    exact List.length_take_le' _ _
  · intro input hinput
    rw [hinputs] at hinput
    obtain ⟨utxo, hutxo, rfl⟩ := List.mem_map.mp hinput
    exact ⟨utxo, List.mem_of_mem_take hutxo, rfl⟩
  · have hlength := congrArg List.length houtputs
    rw [List.length_map] at hlength
    rw [hlength]
    split_ifs
    · exact .inr rfl
    · exact .inl rfl

end

/-! ## What is returned -/

section

variable {lib : Secp256k1} {unsignedTx : Transaction}

theorem isTxid_of_forall₂ {inputs signed : List TxInput} (h : List.Forall₂ IsSigned inputs signed)
    (htxid : ∀ input ∈ inputs, IsTxid input.outPoint.txid) :
    ∀ input ∈ signed, IsTxid input.outPoint.txid := by
  induction h with
  | nil => simp
  | cons hhead _ ih =>
    rw [List.forall_mem_cons] at htxid ⊢
    rw [hhead.1]
    exact ⟨htxid.1, ih htxid.2⟩

section

variable {signingInputs : List SigningInput}
  (hturn : ∀ i signingInput original, (signInput lib unsignedTx i signingInput original).isSome)
include hturn

theorem signInputs_isSome {i : ℕ} {inputs : List TxInput}
    (hlength : i + inputs.length ≤ signingInputs.length) :
    (signInputs lib unsignedTx signingInputs i inputs).isSome := by
  induction inputs generalizing i with
  | nil => rfl
  | cons original inputs ih =>
    rw [List.length_cons] at hlength
    obtain ⟨signed, hsigned⟩ := Option.isSome_iff_exists.mp
      (hturn i (signingInputs[i]) original)
    obtain ⟨rest, hrest⟩ := Option.isSome_iff_exists.mp (ih (i := i + 1) (by omega))
    simp only [signInputs, List.getElem?_eq_getElem (show i < signingInputs.length by omega),
      Option.bind_eq_bind, Option.bind_some, hsigned, hrest]
    rfl

theorem signedTransaction_isSome (hlength : unsignedTx.inputs.length ≤ signingInputs.length) :
    (signedTransaction lib unsignedTx signingInputs).isSome := by
  have hinputs := signInputs_isSome hturn
    (show 0 + unsignedTx.inputs.length ≤ signingInputs.length by omega)
  unfold signedTransaction
  split
  · next hnone =>
    rw [hnone] at hinputs
    cases hinputs
  · rfl

end

/-- Libraries that return the largest signatures. -/
def largestLib : Secp256k1 where
  hash256 _ := 0
  decodeHash160 := decodeAny
  generateSignature _ _ := some (2 ^ 255, 2 ^ 254)
  compressedPublicKey _ := some ⟨List.replicate 33 2, length_publicKey⟩

theorem largestLib_inRange : largestLib.InRange := by
  rintro privateKey hash r s ⟨⟩
  decide

theorem signInput_largestLib (htxid : ∀ input ∈ unsignedTx.inputs, IsTxid input.outPoint.txid)
    (i : ℕ) (signingInput : SigningInput) (original : TxInput) :
    (signInput largestLib unsignedTx i signingInput original).isSome := by
  have hmessage : ∀ (hash160 : Bytes) (h : hash160.length = 20), ∃ message, signatureMessage
      unsignedTx i (p2pkhScript hash160) (length_p2pkhScript h) = some message := by
    intro hash160 h
    rw [signatureMessage, Transaction.serialize_toNode
      (Transaction.isTxid_copyWithInputScript htxid (length_p2pkhScript h))]
    exact ⟨_, rfl⟩
  obtain ⟨message, hmessage⟩ := hmessage (List.replicate 20 0) (by decide)
  have hscript : (buildScriptSig (signDer (2 ^ 255) (2 ^ 254)) (List.replicate 33 2)).isSome :=
    buildScriptSig_isSome (by rw [length_largest_signDer]; decide) (by decide)
  simp only [signInput, largestLib, decodeAny, Except.toOption, Option.bind_eq_bind,
    Option.bind_some, hmessage]
  split
  · next hnone =>
    rw [hnone] at hscript
    cases hscript
  · rfl

end

section

variable (utxos : List OwnedUtxo) (hutxos : utxos.length < 2 ^ 31)
  (destinationAddress changeAddress : String) (sendAmount feePerKb now : Int64)

/-- The payment before it is signed. -/
def unsignedPayment (decodeHash160 : String → Except String {hash : Bytes // hash.length = 20}) :
    Except BuildError Transaction :=
  buildUnsigned decodeHash160 (utxos.map OwnedUtxo.toSpendableUtxo) (length_toSpendable_lt hutxos)
    destinationAddress changeAddress sendAmount feePerKb now

/-- What the outputs that are spent hold and those that are made do not. -/
def paidFee (tx : Transaction) : ℤ :=
  total ((utxos.map OwnedUtxo.toSpendableUtxo).take tx.inputs.length) -
    (tx.outputs.map fun output => output.amount.toInt).sum

/-- The text of a signed payment is not longer than the estimate, and the fee, as it is estimated
and as it is paid, is enough for its size. -/
def WithinEstimate (tx : Transaction) (rawHex : String) : Prop :=
  ∃ bytes, fromHex rawHex.toList = some bytes ∧
    bytes.length ≤ estimatedSize tx.inputs.length ∧
    10000 * (bytes.length : ℤ) ≤
      1000 * (estimateFee feePerKb (Int32.ofNat tx.inputs.length) 2).toInt ∧
    (Balanced (utxos.map OwnedUtxo.toSpendableUtxo) sendAmount feePerKb tx →
      10000 * (bytes.length : ℤ) ≤ 1000 * paidFee utxos tx)

/-- No signer makes a payment larger than its estimate. -/
def NeverUnderestimates : Prop :=
  ∀ lib : Secp256k1, lib.InRange → ∀ tx result,
    unsignedPayment utxos hutxos destinationAddress changeAddress sendAmount feePerKb now
      lib.decodeHash160 = .ok tx → tx.inputs.length < 2 ^ 20 →
    buildAndSign lib utxos hutxos destinationAddress changeAddress sendAmount feePerKb now =
      some result → WithinEstimate utxos sendAmount feePerKb tx result.rawHex

variable {utxos hutxos destinationAddress changeAddress sendAmount feePerKb now} {lib : Secp256k1}
  {tx : Transaction} {result : SignedTransaction}

theorem isTxid_of_unsignedPayment
    {decodeHash160 : String → Except String {hash : Bytes // hash.length = 20}}
    (htxid : ∀ utxo ∈ utxos, IsTxid utxo.txid)
    (h : unsignedPayment utxos hutxos destinationAddress changeAddress sendAmount feePerKb now
      decodeHash160 = .ok tx) : ∀ input ∈ tx.inputs, IsTxid input.outPoint.txid := by
  intro input hinput
  obtain ⟨utxo, hutxo, heq⟩ := (buildUnsigned_shape h).2.1 input hinput
  obtain ⟨owned, howned, rfl⟩ := List.mem_map.mp hutxo
  rw [heq]
  exact htxid owned howned

/-- The text that is returned is the one of the signed transaction. -/
theorem buildAndSign_rawHex (htxid : ∀ utxo ∈ utxos, IsTxid utxo.txid)
    (hbuild : unsignedPayment utxos hutxos destinationAddress changeAddress sendAmount feePerKb now
      lib.decodeHash160 = .ok tx)
    (h : buildAndSign lib utxos hutxos destinationAddress changeAddress sendAmount feePerKb now =
      some result) :
    ∃ signed, signedTransaction lib tx ((utxos.take tx.inputs.length).map OwnedUtxo.signingInput) =
        some signed ∧
      fromHex result.rawHex.toList = some signed.toNode.serialize ∧
      signed.inputs.length = tx.inputs.length ∧ signed.outputs = tx.outputs := by
  obtain ⟨unsigned, signed, a, b, hbuild', hsigned, -, hb, rfl⟩ := buildAndSign_eq_some h
  obtain rfl : unsigned = tx := Except.ok.inj (hbuild'.symm.trans hbuild)
  obtain ⟨hforall, heq⟩ := isSigned_of_signedTransaction hsigned
  refine ⟨signed, hsigned, ?_, hforall.length_eq.symm, by rw [heq]⟩
  rw [Transaction.serialize_toNode
    (isTxid_of_forall₂ hforall (isTxid_of_unsignedPayment htxid hbuild))] at hb
  rw [fromHex_toHex, hb]

/-- A payment that is signed with numbers in range is not larger than the largest one. -/
theorem length_rawHex_le (hlib : lib.InRange) (htxid : ∀ utxo ∈ utxos, IsTxid utxo.txid)
    (hbuild : unsignedPayment utxos hutxos destinationAddress changeAddress sendAmount feePerKb now
      lib.decodeHash160 = .ok tx)
    (h : buildAndSign lib utxos hutxos destinationAddress changeAddress sendAmount feePerKb now =
      some result) :
    ∃ bytes, fromHex result.rawHex.toList = some bytes ∧
      bytes.length ≤ largestSize tx.inputs.length tx.outputs.length := by
  obtain ⟨signed, hsigned, hhex, hin, hout⟩ := buildAndSign_rawHex htxid hbuild h
  have hscript : ∀ input ∈ signed.inputs, input.scriptSig.length ≤ 107 :=
    forall_of_signedTransaction (fun i signingInput original input hinput => by
      obtain ⟨hash, r, s, hrs, hlength⟩ := length_of_signInput hinput
      obtain ⟨⟨-, hr⟩, -, hs⟩ := hlib _ _ _ _ hrs
      have := length_signDer_le hr hs
      omega) hsigned
  refine ⟨_, hhex, ?_⟩
  rw [← hin, ← hout]
  refine length_serialize_le hscript ?_ ?_
  · rw [hout]
    exact (buildUnsigned_paysToHash hbuild).2
  · rw [hout]
    have := (buildUnsigned_shape hbuild).2.2
    omega

theorem exists_largest (htxid : ∀ utxo ∈ utxos, IsTxid utxo.txid)
    (hbuild : unsignedPayment utxos hutxos destinationAddress changeAddress sendAmount feePerKb now
      largestLib.decodeHash160 = .ok tx) :
    ∃ result, buildAndSign largestLib utxos hutxos destinationAddress changeAddress sendAmount
        feePerKb now = some result ∧
      ∃ bytes, fromHex result.rawHex.toList = some bytes ∧
        bytes.length = largestSize tx.inputs.length tx.outputs.length := by
  have htx := isTxid_of_unsignedPayment htxid hbuild
  have hle : tx.inputs.length ≤ utxos.length := by
    have := (buildUnsigned_shape hbuild).1
    rwa [List.length_map] at this
  obtain ⟨signed, hsigned⟩ := Option.isSome_iff_exists.mp (signedTransaction_isSome
    (signInput_largestLib htx)
    (show tx.inputs.length ≤ ((utxos.take tx.inputs.length).map OwnedUtxo.signingInput).length by
      rw [List.length_map, List.length_take, min_eq_left hle]))
  have hserialize := Transaction.serialize_toNode
    (isTxid_of_forall₂ (isSigned_of_signedTransaction hsigned).1 htx)
  obtain ⟨result, hresult⟩ : ∃ result, buildAndSign largestLib utxos hutxos destinationAddress
      changeAddress sendAmount feePerKb now = some result := by
    rw [unsignedPayment] at hbuild
    simp only [buildAndSign, hbuild, Except.toOption, sign, hsigned, hserialize, Transaction.txid,
      Transaction.serialize_toNode htx, Option.bind_eq_bind, Option.bind_some, Option.pure_def]
    exact ⟨_, rfl⟩
  obtain ⟨signed', hsigned', hhex, hin, hout⟩ := buildAndSign_rawHex htxid hbuild hresult
  have hscript : ∀ input ∈ signed'.inputs, input.scriptSig.length = 107 :=
    forall_of_signedTransaction (fun i signingInput original input hinput => by
      obtain ⟨hash, r, s, hrs, hlength⟩ := length_of_signInput hinput
      cases hrs
      rw [hlength, length_largest_signDer]) hsigned'
  refine ⟨result, hresult, _, hhex, ?_⟩
  rw [← hin, ← hout]
  refine length_serialize_eq hscript ?_ ?_
  · rw [hout]
    exact (buildUnsigned_paysToHash hbuild).2
  · rw [hout]
    have := (buildUnsigned_shape hbuild).2.2
    omega

end

/-! ## The estimate -/

theorem largestSize_le {inputCount outputCount : ℕ} (hin : inputCount < 2 ^ 20)
    (hout : outputCount = 1 ∨ outputCount = 2) (h : inputCount < 253 ∨ outputCount = 1) :
    largestSize inputCount outputCount ≤ estimatedSize inputCount := by
  have hlong := length_writeCompactSize_le (show inputCount ≤ 0xffffffff by omega)
  rw [largestSize, estimatedSize]
  obtain h | rfl := h
  · rw [length_writeCompactSize_of_lt h]
    omega
  · omega

theorem estimatedSize_lt {inputCount : ℕ} (h : 253 ≤ inputCount) :
    estimatedSize inputCount < largestSize inputCount 2 := by
  have := length_writeCompactSize_of_le h
  rw [largestSize, estimatedSize]
  omega

theorem le_estimateFee {feePerKb : Int64} (hfee : feePerKb < 2 ^ 32) {inputCount : ℕ}
    (h : inputCount < 2 ^ 20) :
    (estimateFee feePerKb (Int32.ofNat inputCount) 2).toInt =
        exactFee feePerKb.toInt inputCount ∧
      10000 * (estimatedSize inputCount : ℤ) ≤ 1000 * exactFee feePerKb.toInt inputCount := by
  have hrate : feePerKb.toInt < 2 ^ 32 := Int64.lt_iff_toInt_lt.mp hfee
  have hsize : (estimatedSize inputCount : ℤ) = 10 + 4 + inputCount * 148 + 2 * 34 := by
    rw [estimatedSize]
    push_cast
    rfl
  have hsmall : (estimatedSize inputCount : ℤ) ≤ 2 ^ 28 := by omega
  have hnumerator : feeNumerator feePerKb.toInt inputCount =
      max feePerKb.toInt 10000 * estimatedSize inputCount + 999 := by rw [feeNumerator, hsize]
  have hmax : max feePerKb.toInt 10000 ≤ 2 ^ 32 := max_le hrate.le (by decide)
  have hupper : max feePerKb.toInt 10000 * (estimatedSize inputCount : ℤ) ≤ 2 ^ 32 * 2 ^ 28 :=
    mul_le_mul hmax hsmall (by positivity) (by positivity)
  have hlower : 10000 * (estimatedSize inputCount : ℤ) ≤
      max feePerKb.toInt 10000 * estimatedSize inputCount :=
    mul_le_mul_of_nonneg_right (le_max_right _ _) (by positivity)
  refine ⟨toInt_estimateFee_of_lt (by omega) (by omega), ?_⟩
  have hdiv : feeNumerator feePerKb.toInt inputCount / 1000 ≤ exactFee feePerKb.toInt inputCount :=
    le_max_left _ _
  omega

/-- The estimate holds for every signer exactly if the number of inputs fits one byte or there is no
change. -/
theorem neverUnderestimates_iff (utxos : List OwnedUtxo) (hutxos : utxos.length < 2 ^ 31)
    (destinationAddress changeAddress : String) (sendAmount feePerKb now : Int64)
    (hfee : 0 ≤ feePerKb ∧ feePerKb < 2 ^ 32) (htxid : ∀ utxo ∈ utxos, IsTxid utxo.txid) :
    NeverUnderestimates utxos hutxos destinationAddress changeAddress sendAmount feePerKb now ↔
      ∀ decodeHash160 tx, unsignedPayment utxos hutxos destinationAddress changeAddress sendAmount
          feePerKb now decodeHash160 = .ok tx → tx.inputs.length < 2 ^ 20 →
        tx.inputs.length < 253 ∨ tx.outputs.length = 1 := by
  constructor
  · intro h decodeHash160 tx hbuild hin
    by_contra hcon
    rw [not_or, not_lt] at hcon
    have hout := ((buildUnsigned_shape hbuild).2.2).resolve_left hcon.2
    obtain ⟨tx', hbuild', hinputs, houtputs⟩ := buildUnsigned_decodeAny hbuild
    obtain ⟨result, hresult, bytes, hbytes, hlength⟩ := exists_largest htxid hbuild'
    obtain ⟨bytes', hbytes', hle, -⟩ := h largestLib largestLib_inRange tx' result hbuild'
      (by rwa [hinputs]) hresult
    obtain rfl := Option.some.inj (hbytes.symm.trans hbytes')
    rw [hlength, hinputs, houtputs, hout] at hle
    exact absurd hle (not_le.mpr (estimatedSize_lt hcon.1))
  · intro h lib hlib tx result hbuild hin hresult
    obtain ⟨bytes, hbytes, hlength⟩ := length_rawHex_le hlib htxid hbuild hresult
    have hle := hlength.trans (largestSize_le hin (buildUnsigned_shape hbuild).2.2
      (h lib.decodeHash160 tx hbuild hin))
    obtain ⟨hexact, hcharge⟩ := le_estimateFee hfee.2 hin
    refine ⟨bytes, hbytes, hle, ?_, ?_⟩
    · rw [hexact]
      omega
    · rintro ⟨k, hk, hinputs, -, hbalanced, -⟩
      have hcount : tx.inputs.length = k := by
        rw [hinputs, List.length_map, List.length_take, min_eq_left hk]
      rw [paidFee, hcount, ← hbalanced]
      rw [hcount] at hcharge hle
      omega

/-! ## Many small outputs -/

/-- Outputs of 20000 each. -/
def smallOutputs (n : ℕ) : List OwnedUtxo :=
  List.replicate n
    { txid := "b8de62389e39c348390738d47516a7e9ef8fad2c904c68694e45841dd318656b"
      vout := 0
      amount := 20000
      privateKey := 1
      address := "" }

theorem isTxid_smallOutputs (n : ℕ) : ∀ utxo ∈ smallOutputs n, IsTxid utxo.txid := by
  intro utxo hutxo
  rw [List.eq_of_mem_replicate hutxo]
  exact ⟨by decide +kernel, List.all_eq_true.mp (by decide +kernel)⟩

theorem length_smallOutputs (h : n < 2 ^ 31) : (smallOutputs n).length < 2 ^ 31 := by
  rwa [smallOutputs, List.length_replicate]

theorem smallOutputs_payment : ∃ tx, unsignedPayment (smallOutputs 253)
      (length_smallOutputs (by decide)) "" "" 4675480 10000 0 decodeAny = .ok tx ∧
    tx.inputs.length = 253 ∧ tx.outputs.length = 2 := by
  have hrun : (unsignedPayment (smallOutputs 253) (length_smallOutputs (by decide)) "" "" 4675480
      10000 0 decodeAny).toOption.map (fun tx => (tx.inputs.length, tx.outputs.length)) =
        some (253, 2) := by
    decide +kernel
  obtain ⟨tx, htx, heq⟩ := Option.map_eq_some_iff.mp hrun
  exact ⟨tx, toOption_eq_some.mp htx, (Prod.mk.inj heq).1, (Prod.mk.inj heq).2⟩

/-- With the largest signatures the payment has two bytes more than the estimate, and its fee is
below the rate of the node. -/
theorem smallOutputs_underestimated : ∃ tx result bytes,
    unsignedPayment (smallOutputs 253) (length_smallOutputs (by decide)) "" "" 4675480 10000 0
        largestLib.decodeHash160 = .ok tx ∧
      tx.inputs.length = 253 ∧ tx.outputs.length = 2 ∧
      buildAndSign largestLib (smallOutputs 253) (length_smallOutputs (by decide)) "" "" 4675480
        10000 0 = some result ∧
      fromHex result.rawHex.toList = some bytes ∧
      bytes.length = estimatedSize 253 + 2 ∧
      1000 * (estimateFee 10000 253 2).toInt < 10000 * bytes.length ∧
      ¬ NeverUnderestimates (smallOutputs 253) (length_smallOutputs (by decide)) "" "" 4675480 10000
        0 := by
  obtain ⟨tx, hbuild, hin, hout⟩ := smallOutputs_payment
  obtain ⟨result, hresult, bytes, hbytes, hlength⟩ :=
    exists_largest (isTxid_smallOutputs 253) hbuild
  have hsize : bytes.length = estimatedSize 253 + 2 := by
    rw [hlength, hin, hout]
    decide
  refine ⟨tx, result, bytes, hbuild, hin, hout, hresult, hbytes, hsize, ?_, fun h => ?_⟩
  · rw [hsize]
    decide
  · obtain ⟨bytes', hbytes', hle, -⟩ := h largestLib largestLib_inRange tx result hbuild
      (by rw [hin]; decide) hresult
    obtain rfl := Option.some.inj (hbytes.symm.trans hbytes')
    rw [hsize, hin] at hle
    omega

theorem neverUnderestimates_iff_one :
    NeverUnderestimates (smallOutputs 1) (length_smallOutputs (by decide)) "" "" 10000 10000 0 ↔
      ∀ decodeHash160 tx, unsignedPayment (smallOutputs 1) (length_smallOutputs (by decide)) "" ""
          10000 10000 0 decodeHash160 = .ok tx → tx.inputs.length < 2 ^ 20 →
        tx.inputs.length < 253 ∨ tx.outputs.length = 1 :=
  neverUnderestimates_iff (smallOutputs 1) (length_smallOutputs (by decide)) "" "" 10000 10000 0
    (by decide) (isTxid_smallOutputs 1)

end JavaWallet

end X2XCoin
