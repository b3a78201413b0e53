import X2XCoin.JavaWallet.Builder
import X2XCoin.JavaWallet.Signature

/-!
# Signing a payment

`TransactionSigner.sign`, `buildAndSign`, `Transaction.txid` and `HexUtils.toHex`.  The cryptography
is a parameter.  The id that `buildAndSign` returns is taken before the transaction is signed.
-/

open ByteCodec

namespace X2XCoin

namespace JavaWallet

/-! ## Hexadecimal text -/

/-- A digit of `%02x`. -/
def hexChar (n : ℕ) : Char := if n < 10 then Char.ofNat (48 + n) else Char.ofNat (87 + n)

/-- `HexUtils.toHex`. -/
def toHex (bytes : Bytes) : String :=
  String.ofList (bytes.flatMap fun b => [hexChar (b.toNat / 16), hexChar (b.toNat % 16)])

theorem hexDigit_hexChar {n : ℕ} (h : n < 16) : hexDigit (hexChar n) = some n := by
  interval_cases n <;> rfl

theorem fromHex_toHex (bytes : Bytes) : fromHex (toHex bytes).toList = some bytes := by
  rw [toHex, String.toList_ofList]
  induction bytes with
  | nil => rfl
  | cons b bytes ih =>
    have hb := b.toNat_lt
    have hbyte : (⟨BitVec.ofInt 8 ((16 * (b.toNat / 16) + b.toNat % 16 : ℕ) : ℤ)⟩ : UInt8) = b := by
      rw [Nat.div_add_mod, BitVec.ofInt_natCast]
      exact UInt8.ofNat_toNat
    rw [List.flatMap_cons, List.cons_append, List.cons_append, List.nil_append, fromHex,
      parseHexByte_eq (hexDigit_hexChar (by omega)) (hexDigit_hexChar (by omega)), ih]
    simp only [Option.bind_eq_bind, Option.bind_some, Option.pure_def, hbyte]

theorem toHex_injective : Function.Injective toHex := by
  intro a b h
  apply Option.some.inj
  rw [← fromHex_toHex a, h, fromHex_toHex]

/-! ## Signing -/

/-- What the wallet takes from its libraries. -/
structure Secp256k1 where
  hash256 : Bytes → Uint256
  decodeHash160 : String → Except String {hash : Bytes // hash.length = 20}
  generateSignature : ℤ → Bytes → Option (ℕ × ℕ)
  compressedPublicKey : ℤ → Option {key : Bytes // key.length = 33}

/-- `HashUtils.doubleSha256`. -/
def Secp256k1.doubleSha256 (lib : Secp256k1) (input : Bytes) : Bytes :=
  leBytes 32 (lib.hash256 input).toNat

structure SigningInput where
  privateKey : ℤ
  fromAddress : String

/-- `SpendableUtxo` with the key and the address that the signer reads. -/
structure OwnedUtxo extends SpendableUtxo where
  privateKey : ℤ
  address : String

def OwnedUtxo.signingInput (utxo : OwnedUtxo) : SigningInput := ⟨utxo.privateKey, utxo.address⟩

structure SignedTransaction where
  txid : String
  rawHex : String
  deriving DecidableEq

theorem length_writeShortBytes {data out : Bytes} (h : writeShortBytes data = some out) :
    out.length = data.length + 1 ∧ data.length < 0xfd := by
  rw [writeShortBytes] at h
  split_ifs at h with hlen
  obtain rfl := Option.some.inj h
  exact ⟨rfl, not_le.mp hlen⟩

theorem length_buildScriptSig {derSignature publicKey scriptSig : Bytes}
    (h : buildScriptSig derSignature publicKey = some scriptSig) :
    0 < scriptSig.length ∧ scriptSig.length < 2 ^ 31 := by
  simp only [buildScriptSig, Option.bind_eq_bind, Option.bind_eq_some_iff, Option.pure_def,
    Option.some.injEq] at h
  obtain ⟨sig, hsig, key, hkey, rfl⟩ := h
  have h1 := length_writeShortBytes hsig
  have h2 := length_writeShortBytes hkey
  rw [List.length_append]
  omega

section

variable (lib : Secp256k1)

/-- The turn of the loop of `sign` for the input `original` at index `i`. -/
def signInput (unsignedTx : Transaction) (i : ℕ) (signingInput : SigningInput) (original : TxInput) :
    Option TxInput := do
  let hash160 ← (lib.decodeHash160 signingInput.fromAddress).toOption
  let message ← signatureMessage unsignedTx i (p2pkhScript hash160) (length_p2pkhScript hash160.2)
  let (r, s) ← lib.generateSignature signingInput.privateKey (lib.doubleSha256 message)
  let publicKey ← lib.compressedPublicKey signingInput.privateKey
  match h : buildScriptSig (signDer r s) publicKey with
  | none => none
  | some scriptSig =>
    some ⟨original.outPoint, scriptSig, original.sequence, (length_buildScriptSig h).2⟩

/-- The loop of `sign` over the inputs from index `i` on. -/
def signInputs (unsignedTx : Transaction) (signingInputs : List SigningInput) :
    ℕ → List TxInput → Option (List TxInput)
  | _, [] => some []
  | i, original :: inputs => do
    let signingInput ← signingInputs[i]?
    let signed ← signInput lib unsignedTx i signingInput original
    let rest ← signInputs unsignedTx signingInputs (i + 1) inputs
    pure (signed :: rest)

/-- An input that differs from another at most in its script, which is there. -/
def IsSigned (original signed : TxInput) : Prop :=
  signed.outPoint = original.outPoint ∧ signed.sequence = original.sequence ∧ signed.scriptSig ≠ []

theorem signInput_isSigned {unsignedTx : Transaction} {i : ℕ} {signingInput : SigningInput}
    {original signed : TxInput} (h : signInput lib unsignedTx i signingInput original = some signed) :
    IsSigned original signed := by
  simp only [signInput, Option.bind_eq_bind, Option.bind_eq_some_iff] at h
  obtain ⟨hash160, -, message, -, ⟨r, s⟩, -, publicKey, -, h⟩ := h
  split at h
  · cases h
  · next scriptSig hscript =>
    obtain rfl := Option.some.inj h
    exact ⟨rfl, rfl, List.ne_nil_of_length_pos (length_buildScriptSig hscript).1⟩

theorem signInputs_isSigned {unsignedTx : Transaction} {signingInputs : List SigningInput} {i : ℕ}
    {inputs signed : List TxInput} (h : signInputs lib unsignedTx signingInputs i inputs = some signed) :
    List.Forall₂ IsSigned inputs signed := by
  induction inputs generalizing i signed with
  | nil =>
    obtain rfl := Option.some.inj h
    exact .nil
  | cons original inputs ih =>
    simp only [signInputs, Option.bind_eq_bind, Option.bind_eq_some_iff, Option.pure_def,
      Option.some.injEq] at h
    obtain ⟨signingInput, -, head, hhead, rest, hrest, rfl⟩ := h
    exact .cons (signInput_isSigned lib hhead) (ih hrest)

/-- The transaction that `sign` serializes. -/
def signedTransaction (unsignedTx : Transaction) (signingInputs : List SigningInput) :
    Option Transaction :=
  match h : signInputs lib unsignedTx signingInputs 0 unsignedTx.inputs with
  | none => none
  | some signedInputs => some
    { unsignedTx with
      inputs := signedInputs
      inputs_lt := (signInputs_isSigned lib h).length_eq ▸ unsignedTx.inputs_lt }

/-- `TransactionSigner.sign`. -/
def sign (unsignedTx : Transaction) (signingInputs : List SigningInput) : Option String := do
  let signed ← signedTransaction lib unsignedTx signingInputs
  let bytes ← signed.serialize
  pure (toHex bytes)

/-- The id of a serialized transaction. -/
def idOf (bytes : Bytes) : String := toHex (lib.doubleSha256 bytes).reverse

def Transaction.txid (t : Transaction) : Option String := do
  let bytes ← t.serialize
  pure (idOf lib bytes)

theorem length_toSpendable_lt {utxos : List OwnedUtxo} (h : utxos.length < 2 ^ 31) :
    (utxos.map OwnedUtxo.toSpendableUtxo).length < 2 ^ 31 := by
  rwa [List.length_map]

/-- `TransactionSigner.buildAndSign` at the time `now`. -/
def buildAndSign (utxos : List OwnedUtxo) (hutxos : utxos.length < 2 ^ 31)
    (destinationAddress changeAddress : String) (sendAmount feePerKb now : Int64) :
    Option SignedTransaction := do
  let unsigned ← (buildUnsigned lib.decodeHash160 (utxos.map OwnedUtxo.toSpendableUtxo)
    (length_toSpendable_lt hutxos) destinationAddress changeAddress sendAmount feePerKb now).toOption
  let signingInputs := (utxos.take unsigned.inputs.length).map OwnedUtxo.signingInput
  let rawHex ← sign lib unsigned signingInputs
  let txid ← unsigned.txid lib
  pure ⟨txid, rawHex⟩

end

/-! ## The id of what is broadcast -/

section

variable (lib : Secp256k1)

/-- The id that a node gives to the transaction of hexadecimal text. -/
def broadcastId (rawHex : String) : Option String := (fromHex rawHex.toList).map (idOf lib)

theorem idOf_eq_iff {a b : Bytes} : idOf lib a = idOf lib b ↔ lib.hash256 a = lib.hash256 b := by
  refine ⟨fun h => ?_, fun h => ?_⟩
  · have hbytes := List.reverse_injective (toHex_injective h)
    have hnat := congrArg leNat hbytes
    rw [Secp256k1.doubleSha256, Secp256k1.doubleSha256, leNat_leBytes_of_lt (lib.hash256 a).isLt,
      leNat_leBytes_of_lt (lib.hash256 b).isLt] at hnat
    exact BitVec.eq_of_toNat_eq hnat
  · rw [idOf, idOf, Secp256k1.doubleSha256, Secp256k1.doubleSha256, h]

end

theorem head_writeCompactSize {n : ℕ} (h0 : 0 < n) :
    ∃ b rest, writeCompactSize n = b :: rest ∧ b ≠ 0 := by
  rw [writeCompactSize]
  split_ifs with h
  · refine ⟨UInt8.ofNat n, [], rfl, fun hz => ?_⟩
    have := congrArg UInt8.toNat hz
    rw [UInt8.toNat_ofNat', Nat.mod_eq_of_lt (h.trans (by decide))] at this
    exact h0.ne' this
  · exact ⟨_, _, rfl, by decide⟩
  · exact ⟨_, _, rfl, by decide⟩
  · exact ⟨_, _, rfl, by decide⟩

theorem serialize_ne_of_isSigned {t signed : Transaction} {i j : TxInput} {is js : List TxInput}
    {a b : Bytes} (hin : t.inputs = i :: is) (hin' : signed.inputs = j :: js)
    (hlen : is.length = js.length) (hscript : i.scriptSig = []) (hsigned : IsSigned i j)
    (hversion : signed.version = t.version) (htime : signed.time = t.time)
    (ha : t.serialize = some a) (hb : signed.serialize = some b) : a ≠ b := by
  obtain ⟨houtPoint, -, hne⟩ := hsigned
  have hempty : writeVarBytes i.scriptSig = some [0] := by
    rw [hscript]
    rfl
  simp only [Transaction.serialize, hin, hin', List.length_cons, hlen, hversion, htime,
    TxInput.serialize, hempty, writeVarBytes_eq j.length_lt, houtPoint, List.mapM_cons,
    Option.bind_eq_bind, Option.bind_some, Option.bind_eq_some_iff, Option.pure_def,
    Option.some.injEq] at ha hb
  obtain ⟨count, hcount, _, ⟨_, ⟨txid, htxid, rfl⟩, rest, -, rfl⟩, _, -, _, -, rfl⟩ := ha
  obtain ⟨_, hcount', _, ⟨_, ⟨_, htxid', rfl⟩, rest', -, rfl⟩, _, -, _, -, rfl⟩ := hb
  obtain rfl := Option.some.inj (hcount.symm.trans hcount')
  obtain rfl := Option.some.inj (htxid.symm.trans htxid')
  obtain ⟨byte, tail, hhead, hbyte⟩ :=
    head_writeCompactSize (List.length_pos_of_ne_nil hne)
  intro heq
  simp only [List.flatten_cons, List.append_assoc, List.append_cancel_left_eq, writeBytes, hhead,
    List.cons_append] at heq
  exact hbyte (List.head_eq_of_cons_eq heq).symm

/-- The loop adds inputs without scripts, and at least one if there is an output to spend. -/
theorem selectInputs_append (sendAmount feePerKb : Int64) (utxos : List SpendableUtxo)
    (totalInput : Int64) (inputs : List TxInput) :
    ∃ added, (selectInputs sendAmount feePerKb utxos totalInput inputs).2 = inputs ++ added ∧
      (∀ i ∈ added, i.scriptSig = []) ∧ (added = [] ↔ utxos = []) := by
  induction utxos generalizing totalInput inputs with
  | nil => exact ⟨[], (List.append_nil _).symm, by simp, by simp⟩
  | cons utxo utxos ih =>
    rw [selectInputs]
    split_ifs
    · exact ⟨[utxo.input], rfl, by simp [SpendableUtxo.input], by simp⟩
    · obtain ⟨added, heq, hscript, -⟩ := ih (totalInput + utxo.amount) (inputs ++ [utxo.input])
      refine ⟨utxo.input :: added, heq.trans (List.append_assoc ..), ?_, by simp⟩
      rw [List.forall_mem_cons]
      exact ⟨rfl, hscript⟩

section

variable {decodeHash160 : String → Except String {hash : Bytes // hash.length = 20}}
  {utxos : List SpendableUtxo} {hutxos : utxos.length < 2 ^ 31}
  {destinationAddress changeAddress : String} {sendAmount feePerKb now : Int64} {tx : Transaction}

theorem buildUnsigned_inputs (h : buildUnsigned decodeHash160 utxos hutxos destinationAddress
    changeAddress sendAmount feePerKb now = .ok tx) :
    (∀ i ∈ tx.inputs, i.scriptSig = []) ∧ (tx.inputs = [] ↔ utxos = []) := by
  obtain ⟨added, heq, hspec⟩ := selectInputs_append sendAmount feePerKb utxos 0 []
  suffices htx : tx.inputs = added by rwa [htx]
  unfold buildUnsigned at h
  split_ifs at h
  simp only at h
  split_ifs at h
  split at h
  · cases h
  · cases h
    exact heq

end

theorem toOption_eq_some {ε α : Type} {x : Except ε α} {a : α} :
    x.toOption = some a ↔ x = .ok a := by
  cases x <;> simp [Except.toOption]

section

variable {lib : Secp256k1} {utxos : List OwnedUtxo} {hutxos : utxos.length < 2 ^ 31}
  {destinationAddress changeAddress : String} {sendAmount feePerKb now : Int64}
  {result : SignedTransaction}

theorem buildAndSign_eq_some (h : buildAndSign lib utxos hutxos destinationAddress changeAddress
    sendAmount feePerKb now = some result) :
    ∃ unsigned signed a b, buildUnsigned lib.decodeHash160 (utxos.map OwnedUtxo.toSpendableUtxo)
        (by rwa [List.length_map]) destinationAddress changeAddress sendAmount feePerKb now =
          .ok unsigned ∧
      signedTransaction lib unsigned ((utxos.take unsigned.inputs.length).map OwnedUtxo.signingInput) =
        some signed ∧
      unsigned.serialize = some a ∧ signed.serialize = some b ∧
      result = ⟨idOf lib a, toHex b⟩ := by
  simp only [buildAndSign, sign, Transaction.txid, Option.bind_eq_bind, Option.bind_eq_some_iff,
    Option.pure_def, Option.some.injEq, toOption_eq_some] at h
  obtain ⟨unsigned, hbuild, _, ⟨signed, hsigned, b, hb, rfl⟩, _, ⟨a, ha, rfl⟩, rfl⟩ := h
  exact ⟨unsigned, signed, a, b, hbuild, hsigned, ha, hb, rfl⟩

theorem isSigned_of_signedTransaction {unsigned signed : Transaction}
    {signingInputs : List SigningInput}
    (h : signedTransaction lib unsigned signingInputs = some signed) :
    List.Forall₂ IsSigned unsigned.inputs signed.inputs ∧
      signed = { unsigned with inputs := signed.inputs, inputs_lt := signed.inputs_lt } := by
  unfold signedTransaction at h
  split at h
  · cases h
  · next signedInputs hinputs =>
    obtain rfl := Option.some.inj h
    exact ⟨signInputs_isSigned lib hinputs, rfl⟩

/-- The id that is returned is the id of what is broadcast exactly if nothing is spent. -/
theorem buildAndSign_txid_iff (h : buildAndSign lib utxos hutxos destinationAddress changeAddress
      sendAmount feePerKb now = some result)
    (hfree : ∀ unsigned a b, buildUnsigned lib.decodeHash160 (utxos.map OwnedUtxo.toSpendableUtxo)
        (by rwa [List.length_map]) destinationAddress changeAddress sendAmount feePerKb now =
          .ok unsigned →
      unsigned.serialize = some a → fromHex result.rawHex.toList = some b →
        lib.hash256 a = lib.hash256 b → a = b) :
    broadcastId lib result.rawHex = some result.txid ↔ utxos = [] := by
  obtain ⟨unsigned, signed, a, b, hbuild, hsigned, ha, hb, rfl⟩ := buildAndSign_eq_some h
  obtain ⟨hscript, hnil⟩ := buildUnsigned_inputs hbuild
  obtain ⟨hforall, heq⟩ := isSigned_of_signedTransaction hsigned
  have hsame : broadcastId lib (toHex b) = some (idOf lib a) ↔ a = b := by
    rw [broadcastId, fromHex_toHex, Option.map_some, Option.some.injEq, idOf_eq_iff]
    exact ⟨fun hhash => hfree unsigned a b hbuild ha (fromHex_toHex b) hhash.symm,
      fun hab => congrArg lib.hash256 hab.symm⟩
  rw [hsame, ← List.map_eq_nil_iff (f := OwnedUtxo.toSpendableUtxo), ← hnil]
  cases hin : unsigned.inputs with
  | nil =>
    -- nothing to sign: the transaction that is serialized is the unsigned one
    rw [hin, List.forall₂_nil_left_iff] at hforall
    have hself : signed = unsigned := by
      rw [heq]
      simp only [hforall, ← hin]
    rw [hself, ha] at hb
    simp [Option.some.inj hb]
  | cons i is =>
    rw [hin] at hforall
    obtain ⟨j, js, hij, hrest, hin'⟩ := List.forall₂_cons_left_iff.mp hforall
    have hi := hscript i (by rw [hin]; exact List.mem_cons_self)
    have hne := serialize_ne_of_isSigned hin hin' hrest.length_eq hi hij (by rw [heq]) (by rw [heq])
      ha hb
    simp [hne]

end

/-! ## One payment -/

theorem length_publicKey : (List.replicate 33 (2 : UInt8)).length = 33 := by decide

/-- Libraries with a hash that counts bytes. -/
def countingLib : Secp256k1 where
  hash256 input := BitVec.ofNat 256 input.length
  decodeHash160 _ := .ok ⟨List.replicate 20 1, by decide⟩
  generateSignature _ _ := some (5, 7)
  compressedPublicKey _ := some ⟨List.replicate 33 2, length_publicKey⟩

/-- One output of two coins. -/
def ownedOutput : OwnedUtxo where
  txid := "b8de62389e39c348390738d47516a7e9ef8fad2c904c68694e45841dd318656b"
  vout := 1
  amount := 200000000
  privateKey := 1
  address := "from"

/-- The call that pays half of the output. -/
def signedPayment : Option SignedTransaction :=
  buildAndSign countingLib [ownedOutput] (by decide) "to" "change" 100000000 10000 1769817664

/-- The two serializations of the payment have different lengths. -/
theorem signedPayment_eq : ∃ unsigned a b,
    buildUnsigned countingLib.decodeHash160 ([ownedOutput].map OwnedUtxo.toSpendableUtxo) (by decide)
        "to" "change" 100000000 10000 1769817664 = .ok unsigned ∧
      unsigned.serialize = some a ∧ signedPayment = some ⟨idOf countingLib a, toHex b⟩ ∧
      countingLib.hash256 a ≠ countingLib.hash256 b := by
  have hlengths : ((buildUnsigned countingLib.decodeHash160
      ([ownedOutput].map OwnedUtxo.toSpendableUtxo) (by decide) "to" "change" 100000000 10000
      1769817664).toOption.bind fun unsigned => unsigned.serialize.bind fun a =>
        (signedTransaction countingLib unsigned
          (([ownedOutput].take unsigned.inputs.length).map OwnedUtxo.signingInput)).bind fun signed =>
            signed.serialize.map fun b => (a.length, b.length)) = some (123, 167) := by
    decide +kernel
  simp only [Option.bind_eq_some_iff, Option.map_eq_some_iff, toOption_eq_some, Prod.mk.injEq]
    at hlengths
  obtain ⟨unsigned, hbuild, a, ha, signed, hsigned, b, hb, hla, hlb⟩ := hlengths
  refine ⟨unsigned, a, b, hbuild, ha, ?_, ?_⟩
  · simp only [signedPayment, buildAndSign, hbuild, Except.toOption, sign, hsigned, hb,
      Transaction.txid, ha, Option.bind_eq_bind, Option.bind_some, Option.pure_def]
  · show BitVec.ofNat 256 a.length ≠ BitVec.ofNat 256 b.length
    rw [hla, hlb]
    decide

theorem signedPayment_not_broadcast : ∃ result, signedPayment = some result ∧
    broadcastId countingLib result.rawHex ≠ some result.txid := by
  obtain ⟨unsigned, a, b, -, -, hresult, hne⟩ := signedPayment_eq
  refine ⟨_, hresult, fun heq => hne ?_⟩
  rw [broadcastId, fromHex_toHex, Option.map_some, Option.some.injEq, idOf_eq_iff] at heq
  exact heq.symm

theorem signedPayment_txid_iff : ∃ result, signedPayment = some result ∧
    (broadcastId countingLib result.rawHex = some result.txid ↔ [ownedOutput] = []) := by
  obtain ⟨unsigned, a, b, hbuild, ha, hresult, hne⟩ := signedPayment_eq
  refine ⟨_, hresult, buildAndSign_txid_iff hresult fun unsigned' a' b' hbuild' ha' hb' hhash => ?_⟩
  obtain rfl := Except.ok.inj (hbuild.symm.trans hbuild')
  obtain rfl := Option.some.inj (ha.symm.trans ha')
  obtain rfl := Option.some.inj ((fromHex_toHex b).symm.trans hb')
  exact absurd hhash hne

end JavaWallet

end X2XCoin
