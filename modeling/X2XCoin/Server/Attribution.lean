import X2XCoin.JavaWallet.KeyImport
import X2XCoin.JavaWallet.Signing
import X2XCoin.Server.ChainIndexer

/-!
# Which addresses an output belongs to

`extractAddresses`, `outputHasAddress` and `addressFromScriptHex` of `ChainIndexer.java` over the
object that the node's `ScriptPubKeyToJSON` produces for a script, with addresses in the legacy
format.  The signer makes signatures only for the script `p2pkhScript`.
-/

open ByteCodec

namespace X2XCoin

open JavaWallet

/-! ## The node -/

def scriptPubKeyToJSON (hash256 : Bytes → Uint256) (hash160 : Bytes → Uint160)
    (scriptPubKey : CScript) (fIncludeHex : Bool) : Option ScriptPubKeyJson :=
  let hex := if fIncludeHex then some (toHex scriptPubKey) else none
  match extractDestinations hash160 scriptPubKey with
  | none => some ⟨hex, none⟩
  | some (addresses, _) => do
    let a ← addresses.mapM (encodeLegacyAddr hash256)
    pure ⟨hex, some (a.map String.ofList)⟩

/-! ## The indexer -/

namespace Server

namespace Attribution

open JavaWallet.AddressCodec (ADDRESS_MIN_LENGTH ADDRESS_MAX_LENGTH isMainnetP2pkhAddress
  decodeHash160 isValidP2pkh addressOf decodeHash160_eq_ok)

section

variable (hash256 : Bytes → Uint256)

/-- `addressFromScriptHex`: throws if the text is not hexadecimal, and may return `null`. -/
def addressFromScriptHex (scriptHex : String) : Option (Option String) :=
  if scriptHex.toList.length < 50 then some none
  else do
    let script ← fromHex scriptHex.toList
    if script.length ≠ 25 ∨ script.take 3 ≠ [0x76, 0xa9, 0x14] then pure none
    else pure (some (addressOf hash256 ((script.drop 3).take 20)))

/-- The functions on addresses that the index is built with. -/
def walletCodec : AddressCodec where
  isValidP2pkh := isValidP2pkh hash256
  addressFromScriptHex scriptHex := (addressFromScriptHex hash256 scriptHex).join

def outputHasAddress (output : Output) (address : String) : Bool :=
  address ∈ output.addresses.getD [] ||
    output.hex.bind (walletCodec hash256).addressFromScriptHex = some address

end

/-! ## Attribution -/

section

variable (hash256 : Bytes → Uint256) (hash160 : Bytes → Uint160)

/-- The script that the wallet can sign for with the key of an address. -/
def SpendableBy (script : CScript) (address : String) : Prop :=
  ∃ hash, decodeHash160 hash256 address = .ok hash ∧ script = p2pkhScript hash

/-- The output that the indexer reads is the one that the node describes for the script. -/
def Describes (script : CScript) (output : Output) : Prop :=
  scriptPubKeyToJSON hash256 hash160 script true = some ⟨output.hex, output.addresses⟩

/-- An output is attributed to those who can spend it. -/
def AttributedExactly (script : CScript) : Prop :=
  ∀ output, Describes hash256 hash160 script output → ∀ address,
    (address ∈ extractAddresses (walletCodec hash256) output ↔
      SpendableBy hash256 script address) ∧
    (outputHasAddress hash256 output address = true ↔ SpendableBy hash256 script address)

end

/-- The bytes that `addressFromScriptHex` looks at. -/
def LooksP2pkh (script : CScript) : Prop :=
  script.length = 25 ∧ script.take 3 = [0x76, 0xa9, 0x14]

instance (script : CScript) : Decidable (LooksP2pkh script) := inferInstanceAs (Decidable (_ ∧ _))

/-! ## The object of a script -/

theorem length_toHex (bytes : Bytes) : (toHex bytes).toList.length = 2 * bytes.length := by
  rw [toHex, String.toList_ofList, List.length_flatMap]
  simp [Nat.mul_comm]

/-- The address that the indexer derives from the bytes of a script. -/
def byteAddress (hash256 : Bytes → Uint256) (script : CScript) : Option String :=
  if LooksP2pkh script then some (addressOf hash256 ((script.drop 3).take 20)) else none

theorem addressFromScriptHex_toHex (hash256 : Bytes → Uint256) (script : CScript) :
    addressFromScriptHex hash256 (toHex script) = some (byteAddress hash256 script) := by
  rw [addressFromScriptHex, length_toHex, fromHex_toHex, byteAddress]
  by_cases hlooks : LooksP2pkh script
  · obtain ⟨hlen, htake⟩ := hlooks
    simp [hlen, htake, LooksP2pkh]
  · have hor : script.length ≠ 25 ∨ script.take 3 ≠ [0x76, 0xa9, 0x14] := by
      rw [LooksP2pkh, not_and_or] at hlooks
      exact hlooks
    rw [if_neg hlooks, Option.bind_eq_bind, Option.bind_some, if_pos hor]
    exact ite_self _

def destinationText (hash256 : Bytes → Uint256) : CTxDestination → String
  | .noDestination => ""
  | .keyID id => String.ofList (legacyText hash256 (3 :: id))
  | .scriptID id => String.ofList (legacyText hash256 (90 :: id))

section

variable {hash256 : Bytes → Uint256} {hash160 : Bytes → Uint160} {script : CScript}

variable (hash256) in
theorem mapM_encodeLegacyAddr (addresses : List CTxDestination) :
    (addresses.mapM (encodeLegacyAddr hash256)).map (List.map String.ofList) =
      some (addresses.map (destinationText hash256)) := by
  have hone : ∀ d, (encodeLegacyAddr hash256 d).map String.ofList =
      some (destinationText hash256 d) := by
    rintro (_ | id | id)
    · rfl
    · rw [encodeLegacyAddr_keyID]
      rfl
    · exact congrArg (Option.map String.ofList) (encodeBase58Check_eq hash256 (90 :: id))
  induction addresses with
  | nil => rfl
  | cons d addresses ih =>
    obtain ⟨text, htext, hd⟩ := Option.map_eq_some_iff.mp (hone d)
    obtain ⟨texts, htexts, hrest⟩ := Option.map_eq_some_iff.mp ih
    rw [List.mapM_cons, htext, htexts, List.map_cons, ← hd, ← hrest]
    rfl

def nodeAddresses (hash256 : Bytes → Uint256) (hash160 : Bytes → Uint160) (script : CScript) :
    List String :=
  ((extractDestinations hash160 script).map fun d => d.1.map (destinationText hash256)).getD []

variable (hash256 hash160 script) in
/-- The object of a script always exists, and what the indexer reads in it. -/
theorem scriptPubKeyToJSON_eq : ∃ json,
    scriptPubKeyToJSON hash256 hash160 script true = some json ∧
      json.addresses.getD [] = nodeAddresses hash256 hash160 script ∧
        json.hex = some (toHex script) := by
  rw [scriptPubKeyToJSON, nodeAddresses]
  cases extractDestinations hash160 script with
  | none => exact ⟨_, rfl, rfl, rfl⟩
  | some d =>
    obtain ⟨texts, htexts, heq⟩ := Option.map_eq_some_iff.mp (mapM_encodeLegacyAddr hash256 d.1)
    refine ⟨⟨some (toHex script), some (texts.map String.ofList)⟩, ?_, heq, rfl⟩
    simp only [htexts, Option.bind_eq_bind, Option.bind_some, Option.pure_def, if_true]

variable {output : Output} {address : String}

theorem Describes.addresses_hex (h : Describes hash256 hash160 script output) :
    output.addresses.getD [] = nodeAddresses hash256 hash160 script ∧
      output.hex.bind (walletCodec hash256).addressFromScriptHex = byteAddress hash256 script := by
  obtain ⟨json, hjson, haddresses, hhex⟩ := scriptPubKeyToJSON_eq hash256 hash160 script
  obtain rfl := Option.some.inj (hjson.symm.trans h)
  simp only at haddresses hhex
  refine ⟨haddresses, ?_⟩
  rw [hhex, Option.bind_some]
  change (addressFromScriptHex hash256 (toHex script)).join = _
  rw [addressFromScriptHex_toHex, Option.join_some]

theorem mem_extractAddresses_iff (h : Describes hash256 hash160 script output) :
    address ∈ extractAddresses (walletCodec hash256) output ↔
      let valid := (nodeAddresses hash256 hash160 script).filter (isValidP2pkh hash256)
      address ∈ valid ∨ valid = [] ∧ byteAddress hash256 script = some address := by
  obtain ⟨haddresses, hhex⟩ := h.addresses_hex
  rw [extractAddresses, haddresses, hhex]
  change address ∈
    (let valid := (nodeAddresses hash256 hash160 script).filter (isValidP2pkh hash256)
      if valid ≠ [] then valid else _) ↔ _
  cases (nodeAddresses hash256 hash160 script).filter (isValidP2pkh hash256) with
  | nil => simp
  | cons a rest => simp

theorem outputHasAddress_iff (h : Describes hash256 hash160 script output) :
    outputHasAddress hash256 output address = true ↔
      address ∈ nodeAddresses hash256 hash160 script ∨
        byteAddress hash256 script = some address := by
  obtain ⟨haddresses, hhex⟩ := h.addresses_hex
  rw [outputHasAddress, haddresses, hhex, Bool.or_eq_true, decide_eq_true_eq, decide_eq_true_eq]

/-! ## Scripts of the wallet -/

theorem p2pkhScript_eq {hash : Bytes} (h : hash.length = 20) :
    p2pkhScript hash = CScript.payToPubKeyHash hash := by
  rw [CScript.payToPubKeyHash, h]
  rfl

theorem solver_p2pkhScript {hash : Bytes} (h : hash.length = 20) :
    solver (p2pkhScript hash) = some (.pubkeyhash, [hash]) := by
  have hlen : (p2pkhScript hash).length = 25 := by simp [p2pkhScript, h]
  have hops := CScript.ops_payToPubKeyHash h
  rw [← p2pkhScript_eq h] at hops
  have hp2sh : CScript.isPayToScriptHash (p2pkhScript hash) = false := by
    simp [CScript.isPayToScriptHash, hlen]
  have hhead : ¬ ((p2pkhScript hash).head? = some OP_RETURN ∧
      CScript.isPushOnly (p2pkhScript hash).tail) := by
    rintro ⟨hret, -⟩
    exact absurd hret (by simp [p2pkhScript, OP_RETURN])
  rw [solver, hp2sh, if_neg (by decide), if_neg hhead, hops]
  simp [mTemplates, matchTemplate, matchOp, h, OP_PUBKEY, OP_CHECKSIG, OP_DUP, OP_HASH160,
    OP_PUBKEYHASH, OP_EQUALVERIFY, OP_PUBKEYS, OP_SMALLINTEGER]

theorem extractDestinations_p2pkhScript (hash160 : Bytes → Uint160) (hash : Uint160) :
    extractDestinations hash160 (p2pkhScript hash) = some ([.keyID hash], 1) := by
  have hsolver := solver_p2pkhScript hash.2
  have huint : toUint160 hash = some hash := dif_pos hash.2
  rw [extractDestinations, hsolver]
  simp only [extractDestination, hsolver, List.headD_cons, huint, Option.map_some]

theorem extractDestinations_ne_nil {d : List CTxDestination × ℕ}
    (h : extractDestinations hash160 script = some d) : d.1 ≠ [] := by
  unfold extractDestinations at h
  split at h
  · cases h
  · cases h
  · simp only at h
    split_ifs at h with hempty
    obtain rfl := Option.some.inj h
    simpa using hempty
  · obtain ⟨address, -, rfl⟩ := Option.map_eq_some_iff.mp h
    exact List.cons_ne_nil _ _

/-! ## Addresses of the wallet -/

theorem addressOf_shape (hash256 : Bytes → Uint256) (hash : Uint160) :
    (addressOf hash256 hash).toList.length = 34 ∧
      ∀ c ∈ (addressOf hash256 hash).toList, c ∈ pszBase58 := by
  rw [addressOf, String.toList_ofList, Base58.encodeCheck, Base58.encode_eq]
  refine ⟨?_, ?_⟩
  · have hlen : (hash.1 ++ checksum hash256 (3 :: hash)).length = 24 := by
      rw [List.length_append, hash.2, length_checksum]
    have hzeros :
        Radix.zeros ((3 :: (hash.1 ++ checksum hash256 (3 :: hash))).map UInt8.toNat) = 0 := by
      simp [Radix.zeros]
    have hnum := beNat_cons 3 (hash.1 ++ checksum hash256 (3 :: hash))
    have hlt := beNat_lt (hash.1 ++ checksum hash256 (3 :: hash))
    rw [Base58.beNat_eq_horner, hlen] at hnum
    rw [hlen] at hlt
    have h3 : (3 : UInt8).toNat = 3 := rfl
    rw [base58Text, List.length_map, Radix.transcode, List.length_append, List.length_reverse,
      List.length_replicate]
    change Radix.zeros ((3 :: (hash.1 ++ checksum hash256 (3 :: hash))).map UInt8.toNat) +
      (Nat.digits 58 (Radix.horner 256
        ((3 :: (hash.1 ++ checksum hash256 (3 :: hash))).map UInt8.toNat))).length = 34
    rw [hzeros, hnum, h3, zero_add]
    apply le_antisymm
    · rw [Nat.digits_length_le_iff (by decide)]
      exact (by omega : _ < 4 * 256 ^ 24).trans_le (by decide)
    · rw [Nat.succ_le_iff, Nat.lt_digits_length_iff (by decide)]
      exact (by decide : 58 ^ 33 ≤ 3 * 256 ^ 24).trans (Nat.le_add_right ..)
  · exact fun c hc => mem_pszBase58_of_mem_base58Text hc

theorem isValidP2pkh_addressOf (hash256 : Bytes → Uint256) (hash : Uint160) :
    isValidP2pkh hash256 (addressOf hash256 hash) = true := by
  obtain ⟨hlen, halphabet⟩ := addressOf_shape hash256 hash
  have hprintable : ∀ c ∈ (addressOf hash256 hash).toList, Printable c := by
    intro c hc
    have hall : pszBase58.all (fun c => decide (Printable c)) = true := by
      rw [pszBase58_eq]
      rfl
    exact of_decide_eq_true (List.all_eq_true.mp hall c (halphabet c hc))
  have hne : (addressOf hash256 hash).toList ≠ [] :=
    List.ne_nil_of_length_pos (by omega)
  rw [isValidP2pkh, decodeHash160_eq_ok.mpr rfl]
  simp only [isMainnetP2pkhAddress, trimChars_of_printable hprintable, hlen,
    ADDRESS_MIN_LENGTH, ADDRESS_MAX_LENGTH, hne, ne_eq,
    not_false_eq_true, decide_true, Bool.true_and]
  rw [Base58.alphabet_eq, Bool.and_eq_true, List.all_eq_true]
  exact ⟨by decide, fun c hc => decide_eq_true (halphabet c hc)⟩

theorem destinationText_keyID (hash : Uint160) :
    destinationText hash256 (.keyID hash) = addressOf hash256 hash := by
  rw [destinationText, addressOf, Base58.encodeCheck, Base58.encode_eq, legacyText]
  rfl

theorem p2pkhScript_injective {a b : Bytes} (h : p2pkhScript a = p2pkhScript b) : a = b := by
  simpa [p2pkhScript] using h

theorem spendableBy_p2pkhScript {hash : Uint160} :
    SpendableBy hash256 (p2pkhScript hash) address ↔ address = addressOf hash256 hash := by
  simp only [SpendableBy, decodeHash160_eq_ok]
  constructor
  · rintro ⟨hash', rfl, heq⟩
    rw [p2pkhScript_injective heq]
  · rintro rfl
    exact ⟨hash, rfl, rfl⟩

theorem looksP2pkh_p2pkhScript (hash : Uint160) : LooksP2pkh (p2pkhScript hash) :=
  ⟨by simp [p2pkhScript, hash.2], rfl⟩

theorem byteAddress_p2pkhScript (hash : Uint160) : byteAddress hash256 (p2pkhScript hash) =
    some (addressOf hash256 hash) := by
  have hhash : ((p2pkhScript hash).drop 3).take 20 = hash.1 := by
    change (hash.1 ++ [0x88, 0xac]).take 20 = hash.1
    exact List.take_left' hash.2
  rw [byteAddress, if_pos (looksP2pkh_p2pkhScript hash), hhash]

theorem nodeAddresses_p2pkhScript (hash : Uint160) :
    nodeAddresses hash256 hash160 (p2pkhScript hash) = [addressOf hash256 hash] := by
  rw [nodeAddresses, extractDestinations_p2pkhScript, Option.map_some, List.map_singleton,
    destinationText_keyID, Option.getD_some]

/-- An output is attributed to those who can spend it exactly if its script is one of the wallet's,
or has no destinations and does not look like one. -/
theorem attributedExactly_iff (hash256 : Bytes → Uint256) (hash160 : Bytes → Uint160)
    (script : CScript) : AttributedExactly hash256 hash160 script ↔
      (∃ hash : Uint160, script = p2pkhScript hash) ∨
        extractDestinations hash160 script = none ∧ ¬ LooksP2pkh script := by
  constructor
  · intro h
    obtain ⟨json, hjson, -, -⟩ := scriptPubKeyToJSON_eq hash256 hash160 script
    have hdescribes : Describes hash256 hash160 script ⟨0, 0, json.addresses, json.hex⟩ := hjson
    -- whoever is found owns the script, which then is one of the wallet's
    have hfound : ∀ address, address ∈ nodeAddresses hash256 hash160 script ∨
        byteAddress hash256 script = some address →
        ∃ hash : Uint160, script = p2pkhScript hash := fun address hf => by
      obtain ⟨hash, -, heq⟩ :=
        (h _ hdescribes address).2.mp ((outputHasAddress_iff hdescribes).mpr hf)
      exact ⟨hash, heq⟩
    cases hext : extractDestinations hash160 script with
    | some d =>
      obtain ⟨dest, rest, hd⟩ := List.exists_cons_of_ne_nil (extractDestinations_ne_nil hext)
      refine .inl (hfound (destinationText hash256 dest) (.inl ?_))
      rw [nodeAddresses, hext, Option.map_some, hd, Option.getD_some]
      exact List.mem_cons_self
    | none =>
      by_cases hlooks : LooksP2pkh script
      · exact .inl (hfound _ (.inr (if_pos hlooks)))
      · exact .inr ⟨rfl, hlooks⟩
  · rintro (⟨hash, rfl⟩ | ⟨hext, hlooks⟩) output hdescribes address
    · rw [mem_extractAddresses_iff hdescribes, outputHasAddress_iff hdescribes,
        spendableBy_p2pkhScript, nodeAddresses_p2pkhScript, byteAddress_p2pkhScript]
      simp [isValidP2pkh_addressOf, eq_comm]
    · have hnone : ¬ SpendableBy hash256 script address := by
        rintro ⟨hash, -, rfl⟩
        exact hlooks (looksP2pkh_p2pkhScript hash)
      have hbyte : byteAddress hash256 script = none := if_neg hlooks
      rw [mem_extractAddresses_iff hdescribes, outputHasAddress_iff hdescribes, nodeAddresses, hext,
        hbyte]
      simp [hnone]

end

/-! ## The output of a staking reward -/

/-- Pay to a public key: what a coinstake pays to. -/
def payToPubKeyScript : CScript := 33 :: 2 :: List.replicate 32 1 ++ [OP_CHECKSIG]

/-- The output is listed for the address of the key, and the wallet cannot spend it. -/
theorem exists_payToPubKey_listed (hash256 : Bytes → Uint256) (hash160 : Bytes → Uint160) :
    let address := addressOf hash256 (hash160 (2 :: List.replicate 32 1))
    ∃ output, Describes hash256 hash160 payToPubKeyScript output ∧
      address ∈ extractAddresses (walletCodec hash256) output ∧
      outputHasAddress hash256 output address = true ∧
        ¬ SpendableBy hash256 payToPubKeyScript address := by
  have hsolver : solver payToPubKeyScript = some (.pubkey, [2 :: List.replicate 32 1]) := by
    decide +kernel
  have hext : extractDestinations hash160 payToPubKeyScript =
      some ([.keyID (hash160 (2 :: List.replicate 32 1))], 1) := by
    rw [extractDestinations, hsolver]
    simp only [extractDestination, hsolver, List.headD_cons]
    rfl
  have hnode : nodeAddresses hash256 hash160 payToPubKeyScript =
      [addressOf hash256 (hash160 (2 :: List.replicate 32 1))] := by
    rw [nodeAddresses, hext, Option.map_some, List.map_singleton, destinationText_keyID,
      Option.getD_some]
  obtain ⟨json, hjson, -, -⟩ := scriptPubKeyToJSON_eq hash256 hash160 payToPubKeyScript
  have hdescribes :
      Describes hash256 hash160 payToPubKeyScript ⟨0, 0, json.addresses, json.hex⟩ := hjson
  refine ⟨_, hdescribes, (mem_extractAddresses_iff hdescribes).mpr (.inl ?_),
    (outputHasAddress_iff hdescribes).mpr (.inl ?_), ?_⟩
  · rw [hnode]
    simp [isValidP2pkh_addressOf]
  · rw [hnode]
    exact List.mem_cons_self
  · rintro ⟨hash, -, heq⟩
    have := congrArg List.head? heq
    simp [payToPubKeyScript, p2pkhScript] at this

/-- With hashes that keep the first bytes. -/
theorem payToPubKey_listed :
    let hash256 : Bytes → Uint256 := fun bytes => BitVec.ofNat 256 (leNat bytes)
    let hash160 : Bytes → Uint160 := fun bytes => ⟨(bytes ++ List.replicate 20 0).take 20, by simp⟩
    let address := addressOf hash256 (hash160 (2 :: List.replicate 32 1))
    ∃ output, Describes hash256 hash160 payToPubKeyScript output ∧
      address ∈ extractAddresses (walletCodec hash256) output ∧
      outputHasAddress hash256 output address = true ∧
        ¬ SpendableBy hash256 payToPubKeyScript address :=
  exists_payToPubKey_listed _ _

end Attribution

end Server

end X2XCoin
