import X2XCoin.Address.Destination
import X2XCoin.JavaWallet.Base58

/-!
# Importing a private key

`WifCodec.java`, `compressedPublicKey` of `Secp256k1.java` and `WalletAccount.fromWif`, and on the
side
of the node `CBase58Data::SetString`, `CBitcoinSecret` and `CKey::GetPubKey`.  The multiplication of
the generator, the identifier of a new account and the time are arguments.
-/

open ByteCodec

namespace X2XCoin

/-- The multiples of the generator of secp256k1 in affine coordinates, `none` at infinity. -/
structure Curve where
  mul : ℕ → Option (ℕ × ℕ)
  lt : ∀ {k x y : ℕ}, mul k = some (x, y) → x < 2 ^ 256 ∧ y < 2 ^ 256
  isSome : ∀ {k : ℕ}, 0 < k → k < secp256k1Order → (mul k).isSome

/-! ## The node -/

/-- `secp256k1_ec_pubkey_serialize`. -/
def serializePubKey (fCompressed : Bool) (point : ℕ × ℕ) : Bytes :=
  if fCompressed then (if point.2 % 2 = 1 then 3 else 2) :: beBytes 32 point.1
  else 4 :: beBytes 32 point.1 ++ beBytes 32 point.2

structure CBase58Data where
  vchVersion : Bytes
  vchData : Bytes
  deriving DecidableEq

structure CKey where
  vch : Bytes
  fValid : Bool
  fCompressed : Bool

/-- `CBase58Data::SetString` with one byte for the version. -/
def CBase58Data.setString (hash256 : Bytes → Uint256) (psz : List Char) : Option CBase58Data := do
  let vchTemp ← decodeBase58Check hash256 psz
  if vchTemp.length < 1 then none else pure ⟨vchTemp.take 1, vchTemp.drop 1⟩

namespace CBitcoinSecret

/-- `CBitcoinSecret::IsValid`. -/
def isValid (secret : CBase58Data) : Bool :=
  let fExpectedFormat := secret.vchData.length = 32 ∨
    secret.vchData.length = 33 ∧ secret.vchData[32]? = some 1
  let fCorrectVersion := secret.vchVersion = SECRET_KEY
  fExpectedFormat ∧ fCorrectVersion

/-- `CBitcoinSecret::SetString`. -/
def setString (hash256 : Bytes → Uint256) (psz : List Char) : Option CBase58Data := do
  let secret ← CBase58Data.setString hash256 psz
  if isValid secret then pure secret else none

/-- `CBitcoinSecret::GetKey`, with `secp256k1_ec_seckey_verify` for the range. -/
def getKey (secret : CBase58Data) : CKey :=
  let vch := secret.vchData.take 32
  { vch := vch
    fValid := 0 < beNat vch ∧ beNat vch < secp256k1Order
    fCompressed := 32 < secret.vchData.length ∧ secret.vchData[32]? = some 1 }

end CBitcoinSecret

section

variable (curve : Curve) (hash256 : Bytes → Uint256) (hash160 : Bytes → Uint160)

/-- `CKey::GetPubKey`, which asserts that the key is valid. -/
def CKey.getPubKey (key : CKey) : Option Bytes :=
  if key.fValid then (curve.mul (beNat key.vch)).map (serializePubKey key.fCompressed) else none

/-- The address that the node derives for a key. -/
def CKey.address (key : CKey) : Option String := do
  let pubKey ← key.getPubKey curve
  let text ← encodeLegacyAddr hash256 (.keyID (hash160 pubKey))
  pure (String.ofList text)

end

/-! ## The wallet -/

namespace JavaWallet

def toFixed (value size : ℕ) : Bytes :=
  let bytes := toByteArray value
  let bytes := if bytes.length > size then bytes.drop (bytes.length - size) else bytes
  List.replicate (size - bytes.length) 0 ++ bytes

/-- `Secp256k1.compressedPublicKey`; the point at infinity has no coordinates. -/
def compressedPublicKey (curve : Curve) (privateKey : ℕ) : Except String Bytes :=
  match curve.mul privateKey with
  | none => .error "NullPointerException"
  | some (x, y) => .ok ((if y.testBit 0 then 0x03 else 0x02) :: toFixed x 32)

namespace WifCodec

def WIF_VERSION : UInt8 := 0x80
def WIF_COMPRESSED_SUFFIX : UInt8 := 0x01

/-- `WifCodec.encode`. -/
def encode (hash256 : Bytes → Uint256) (privateKey : ℕ) (compressed : Bool) : List Char :=
  let secret := toFixed privateKey 32
  let payload := if compressed then secret ++ [WIF_COMPRESSED_SUFFIX] else secret
  Base58.encodeCheck hash256 WIF_VERSION payload

/-- `WifCodec.decode`. -/
def decode (hash256 : Bytes → Uint256) (wif : String) : Except String ℕ := do
  let (version, payload) ← Base58.decodeCheck hash256 (AddressCodec.trimChars wif.toList)
  if version ≠ WIF_VERSION then .error "invalid 2x2Coin WIF version"
  else
    let compressed := payload.length = 33 ∧ payload[32]? = some WIF_COMPRESSED_SUFFIX
    if payload.length ≠ 32 ∧ ¬ compressed then .error "invalid WIF payload length"
    else
      let privateKey := beNat (payload.take 32)
      if privateKey ≤ 0 then .error "invalid private key" else .ok privateKey

end WifCodec

structure WalletAccount where
  id : String
  label : String
  address : String
  privateKey : ℕ
  wif : String
  createdAt : Int64
  deriving DecidableEq

namespace WalletAccount

variable (curve : Curve) (hash256 : Bytes → Uint256) (hash160 : Bytes → Uint160)

/-- `WalletAccount.fromPrivateKey` with the identifier and the time it takes. -/
def fromPrivateKey (uuid : String) (now : Int64) (label : Option String) (privateKey : ℕ) :
    Except String WalletAccount := do
  let publicKey ← compressedPublicKey curve privateKey
  pure
    { id := uuid
      label := String.ofList (AddressCodec.trimChars (label.getD "").toList)
      address := AddressCodec.fromPublicKey hash256 (fun key => hash160 key) publicKey
      privateKey := privateKey
      wif := String.ofList (WifCodec.encode hash256 privateKey true)
      createdAt := now }

def fromWif (uuid : String) (now : Int64) (label : Option String) (wif : String) :
    Except String WalletAccount := do
  let privateKey ← WifCodec.decode hash256 wif
  fromPrivateKey curve hash256 hash160 uuid now label privateKey

end WalletAccount

/-! ## Numbers of a fixed length -/

theorem take_leBytes {m k : ℕ} (h : m ≤ k) (n : ℕ) : (leBytes k n).take m = leBytes m n := by
  induction m generalizing k n with
  | zero => rfl
  | succ m ih =>
    obtain ⟨k, rfl⟩ : ∃ j, k = j + 1 := ⟨k - 1, by omega⟩
    rw [leBytes, List.take_succ_cons, ih (by omega), leBytes]

theorem leBytes_add {k n : ℕ} (h : n < 256 ^ k) (j : ℕ) :
    leBytes (k + j) n = leBytes k n ++ List.replicate j 0 := by
  induction j with
  | zero => simp
  | succ j ih =>
    have hlt : n < 256 ^ (k + j) := h.trans_le (Nat.pow_le_pow_right (by decide) (by omega))
    have happ := leBytes_append (k + j) n 0 hlt
    rw [zero_mul, zero_add] at happ
    rw [← add_assoc, happ, ih, List.append_assoc, List.replicate_succ']
    rfl

theorem toFixed_eq {value size : ℕ} (h : value < 256 ^ size) : toFixed value size = beBytes size value := by
  have hlen : (toByteArray value).length = value.size / 8 + 1 := length_beBytes ..
  have hlt : value < 256 ^ (value.size / 8 + 1) := by
    calc value < 2 ^ value.size := Nat.lt_size_self value
      _ ≤ 2 ^ (8 * (value.size / 8 + 1)) := Nat.pow_le_pow_right (by decide) (by omega)
      _ = 256 ^ (value.size / 8 + 1) := by rw [pow_mul]; rfl
  rw [toFixed]
  by_cases hgt : (toByteArray value).length > size
  · have hdrop : (toByteArray value).drop ((toByteArray value).length - size) = beBytes size value := by
      rw [hlen] at hgt
      rw [hlen, toByteArray, beBytes, List.drop_reverse, length_leBytes, take_leBytes (by omega), beBytes]
      congr 2
      omega
    rw [if_pos hgt, hdrop, length_beBytes, Nat.sub_self]
    rfl
  · rw [if_neg hgt]
    obtain ⟨j, hj⟩ := Nat.exists_eq_add_of_le (not_lt.mp hgt)
    rw [hj, Nat.add_sub_cancel_left, hlen, toByteArray, beBytes, beBytes, leBytes_add hlt,
      List.reverse_append, List.reverse_replicate]

theorem beBytes_beNat (b : Bytes) : beBytes b.length (beNat b) = b := by
  rw [beBytes, beNat, ← List.length_reverse, leBytes_leNat, List.reverse_reverse]

theorem beNat_lt (b : Bytes) : beNat b < 256 ^ b.length := by
  have hround := congrArg leNat (leBytes_leNat b.reverse)
  rw [leNat_leBytes] at hround
  rw [beNat, ← List.length_reverse, ← hround]
  exact Nat.mod_lt _ (by positivity)

/-! ## What the two sides accept -/

/-- A character that is printed and is not a space. -/
def Printable (c : Char) : Prop := '!' ≤ c ∧ c ≤ '~'

instance (c : Char) : Decidable (Printable c) := inferInstanceAs (Decidable (_ ∧ _))

/-- The lengths of a secret with or without the mark of a compressed key. -/
def Format (payload : Bytes) : Prop :=
  payload.length = 32 ∨ payload.length = 33 ∧ payload[32]? = some 1

theorem Printable.not_space {c : Char} (h : Printable c) : isSpace c = false := by
  have h1 : '!'.toNat ≤ c.toNat := h.1
  have h33 : '!'.toNat = 33 := rfl
  rw [isSpace, decide_eq_false_iff_not]
  rintro (rfl | ⟨-, hle⟩)
  · exact absurd h1 (by decide)
  · omega

theorem trimChars_of_printable {s : List Char} (h : ∀ c ∈ s, Printable c) :
    AddressCodec.trimChars s = s := by
  have hdrop : ∀ l : List Char, (∀ c ∈ l, Printable c) → l.dropWhile (· ≤ ' ') = l := by
    intro l hl
    cases l with
    | nil => rfl
    | cons c l =>
      have hc : '!'.toNat ≤ c.toNat := (hl c List.mem_cons_self).1
      rw [List.dropWhile_cons_of_neg]
      rw [decide_eq_true_eq]
      intro hle
      have hle' : c.toNat ≤ ' '.toNat := hle
      have h33 : '!'.toNat = 33 := rfl
      have h32 : ' '.toNat = 32 := rfl
      omega
  rw [AddressCodec.trimChars, hdrop s h, hdrop s.reverse fun c hc => h c (List.mem_reverse.mp hc),
    List.reverse_reverse]

section

variable {hash256 : Bytes → Uint256} {w : String}

theorem setString_eq_some (h : ∀ c ∈ w.toList, Printable c) {secret : CBase58Data} :
    CBitcoinSecret.setString hash256 w.toList = some secret ↔
      ∃ payload, secret = ⟨[128], payload⟩ ∧ Format payload ∧
        base58Bytes w.toList = some (128 :: payload ++ checksum hash256 (128 :: payload)) := by
  have hspace : ∀ c ∈ w.toList, isSpace c = false := fun c hc => (h c hc).not_space
  simp only [CBitcoinSecret.setString, CBase58Data.setString, Option.bind_eq_bind,
    Option.bind_eq_some_iff, decodeBase58Check_eq_some hash256 hspace]
  constructor
  · rintro ⟨d, ⟨vchTemp, hbytes, hd⟩, hsecret⟩
    split_ifs at hd hsecret with hlen hvalid
    obtain rfl := Option.some.inj hd
    obtain rfl := Option.some.inj hsecret
    rw [CBitcoinSecret.isValid, decide_eq_true_eq] at hvalid
    obtain ⟨b, payload, rfl⟩ := List.exists_cons_of_length_pos (not_lt.mp hlen)
    obtain rfl : b = 128 := (List.cons.inj hvalid.2).1
    exact ⟨payload, rfl, hvalid.1, hbytes⟩
  · rintro ⟨payload, rfl, hformat, hbytes⟩
    refine ⟨⟨[128], payload⟩, ⟨128 :: payload, hbytes, rfl⟩, ?_⟩
    rw [if_pos]
    · rfl
    · rw [CBitcoinSecret.isValid, decide_eq_true_eq]
      exact ⟨hformat, rfl⟩

theorem wifDecode_eq_ok (h : ∀ c ∈ w.toList, Printable c) {key : ℕ} :
    WifCodec.decode hash256 w = .ok key ↔ ∃ payload, Format payload ∧
      base58Bytes w.toList = some (128 :: payload ++ checksum hash256 (128 :: payload)) ∧
        key = beNat (payload.take 32) ∧ 0 < key := by
  rw [WifCodec.decode, trimChars_of_printable h]
  constructor
  · intro hok
    cases hdecode : Base58.decodeCheck hash256 w.toList with
    | error _ =>
      rw [hdecode] at hok
      cases hok
    | ok decoded =>
      obtain ⟨version, payload⟩ := decoded
      rw [hdecode] at hok
      simp only [bind, Except.bind] at hok
      split_ifs at hok with hversion hformat hkey
      obtain rfl := Except.ok.inj hok
      obtain rfl := not_not.mp hversion
      rw [not_and_not_right, ← or_iff_not_imp_left] at hformat
      exact ⟨payload, hformat, Base58.decodeCheck_eq_ok.mp hdecode, rfl, not_le.mp hkey⟩
  · rintro ⟨payload, hformat, hbytes, rfl, hpos⟩
    rw [Base58.decodeCheck_eq_ok.mpr hbytes]
    simp only [bind, Except.bind]
    rw [if_neg (by simp [WifCodec.WIF_VERSION]), if_neg, if_neg (not_le.mpr hpos)]
    rw [not_and_not_right, ← or_iff_not_imp_left]
    exact hformat

end

/-! ## Agreement -/

theorem checksum_append_inj {hash256 : Bytes → Uint256} {a b : Bytes}
    (h : a ++ checksum hash256 a = b ++ checksum hash256 b) : a = b :=
  (List.append_inj' h (by rw [length_checksum, length_checksum])).1

section

variable (curve : Curve) (hash256 : Bytes → Uint256) (hash160 : Bytes → Uint160)

/-- A text is imported with the same result on both sides. -/
structure ImportAgrees (w : String) : Prop where
  succeeds : (∃ key, WifCodec.decode hash256 w = .ok key) ↔
    ∃ secret, CBitcoinSecret.setString hash256 w.toList = some secret ∧
      (CBitcoinSecret.getKey secret).fValid
  same : ∀ key secret, WifCodec.decode hash256 w = .ok key →
    CBitcoinSecret.setString hash256 w.toList = some secret →
    (CBitcoinSecret.getKey secret).fValid →
      beBytes 32 key = (CBitcoinSecret.getKey secret).vch ∧
        ∀ uuid now label, ∃ account,
          WalletAccount.fromWif curve hash256 hash160 uuid now label w = .ok account ∧
            (CBitcoinSecret.getKey secret).address curve hash256 hash160 = some account.address

/-- The two forms of a public key have one hash. -/
def SameHash (key : ℕ) : Prop := ∀ point, curve.mul key = some point →
  hash160 (serializePubKey true point) = hash160 (serializePubKey false point)

variable {curve hash256 hash160}

variable {point : ℕ × ℕ} {w : String}

theorem compressedPublicKey_eq {key : ℕ} (h : curve.mul key = some point) :
    compressedPublicKey curve key = .ok (serializePubKey true point) := by
  have hbit : point.2.testBit 0 = decide (point.2 % 2 = 1) := by
    rw [Nat.testBit_zero]
  have hlt : point.1 < 256 ^ 32 := (curve.lt h).1.trans_eq (by decide)
  rw [compressedPublicKey, h]
  simp only [hbit, toFixed_eq hlt, serializePubKey, if_true, decide_eq_true_eq]

/-- The two addresses are the same exactly if the two hashes are. -/
theorem address_eq_iff {key : CKey} (hvalid : key.fValid)
    (hpoint : curve.mul (beNat key.vch) = some point) :
    key.address curve hash256 hash160 =
      some (AddressCodec.fromPublicKey hash256 (fun key => hash160 key) (serializePubKey true point)) ↔
    hash160 (serializePubKey key.fCompressed point) = hash160 (serializePubKey true point) := by
  rw [CKey.address, CKey.getPubKey, if_pos hvalid, hpoint, Option.map_some, Option.bind_eq_bind,
    Option.bind_some, encodeLegacyAddr_keyID, Option.bind_eq_bind, Option.bind_some, Option.pure_def,
    Option.some.injEq, AddressCodec.fromPublicKey, AddressCodec.addressOf, Base58.encodeCheck,
    Base58.encode_eq]
  refine ⟨fun h => ?_, fun h => by rw [h]; rfl⟩
  have htext := congrArg base58Bytes (String.ofList_injective h)
  rw [legacyText, base58Bytes_base58Text, base58Bytes_base58Text, Option.some.injEq] at htext
  exact Subtype.ext (List.cons.inj (checksum_append_inj htext)).2

variable (hash160) in
theorem fromWif_address {key : ℕ} (hdecode : WifCodec.decode hash256 w = .ok key)
    (hpoint : curve.mul key = some point) (uuid : String) (now : Int64) (label : Option String) :
    ∃ account, WalletAccount.fromWif curve hash256 hash160 uuid now label w = .ok account ∧
      account.address = AddressCodec.fromPublicKey hash256 (fun key => hash160 key)
        (serializePubKey true point) := by
  rw [WalletAccount.fromWif, hdecode]
  simp only [bind, Except.bind, WalletAccount.fromPrivateKey, compressedPublicKey_eq hpoint]
  exact ⟨_, rfl, rfl⟩

theorem getKey_of_format {payload : Bytes} (h : Format payload) :
    (payload.take 32).length = 32 ∧
      ((CBitcoinSecret.getKey ⟨[128], payload⟩).fValid = true ↔
        0 < beNat (payload.take 32) ∧ beNat (payload.take 32) < secp256k1Order) := by
  refine ⟨?_, ?_⟩
  · rw [List.length_take]
    rcases h with h | ⟨h, -⟩ <;> omega
  · rw [CBitcoinSecret.getKey, decide_eq_true_eq]

/-- The secret of a text, unless it is zero, is in range and is marked as compressed, or the mark makes
no difference to its hash. -/
def Importable (curve : Curve) (hash160 : Bytes → Uint160) (key : CKey) : Prop :=
  0 < beNat key.vch → beNat key.vch < secp256k1Order ∧
    (key.fCompressed ∨ SameHash curve hash160 (beNat key.vch))

theorem ImportAgrees.importable (h : ∀ c ∈ w.toList, Printable c)
    (hagrees : ImportAgrees curve hash256 hash160 w) {secret : CBase58Data}
    (hsecret : CBitcoinSecret.setString hash256 w.toList = some secret) :
    Importable curve hash160 (CBitcoinSecret.getKey secret) := by
  intro hpos
  obtain ⟨payload, rfl, hformat, hbytes⟩ := (setString_eq_some h).mp hsecret
  have hdecode := (wifDecode_eq_ok h).mpr ⟨payload, hformat, hbytes, rfl, hpos⟩
  obtain ⟨secret', hsecret', hvalid⟩ := hagrees.succeeds.mp ⟨_, hdecode⟩
  obtain rfl := Option.some.inj (hsecret.symm.trans hsecret')
  have hrange := (getKey_of_format hformat).2.mp hvalid
  refine ⟨hrange.2, ?_⟩
  obtain ⟨point, hpoint⟩ := Option.isSome_iff_exists.mp (curve.isSome hrange.1 hrange.2)
  obtain ⟨account, haccount, haddress⟩ := fromWif_address hash160 hdecode hpoint "" 0 none
  obtain ⟨account', haccount', hnode⟩ := (hagrees.same _ _ hdecode hsecret hvalid).2 "" 0 none
  obtain rfl := Except.ok.inj (haccount.symm.trans haccount')
  rw [haddress, address_eq_iff hvalid hpoint] at hnode
  rw [or_iff_not_imp_left]
  intro hcompressed point' hpoint'
  obtain rfl := Option.some.inj (hpoint.symm.trans hpoint')
  rw [← hnode, Bool.eq_false_of_not_eq_true hcompressed]

theorem importAgrees_of_importable (h : ∀ c ∈ w.toList, Printable c)
    (hcond : ∀ secret, CBitcoinSecret.setString hash256 w.toList = some secret →
      Importable curve hash160 (CBitcoinSecret.getKey secret)) :
    ImportAgrees curve hash256 hash160 w := by
  refine ⟨⟨?_, ?_⟩, ?_⟩
  · rintro ⟨key, hdecode⟩
    obtain ⟨payload, hformat, hbytes, rfl, hpos⟩ := (wifDecode_eq_ok h).mp hdecode
    have hsecret := (setString_eq_some h).mpr ⟨payload, rfl, hformat, hbytes⟩
    exact ⟨_, hsecret, (getKey_of_format hformat).2.mpr ⟨hpos, (hcond _ hsecret hpos).1⟩⟩
  · rintro ⟨secret, hsecret, hvalid⟩
    obtain ⟨payload, rfl, hformat, hbytes⟩ := (setString_eq_some h).mp hsecret
    have hrange := (getKey_of_format hformat).2.mp hvalid
    exact ⟨_, (wifDecode_eq_ok h).mpr ⟨payload, hformat, hbytes, rfl, hrange.1⟩⟩
  · intro key secret hdecode hsecret hvalid
    obtain ⟨payload, rfl, hformat, hbytes⟩ := (setString_eq_some h).mp hsecret
    obtain ⟨hlen, hrange⟩ := getKey_of_format hformat
    replace hrange := hrange.mp hvalid
    have hkey := (wifDecode_eq_ok h).mpr ⟨payload, hformat, hbytes, rfl, hrange.1⟩
    obtain rfl := Except.ok.inj (hkey.symm.trans hdecode)
    refine ⟨?_, fun uuid now label => ?_⟩
    · have hround := beBytes_beNat (payload.take 32)
      rwa [hlen] at hround
    · obtain ⟨point, hpoint⟩ := Option.isSome_iff_exists.mp (curve.isSome hrange.1 hrange.2)
      obtain ⟨account, haccount, haddress⟩ := fromWif_address hash160 hdecode hpoint uuid
        now label
      refine ⟨account, haccount, ?_⟩
      rw [haddress, address_eq_iff hvalid hpoint]
      rcases (hcond _ hsecret hrange.1).2 with hcompressed | hsame
      · rw [hcompressed]
      · cases (CBitcoinSecret.getKey ⟨[128], payload⟩).fCompressed with
        | true => rfl
        | false => exact (hsame point hpoint).symm

/-- Both sides agree on a text exactly if its key, unless it is zero, is in range and is marked as
compressed. -/
theorem import_agrees_iff {w : String} (h : ∀ c ∈ w.toList, Printable c) :
    ImportAgrees curve hash256 hash160 w ↔
      ∀ secret, CBitcoinSecret.setString hash256 w.toList = some secret →
        Importable curve hash160 (CBitcoinSecret.getKey secret) :=
  ⟨fun hagrees _ hsecret => hagrees.importable h hsecret, importAgrees_of_importable h⟩

end

/-! ## The key one -/

/-- The generator for every key. -/
def generatorCurve : Curve where
  mul _ := some (0x79be667ef9dcbbac55a06295ce870b07029bfcdb2dce28d959f2815b16f81798,
    0x483ada7726a3c4655da4fbfc0e1108a8fd17b448a68554199c47d08ffb10d4b8)
  lt h := by
    cases h
    exact ⟨by decide, by decide⟩
  isSome _ _ := rfl

/-- The first bytes in place of a hash. -/
def firstBytes (vch : Bytes) : Uint160 :=
  ⟨(vch ++ List.replicate 20 0).take 20, by simp⟩

def zeroHash (_ : Bytes) : Uint256 := 0

/-- The key one, not marked as compressed. -/
def uncompressedWif : String := String.ofList (WifCodec.encode zeroHash 1 false)

/-- The order of the group as a key. -/
def orderWif : String := String.ofList (WifCodec.encode zeroHash secp256k1Order true)

/-- The key one, marked as compressed. -/
def compressedWif : String := String.ofList (WifCodec.encode zeroHash 1 true)

theorem wif_not_agrees : ¬ ImportAgrees generatorCurve zeroHash firstBytes uncompressedWif ∧
    ¬ ImportAgrees generatorCurve zeroHash firstBytes orderWif := by
  refine ⟨fun h => ?_, fun h => ?_⟩
  · have hprintable : ∀ c ∈ uncompressedWif.toList, Printable c :=
      fun c hc => of_decide_eq_true (List.all_eq_true.mp (by decide +kernel :
        uncompressedWif.toList.all (fun c => decide (Printable c)) = true) c hc)
    have hsecret : CBitcoinSecret.setString zeroHash uncompressedWif.toList =
        some ⟨[128], beBytes 32 1⟩ := by
      decide +kernel
    obtain ⟨-, hmark | hsame⟩ := h.importable hprintable hsecret (by decide +kernel)
    · exact absurd hmark (by decide +kernel)
    · have := hsame _ rfl
      revert this
      decide +kernel
  · have hprintable : ∀ c ∈ orderWif.toList, Printable c :=
      fun c hc => of_decide_eq_true (List.all_eq_true.mp (by decide +kernel :
        orderWif.toList.all (fun c => decide (Printable c)) = true) c hc)
    have hsecret : CBitcoinSecret.setString zeroHash orderWif.toList =
        some ⟨[128], beBytes 32 secp256k1Order ++ [1]⟩ := by
      decide +kernel
    have hrange := (h.importable hprintable hsecret (by decide +kernel)).1
    revert hrange
    decide +kernel

theorem compressedWif_agrees : ImportAgrees generatorCurve zeroHash firstBytes compressedWif := by
  have hprintable : ∀ c ∈ compressedWif.toList, Printable c :=
    fun c hc => of_decide_eq_true (List.all_eq_true.mp (by decide +kernel :
      compressedWif.toList.all (fun c => decide (Printable c)) = true) c hc)
  have hsecret : CBitcoinSecret.setString zeroHash compressedWif.toList =
      some ⟨[128], beBytes 32 1 ++ [1]⟩ := by
    decide +kernel
  refine (import_agrees_iff hprintable).mpr fun secret hsome _ => ?_
  obtain rfl := Option.some.inj (hsecret.symm.trans hsome)
  exact ⟨by decide +kernel, .inl (by decide +kernel)⟩

end JavaWallet

end X2XCoin
