import X2XCoin.Address.Base58
import X2XCoin.JavaWallet.Signature

/-!
# Base58 in the Java wallet

`Base58.java`, `AddressCodec.java` and the address test of `NetworkParameters.java`.  The texts are
lists of characters, and a function that throws returns the message.
-/

open ByteCodec

namespace X2XCoin

namespace JavaWallet

namespace Base58

def ALPHABET : List Char := "123456789ABCDEFGHJKLMNPQRSTUVWXYZabcdefghijkmnopqrstuvwxyz".toList

/-- `Base58.encode`: the remainders of the division by 58, the ones, and all of it reversed. -/
def encode (input : Bytes) : List Char :=
  let encoded := (Nat.digits 58 (beNat input)).map fun d => ALPHABET.getD d '1'
  (encoded ++ (input.takeWhile (· = 0)).map fun _ => '1').reverse

/-- The loop of `Base58.decode` over the characters. -/
def decodeValue : ℕ → List Char → Except String ℕ
  | value, [] => .ok value
  | value, c :: input =>
    match ALPHABET.idxOf? c with
    | none => .error "invalid base58 character"
    | some index => decodeValue (value * 58 + index) input

/-- `toByteArray` without the zero of the sign. -/
def magnitude (value : ℕ) : Bytes :=
  let bytes := toByteArray value
  if bytes.head? = some 0 then bytes.tail else bytes

/-- `Base58.decode`. -/
def decode (input : List Char) : Except String Bytes := do
  let value ← decodeValue 0 input
  pure (List.replicate (input.takeWhile (· = '1')).length 0 ++ magnitude value)

section

variable (hash256 : Bytes → Uint256)

/-- `Base58.encodeCheck`. -/
def encodeCheck (version : UInt8) (payload : Bytes) : List Char :=
  let body := version :: payload
  encode (body ++ checksum hash256 body)

/-- `Base58.decodeCheck`: the version and the payload. -/
def decodeCheck (input : List Char) : Except String (UInt8 × Bytes) := do
  let decoded ← decode input
  if decoded.length < 5 then .error "invalid base58check payload"
  else
    let body := decoded.take (decoded.length - 4)
    if decoded.drop (decoded.length - 4) ≠ checksum hash256 body then
      .error "invalid base58 checksum"
    else pure (body.headD 0, body.tail)

end

/-! ## The same as the node -/

theorem alphabet_eq : ALPHABET = pszBase58 := rfl

theorem leNat_eq_ofDigits (b : Bytes) : leNat b = Nat.ofDigits 256 (b.map UInt8.toNat) := by
  induction b with
  | nil => rfl
  | cons x b ih => rw [leNat, List.map_cons, Nat.ofDigits_cons, ih]

theorem beNat_eq_horner (b : Bytes) : beNat b = Radix.horner 256 (b.map UInt8.toNat) := by
  rw [beNat, leNat_eq_ofDigits, Radix.horner_eq, List.map_reverse]

theorem encode_eq (input : Bytes) : encode input = base58Text input := by
  have hone : base58Char 0 = '1' := rfl
  rw [encode, List.reverse_append, beNat_eq_horner, ← List.map_reverse, base58Text, Radix.transcode,
    List.map_append, (zeros_map_toNat input).1, List.map_replicate, hone, List.map_const',
    List.length_reverse, ← List.map_reverse]
  rfl

theorem decodeValue_eq (value : ℕ) (input : List Char) : (decodeValue value input).toOption =
    (input.mapM base58Digit).map fun digits => digits.foldl (fun n d => n * 58 + d) value := by
  induction input generalizing value with
  | nil => rfl
  | cons c input ih =>
    rw [decodeValue, alphabet_eq, List.mapM_cons]
    change (match base58Digit c with | none => _ | some index => _ : Except String ℕ).toOption = _
    cases base58Digit c with
    | none => rfl
    | some index =>
      simp only [ih, Option.bind_eq_bind, Option.bind_some, Option.pure_def]
      cases input.mapM base58Digit <;> rfl

theorem head_magnitude (value : ℕ) : (magnitude value).head? ≠ some 0 := by
  have hsize := Nat.lt_size_self value
  have hbyte : ∀ {n : ℕ}, 0 < n → n < 256 → UInt8.ofNat n ≠ 0 := fun h0 h hz => by
    have := congrArg UInt8.toNat hz
    rw [UInt8.toNat_ofNat', Nat.mod_eq_of_lt h] at this
    exact h0.ne' this
  have hpow : ∀ k, 256 ^ k = 2 ^ (8 * k) := fun k => by rw [pow_mul]; rfl
  rw [magnitude, toByteArray_eq]
  by_cases hlt : value < 256 ^ (value.size / 8)
  · rw [Nat.div_eq_of_lt hlt, List.head?_cons, if_pos (show some (UInt8.ofNat 0) = some 0 from rfl),
      List.tail_cons]
    cases hk : value.size / 8 with
    | zero => simp [beBytes, leBytes]
    | succ j =>
      -- the size is a multiple of eight, and the highest bit is the first of the next byte
      rw [hk, hpow] at hlt
      have heq : value.size = 8 * (j + 1) := by
        have := Nat.size_le.mpr hlt
        omega
      have hge : 2 ^ (8 * j) ≤ value := by
        by_contra hcon
        have := Nat.size_le.mpr (not_le.mp hcon)
        omega
      rw [beBytes_succ, List.head?_cons, ne_eq, Option.some.injEq]
      refine hbyte (Nat.div_pos (hpow j ▸ hge) (by positivity)) ?_
      rw [Nat.div_lt_iff_lt_mul (by positivity), ← pow_succ', hpow]
      exact hlt
  · have hhead := hbyte (Nat.div_pos (not_lt.mp hlt) (by positivity)) (by
      rw [Nat.div_lt_iff_lt_mul (by positivity), ← pow_succ', hpow]
      exact hsize.trans_le (Nat.pow_le_pow_right (by decide) (by omega)))
    rw [List.head?_cons, if_neg (by simpa using hhead), List.head?_cons]
    simpa using hhead

/-- Two's complement has at most one zero in front, and removing it leaves the digits. -/
theorem magnitude_eq (value : ℕ) :
    magnitude value = (Nat.digits 256 value).reverse.map UInt8.ofNat := by
  have hlt : value < 256 ^ (value.size / 8 + 1) := by
    calc value < 2 ^ value.size := Nat.lt_size_self value
      _ ≤ 2 ^ (8 * (value.size / 8 + 1)) := Nat.pow_le_pow_right (by decide) (by omega)
      _ = 256 ^ (value.size / 8 + 1) := by rw [pow_mul]; rfl
  have hbytes : beNat (toByteArray value) = value := beNat_beBytes hlt
  have hnum : beNat (magnitude value) = value := by
    rw [magnitude]
    split_ifs with hzero
    · obtain ⟨tail, htail⟩ := List.head?_eq_some_iff.mp hzero
      rw [htail, beNat_cons] at hbytes
      rw [htail, List.tail_cons]
      simpa using hbytes
    · exact hbytes
  have hhead := head_magnitude value
  have hhead' : ((magnitude value).map UInt8.toNat).dropWhile (· = 0) =
      (magnitude value).map UInt8.toNat := by
    cases hm : magnitude value with
    | nil => rfl
    | cons x rest =>
      rw [hm] at hhead
      rw [List.map_cons, List.dropWhile_cons_of_neg]
      simpa using fun h => hhead (congrArg some (UInt8.toNat_inj.mp h))
  have hdigits := Radix.dropWhile_eq_digits (b := 256) (by decide) (map_toNat_lt (magnitude value))
  rw [hhead', ← beNat_eq_horner, hnum] at hdigits
  rw [← hdigits, map_ofNat_toNat]

theorem decode_eq (input : List Char) : (decode input).toOption = base58Bytes input := by
  have hvalue := decodeValue_eq 0 input
  rw [base58Bytes]
  cases hdigits : input.mapM base58Digit with
  | none =>
    rw [hdigits, Option.map_none] at hvalue
    rw [decode]
    cases hdecode : decodeValue 0 input with
    | error _ => rfl
    | ok value =>
      rw [hdecode] at hvalue
      cases hvalue
  | some digits =>
    rw [hdigits, Option.map_some] at hvalue
    have hzeros : Radix.zeros digits = (input.takeWhile (· = '1')).length := by
      obtain ⟨hlt, hchar⟩ := digits_spec hdigits
      have hone : ∀ d ∈ digits, decide (base58Char d = '1') = decide (d = 0) := fun d hd => by
        rw [decide_eq_decide]
        exact (base58Digit_eq_zero_iff (base58Digit_char (hlt d hd))).symm
      rw [← hchar, (takeWhile_map_eq (p := (· = '1')) hone).1, List.length_map]
      rfl
    cases hdecode : decodeValue 0 input with
    | error _ =>
      rw [hdecode] at hvalue
      cases hvalue
    | ok value =>
      rw [hdecode] at hvalue
      obtain rfl : value = Radix.horner 58 digits := Option.some.inj hvalue
      rw [decode, hdecode, Option.map_some, Radix.transcode, List.map_append, List.map_replicate,
        hzeros, ← magnitude_eq]
      rfl

section

variable {hash256 : Bytes → Uint256}

theorem decodeCheck_eq_ok {input : List Char} {version : UInt8} {payload : Bytes} :
    decodeCheck hash256 input = .ok (version, payload) ↔ base58Bytes input =
      some (version :: payload ++ checksum hash256 (version :: payload)) := by
  rw [← decode_eq, decodeCheck]
  cases decode input with
  | error _ => exact iff_of_false (fun h => nomatch h) (fun h => nomatch h)
  | ok decoded =>
    simp only [bind, Except.bind, pure, Except.pure, Except.toOption, Option.some.injEq,
      eq_append_checksum_iff]
    split_ifs with hlen hsum
    · refine iff_of_false (fun h => nomatch h) fun ⟨_, _, hbody⟩ => ?_
      have := congrArg List.length hbody
      rw [List.length_take, List.length_cons] at this
      omega
    · exact iff_of_false (fun h => nomatch h) fun h => hsum h.2.1.symm
    · have hbody : decoded.take (decoded.length - 4) ≠ [] := by
        rw [← List.length_pos_iff, List.length_take]
        omega
      obtain ⟨b, rest, heq⟩ := List.exists_cons_of_ne_nil hbody
      rw [heq] at hsum ⊢
      simp only [List.headD_cons, List.tail_cons, List.cons.injEq]
      constructor
      · intro h
        cases h
        exact ⟨by omega, (not_not.mp hsum).symm, rfl, rfl⟩
      · rintro ⟨-, -, rfl, rfl⟩
        rfl

theorem decodeCheck_encodeCheck (version : UInt8) (payload : Bytes) :
    decodeCheck hash256 (encodeCheck hash256 version payload) = .ok (version, payload) := by
  rw [decodeCheck_eq_ok, encodeCheck, encode_eq, base58Bytes_base58Text]

theorem eq_encodeCheck {input : List Char} {version : UInt8} {payload : Bytes}
    (h : decodeCheck hash256 input = .ok (version, payload)) :
    input = encodeCheck hash256 version payload := by
  rw [encodeCheck, encode_eq, base58Text_of_base58Bytes (decodeCheck_eq_ok.mp h)]

end

/-! ## Round trips -/

theorem decode_eq_ok {input : List Char} {b : Bytes} :
    decode input = .ok b ↔ base58Bytes input = some b := by
  rw [← decode_eq]
  cases decode input <;> simp [Except.toOption]

theorem decode_encode (b : Bytes) : decode (encode b) = .ok b := by
  rw [decode_eq_ok, encode_eq, base58Bytes_base58Text]

theorem exists_decode {input : List Char} (h : ∀ c ∈ input, c ∈ ALPHABET) :
    ∃ b, decode input = .ok b ∧ encode b = input := by
  obtain ⟨digits, hdigits⟩ : ∃ digits, input.mapM base58Digit = some digits := by
    refine ⟨input.map fun c => (base58Digit c).getD 0, mapM_eq_some_map fun c hc => ?_⟩
    obtain ⟨d, hd⟩ : ∃ d, base58Digit c = some d := by
      rw [← Option.isSome_iff_exists, base58Digit, List.isSome_idxOf?]
      exact h c hc
    rw [hd, Option.getD_some]
  have hbytes : base58Bytes input = some ((Radix.transcode 58 256 digits).map UInt8.ofNat) := by
    rw [base58Bytes, hdigits]
    rfl
  exact ⟨_, decode_eq_ok.mpr hbytes, (encode_eq _).trans (base58Text_of_base58Bytes hbytes)⟩

theorem decodeBase58_encode (b : Bytes) : decodeBase58 (encode b) = some b := by
  rw [encode_eq, decodeBase58_eq, base58Bytes_base58Text]
  intro c hc
  obtain ⟨d, hd, rfl⟩ := List.mem_map.mp hc
  exact base58Digit_not_space (base58Digit_char (Radix.transcode_lt (by decide) _ d hd))

/-- The codecs of the wallet are inverse to each other, with the checksum and without, and the node
writes and reads the same texts without running out of its buffers. -/
theorem codecs_agree (hash256 : Bytes → Uint256) :
    (∀ b, decode (encode b) = .ok b) ∧
      (∀ s : List Char, (∀ c ∈ s, c ∈ ALPHABET) → ∃ b, decode s = .ok b ∧ encode b = s) ∧
      (∀ version payload, decodeCheck hash256 (encodeCheck hash256 version payload) =
        .ok (version, payload)) ∧
      ∀ b : Bytes, b.length < 2 ^ 24 →
        encodeBase58 b = some (encode b) ∧ decodeBase58 (encode b) = some b := by
  refine ⟨decode_encode, fun s hs => exists_decode hs, decodeCheck_encodeCheck, fun b _ => ?_⟩
  exact ⟨by rw [encodeBase58_eq, encode_eq], decodeBase58_encode b⟩

theorem codecs_agree_zero :
    (∃ b, decode ['1', '2'] = .ok b ∧ encode b = ['1', '2']) ∧
      encodeBase58 [0, 1] = some (encode [0, 1]) ∧ decodeBase58 (encode [0, 1]) = some [0, 1] :=
  ⟨(codecs_agree fun _ => 0).2.1 ['1', '2'] (by simp [alphabet_eq, pszBase58_eq]),
    (codecs_agree fun _ => 0).2.2.2 [0, 1] (by decide)⟩

end Base58

/-! ## Addresses -/

namespace AddressCodec

def PUBKEY_ADDRESS_VERSION : UInt8 := 0x03
def ADDRESS_MIN_LENGTH : ℕ := 26
def ADDRESS_MAX_LENGTH : ℕ := 35

/-- `String.trim`. -/
def trimChars (s : List Char) : List Char :=
  ((s.dropWhile (· ≤ ' ')).reverse.dropWhile (· ≤ ' ')).reverse

/-- `NetworkParameters.isMainnetP2pkhAddress`. -/
def isMainnetP2pkhAddress (address : String) : Bool :=
  let trimmed := trimChars address.toList
  !(trimmed.length < ADDRESS_MIN_LENGTH || trimmed.length > ADDRESS_MAX_LENGTH) &&
    (trimmed ≠ [] && trimmed.all (· ∈ Base58.ALPHABET))

variable (hash256 : Bytes → Uint256)

/-- `AddressCodec.decodeHash160`. -/
def decodeHash160 (address : String) : Except String {hash : Bytes // hash.length = 20} := do
  let (version, payload) ← Base58.decodeCheck hash256 address.toList
  if version ≠ PUBKEY_ADDRESS_VERSION then .error "invalid 2x2Coin P2PKH address"
  else if h : payload.length = 20 then .ok ⟨payload, h⟩
  else .error "invalid address hash length"

/-- `AddressCodec.isValidP2pkh`. -/
def isValidP2pkh (address : String) : Bool :=
  match decodeHash160 hash256 address with
  | .error _ => false
  | .ok _ => isMainnetP2pkhAddress address

def addressOf (hash : Bytes) : String :=
  String.ofList (Base58.encodeCheck hash256 PUBKEY_ADDRESS_VERSION hash)

/-- `AddressCodec.fromPublicKey`. -/
def fromPublicKey (hash160 : Bytes → Bytes) (compressedPublicKey : Bytes) : String :=
  addressOf hash256 (hash160 compressedPublicKey)

variable {hash256}

/-- An address is the text of the hash that it is decoded to, and of no other. -/
theorem decodeHash160_eq_ok {address : String} {hash : {hash : Bytes // hash.length = 20}} :
    decodeHash160 hash256 address = .ok hash ↔ address = addressOf hash256 hash := by
  rw [decodeHash160]
  constructor
  · intro h
    cases hdecode : Base58.decodeCheck hash256 address.toList with
    | error _ =>
      rw [hdecode] at h
      cases h
    | ok decoded =>
      obtain ⟨version, payload⟩ := decoded
      rw [hdecode] at h
      simp only [bind, Except.bind] at h
      split_ifs at h with hversion hlen
      obtain rfl := Except.ok.inj h
      obtain rfl := not_not.mp hversion
      rw [addressOf, ← Base58.eq_encodeCheck hdecode, String.ofList_toList]
  · rintro rfl
    rw [addressOf, String.toList_ofList, Base58.decodeCheck_encodeCheck]
    simp only [bind, Except.bind, ne_eq, not_true_eq_false, if_false, dif_pos hash.2]

end AddressCodec

end JavaWallet

end X2XCoin
