import X2XCoin.Address.Base58
import X2XCoin.Script.Script

/-!
# Destinations

`ExtractDestination` and `ExtractDestinations` of `script/standard.cpp`, the legacy address format of
`base58.cpp` for the main network, and the part of `ScriptPubKeyToJSON` that a client reads.  Hashes
are parameters, and a `uint160` is its 20 bytes.
-/

open ByteCodec

namespace X2XCoin

abbrev Uint160 := {b : Bytes // b.length = 20}

inductive CTxDestination where
  | noDestination
  | keyID (id : Uint160)
  | scriptID (id : Uint160)
  deriving DecidableEq

/-! ## Public keys -/

namespace CPubKey

/-- `GetLen`: the length that the first byte announces, or zero. -/
def getLen (chHeader : UInt8) : ℕ :=
  if chHeader = 2 ∨ chHeader = 3 then 33
  else if chHeader = 4 ∨ chHeader = 6 ∨ chHeader = 7 then 65
  else 0

/-- `IsValid` of the key that `Set` makes of the bytes. -/
def isValid : Bytes → Bool
  | [] => false
  | header :: rest => getLen header ≠ 0 && getLen header = rest.length + 1

end CPubKey

/-! ## Destinations of a script -/

section

variable (hash160 : Bytes → Uint160)

/-- The conversion of a solution to `uint160`, which asserts its length. -/
def toUint160 (vch : Bytes) : Option Uint160 :=
  if h : vch.length = 20 then some ⟨vch, h⟩ else none

def extractDestination (scriptPubKey : CScript) : Option CTxDestination :=
  match solver scriptPubKey with
  | some (.pubkey, vSolutions) =>
    let pubKey := vSolutions.headD []
    if !CPubKey.isValid pubKey then none else some (.keyID (hash160 pubKey))
  | some (.pubkeyhash, vSolutions) => (toUint160 (vSolutions.headD [])).map .keyID
  | some (.scripthash, vSolutions) => (toUint160 (vSolutions.headD [])).map .scriptID
  | _ => none

/-- `ExtractDestinations`: the destinations and the number of signatures that are required. -/
def extractDestinations (scriptPubKey : CScript) : Option (List CTxDestination × ℕ) :=
  match solver scriptPubKey with
  | none => none
  | some (.nullData, _) => none
  | some (.multisig, vSolutions) =>
    let nRequired := ((vSolutions.headD []).headD 0).toNat
    let keys := (vSolutions.tail.dropLast).filter CPubKey.isValid
    if keys.isEmpty then none else some (keys.map fun pubKey => .keyID (hash160 pubKey), nRequired)
  | some _ => (extractDestination hash160 scriptPubKey).map fun address => ([address], 1)

end

/-! ## Addresses -/

/-- `base58Prefixes[PUBKEY_ADDRESS]`. -/
def PUBKEY_ADDRESS : Bytes := [3]

/-- `base58Prefixes[SCRIPT_ADDRESS]`. -/
def SCRIPT_ADDRESS : Bytes := [90]

/-- `base58Prefixes[SECRET_KEY]`. -/
def SECRET_KEY : Bytes := [128]

section

variable (hash256 : Bytes → Uint256) (hash160 : Bytes → Uint160)

def encodeLegacyAddr : CTxDestination → Option (List Char)
  | .noDestination => some []
  | .keyID id => encodeBase58Check hash256 (PUBKEY_ADDRESS ++ id)
  | .scriptID id => encodeBase58Check hash256 (SCRIPT_ADDRESS ++ id)

/-- The members of the object that describes an output script. -/
structure ScriptPubKeyJson where
  hex : Option String
  addresses : Option (List String)
  deriving DecidableEq

end

/-- The text of the payload of an address and its checksum. -/
def legacyText (hash256 : Bytes → Uint256) (vch : Bytes) : List Char :=
  base58Text (vch ++ checksum hash256 vch)

theorem encodeLegacyAddr_keyID (hash256 : Bytes → Uint256) (id : Uint160) :
    encodeLegacyAddr hash256 (.keyID id) = some (legacyText hash256 (3 :: id)) :=
  encodeBase58Check_eq ..

end X2XCoin
