import X2XCoin.Lib.Bytes

/-!
# Amounts and transactions

The data of `amount.h`, `serialize.h` (writing side) and `primitives/transaction.{h,cpp}`.  Amounts
are 64-bit signed integers that wrap and identifiers are 256-bit words.  `Crypto` collects what the
node takes from hash functions and the signature checker.
-/

open ByteCodec

namespace X2XCoin

/-- 256-bit words: block hashes, transaction ids and targets. -/
abbrev Uint256 := BitVec 256

instance (hash : Uint256) (hashes : List Uint256) : Decidable (hash ∈ hashes) :=
  List.instDecidableMemOfLawfulBEq hash hashes

/-- Amount in satoshis. -/
abbrev CAmount := Int64

def COIN : CAmount := 100000000

def CENT : CAmount := 1000000

/-- No amount larger than this is valid. -/
def MAX_MONEY : CAmount := 9223372036854775807

/-- `MoneyRange`: the amount is between zero and `MAX_MONEY`. -/
def moneyRange (nValue : CAmount) : Bool :=
  decide (0 ≤ nValue) && decide (nValue ≤ MAX_MONEY)

/-- Serialised scripts. -/
abbrev CScript := Bytes

def OP_RETURN : UInt8 := 0x6a

/-! ## Writing -/

/-- The number of bytes needed for a size, and the bytes themselves. -/
def writeCompactSize (nSize : ℕ) : Bytes :=
  if nSize < 253 then leBytes 1 nSize
  else if nSize ≤ 0xffff then 253 :: leBytes 2 nSize
  else if nSize ≤ 0xffffffff then 254 :: leBytes 4 nSize
  else 255 :: leBytes 8 nSize

/-- A vector is its size followed by its elements. -/
def writeVector {α : Type} (write : α → Bytes) (v : List α) : Bytes :=
  writeCompactSize v.length ++ v.flatMap write

/-- Byte strings and scripts are their size followed by their bytes. -/
def writeBytes (v : Bytes) : Bytes :=
  writeCompactSize v.length ++ v

def writeUint256 (x : Uint256) : Bytes := leBytes 32 x.toNat

/-! ## Inputs and outputs -/

/-- An outpoint: a transaction id and an index into its outputs. -/
structure COutPoint where
  hash : Uint256
  n : UInt32
  deriving DecidableEq, Repr

namespace COutPoint

/-- The outpoint a default constructed `COutPoint` holds. -/
def null : COutPoint := ⟨0, 0xffffffff⟩

def isNull (o : COutPoint) : Bool := o.hash = 0 && o.n = 0xffffffff

def serialize (o : COutPoint) : Bytes := writeUint256 o.hash ++ leBytes 4 o.n.toNat

end COutPoint

/-- An input: the output it spends, the script that claims it, and a sequence number. -/
structure CTxIn where
  prevout : COutPoint
  scriptSig : CScript
  nSequence : UInt32
  deriving DecidableEq, Repr

def CTxIn.serialize (i : CTxIn) : Bytes :=
  i.prevout.serialize ++ writeBytes i.scriptSig ++ leBytes 4 i.nSequence.toNat

/-- An output: an amount and the conditions for spending it. -/
structure CTxOut where
  nValue : CAmount
  scriptPubKey : CScript
  deriving DecidableEq, Repr

namespace CTxOut

/-- What `SetNull` leaves, also the default constructed output. -/
def null : CTxOut := ⟨-1, []⟩

def isNull (o : CTxOut) : Bool := o.nValue = -1

/-- The marker output of a coinstake: no value and no script. -/
def isEmpty (o : CTxOut) : Bool := o.nValue = 0 && o.scriptPubKey.isEmpty

/-- Whether the output is provably unspendable: empty, or starting with `OP_RETURN`. -/
def isUnspendable (o : CTxOut) : Bool :=
  o.isEmpty || o.scriptPubKey.head? = some OP_RETURN

def serialize (o : CTxOut) : Bytes :=
  leBytes 8 o.nValue.toUInt64.toNat ++ writeBytes o.scriptPubKey

end CTxOut

/-! ## Transactions -/

/-- A transaction. -/
structure CTransaction where
  nVersion : Int32
  nTime : UInt32
  vin : List CTxIn
  vout : List CTxOut
  nLockTime : UInt32
  deriving DecidableEq, Repr

/-- What the node takes from the hash functions, the signature checker and the script interpreter:
double SHA-256, the scrypt hash of a header, the test of a signature under a public key, the test
that a signature is in its low form, and the evaluation of an input's script pair under a set of
flags, with the text of the script error when it fails. -/
structure Crypto where
  hash256 : Bytes → Uint256
  scrypt : Bytes → Uint256
  verify : Bytes → Uint256 → Bytes → Bool
  checkLowS : Bytes → Bool
  verifyScript : CScript → CScript → UInt32 → CTransaction → ℕ → Except String Unit

namespace CTransaction

def serialize (tx : CTransaction) : Bytes :=
  leBytes 4 tx.nVersion.toUInt32.toNat ++ leBytes 4 tx.nTime.toNat ++
    writeVector CTxIn.serialize tx.vin ++ writeVector CTxOut.serialize tx.vout ++
    leBytes 4 tx.nLockTime.toNat

/-- The transaction id. -/
def getHash (crypto : Crypto) (tx : CTransaction) : Uint256 := crypto.hash256 tx.serialize

def isCoinBase (tx : CTransaction) : Bool :=
  match tx.vin with
  | [i] => i.prevout.isNull
  | _ => false

/-- The coinstake is marked by an empty first output. -/
def isCoinStake (tx : CTransaction) : Bool :=
  match tx.vin, tx.vout with
  | i :: _, o :: _ :: _ => !i.prevout.isNull && o.isEmpty
  | _, _ => false

/-- One step of the loop of `GetValueOut`: add an output to the running sum, and fail (the source
throws) when the output or the sum is out of range. -/
def addValueOut (nValueOut : CAmount) (out : CTxOut) : Option CAmount :=
  let nValueOut := nValueOut + out.nValue
  if !moneyRange out.nValue || !moneyRange nValueOut then none else some nValueOut

/-- The sum of the outputs, or `none` where the source throws "value out of range". -/
def getValueOut (tx : CTransaction) : Option CAmount :=
  tx.vout.foldlM addValueOut 0

end CTransaction

end X2XCoin
