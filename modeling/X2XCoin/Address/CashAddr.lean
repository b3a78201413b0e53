import X2XCoin.Lib.Radix
import X2XCoin.Lib.ShiftRegister
import X2XCoin.Primitives.Transaction

/-!
# The cashaddr encoding

`cashaddr.cpp`: `PolyMod`, the checksum, `Encode` and `Decode`.
-/

open ByteCodec

namespace X2XCoin

namespace CashAddr

def CHARSET : Bytes := [
  113, 112, 122, 114, 121, 57, 120, 56, 103, 102, 50, 116, 118, 100, 119, 48, 115, 51, 106, 110,
  53, 52, 107, 104, 99, 101, 54, 109, 117, 97, 55, 108]

def CHARSET_REV : List ℤ := [
  -1, -1, -1, -1, -1, -1, -1, -1, -1, -1, -1, -1, -1, -1, -1, -1, -1, -1, -1, -1, -1, -1, -1, -1,
  -1, -1, -1, -1, -1, -1, -1, -1, -1, -1, -1, -1, -1, -1, -1, -1, -1, -1, -1, -1, -1, -1, -1, -1,
  15, -1, 10, 17, 21, 20, 26, 30, 7, 5, -1, -1, -1, -1, -1, -1, -1, 29, -1, 24, 13, 25, 9, 8, 23,
  -1, 18, 22, 31, 27, 19, -1, 1, 0, 3, 16, 11, 28, 12, 14, 6, 4, 2, -1, -1, -1, -1, -1, -1, 29,
  -1, 24, 13, 25, 9, 8, 23, -1, 18, 22, 31, 27, 19, -1, 1, 0, 3, 16, 11, 28, 12, 14, 6, 4, 2, -1,
  -1, -1, -1, -1]

/-- One turn of the loop of `PolyMod`. -/
def polyModStep (c : BitVec 64) (d : UInt8) : BitVec 64 :=
  let c0 : BitVec 8 := (c >>> 35).setWidth 8
  let c := ((c &&& 0x07ffffffff) <<< 5) ^^^ d.toBitVec.setWidth 64
  let c := if c0 &&& 0x01 ≠ 0 then c ^^^ 0x98f2bc8e61 else c
  let c := if c0 &&& 0x02 ≠ 0 then c ^^^ 0x79b76d99e2 else c
  let c := if c0 &&& 0x04 ≠ 0 then c ^^^ 0xf33e5fb3c4 else c
  let c := if c0 &&& 0x08 ≠ 0 then c ^^^ 0xae2eabe2a8 else c
  if c0 &&& 0x10 ≠ 0 then c ^^^ 0x1e4f43e470 else c

def polyMod (v : Bytes) : BitVec 64 := v.foldl polyModStep 1

def lowerCase (c : UInt8) : UInt8 := c ||| 0x20

def expandPrefix (pre : Bytes) : Bytes := pre.map (· &&& 0x1f) ++ [0]

def verifyChecksum (pre values : Bytes) : Bool := polyMod (expandPrefix pre ++ values) = 1

def createChecksum (pre values : Bytes) : Bytes :=
  let mod := polyMod (expandPrefix pre ++ values ++ List.replicate 8 0) ^^^ 1
  [0, 1, 2, 3, 4, 5, 6, 7].map fun i => ⟨((mod >>> (5 * (7 - i))) &&& 0x1f).setWidth 8⟩

/-- `Encode`; the separator is a colon. -/
def encode (pre values : Bytes) : Bytes :=
  pre ++ [58] ++ (values ++ createChecksum pre values).map fun c => CHARSET.getD c.toNat 0

/-! ## `Decode` -/

def isLower (c : UInt8) : Bool := 97 ≤ c && c ≤ 122

def isUpper (c : UInt8) : Bool := 65 ≤ c && c ≤ 90

def isNumber (c : UInt8) : Bool := 48 ≤ c && c ≤ 57

/-- The variables of the first loop. -/
structure Scan where
  lower : Bool := false
  upper : Bool := false
  hasNumber : Bool := false
  prefixSize : ℕ := 0

/-- The first loop, from the character at `i` on. -/
def scan : (i : ℕ) → Scan → Bytes → Option Scan
  | _, s, [] => some s
  | i, s, c :: str =>
    if isLower c then scan (i + 1) { s with lower := true } str
    else if isUpper c then scan (i + 1) { s with upper := true } str
    else if isNumber c then scan (i + 1) { s with hasNumber := true } str
    else if c = 58 then
      if s.hasNumber || i = 0 || s.prefixSize ≠ 0 then none
      else scan (i + 1) { s with prefixSize := i } str
    else none

/-- The symbol of a character. -/
def symbol (c : UInt8) : Option UInt8 :=
  if c > 127 then none
  else
    let v := CHARSET_REV.getD c.toNat (-1)
    if v = -1 then none else some (UInt8.ofNat v.toNat)

/-- The prefix and the symbols of a text, before the checksum is verified. -/
def decodeSymbols (str defaultPrefix : Bytes) : Option (Bytes × Bytes) := do
  let s ← scan 0 {} str
  if s.upper && s.lower then none
  else
    let pre := if s.prefixSize = 0 then defaultPrefix else (str.take s.prefixSize).map lowerCase
    let prefixSize := if s.prefixSize = 0 then 0 else s.prefixSize + 1
    let values ← (str.drop prefixSize).mapM symbol
    pure (pre, values)

inductive Decoded where
  /-- The empty result. -/
  | nothing
  | pair (pre payload : Bytes)
  /-- The range from `values.begin()` to `values.end() - 8` is none. -/
  | badRange
  deriving DecidableEq

def decode (str defaultPrefix : Bytes) : Decoded :=
  match decodeSymbols str defaultPrefix with
  | none => .nothing
  | some (pre, values) =>
    if !verifyChecksum pre values then .nothing
    else if values.length < 8 then .badRange
    else .pair pre (values.take (values.length - 8))

end CashAddr

end X2XCoin
