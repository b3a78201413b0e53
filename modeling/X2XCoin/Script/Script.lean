import X2XCoin.Primitives.Block

/-!
# Scripts

The parts of `script/script.{h,cpp}` and `script/standard.cpp` that block validation reads.
`CScript.ops` runs `GetOp` to the end of the script; the scanning loops of the source are folds over
its result.
-/

open ByteCodec

namespace X2XCoin

def OP_0 : UInt8 := 0x00
def OP_PUSHDATA1 : UInt8 := 0x4c
def OP_PUSHDATA2 : UInt8 := 0x4d
def OP_PUSHDATA4 : UInt8 := 0x4e
def OP_1 : UInt8 := 0x51
def OP_16 : UInt8 := 0x60
def OP_DUP : UInt8 := 0x76
def OP_EQUAL : UInt8 := 0x87
def OP_EQUALVERIFY : UInt8 := 0x88
def OP_HASH160 : UInt8 := 0xa9
def OP_CHECKSIG : UInt8 := 0xac
def OP_CHECKSIGVERIFY : UInt8 := 0xad
def OP_CHECKMULTISIG : UInt8 := 0xae
def OP_CHECKMULTISIGVERIFY : UInt8 := 0xaf
def OP_SMALLINTEGER : UInt8 := 0xfa
def OP_PUBKEYS : UInt8 := 0xfb
def OP_PUBKEYHASH : UInt8 := 0xfd
def OP_PUBKEY : UInt8 := 0xfe
def OP_INVALIDOPCODE : UInt8 := 0xff

def MAX_PUBKEYS_PER_MULTISIG : ℕ := 20

/-- Maximum script length in bytes. -/
def MAX_SCRIPT_SIZE : ℕ := 10000

namespace CScript

/-- Take `nSize` bytes of immediate operand off the front. -/
def takePush (nSize : ℕ) (s : Bytes) : Option (Bytes × Bytes) :=
  if s.length < nSize then none else some (s.take nSize, s.drop nSize)

/-- Take a `k`-byte little-endian operand size and then the operand off the front. -/
def takeSizedPush (k : ℕ) (s : Bytes) : Option (Bytes × Bytes) :=
  if s.length < k then none else takePush (leNat (s.take k)) (s.drop k)

/-- `GetOp`: the next opcode, its immediate operand and the rest of the script. -/
def getOp : CScript → Option (UInt8 × Bytes × CScript)
  | [] => none
  | opcode :: s =>
    let pushed :=
      if opcode < OP_PUSHDATA1 then takePush opcode.toNat s
      else if opcode = OP_PUSHDATA1 then takeSizedPush 1 s
      else if opcode = OP_PUSHDATA2 then takeSizedPush 2 s
      else if opcode = OP_PUSHDATA4 then takeSizedPush 4 s
      else some ([], s)
    pushed.map fun (vch, rest) => (opcode, vch, rest)

theorem takePush_length_le {n : ℕ} {s d r : Bytes} (h : takePush n s = some (d, r)) :
    r.length ≤ s.length := by
  unfold takePush at h
  split_ifs at h
  obtain ⟨-, rfl⟩ := by simpa using h
  simp

theorem takeSizedPush_length_le {k : ℕ} {s d r : Bytes} (h : takeSizedPush k s = some (d, r)) :
    r.length ≤ s.length := by
  unfold takeSizedPush at h
  split_ifs at h
  exact (takePush_length_le h).trans (by simp)

/-- Every operation takes at least its opcode off the script. -/
theorem getOp_length_lt {s r : CScript} {op : UInt8} {d : Bytes}
    (h : getOp s = some (op, d, r)) : r.length < s.length := by
  cases s with
  | nil => simp [getOp] at h
  | cons opcode s =>
    simp only [getOp, Option.map_eq_some_iff, Prod.exists, Prod.mk.injEq] at h
    obtain ⟨d', r', hp, -, -, rfl⟩ := h
    refine Nat.lt_succ_of_le ?_
    split_ifs at hp
    · exact takePush_length_le hp
    · exact takeSizedPush_length_le hp
    · exact takeSizedPush_length_le hp
    · exact takeSizedPush_length_le hp
    · obtain ⟨-, rfl⟩ := by simpa using hp
      exact le_rfl

/-- The operations of a script up to the first that cannot be read, and whether all could be. -/
def opsFuel : ℕ → CScript → List (UInt8 × Bytes) × Bool
  | _, [] => ([], true)
  | 0, _ :: _ => ([], false)
  | fuel + 1, s@(_ :: _) =>
    match getOp s with
    | none => ([], false)
    | some (op, vch, rest) =>
      let (l, ok) := opsFuel fuel rest
      ((op, vch) :: l, ok)

/-- The operations of a script; its length is fuel enough, as every operation has a byte. -/
def ops (s : CScript) : List (UInt8 × Bytes) × Bool := opsFuel s.length s

theorem opsFuel_eq_ops {fuel : ℕ} {s : CScript} (h : s.length ≤ fuel) :
    opsFuel fuel s = s.ops := by
  suffices ∀ (n m : ℕ) (s : CScript), s.length ≤ n → s.length ≤ m → opsFuel n s = opsFuel m s from
    this _ _ _ h le_rfl
  intro n
  induction n with
  | zero =>
    intro m s hn _
    obtain rfl := List.length_eq_zero_iff.mp (Nat.le_zero.mp hn)
    simp [opsFuel]
  | succ n ih =>
    intro m s hn hm
    cases s with
    | nil => simp [opsFuel]
    | cons b s =>
      obtain ⟨m, rfl⟩ : ∃ k, m = k + 1 := ⟨m - 1, by simp at hm; omega⟩
      simp only [opsFuel]
      split
      · rfl
      · next op vch rest hop =>
        have := getOp_length_lt hop
        rw [ih m rest (by omega) (by omega)]

/-! ## Signature operations -/

/-- `DecodeOP_N` on `OP_0` and `OP_1` to `OP_16`. -/
def decodeOPN (opcode : UInt8) : ℕ :=
  if opcode = OP_0 then 0 else opcode.toNat - (OP_1.toNat - 1)

/-- What one operation adds to the count, given the operation before it. -/
def sigOps (fAccurate : Bool) (lastOpcode opcode : UInt8) : ℕ :=
  if opcode = OP_CHECKSIG ∨ opcode = OP_CHECKSIGVERIFY then 1
  else if opcode = OP_CHECKMULTISIG ∨ opcode = OP_CHECKMULTISIGVERIFY then
    if fAccurate ∧ OP_1 ≤ lastOpcode ∧ lastOpcode ≤ OP_16 then decodeOPN lastOpcode
    else MAX_PUBKEYS_PER_MULTISIG
  else 0

def getSigOpCount (s : CScript) (fAccurate : Bool) : ℕ :=
  (s.ops.1.foldl
    (fun (n, lastOpcode) (opcode, _) => (n + sigOps fAccurate lastOpcode opcode, opcode))
    (0, OP_INVALIDOPCODE)).1

def isPayToScriptHash (s : CScript) : Bool :=
  s.length = 23 && s[0]? = some OP_HASH160 && s[1]? = some 0x14 && s[22]? = some OP_EQUAL

/-- `IsPushOnly`: the script can be read to its end and only pushes. -/
def isPushOnly (s : CScript) : Bool :=
  s.ops.2 && s.ops.1.all fun (opcode, _) => opcode ≤ OP_16

/-- `GetSigOpCount(scriptSig)`: for pay-to-script-hash, count the script that `scriptSig` pushes
last. -/
def getSigOpCountP2SH (s scriptSig : CScript) : ℕ :=
  if !isPayToScriptHash s then s.getSigOpCount true
  else if !isPushOnly scriptSig then 0
  else
    let data := (scriptSig.ops.1.getLast?.map (·.2)).getD []
    getSigOpCount data true

end CScript

/-! ## Standard scripts -/

/-- `txnouttype`. -/
inductive TxnOutType where
  | nonstandard | pubkey | pubkeyhash | scripthash | multisig | nullData
  deriving DecidableEq, Repr

/-- The templates of `Solver`, in the order in which the `multimap` holds them. -/
def mTemplates : List (TxnOutType × List UInt8) :=
  [(.pubkey, [OP_PUBKEY, OP_CHECKSIG]),
   (.pubkeyhash, [OP_DUP, OP_HASH160, OP_PUBKEYHASH, OP_EQUALVERIFY, OP_CHECKSIG]),
   (.multisig, [OP_SMALLINTEGER, OP_PUBKEYS, OP_SMALLINTEGER, OP_CHECKMULTISIG])]

/-- Compare one operation of the script with one of the template, returning what it adds to the
solutions. -/
def matchOp (opcode2 opcode1 : UInt8) (vch1 : Bytes) : Option (List Bytes) :=
  if opcode2 = OP_PUBKEY then
    if vch1.length < 33 ∨ vch1.length > 65 then none else some [vch1]
  else if opcode2 = OP_PUBKEYHASH then
    if vch1.length ≠ 20 then none else some [vch1]
  else if opcode2 = OP_SMALLINTEGER then
    if opcode1 = OP_0 ∨ OP_1 ≤ opcode1 ∧ opcode1 ≤ OP_16 then
      some [[UInt8.ofNat (CScript.decodeOPN opcode1)]]
    else none
  else if opcode1 ≠ opcode2 ∨ vch1 ≠ [] then none
  else some []

/-- The loop of `Solver` over one template.  `OP_PUBKEYS` takes every following key-sized push and
leaves the operation after them to the next template operation. -/
def matchTemplate : List UInt8 → List (UInt8 × Bytes) → Option (List Bytes)
  | [], [] => some []
  | [], _ :: _ => none
  | _ :: _, [] => none
  | opcode2 :: tpl, script@((opcode1, vch1) :: rest) =>
    if opcode2 = OP_PUBKEYS then
      let keys := (script.takeWhile fun o => 33 ≤ o.2.length ∧ o.2.length ≤ 65).map (·.2)
      (matchTemplate tpl (script.drop keys.length)).map (keys ++ ·)
    else do
      let sol ← matchOp opcode2 opcode1 vch1
      (matchTemplate tpl rest).map (sol ++ ·)

/-- The additional test on a multisig match. -/
def multisigOk (vSolutions : List Bytes) : Bool :=
  match vSolutions.head?.bind List.head?, vSolutions.getLast?.bind List.head? with
  | some m, some n => !(m < 1 || n < 1 || m > n || vSolutions.length - 2 ≠ n.toNat)
  | _, _ => false

/-- `Solver`: the type and the solutions of a standard output script, `none` where it returns
`false`. -/
def solver (scriptPubKey : CScript) : Option (TxnOutType × List Bytes) :=
  if scriptPubKey.isPayToScriptHash then
    some (.scripthash, [(scriptPubKey.drop 2).take 20])
  else if scriptPubKey.head? = some OP_RETURN ∧ CScript.isPushOnly scriptPubKey.tail then
    some (.nullData, [])
  else if !scriptPubKey.ops.2 then none
  else
    match mTemplates.findSome? fun (t, tpl) =>
        (matchTemplate tpl scriptPubKey.ops.1).map fun sol => (t, sol) with
    | none => none
    | some (t, sol) => if t = .multisig ∧ !multisigOk sol then none else some (t, sol)

def isCompressedOrUncompressedPubKey (vchPubKey : Bytes) : Bool :=
  if vchPubKey.length < 33 then false
  else if vchPubKey.head? = some 0x04 then vchPubKey.length = 65
  else if vchPubKey.head? = some 0x02 ∨ vchPubKey.head? = some 0x03 then vchPubKey.length = 33
  else false

end X2XCoin
