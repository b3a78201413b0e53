import X2XCoin.Lib.Reader
import X2XCoin.Primitives.Transaction

/-!
# Reading sizes, vectors and transactions

The reading side of `serialize.h` for what the writing side in `Primitives/Transaction` covers.
-/

open ByteCodec

namespace X2XCoin

def MAX_SIZE : ℕ := 0x02000000

/-- The `k` bytes after a size marker; a value below `least` has a shorter form. -/
def readCanonical (k least : ℕ) : Reader ℕ := do
  let nSizeRet ← readLE k
  if nSizeRet < least then failure else pure nSizeRet

def readCompactSize : Reader ℕ := do
  let chSize ← readLE 1
  let nSizeRet ←
    if chSize < 253 then pure chSize
    else if chSize = 253 then readCanonical 2 253
    else if chSize = 254 then readCanonical 4 0x10000
    else readCanonical 8 0x100000000
  if nSizeRet > MAX_SIZE then failure else pure nSizeRet

/-- Read back what `writeVector` wrote. -/
def readVector {α : Type} (read : Reader α) : Reader (List α) := do
  let nSize ← readCompactSize
  readMany read nSize

theorem reads_readCanonical {k least n : ℕ} (h : n < 256 ^ k) (hleast : least ≤ n) :
    Reads (readCanonical k least) (leBytes k n) n :=
  (reads_readLE h).check (not_lt.mpr hleast)

theorem reads_readCompactSize {n : ℕ} (h : n ≤ MAX_SIZE) :
    Reads readCompactSize (writeCompactSize n) n := by
  have hmarker : ∀ m < 256, Reads (readLE 1) (leBytes 1 m) m := fun m hm => reads_readLE (by omega)
  have hlarge : ¬ n > MAX_SIZE := not_lt.mpr h
  unfold MAX_SIZE at h
  unfold writeCompactSize
  split_ifs with h1 h2 h3
  · rw [← List.append_nil (leBytes 1 n)]
    apply (hmarker n (by omega)).bind
    rw [if_pos h1]
    exact (Reads.pure n).check hlarge
  · apply (hmarker 253 (by omega)).bind
    exact (reads_readCanonical (by omega) (by omega)).check hlarge
  · apply (hmarker 254 (by omega)).bind
    exact (reads_readCanonical (by omega) (by omega)).check hlarge
  · omega

theorem reads_readVector {α β : Type} {read : Reader β} {write : α → Bytes} {f : α → β} {v : List α}
    (hsize : v.length ≤ MAX_SIZE) (h : ∀ x ∈ v, Reads read (write x) (f x)) :
    Reads (readVector read) (writeVector write v) (v.map f) :=
  (reads_readCompactSize hsize).bind (reads_readMany h)

theorem writeVector_map {α β : Type} {write : α → Bytes} {write' : β → Bytes} {f : α → β}
    (h : ∀ x, write' (f x) = write x) (v : List α) : writeVector write' (v.map f) = writeVector write v := by
  simp only [writeVector, List.length_map, List.flatMap_map, h]

theorem reads_readVector_self {α : Type} {read : Reader α} {write : α → Bytes} {v : List α}
    (hpos : ∀ x, 1 ≤ (write x).length) (hsize : (writeVector write v).length ≤ MAX_SIZE)
    (h : ∀ x, (write x).length ≤ MAX_SIZE → Reads read (write x) x) :
    Reads (readVector read) (writeVector write v) v := by
  rw [writeVector, List.length_append, List.length_flatMap] at hsize
  have hlen := List.length_le_sum_of_one_le (v.map fun x => (write x).length) (by simp [hpos])
  rw [List.length_map] at hlen
  have hread : ∀ x ∈ v, Reads read (write x) (id x) := by
    intro x hx
    have hle : (write x).length ≤ (v.map fun x => (write x).length).sum :=
      List.single_le_sum (fun _ _ => Nat.zero_le _) _ (List.mem_map.mpr ⟨x, hx, rfl⟩)
    exact h x (by omega)
  have := reads_readVector (by omega) hread
  rwa [List.map_id] at this

/-! ## Transactions -/

def readBytes : Reader Bytes := do
  let nSize ← readCompactSize
  readFlat nSize

def readUint256 : Reader Uint256 := do
  let n ← readLE 32
  pure (BitVec.ofNat 256 n)

def readUint32 : Reader UInt32 := do
  let n ← readLE 4
  pure (UInt32.ofNat n)

def readInt32 : Reader Int32 := do
  let n ← readLE 4
  pure (UInt32.ofNat n).toInt32

def readAmount : Reader CAmount := do
  let n ← readLE 8
  pure (UInt64.ofNat n).toInt64

def readOutPoint : Reader COutPoint := do
  let hash ← readUint256
  let n ← readUint32
  pure ⟨hash, n⟩

def readTxIn : Reader CTxIn := do
  let prevout ← readOutPoint
  let scriptSig ← readBytes
  let nSequence ← readUint32
  pure ⟨prevout, scriptSig, nSequence⟩

/-- An output as it stands in a transaction. -/
def readPlainTxOut : Reader CTxOut := do
  let nValue ← readAmount
  let scriptPubKey ← readBytes
  pure ⟨nValue, scriptPubKey⟩

def readTransaction : Reader CTransaction := do
  let nVersion ← readInt32
  let nTime ← readUint32
  let vin ← readVector readTxIn
  let vout ← readVector readPlainTxOut
  let nLockTime ← readUint32
  pure ⟨nVersion, nTime, vin, vout, nLockTime⟩

theorem reads_readBytes {v : Bytes} (h : v.length ≤ MAX_SIZE) : Reads readBytes (writeBytes v) v :=
  (reads_readCompactSize h).bind (reads_readFlat v)

theorem reads_readUint256 (x : Uint256) : Reads readUint256 (writeUint256 x) x := by
  have hlt : x.toNat < 256 ^ 32 := x.isLt
  have := (reads_readLE hlt).bind_pure (f := fun n => (BitVec.ofNat 256 n : Uint256))
  rwa [BitVec.ofNat_toNat, BitVec.setWidth_eq] at this

theorem reads_readUint32 (x : UInt32) : Reads readUint32 (leBytes 4 x.toNat) x := by
  have := (reads_readLE (k := 4) x.toNat_lt).bind_pure (f := UInt32.ofNat)
  rwa [UInt32.ofNat_toNat] at this

theorem reads_readInt32 (x : Int32) : Reads readInt32 (leBytes 4 x.toUInt32.toNat) x := by
  have := (reads_readLE (k := 4) x.toUInt32.toNat_lt).bind_pure (f := fun n => (UInt32.ofNat n).toInt32)
  rwa [UInt32.ofNat_toNat, Int32.toInt32_toUInt32] at this

theorem reads_readAmount (x : CAmount) : Reads readAmount (leBytes 8 x.toUInt64.toNat) x := by
  have := (reads_readLE (k := 8) x.toUInt64.toNat_lt).bind_pure (f := fun n => (UInt64.ofNat n).toInt64)
  rwa [UInt64.ofNat_toNat, Int64.toInt64_toUInt64] at this

theorem reads_readOutPoint (o : COutPoint) : Reads readOutPoint o.serialize o :=
  (reads_readUint256 o.hash).bind (reads_readUint32 o.n).bind_pure

theorem reads_readTxIn (i : CTxIn) (h : i.serialize.length ≤ MAX_SIZE) :
    Reads readTxIn i.serialize i := by
  rw [CTxIn.serialize, List.append_assoc] at h ⊢
  have hsize : i.scriptSig.length ≤ MAX_SIZE := by
    simp only [writeBytes, List.length_append] at h
    omega
  exact (reads_readOutPoint i.prevout).bind
    ((reads_readBytes hsize).bind (reads_readUint32 i.nSequence).bind_pure)

theorem reads_readPlainTxOut (o : CTxOut) (h : o.serialize.length ≤ MAX_SIZE) :
    Reads readPlainTxOut o.serialize o := by
  have hsize : o.scriptPubKey.length ≤ MAX_SIZE := by
    simp only [CTxOut.serialize, writeBytes, List.length_append] at h
    omega
  exact (reads_readAmount o.nValue).bind (reads_readBytes hsize).bind_pure

theorem reads_readTransaction (tx : CTransaction) (h : tx.serialize.length ≤ MAX_SIZE) :
    Reads readTransaction tx.serialize tx := by
  simp only [CTransaction.serialize, List.append_assoc] at h ⊢
  have hvin : Reads (readVector readTxIn) (writeVector CTxIn.serialize tx.vin) tx.vin := by
    refine reads_readVector_self (fun i => ?_) ?_ reads_readTxIn
    · simp only [CTxIn.serialize, List.length_append, length_leBytes]
      omega
    · simp only [List.length_append] at h
      omega
  have hvout : Reads (readVector readPlainTxOut) (writeVector CTxOut.serialize tx.vout) tx.vout := by
    refine reads_readVector_self (fun o => ?_) ?_ reads_readPlainTxOut
    · simp only [CTxOut.serialize, List.length_append, length_leBytes]
      omega
    · simp only [List.length_append] at h
      omega
  apply (reads_readInt32 tx.nVersion).bind
  apply (reads_readUint32 tx.nTime).bind
  apply hvin.bind
  apply hvout.bind
  exact (reads_readUint32 tx.nLockTime).bind_pure

theorem serialize_inj {tx tx' : CTransaction} (hsize : tx.serialize.length ≤ MAX_SIZE)
    (h : tx.serialize = tx'.serialize) : tx = tx' := by
  have hread := (reads_readTransaction tx hsize).run_eq
  rw [h, (reads_readTransaction tx' (h ▸ hsize)).run_eq] at hread
  exact (Prod.mk.inj (Option.some.inj hread)).1.symm

end X2XCoin
