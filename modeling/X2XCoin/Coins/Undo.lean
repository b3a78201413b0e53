import X2XCoin.Chain.Index
import X2XCoin.Coins.Compressor
import X2XCoin.Coins.Output

/-!
# Undo data and disconnecting a block

The disk format of `CTxInUndo` and `CBlockUndo` (`undo.h`), the record that `UndoWriteToDisk` leaves
in the undo file, and `ApplyTxInUndo` and `DisconnectBlock` of `main.cpp`.  Undo data is taken to be
at the position the index entry names.
-/

open ByteCodec

namespace X2XCoin

/-! ## The format -/

/-- A version as a variable-length integer; of a negative number only the low digit is written. -/
def writeVersion (nVersion : Int32) : Bytes :=
  if nVersion < 0 then [UInt8.ofNat (nVersion.toUInt32.toNat % 128)]
  else VarInt.write 32 nVersion.toUInt32.toNat

/-- The code that `CTxInUndo` starts with. -/
def CTxInUndo.code (undo : CTxInUndo) : ℕ :=
  (undo.nHeight * 4 + (if undo.fCoinBase then 1 else 0) + (if undo.fCoinStake then 2 else 0)) % 2 ^ 32

def writeTxInUndo (keys : PubKeys) (undo : CTxInUndo) : Bytes :=
  VarInt.write 32 undo.code ++
    ((if undo.nHeight > 0 then writeVersion undo.nVersion else []) ++
      (leBytes 4 undo.nTime.toNat ++ writeTxOut keys undo.txout))

/-- The version, which is there only with a height. -/
def readVersion (nHeight : ℕ) : Reader Int32 :=
  if nHeight > 0 then do
    let n ← VarInt.read 32
    pure (UInt32.ofNat n).toInt32
  else pure 0

def readTxInUndo (keys : PubKeys) : Reader CTxInUndo := do
  let nCode ← VarInt.read 32
  let nVersion ← readVersion (nCode / 4)
  let nTime ← readLE 4
  let txout ← readTxOut keys
  pure ⟨txout, nCode % 2 = 1, nCode / 2 % 2 = 1, nCode / 4, nVersion, UInt32.ofNat nTime⟩

def writeBlockUndo (keys : PubKeys) (blockundo : CBlockUndo) : Bytes :=
  writeVector (writeVector (writeTxInUndo keys)) blockundo

def readBlockUndo (keys : PubKeys) : Reader CBlockUndo :=
  readVector (readVector (readTxInUndo keys))

/-- The checksum of undo data: it covers the hash of the previous block too. -/
def undoChecksum (crypto : Crypto) (keys : PubKeys) (hashBlock : Uint256) (blockundo : CBlockUndo) :
    Uint256 :=
  crypto.hash256 (writeUint256 hashBlock ++ writeBlockUndo keys blockundo)

/-- `UndoWriteToDisk`: the data and its checksum. -/
def undoWriteToDisk (crypto : Crypto) (keys : PubKeys) (hashBlock : Uint256)
    (blockundo : CBlockUndo) : Bytes :=
  writeBlockUndo keys blockundo ++ writeUint256 (undoChecksum crypto keys hashBlock blockundo)

def undoReadFromDisk (crypto : Crypto) (keys : PubKeys) (hashBlock : Uint256) : Reader CBlockUndo := do
  let blockundo ← readBlockUndo keys
  let hashChecksum ← readLE 32
  if BitVec.ofNat 256 hashChecksum ≠ undoChecksum crypto keys hashBlock blockundo then failure
  else pure blockundo

/-! ## Applying it -/

/-- An output put back at its place; the vector grows to hold it. -/
def CCoins.restore (coins : CCoins) (n : ℕ) (txout : CTxOut) : CCoins :=
  { coins with
    vout := (coins.vout ++ List.replicate (n + 1 - coins.vout.length) CTxOut.null).set n txout }

/-- The entry `ApplyTxInUndo` puts an output back into: a new one when there is metadata. -/
def CTxInUndo.entry (undo : CTxInUndo) (coins : CCoins) : CCoins :=
  if undo.nHeight ≠ 0 then
    ⟨undo.fCoinBase, undo.fCoinStake, [], undo.nHeight, undo.nVersion, undo.nTime⟩
  else coins

/-- `ApplyTxInUndo`, with whether the data fitted the view. -/
def applyTxInUndo (undo : CTxInUndo) (out : COutPoint) (view : CoinsView) : CoinsView × Bool :=
  let coins := (view.accessCoins out.hash).getD {}
  let fClean := if undo.nHeight ≠ 0 then coins.isPruned else !coins.isPruned
  let coins := undo.entry coins
  (view.modifyCoins out.hash fun _ => coins.restore out.n.toNat undo.txout,
    fClean && !coins.isAvailable out.n.toNat)

/-- The inputs of a transaction restored, the last one first. -/
def restoreInputs : List (CTxIn × CTxInUndo) → CoinsView × Bool → CoinsView × Bool
  | [], s => s
  | (txin, undo) :: inputs, s =>
    let (view, fClean) := restoreInputs inputs s
    let (view, ok) := applyTxInUndo undo txin.prevout view
    (view, fClean && ok)

/-- The outputs of a transaction removed, with whether they were those of the block. -/
def removeOutputs (crypto : Crypto) (nHeight : ℕ) (tx : CTransaction) (s : CoinsView × Bool) :
    CoinsView × Bool :=
  let (view, fClean) := s
  let hash := tx.getHash crypto
  let outs := ((view.accessCoins hash).getD {}).clearUnspendable
  let outsBlock := CCoins.fromTx tx nHeight
  let outs := if outsBlock.nVersion < 0 then { outs with nVersion := outsBlock.nVersion } else outs
  (view.modifyCoins hash fun _ => {}, fClean && outs.eqv outsBlock)

/-- The transactions after the coinbase undone, the last one first; `none` where the source finds
the block and the undo data inconsistent. -/
def disconnectTxs (crypto : Crypto) (nHeight : ℕ) :
    List (CTransaction × CTxUndo) → CoinsView × Bool → Option (CoinsView × Bool)
  | [], s => some s
  | (tx, txundo) :: txs, s => do
    let s ← disconnectTxs crypto nHeight txs s
    if txundo.length ≠ tx.vin.length then none
    else some (restoreInputs (tx.vin.zip txundo) (removeOutputs crypto nHeight tx s))

/-- `DisconnectBlock`, with the undo data stored for the block: the view and `fClean`, or `none`
where it returns false or asserts. -/
def disconnectBlock (crypto : Crypto) (keys : PubKeys) (block : CBlock) (pprev pindex : CBlockIndex)
    (undoData : Bytes) (view : CoinsView) : Option (CoinsView × Bool) := do
  if pindex.hash ≠ view.hashBlock then none
  else
    let (blockUndo, _) ← (undoReadFromDisk crypto keys pprev.hash).run undoData
    match block.vtx with
    | [] => none
    | coinBase :: vtx =>
      if blockUndo.length ≠ vtx.length then none
      else
        let s ← disconnectTxs crypto pindex.nHeight (vtx.zip blockUndo) (view, true)
        let (view, fClean) := removeOutputs crypto pindex.nHeight coinBase s
        some (view.setBestBlock pprev.hash, fClean)

/-! ## What is written is read back

All of it but a negative version, of which seven bits are left. -/

/-- What the format keeps of a version. -/
def storedVersion (nVersion : Int32) : Int32 :=
  if nVersion < 0 then (UInt32.ofNat (nVersion.toUInt32.toNat % 128)).toInt32 else nVersion

/-- What the format keeps of a record. -/
def CTxInUndo.stored (undo : CTxInUndo) : CTxInUndo :=
  { undo with nVersion := storedVersion undo.nVersion }

/-- What the format keeps of the records of a block. -/
def CBlockUndo.stored (blockundo : CBlockUndo) : CBlockUndo := blockundo.map (List.map CTxInUndo.stored)

/-- The records of which the format keeps everything else. -/
structure CTxInUndo.Storable (undo : CTxInUndo) : Prop where
  height : undo.nHeight < 2 ^ 30
  noMetadata : undo.nHeight = 0 → undo.nVersion = 0
  txout : undo.txout.Compressible

theorem CTxInUndo.Storable.code_eq {undo : CTxInUndo} (h : undo.Storable) :
    undo.code / 4 = undo.nHeight ∧ (decide (undo.code % 2 = 1)) = undo.fCoinBase ∧
      (decide (undo.code / 2 % 2 = 1)) = undo.fCoinStake := by
  have hheight := h.height
  unfold code
  cases undo.fCoinBase <;> cases undo.fCoinStake <;> simp <;> omega

theorem reads_writeVersion (nVersion : Int32) :
    Reads (VarInt.read 32) (writeVersion nVersion) (storedVersion nVersion).toUInt32.toNat := by
  unfold writeVersion storedVersion
  split_ifs with hneg
  · have hbyte : (UInt8.ofNat (nVersion.toUInt32.toNat % 128)).toNat =
        nVersion.toUInt32.toNat % 128 := by
      rw [UInt8.toNat_ofNat']
      omega
    have hword : (UInt32.ofNat (nVersion.toUInt32.toNat % 128)).toInt32.toUInt32.toNat =
        nVersion.toUInt32.toNat % 128 := by
      rw [UInt32.toUInt32_toInt32, UInt32.toNat_ofNat']
      omega
    have hlt : nVersion.toUInt32.toNat % 128 < 128 := Nat.mod_lt _ (by norm_num)
    have := VarInt.reads_read_byte (w := 32) (hbyte.trans_lt hlt) (by omega)
    rw [hword]
    rwa [hbyte] at this
  · exact VarInt.reads_read nVersion.toUInt32.toNat_lt

theorem writeVersion_storedVersion (nVersion : Int32) :
    writeVersion (storedVersion nVersion) = writeVersion nVersion := by
  have hsmall : ∀ n < 128, writeVersion (UInt32.ofNat n).toInt32 = [UInt8.ofNat n] := by decide
  unfold storedVersion
  split_ifs with hneg
  · rw [hsmall _ (Nat.mod_lt _ (by norm_num)), writeVersion, if_pos hneg]
  · rfl

theorem reads_readVersion {nVersion : Int32} {nHeight : ℕ} (hzero : nHeight = 0 → nVersion = 0) :
    Reads (readVersion nHeight) (if nHeight > 0 then writeVersion nVersion else [])
      (storedVersion nVersion) := by
  unfold readVersion
  split_ifs with hpos
  · have := (reads_writeVersion nVersion).bind_pure (f := fun n => (UInt32.ofNat n).toInt32)
    simpa using this
  · rw [hzero (by omega)]
    exact Reads.pure 0

theorem reads_readTxInUndo (keys : PubKeys) {undo : CTxInUndo} (h : undo.Storable) :
    Reads (readTxInUndo keys) (writeTxInUndo keys undo) undo.stored := by
  obtain ⟨hheight, hcb, hcs⟩ := h.code_eq
  apply (VarInt.reads_read (Nat.mod_lt _ (by norm_num))).bind
  rw [show _ % 2 ^ 32 = undo.code from rfl, hheight, hcb, hcs]
  apply (reads_readVersion h.noMetadata).bind
  apply (reads_readLE (k := 4) (n := undo.nTime.toNat) undo.nTime.toNat_lt).bind
  rw [UInt32.ofNat_toNat]
  exact (reads_readTxOut keys h.txout).bind_pure

theorem reads_readBlockUndo (keys : PubKeys) {blockundo : CBlockUndo}
    (hlen : blockundo.length ≤ MAX_SIZE) (hlens : ∀ txundo ∈ blockundo, txundo.length ≤ MAX_SIZE)
    (h : ∀ txundo ∈ blockundo, ∀ undo ∈ txundo, undo.Storable) :
    Reads (readBlockUndo keys) (writeBlockUndo keys blockundo) blockundo.stored :=
  reads_readVector hlen fun txundo htx => reads_readVector (hlens txundo htx) fun undo hundo =>
    reads_readTxInUndo keys (h txundo htx undo hundo)

theorem writeBlockUndo_stored (keys : PubKeys) (blockundo : CBlockUndo) :
    writeBlockUndo keys blockundo.stored = writeBlockUndo keys blockundo := by
  apply writeVector_map
  apply writeVector_map
  intro undo
  unfold writeTxInUndo
  rw [show undo.stored.nVersion = storedVersion undo.nVersion from rfl, writeVersion_storedVersion]
  rfl

/-- Undo data that the format can hold comes back from disk as it was written. -/
theorem undoReadFromDisk_write (crypto : Crypto) (keys : PubKeys) (hashBlock : Uint256)
    {blockundo : CBlockUndo} (hlen : blockundo.length ≤ MAX_SIZE)
    (hlens : ∀ txundo ∈ blockundo, txundo.length ≤ MAX_SIZE)
    (h : ∀ txundo ∈ blockundo, ∀ undo ∈ txundo, undo.Storable) :
    (undoReadFromDisk crypto keys hashBlock).run (undoWriteToDisk crypto keys hashBlock blockundo) =
      some (blockundo.stored, []) := by
  apply Reads.run_eq
  apply (reads_readBlockUndo keys hlen hlens h).bind
  have hsum : Reads (readLE 32) (writeUint256 (undoChecksum crypto keys hashBlock blockundo)) _ :=
    reads_readLE (by simpa using (undoChecksum crypto keys hashBlock blockundo).isLt)
  have hsame : undoChecksum crypto keys hashBlock blockundo.stored =
      undoChecksum crypto keys hashBlock blockundo := by
    rw [undoChecksum, writeBlockUndo_stored, undoChecksum]
  rw [← List.append_nil (writeUint256 _)]
  apply hsum.bind
  rw [BitVec.ofNat_toNat, BitVec.setWidth_eq, if_neg (not_not.mpr hsame.symm)]
  exact Reads.pure blockundo.stored

end X2XCoin
