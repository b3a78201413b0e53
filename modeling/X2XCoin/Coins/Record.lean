import X2XCoin.Coins.Undo
import X2XCoin.Lib.Bitmap

/-!
# The record of a transaction

`Serialize`, `Unserialize` and `CalcMaskSize` of `CCoins` (`coins.{h,cpp}`), the format of the
database of unspent outputs.
-/

open ByteCodec

namespace X2XCoin

namespace CCoins

/-! ## The format -/

/-- Byte `b` of the mask, for eight outputs after the first two. -/
def maskByte (c : CCoins) (b : ℕ) : UInt8 := Bitmap.byteOf (fun n => c.isAvailable (2 + n)) b

/-- The turn of the loop of `CalcMaskSize` for byte `b`. -/
def maskStep (c : CCoins) (s : ℕ × ℕ) (b : ℕ) : ℕ × ℕ :=
  let fZero := (List.range 8).all fun i => !c.isAvailable (2 + b * 8 + i)
  if fZero then s else (b + 1, s.2 + 1)

/-- `CalcMaskSize`: the number of bytes of the mask, and of those that are not zero. -/
def calcMaskSize (c : CCoins) : ℕ × ℕ :=
  (List.range ((c.vout.length + 5) / 8)).foldl c.maskStep (0, 0)

/-- The bytes of the mask that are written. -/
def mask (c : CCoins) : Bytes := (List.range c.calcMaskSize.1).map c.maskByte

/-- What the code says about the mask: if the first two outputs are spent, one byte is sure not to
be zero. -/
def maskCode (c : CCoins) : ℕ :=
  c.calcMaskSize.2 - if c.isAvailable 0 || c.isAvailable 1 then 0 else 1

/-- The header code. -/
def code (c : CCoins) : ℕ :=
  (16 * c.maskCode + (if c.fCoinBase then 1 else 0) + (if c.isAvailable 0 then 2 else 0) +
    (if c.isAvailable 1 then 4 else 0) + (if c.fCoinStake then 8 else 0)) % 2 ^ 32

def writeOutput (keys : PubKeys) (txout : CTxOut) : Bytes :=
  if txout.isNull then [] else writeTxOut keys txout

/-- `Serialize`; `none` where the assertion fails, and where the loop of `CalcMaskSize` does not end
because `2+b*8` wraps before it reaches the number of outputs. -/
def serialize (keys : PubKeys) (c : CCoins) : Option Bytes :=
  if c.vout.length > 2 ^ 32 - 6 then none
  else if c.isAvailable 0 || c.isAvailable 1 || c.calcMaskSize.2 ≠ 0 then
    some (writeVersion c.nVersion ++ (VarInt.write 32 c.code ++
      (c.mask ++ (c.vout.flatMap (writeOutput keys) ++
        (VarInt.write 32 c.nHeight ++ leBytes 4 c.nTime.toNat)))))
  else none

/-- An output, which is not there if it is spent. -/
def readOutput (keys : PubKeys) (fAvail : Bool) : Reader CTxOut :=
  if fAvail then readTxOut keys else pure CTxOut.null

def readOutputs (keys : PubKeys) : List Bool → Reader (List CTxOut)
  | [] => pure []
  | fAvail :: vAvail => do
    let txout ← readOutput keys fAvail
    let vout ← readOutputs keys vAvail
    pure (txout :: vout)

/-- What follows the header code. -/
def readBody (keys : PubKeys) (nVersion nCode : ℕ) : Reader CCoins := do
  let nMaskCode := nCode / 16 + if nCode.testBit 1 || nCode.testBit 2 then 0 else 1
  let mask ← Bitmap.readFlags nMaskCode
  let vout ← readOutputs keys ([nCode.testBit 1, nCode.testBit 2] ++ mask)
  let nHeight ← VarInt.read 32
  let nTime ← readLE 4
  pure (cleanup
    { fCoinBase := nCode.testBit 0
      fCoinStake := nCode.testBit 3
      vout := vout
      nHeight := nHeight
      nVersion := (UInt32.ofNat nVersion).toInt32
      nTime := UInt32.ofNat nTime })

def unserialize (keys : PubKeys) : Reader CCoins := do
  let nVersion ← VarInt.read 32
  let nCode ← VarInt.read 32
  readBody keys nVersion nCode

/-- The entries of which the format keeps everything: an output is unspent, the last one is, spent
outputs are null, and the numbers are not negative. -/
structure Storable (c : CCoins) : Prop where
  unspent : c.isPruned = false
  trimmed : dropNulls c.vout = c.vout
  spent : ∀ txout ∈ c.vout, txout.isNull → txout = CTxOut.null
  txout : ∀ txout ∈ c.vout, txout.isNull = false → txout.Compressible
  height : c.nHeight < 2 ^ 31
  version : 0 ≤ c.nVersion

/-- What is written of the entry is read back, whatever follows it. -/
def RoundTrips (keys : PubKeys) (c : CCoins) : Prop :=
  ∃ bytes, c.serialize keys = some bytes ∧ Reads (unserialize keys) bytes c

/-- The loops end and the code has room for the number of mask bytes. -/
def Fits (c : CCoins) : Prop := c.vout.length ≤ 2 ^ 32 - 6 ∧ c.maskCode < 2 ^ 28

/-! ## The mask -/

section

variable (c : CCoins)

theorem maskStep_eq (s : ℕ × ℕ) (b : ℕ) :
    c.maskStep s b = if c.maskByte b = 0 then s else (b + 1, s.2 + 1) := by
  have hzero : ((List.range 8).all fun i => !c.isAvailable (2 + b * 8 + i)) = true ↔
      c.maskByte b = 0 := by
    rw [maskByte, Bitmap.byteOf_eq_zero_iff, List.all_eq_true]
    simp only [List.mem_range, Bool.not_eq_true', Nat.add_assoc]
  exact if_congr hzero rfl rfl

theorem foldl_maskStep (k : ℕ) :
    let s := (List.range k).foldl c.maskStep (0, 0)
    s.1 ≤ k ∧ (∀ b, s.1 ≤ b → b < k → c.maskByte b = 0) ∧
      (∀ b, s.1 = b + 1 → c.maskByte b ≠ 0) ∧
      s.2 = Bitmap.nonzero ((List.range s.1).map c.maskByte) := by
  induction k with
  | zero => exact ⟨le_rfl, fun b _ hb => absurd hb (Nat.not_lt_zero b), nofun, rfl⟩
  | succ k ih =>
    obtain ⟨hle, hzero, hlast, hcount⟩ := ih
    rw [List.range_succ, List.foldl_append, List.foldl_cons, List.foldl_nil, maskStep_eq]
    generalize (List.range k).foldl c.maskStep (0, 0) = s at hle hzero hlast hcount
    by_cases hbyte : c.maskByte k = 0
    · rw [if_pos hbyte]
      refine ⟨hle.trans (Nat.le_succ k), fun b hb hbk => ?_, hlast, hcount⟩
      obtain hlt | rfl := Nat.lt_succ_iff_lt_or_eq.mp hbk
      · exact hzero b hb hlt
      · exact hbyte
    · rw [if_neg hbyte]
      refine ⟨le_rfl, fun b hb hbk => absurd hbk (not_lt.mpr hb), ?_, ?_⟩
      · rintro b ⟨⟩
        exact hbyte
      · -- between the last byte that counted and this one there are only zeros
        have hgap : Bitmap.nonzero ((List.range k).map c.maskByte) = s.2 := by
          obtain ⟨d, rfl⟩ := Nat.exists_eq_add_of_le hle
          rw [hcount, List.range_add, List.map_append, Bitmap.nonzero_append, Nat.add_eq_left,
            Bitmap.nonzero, List.countP_eq_zero]
          simp only [List.mem_map, List.mem_range]
          rintro x ⟨n, ⟨i, hi, rfl⟩, rfl⟩
          simp [hzero (s.1 + i) (by omega) (by omega)]
        rw [List.range_succ, List.map_append, Bitmap.nonzero_append, hgap, List.map_singleton,
          Bitmap.nonzero_singleton hbyte]

theorem nonzero_mask : Bitmap.nonzero c.mask = c.calcMaskSize.2 :=
  (c.foldl_maskStep _).2.2.2.symm

theorem getLast?_mask : ∀ x ∈ c.mask.getLast?, x ≠ 0 := by
  intro x hx
  have hlast := (c.foldl_maskStep ((c.vout.length + 5) / 8)).2.2.1
  change ∀ b, c.calcMaskSize.1 = b + 1 → _ at hlast
  rw [mask] at hx
  cases hk : c.calcMaskSize.1 with
  | zero =>
    rw [hk] at hx
    cases hx
  | succ k =>
    rw [hk, List.range_succ, List.map_append, List.map_singleton, List.getLast?_concat] at hx
    cases hx
    exact hlast k hk

theorem isAvailable_eq_false {n : ℕ} (h : c.vout.length ≤ n) : c.isAvailable n = false := by
  rw [isAvailable, List.getElem?_eq_none h]

theorem isAvailable_past_mask {n : ℕ} (h : 2 + c.calcMaskSize.1 * 8 ≤ n) :
    c.isAvailable n = false := by
  obtain hlen | hlen := le_or_gt c.vout.length n
  · exact c.isAvailable_eq_false hlen
  · have hzero := (c.foldl_maskStep ((c.vout.length + 5) / 8)).2.1 ((n - 2) / 8)
    change c.calcMaskSize.1 ≤ _ → _ at hzero
    have hbyte := (Bitmap.byteOf_eq_zero_iff _).mp (hzero (by omega) (by omega)) ((n - 2) % 8)
      (Nat.mod_lt _ (by decide))
    rwa [show 2 + ((n - 2) / 8 * 8 + (n - 2) % 8) = n by omega] at hbyte

/-- The outputs with those that the mask covers and that are not there. -/
def padded : List CTxOut :=
  c.vout ++ List.replicate (2 + c.calcMaskSize.1 * 8 - c.vout.length) CTxOut.null

end

variable {c : CCoins} {keys : PubKeys}

theorem Storable.length_vout_le (h : c.Storable) : c.vout.length ≤ 2 + c.calcMaskSize.1 * 8 := by
  by_contra hlt
  have hne : c.vout ≠ [] := by
    intro hnil
    rw [hnil, List.length_nil] at hlt
    omega
  have hlast := List.rdropWhile_eq_self_iff.mp h.trimmed hne
  have hpast := c.isAvailable_past_mask (n := c.vout.length - 1) (by omega)
  rw [isAvailable, ← List.getLast?_eq_getElem?, List.getLast?_eq_some_getLast hne] at hpast
  simp only [Bool.not_eq_false'] at hpast
  exact hlast hpast

theorem Storable.flags_eq (h : c.Storable) :
    [c.isAvailable 0, c.isAvailable 1] ++ c.mask.flatMap Bitmap.flags =
      c.padded.map fun txout => !txout.isNull := by
  obtain ⟨d, hd⟩ := Nat.exists_eq_add_of_le h.length_vout_le
  have hflags : [c.isAvailable 0, c.isAvailable 1] ++ c.mask.flatMap Bitmap.flags =
      (List.range (c.vout.length + d)).map c.isAvailable := by
    have hmask : c.mask = (List.range c.calcMaskSize.1).map
      (Bitmap.byteOf fun n => c.isAvailable (2 + n)) := rfl
    rw [← hd, List.range_add, List.map_append, List.map_map, hmask, Bitmap.flatMap_flags]
    rfl
  rw [hflags, padded, hd, Nat.add_sub_cancel_left, List.range_add, List.map_append,
    List.map_append, List.map_map, List.map_replicate]
  refine congrArg₂ (· ++ ·) ?_ ?_
  · refine List.ext_getElem (by simp) fun i hi hi' => ?_
    rw [List.length_map] at hi'
    simp [isAvailable, hi']
  · refine List.eq_replicate_iff.mpr ⟨by simp, fun b hb => ?_⟩
    obtain ⟨i, -, rfl⟩ := List.mem_map.mp hb
    exact c.isAvailable_eq_false (Nat.le_add_right _ _)

/-! ## The outputs -/

theorem reads_readOutputs (vout : List CTxOut)
    (hspent : ∀ txout ∈ vout, txout.isNull → txout = CTxOut.null)
    (hout : ∀ txout ∈ vout, txout.isNull = false → txout.Compressible) :
    Reads (readOutputs keys (vout.map fun txout => !txout.isNull))
      (vout.flatMap (writeOutput keys)) vout := by
  induction vout with
  | nil => exact Reads.pure []
  | cons txout vout ih =>
    rw [List.forall_mem_cons] at hspent hout
    rw [List.map_cons, List.flatMap_cons, readOutputs]
    refine Reads.bind ?_ (ih hspent.2 hout.2).bind_pure
    cases hnull : txout.isNull with
    | true =>
      rw [hspent.1 hnull]
      exact Reads.pure CTxOut.null
    | false =>
      rw [writeOutput, hnull]
      exact reads_readTxOut keys (hout.1 hnull)

theorem countP_readOutputs_le {vAvail : List Bool} {bs rest : Bytes} {vout : List CTxOut}
    (h : (readOutputs keys vAvail).run bs = some (vout, rest)) :
    vout.countP (fun txout => !txout.isNull) ≤ vAvail.count true := by
  induction vAvail generalizing bs vout with
  | nil =>
    cases h
    exact le_rfl
  | cons fAvail vAvail ih =>
    obtain ⟨txout, bs', hfirst, h⟩ := run_bind_eq_some h
    obtain ⟨vout', bs'', hrest, h⟩ := run_bind_eq_some h
    cases h
    have hle := ih hrest
    rw [List.countP_cons, List.count_cons]
    cases fAvail with
    | true =>
      simp only [beq_self_eq_true, if_true]
      split_ifs <;> omega
    | false =>
      cases hfirst
      simpa [CTxOut.null, CTxOut.isNull] using hle

/-! ## The code -/

theorem code_eq (c : CCoins) :
    c.code / 16 = c.maskCode % 2 ^ 28 ∧ c.code.testBit 0 = c.fCoinBase ∧
      c.code.testBit 1 = c.isAvailable 0 ∧ c.code.testBit 2 = c.isAvailable 1 ∧
      c.code.testBit 3 = c.fCoinStake := by
  unfold code
  simp only [Nat.testBit_eq_decide_div_mod_eq]
  cases c.fCoinBase <;> cases c.isAvailable 0 <;> cases c.isAvailable 1 <;> cases c.fCoinStake <;>
    simp <;> omega

/-! ## The whole record -/

theorem Storable.exists_isAvailable (h : c.Storable) : ∃ n, c.isAvailable n = true := by
  have hunspent := h.unspent
  rw [isPruned, List.all_eq_false] at hunspent
  obtain ⟨txout, hmem, hnull⟩ := hunspent
  obtain ⟨n, hn⟩ := List.mem_iff_getElem?.mp hmem
  refine ⟨n, ?_⟩
  rw [isAvailable, hn]
  simpa using hnull

theorem Storable.asserted (h : c.Storable) :
    (c.isAvailable 0 || c.isAvailable 1 || c.calcMaskSize.2 ≠ 0) = true := by
  by_contra hcon
  simp only [Bool.or_eq_true, decide_eq_true_eq, not_or, Bool.not_eq_true, not_not] at hcon
  obtain ⟨⟨hfirst, hsecond⟩, hcount⟩ := hcon
  have hmask : c.mask = [] := by
    by_contra hne
    have hlast := c.getLast?_mask _ (List.getLast?_eq_some_getLast hne)
    rw [← nonzero_mask] at hcount
    have hzero := List.countP_eq_zero.mp hcount _ (List.getLast_mem hne)
    simp [hlast] at hzero
  have hsize : c.calcMaskSize.1 = 0 := by
    have hlength := congrArg List.length hmask
    rwa [mask, List.length_map, List.length_range] at hlength
  obtain ⟨n, hn⟩ := h.exists_isAvailable
  match n with
  | 0 => cases hfirst.symm.trans hn
  | 1 => cases hsecond.symm.trans hn
  | n + 2 => cases (c.isAvailable_past_mask (by omega)).symm.trans hn

/-- The number of bytes that the reader looks for, if the code has room for it. -/
theorem Storable.maskCode_add (h : c.Storable) :
    c.maskCode + (if c.isAvailable 0 || c.isAvailable 1 then 0 else 1) = c.calcMaskSize.2 := by
  have hassert := h.asserted
  rw [maskCode]
  split_ifs with hfirst
  · rfl
  · simp only [Bool.not_eq_true] at hfirst
    simp only [hfirst, Bool.false_or, decide_eq_true_eq] at hassert
    omega

theorem flatMap_padded :
    c.padded.flatMap (writeOutput keys) = c.vout.flatMap (writeOutput keys) := by
  rw [padded, List.flatMap_append, List.append_right_eq_self, List.flatMap_eq_nil_iff]
  intro txout hmem
  rw [List.eq_of_mem_replicate hmem]
  rfl

theorem Storable.dropNulls_padded (h : c.Storable) : dropNulls c.padded = c.vout := by
  rw [padded]
  generalize 2 + c.calcMaskSize.1 * 8 - c.vout.length = d
  induction d with
  | zero => rw [List.replicate_zero, List.append_nil, h.trimmed]
  | succ d ih =>
    rw [List.replicate_succ', ← List.append_assoc, dropNulls,
      List.rdropWhile_concat_pos _ _ _ (by decide)]
    exact ih

theorem Storable.reads_readBody (h : c.Storable) (hcode : c.maskCode < 2 ^ 28) :
    Reads (readBody keys c.nVersion.toUInt32.toNat c.code)
      (c.mask ++ (c.vout.flatMap (writeOutput keys) ++
        (VarInt.write 32 c.nHeight ++ leBytes 4 c.nTime.toNat))) c := by
  obtain ⟨hdiv, hbase, hfirst, hsecond, hstake⟩ := c.code_eq
  have hflags : Reads (Bitmap.readFlags (c.code / 16 +
      if c.code.testBit 1 || c.code.testBit 2 then 0 else 1)) c.mask
      (c.mask.flatMap Bitmap.flags) := by
    rw [hdiv, hfirst, hsecond, Nat.mod_eq_of_lt hcode, h.maskCode_add, ← nonzero_mask]
    exact Bitmap.reads_readFlags c.getLast?_mask
  have hspent : ∀ txout ∈ c.padded, txout.isNull → txout = CTxOut.null := by
    intro txout hmem hnull
    obtain hmem | hmem := List.mem_append.mp hmem
    · exact h.spent txout hmem hnull
    · exact List.eq_of_mem_replicate hmem
  have hunspent : ∀ txout ∈ c.padded, txout.isNull = false → txout.Compressible := by
    intro txout hmem hnull
    obtain hmem | hmem := List.mem_append.mp hmem
    · exact h.txout txout hmem hnull
    · rw [List.eq_of_mem_replicate hmem] at hnull
      cases hnull
  have houtputs : Reads (readOutputs keys ([c.code.testBit 1, c.code.testBit 2] ++
      c.mask.flatMap Bitmap.flags)) (c.vout.flatMap (writeOutput keys)) c.padded := by
    rw [hfirst, hsecond, h.flags_eq, ← flatMap_padded]
    exact reads_readOutputs c.padded hspent hunspent
  have hresult : cleanup
      { fCoinBase := c.code.testBit 0
        fCoinStake := c.code.testBit 3
        vout := c.padded
        nHeight := c.nHeight
        nVersion := (UInt32.ofNat c.nVersion.toUInt32.toNat).toInt32
        nTime := UInt32.ofNat c.nTime.toNat } = c := by
    rw [cleanup, h.dropNulls_padded, hbase, hstake, UInt32.ofNat_toNat, UInt32.ofNat_toNat]
    rfl
  have htime : Reads (readLE 4) (leBytes 4 c.nTime.toNat) c.nTime.toNat :=
    reads_readLE c.nTime.toNat_lt
  have hheight : Reads (VarInt.read 32) (VarInt.write 32 c.nHeight) c.nHeight :=
    VarInt.reads_read (h.height.trans (by decide))
  refine hflags.bind (houtputs.bind (hheight.bind fun rest => ?_))
  rw [StateT.run_bind, htime]
  exact congrArg (fun c => some (c, rest)) hresult

theorem code_lt (c : CCoins) : c.code < 2 ^ 32 := Nat.mod_lt _ (by decide)

theorem Storable.roundTrips (h : c.Storable) (hfits : c.Fits) : c.RoundTrips keys := by
  refine ⟨_, (if_neg (not_lt.mpr hfits.1)).trans (if_pos h.asserted), ?_⟩
  have hversion := reads_writeVersion c.nVersion
  rw [storedVersion, if_neg (Int32.not_lt.mpr h.version)] at hversion
  exact hversion.bind ((VarInt.reads_read c.code_lt).bind (h.reads_readBody hfits.2))

theorem Storable.serialize_eq (h : c.Storable) {bytes : Bytes}
    (hbytes : c.serialize keys = some bytes) : c.vout.length ≤ 2 ^ 32 - 6 ∧
      bytes = writeVersion c.nVersion ++ (VarInt.write 32 c.code ++ (c.mask ++
        (c.vout.flatMap (writeOutput keys) ++
          (VarInt.write 32 c.nHeight ++ leBytes 4 c.nTime.toNat)))) := by
  rw [serialize, if_pos h.asserted] at hbytes
  split_ifs at hbytes with hlength
  exact ⟨not_lt.mp hlength, (Option.some.inj hbytes).symm⟩

theorem Storable.count_flags (h : c.Storable) :
    ([c.isAvailable 0, c.isAvailable 1] ++ c.mask.flatMap Bitmap.flags).count true =
      c.vout.countP fun txout => !txout.isNull := by
  have hpadding : (List.replicate (2 + c.calcMaskSize.1 * 8 - c.vout.length) CTxOut.null).countP
      (fun txout => !txout.isNull) = 0 := by
    rw [List.countP_eq_zero]
    intro txout hmem
    rw [List.eq_of_mem_replicate hmem]
    decide
  rw [h.flags_eq, List.count, List.countP_map, padded, List.countP_append]
  simp only [Function.comp_def, beq_true]
  rw [hpadding, Nat.add_zero]

/-- Without room the reader stops inside the mask, and misses an output. -/
theorem Storable.not_roundTrips (h : c.Storable) (hcode : 2 ^ 28 ≤ c.maskCode) :
    ¬ c.RoundTrips keys := by
  rintro ⟨bytes, hbytes, hreads⟩
  obtain ⟨-, rfl⟩ := h.serialize_eq hbytes
  obtain ⟨hdiv, -, hfirst, hsecond, -⟩ := c.code_eq
  obtain ⟨nVersion, bs, hversion, hrun⟩ := run_bind_eq_some (hreads [])
  rw [List.append_nil, reads_writeVersion] at hversion
  cases hversion
  obtain ⟨nCode, bs, hread, hrun⟩ := run_bind_eq_some hrun
  rw [VarInt.reads_read c.code_lt] at hread
  cases hread
  -- the mask is cut where the count of the code ends
  have hcount := h.maskCode_add
  rw [← nonzero_mask] at hcount
  have hle : c.maskCode % 2 ^ 28 + (if c.isAvailable 0 || c.isAvailable 1 then 0 else 1) ≤
      Bitmap.nonzero c.mask := by omega
  obtain ⟨a, b, hmask, ha, hcut⟩ := Bitmap.readFlagsFrom_append hle
  obtain ⟨flags, bs, hflags, hrun⟩ := run_bind_eq_some hrun
  rw [hdiv, hfirst, hsecond] at hflags
  cases hflags.symm.trans (hcut _)
  obtain ⟨vout, bs, hvout, hrun⟩ := run_bind_eq_some hrun
  obtain ⟨nHeight, bs, -, hrun⟩ := run_bind_eq_some hrun
  obtain ⟨nTime, bs, -, hrun⟩ := run_bind_eq_some hrun
  have hc := congrArg CCoins.vout (Prod.mk.inj (Option.some.inj hrun)).1
  -- the outputs of the entry are more than those that the flags leave room for
  have hfew := countP_readOutputs_le hvout
  rw [hfirst, hsecond] at hfew
  have hmore := h.count_flags
  rw [hmask, List.flatMap_append, ← List.append_assoc, List.count_append, ← hc] at hmore
  have hmissed : 0 < (b.flatMap Bitmap.flags).count true := by
    refine Bitmap.count_true_flags_pos ?_
    have hsplit := congrArg Bitmap.nonzero hmask
    rw [Bitmap.nonzero_append] at hsplit
    omega
  have hdrop : (dropNulls vout).countP (fun txout => !txout.isNull) ≤
      vout.countP fun txout => !txout.isNull :=
    (List.rdropWhile_prefix _ _).sublist.countP_le
  change _ = (dropNulls vout).countP _ at hmore
  omega

/-- The record is read back exactly if the number of mask bytes fits the code. -/
theorem roundTrips_iff (keys : PubKeys) (c : CCoins) (h : c.Storable) :
    c.RoundTrips keys ↔ c.Fits := by
  refine ⟨?_, h.roundTrips⟩
  rintro ⟨bytes, hbytes, hreads⟩
  exact ⟨(h.serialize_eq hbytes).1,
    not_le.mp fun hcode => h.not_roundTrips hcode ⟨bytes, hbytes, hreads⟩⟩

/-- There is room for up to 2^31 - 6 outputs, whichever of them are spent. -/
theorem fits_of_length_le (h : c.vout.length ≤ 2 ^ 31 - 6) : c.Fits := by
  have hsize : c.calcMaskSize.1 ≤ (c.vout.length + 5) / 8 := (c.foldl_maskStep _).1
  have hcount : c.calcMaskSize.2 ≤ c.calcMaskSize.1 := by
    rw [← nonzero_mask]
    refine List.countP_le_length.trans ?_
    rw [mask, List.length_map, List.length_range]
  have hcode : c.maskCode ≤ c.calcMaskSize.2 := Nat.sub_le _ _
  exact ⟨by omega, by omega⟩

/-! ## Many outputs -/

/-- A transaction of which no output is spent. -/
def allUnspent (n : ℕ) : CCoins := { vout := List.replicate n ⟨1, []⟩ }

theorem storable_allUnspent {n : ℕ} (hn : 0 < n) : (allUnspent n).Storable where
  unspent := by
    rw [isPruned, List.all_eq_false]
    exact ⟨⟨1, []⟩, List.mem_replicate.mpr ⟨hn.ne', rfl⟩, by decide⟩
  trimmed := by
    refine List.rdropWhile_eq_self_iff.mpr fun hne => ?_
    rw [List.eq_of_mem_replicate (List.getLast_mem hne)]
    decide
  spent := by
    intro txout hmem hnull
    rw [List.eq_of_mem_replicate hmem] at hnull
    exact absurd hnull (by decide)
  txout := by
    intro txout hmem _
    rw [List.eq_of_mem_replicate hmem]
    exact ⟨by decide, by decide⟩
  height := Nat.two_pow_pos 31
  version := Int32.le_refl 0

theorem isAvailable_allUnspent {n i : ℕ} (h : i < n) : (allUnspent n).isAvailable i = true := by
  rw [isAvailable, allUnspent, List.getElem?_replicate, if_pos h]
  rfl

theorem calcMaskSize_allUnspent (n : ℕ) : (allUnspent n).calcMaskSize.2 = (n + 5) / 8 := by
  have hlength : (allUnspent n).vout.length = n := List.length_replicate
  obtain ⟨hle, hzero, -, -⟩ := (allUnspent n).foldl_maskStep ((n + 5) / 8)
  have hbyte : ∀ b < (n + 5) / 8, (allUnspent n).maskByte b ≠ 0 := by
    intro b hb hbzero
    have hfirst := (Bitmap.byteOf_eq_zero_iff b).mp hbzero 0 (by decide)
    rw [isAvailable_allUnspent (by omega)] at hfirst
    cases hfirst
  have hsize : (allUnspent n).calcMaskSize.1 = (n + 5) / 8 := by
    rw [calcMaskSize, hlength]
    by_contra hne
    exact hbyte _ (lt_of_le_of_ne hle hne) (hzero _ le_rfl (lt_of_le_of_ne hle hne))
  rw [← nonzero_mask, mask, hsize, Bitmap.nonzero, List.countP_eq_length.mpr, List.length_map,
    List.length_range]
  intro x hx
  obtain ⟨b, hb, rfl⟩ := List.mem_map.mp hx
  simpa using hbyte b (List.mem_range.mp hb)

theorem decompress_of_invalid (x y : Bytes) (_ : x.length = 32) (_ : y.length = 32)
    (h : false = true) : (none : Option Bytes) = some (4 :: (x ++ y)) := by
  cases h

/-- A library of keys without uncompressed ones. -/
def noKeys : PubKeys where
  isFullyValid _ := false
  decompress _ := none
  decompress_eq := decompress_of_invalid

/-- The number of mask bytes of 2^31 + 2 outputs is a multiple of 2^28, and the code says there are
none. -/
theorem allUnspent_not_roundTrips :
    (allUnspent (2 ^ 31 + 2)).Storable ∧ (allUnspent (2 ^ 31 + 2)).code = 6 ∧
      ¬ (allUnspent (2 ^ 31 + 2)).RoundTrips noKeys := by
  have hstorable : (allUnspent (2 ^ 31 + 2)).Storable := storable_allUnspent (by omega)
  have hfirst := isAvailable_allUnspent (show 0 < 2 ^ 31 + 2 by omega)
  have hsecond := isAvailable_allUnspent (show 1 < 2 ^ 31 + 2 by omega)
  have hcode : (allUnspent (2 ^ 31 + 2)).maskCode = 2 ^ 28 := by
    rw [maskCode, calcMaskSize_allUnspent, hfirst]
    rfl
  refine ⟨hstorable, ?_, hstorable.not_roundTrips hcode.ge⟩
  rw [code, hcode, hfirst, hsecond]
  rfl

/-- A coinstake of which the first output and the third are spent. -/
def partlySpent : CCoins :=
  ⟨false, true, [CTxOut.null, ⟨150, [OP_RETURN]⟩, CTxOut.null, ⟨7, []⟩], 5, 1, 9⟩

theorem storable_partlySpent : partlySpent.Storable where
  unspent := by decide
  trimmed := by decide
  spent := by decide
  txout := by
    intro txout hmem hnull
    simp only [partlySpent, List.mem_cons, List.not_mem_nil, or_false] at hmem
    obtain rfl | rfl | rfl | rfl := hmem
    · cases hnull
    · exact ⟨by decide, by decide⟩
    · cases hnull
    · exact ⟨by decide, by decide⟩
  height := by decide
  version := by decide

theorem roundTrips_partlySpent : partlySpent.Fits ∧ partlySpent.RoundTrips noKeys := by
  have hfits : partlySpent.Fits := fits_of_length_le (by decide)
  exact ⟨hfits, (roundTrips_iff noKeys partlySpent storable_partlySpent).mpr hfits⟩

end CCoins

end X2XCoin
