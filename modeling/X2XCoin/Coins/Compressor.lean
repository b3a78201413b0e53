import X2XCoin.Lib.VarInt
import X2XCoin.Primitives.Serialize
import X2XCoin.Script.Script

/-!
# Compressed outputs

`CTxOutCompressor` and `CScriptCompressor` of `compressor.{h,cpp}`.
-/

open ByteCodec

namespace X2XCoin

/-- What the compressor takes from the curve: the test of an uncompressed key, and the point with a
given first coordinate and parity, which is the key that was compressed. -/
structure PubKeys where
  isFullyValid : Bytes → Bool
  decompress : Bytes → Option Bytes
  decompress_eq : ∀ x y : Bytes, x.length = 32 → ∀ hy : y.length = 32,
    isFullyValid (4 :: (x ++ y)) = true →
      decompress ((2 + y.getLast (List.ne_nil_of_length_eq_add_one hy) % 2) :: x) =
        some (4 :: (x ++ y))

/-! ## Amounts -/

/-- Divide by ten while the last digit is zero, at most `k` times. -/
def stripZeros : ℕ → UInt64 → ℕ → UInt64 × ℕ
  | 0, n, e => (n, e)
  | k + 1, n, e => if n % 10 = 0 then stripZeros k (n / 10) (e + 1) else (n, e)

def compressAmount (nAmount : UInt64) : UInt64 :=
  if nAmount = 0 then 0
  else
    let (n, e) := stripZeros 9 nAmount 0
    if e < 9 then
      let d := n % 10
      let n := n / 10
      1 + (n * 9 + d - 1) * 10 + UInt64.ofNat e
    else 1 + (n - 1) * 10 + 9

def decompressAmount (x : UInt64) : UInt64 :=
  if x = 0 then 0
  else
    let x := x - 1
    let e := x % 10
    let x := x / 10
    let n := if e < 9 then x / 9 * 10 + (x % 9 + 1) else x + 1
    n * 10 ^ e.toNat

/-! ## Scripts -/

def isToKeyID (script : CScript) : Option Bytes :=
  match script with
  | a :: b :: c :: s =>
    if s.length = 22 ∧ a = OP_DUP ∧ b = OP_HASH160 ∧ c = 20 ∧
        s.drop 20 = [OP_EQUALVERIFY, OP_CHECKSIG] then
      some (s.take 20)
    else none
  | _ => none

def isToScriptID (script : CScript) : Option Bytes :=
  match script with
  | a :: b :: s =>
    if s.length = 21 ∧ a = OP_HASH160 ∧ b = 20 ∧ s.drop 20 = [OP_EQUAL] then some (s.take 20)
    else none
  | _ => none

def isToPubKey (keys : PubKeys) (script : CScript) : Option Bytes :=
  match script with
  | a :: b :: s =>
    if s.length = 33 ∧ a = 33 ∧ s.drop 32 = [OP_CHECKSIG] ∧ (b = 2 ∨ b = 3) then
      some (b :: s.take 32)
    else if s.length = 65 ∧ a = 65 ∧ s.drop 64 = [OP_CHECKSIG] ∧ b = 4 ∧
        keys.isFullyValid (b :: s.take 64) then
      some (b :: s.take 64)
    else none
  | _ => none

/-- `Compress`: the special forms, the first byte of which is the number of the form. -/
def compressScript (keys : PubKeys) (script : CScript) : Option Bytes :=
  match isToKeyID script with
  | some hash => some (0 :: hash)
  | none =>
    match isToScriptID script with
    | some hash => some (1 :: hash)
    | none =>
      match isToPubKey keys script with
      | some (b :: key) =>
        if b = 4 then some ((4 + key.getLastD 0 % 2) :: key.take 32) else some (b :: key.take 32)
      | _ => none

/-- The number of special forms. -/
def nSpecialScripts : ℕ := 6

def getSpecialSize (nSize : ℕ) : ℕ :=
  if nSize = 0 ∨ nSize = 1 then 20
  else if nSize = 2 ∨ nSize = 3 ∨ nSize = 4 ∨ nSize = 5 then 32
  else 0

/-- `Decompress`; where it fails the script stays as it was, empty. -/
def decompressScript (keys : PubKeys) (nSize : ℕ) (data : Bytes) : CScript :=
  match nSize with
  | 0 => [OP_DUP, OP_HASH160, 20] ++ data ++ [OP_EQUALVERIFY, OP_CHECKSIG]
  | 1 => [OP_HASH160, 20] ++ data ++ [OP_EQUAL]
  | 2 => [33, 2] ++ data ++ [OP_CHECKSIG]
  | 3 => [33, 3] ++ data ++ [OP_CHECKSIG]
  | 4 => ((keys.decompress (2 :: data)).map fun key => 65 :: key ++ [OP_CHECKSIG]).getD []
  | 5 => ((keys.decompress (3 :: data)).map fun key => 65 :: key ++ [OP_CHECKSIG]).getD []
  | _ => []

def writeScript (keys : PubKeys) (script : CScript) : Bytes :=
  match compressScript keys script with
  | some compr => compr
  | none => VarInt.write 32 ((script.length + nSpecialScripts) % 2 ^ 32) ++ script

/-- A script above `MAX_SCRIPT_SIZE` is skipped and read as a short invalid one. -/
def readScript (keys : PubKeys) : Reader CScript := do
  let nSize ← VarInt.read 32
  if nSize < nSpecialScripts then
    let vch ← readFlat (getSpecialSize nSize)
    pure (decompressScript keys nSize vch)
  else if nSize - nSpecialScripts > MAX_SCRIPT_SIZE then
    let _ ← readFlat (nSize - nSpecialScripts)
    pure [OP_RETURN]
  else readFlat (nSize - nSpecialScripts)

/-! ## Outputs -/

/-- An output on the way to disk. -/
def writeTxOut (keys : PubKeys) (txout : CTxOut) : Bytes :=
  VarInt.write 64 (compressAmount txout.nValue.toUInt64).toNat ++ writeScript keys txout.scriptPubKey

def readTxOut (keys : PubKeys) : Reader CTxOut := do
  let nVal ← VarInt.read 64
  let scriptPubKey ← readScript keys
  pure ⟨(decompressAmount (UInt64.ofNat nVal)).toInt64, scriptPubKey⟩

/-- The outputs on which the format is lossless. -/
structure CTxOut.Compressible (o : CTxOut) : Prop where
  amount : decompressAmount (compressAmount o.nValue.toUInt64) = o.nValue.toUInt64
  script : o.scriptPubKey.length ≤ MAX_SCRIPT_SIZE

/-! ## What is written is read back -/

def SpecialForm (keys : PubKeys) (script : CScript) (compr : Bytes) : Prop :=
  ∃ b data, compr = b :: data ∧ b.toNat < nSpecialScripts ∧
    data.length = getSpecialSize b.toNat ∧ decompressScript keys b.toNat data = script

variable {keys : PubKeys} {script : CScript}

theorem specialForm_of_isToKeyID {hash : Bytes} (h : isToKeyID script = some hash) :
    SpecialForm keys script (0 :: hash) := by
  unfold isToKeyID at h
  split at h
  · next a b c s =>
    split_ifs at h with hs
    obtain ⟨hlen, rfl, rfl, rfl, hdrop⟩ := hs
    obtain rfl : s.take 20 = hash := by simpa using h
    refine ⟨0, s.take 20, rfl, by decide, ?_, ?_⟩
    · simp [hlen, getSpecialSize]
    · simp only [UInt8.toNat_zero, decompressScript, ← hdrop, List.append_assoc, List.take_append_drop]
      rfl
  · cases h

theorem specialForm_of_isToScriptID {hash : Bytes} (h : isToScriptID script = some hash) :
    SpecialForm keys script (1 :: hash) := by
  unfold isToScriptID at h
  split at h
  · next a b s =>
    split_ifs at h with hs
    obtain ⟨hlen, rfl, rfl, hdrop⟩ := hs
    obtain rfl : s.take 20 = hash := by simpa using h
    refine ⟨1, s.take 20, rfl, by decide, ?_, ?_⟩
    · simp [hlen, getSpecialSize]
    · simp only [UInt8.toNat_one, decompressScript, ← hdrop, List.append_assoc, List.take_append_drop]
      rfl
  · cases h

theorem specialForm_compressed {b : UInt8} {s : Bytes} (hlen : s.length = 33)
    (hdrop : s.drop 32 = [OP_CHECKSIG]) (hb : b = 2 ∨ b = 3) :
    SpecialForm keys (33 :: b :: s) (b :: s.take 32) := by
  rcases hb with rfl | rfl
  all_goals
    refine ⟨_, s.take 32, rfl, by decide, ?_, ?_⟩
    · simp [hlen, getSpecialSize]
    · simp [decompressScript, ← hdrop]

/-- The parity in the form and the first coordinate give the key back. -/
theorem specialForm_uncompressed {s : Bytes} (hlen : s.length = 65)
    (hdrop : s.drop 64 = [OP_CHECKSIG]) (hvalid : keys.isFullyValid (4 :: s.take 64) = true) :
    SpecialForm keys (65 :: 4 :: s) ((4 + (s.take 64).getLastD 0 % 2) :: (s.take 64).take 32) := by
  obtain ⟨x, y, hx, hy, hxy⟩ : ∃ x y : Bytes, x.length = 32 ∧ y.length = 32 ∧ s.take 64 = x ++ y :=
    ⟨(s.take 64).take 32, (s.take 64).drop 32, by simp [hlen], by simp [hlen],
      (List.take_append_drop 32 _).symm⟩
  have hne : y ≠ [] := List.ne_nil_of_length_eq_add_one hy
  have hlast : (s.take 64).getLastD 0 = y.getLast hne := by
    rw [hxy, List.getLastD_eq_getLast?, List.getLast?_append_of_ne_nil _ hne,
      List.getLast?_eq_some_getLast hne, Option.getD_some]
  have htake : (s.take 64).take 32 = x := by rw [hxy, ← hx, List.take_left]
  have hkey := keys.decompress_eq x y hx hy (hxy ▸ hvalid)
  have hs : 65 :: (4 :: (x ++ y)) ++ [OP_CHECKSIG] = 65 :: 4 :: s := by
    rw [← hdrop, ← hxy]
    simp
  rw [hlast, htake]
  have hparity : y.getLast hne % 2 = 0 ∨ y.getLast hne % 2 = 1 := by
    rcases Nat.mod_two_eq_zero_or_one (y.getLast hne).toNat with h | h
    · exact .inl (UInt8.toNat_inj.mp (by simpa using h))
    · exact .inr (UInt8.toNat_inj.mp (by simpa using h))
  rcases hparity with hp | hp
  all_goals
    rw [hp] at hkey ⊢
    refine ⟨_, x, rfl, by decide, by rw [hx]; rfl, ?_⟩
  · have hkey : keys.decompress (2 :: x) = some (4 :: (x ++ y)) := hkey
    show ((keys.decompress (2 :: x)).map _).getD [] = _
    rw [hkey, ← hs]
    rfl
  · have hkey : keys.decompress (3 :: x) = some (4 :: (x ++ y)) := hkey
    show ((keys.decompress (3 :: x)).map _).getD [] = _
    rw [hkey, ← hs]
    rfl

theorem specialForm_of_isToPubKey {b : UInt8} {key : Bytes}
    (h : isToPubKey keys script = some (b :: key)) :
    SpecialForm keys script
      (if b = 4 then (4 + key.getLastD 0 % 2) :: key.take 32 else b :: key.take 32) := by
  unfold isToPubKey at h
  split at h
  · next a b' s =>
    split_ifs at h with h33 h65
    · obtain ⟨hlen, rfl, hdrop, hb⟩ := h33
      obtain ⟨rfl, rfl⟩ : b' = b ∧ s.take 32 = key := by simpa using h
      have hne : b' ≠ 4 := by rcases hb with rfl | rfl <;> decide
      rw [if_neg hne, List.take_take, min_self]
      exact specialForm_compressed hlen hdrop hb
    · obtain ⟨hlen, rfl, hdrop, rfl, hvalid⟩ := h65
      obtain ⟨rfl, rfl⟩ : 4 = b ∧ s.take 64 = key := by simpa using h
      rw [if_pos rfl]
      exact specialForm_uncompressed hlen hdrop hvalid
  · cases h

theorem specialForm_of_compressScript {compr : Bytes}
    (h : compressScript keys script = some compr) : SpecialForm keys script compr := by
  unfold compressScript at h
  split at h
  · next hash hhash =>
    obtain rfl := Option.some.inj h
    exact specialForm_of_isToKeyID hhash
  · split at h
    · next hash hhash =>
      obtain rfl := Option.some.inj h
      exact specialForm_of_isToScriptID hhash
    · split at h
      · next b key hkey =>
        rw [← apply_ite some] at h
        obtain rfl := Option.some.inj h
        exact specialForm_of_isToPubKey hkey
      · cases h

theorem reads_readScript (keys : PubKeys) (hlen : script.length ≤ MAX_SCRIPT_SIZE) :
    Reads (readScript keys) (writeScript keys script) script := by
  unfold writeScript
  cases hcompr : compressScript keys script with
  | some compr =>
    obtain ⟨b, data, rfl, hb, hdata, hscript⟩ := specialForm_of_compressScript hcompr
    have hsix : nSpecialScripts = 6 := rfl
    have hbyte : Reads (VarInt.read 32) [b] b.toNat :=
      VarInt.reads_read_byte (by omega) (by norm_num; omega)
    apply hbyte.bind
    rw [if_pos hb, ← hscript, ← hdata]
    exact (reads_readFlat data).bind_pure
  | none =>
    have hsix : nSpecialScripts = 6 := rfl
    have hmax : MAX_SCRIPT_SIZE = 10000 := rfl
    have hsize : (script.length + nSpecialScripts) % 2 ^ 32 = script.length + nSpecialScripts :=
      Nat.mod_eq_of_lt (by omega)
    simp only [hsize]
    apply (VarInt.reads_read (by omega)).bind
    rw [if_neg (by omega), if_neg (by omega), Nat.add_sub_cancel]
    exact reads_readFlat script

theorem reads_readTxOut (keys : PubKeys) {o : CTxOut} (h : o.Compressible) :
    Reads (readTxOut keys) (writeTxOut keys o) o := by
  apply (VarInt.reads_read (compressAmount o.nValue.toUInt64).toNat_lt).bind
  have hvalue : (decompressAmount (UInt64.ofNat (compressAmount o.nValue.toUInt64).toNat)).toInt64 =
      o.nValue := by
    rw [UInt64.ofNat_toNat, h.amount]
    rfl
  simp only [hvalue]
  exact (reads_readScript keys h.script).bind_pure

end X2XCoin
