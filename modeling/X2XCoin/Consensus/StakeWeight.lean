import X2XCoin.Consensus.Pos
import X2XCoin.Consensus.Pow
import X2XCoin.Primitives.Amount

/-!
# The weight of a stake

The weighted target of a kernel is the product of the base target and the value staked, modulo
`2 ^ 256`.
-/

open ByteCodec

namespace X2XCoin

/-- More value never makes a kernel fail, with everything else the same. -/
def StakeWeightMonotone (nBits : UInt32) : Prop :=
  ∀ (crypto : Crypto) (pindexPrev : CBlockIndex) (txPrev txPrev' : CCoins) (prevout : COutPoint)
    (nTimeTx : UInt32) (o o' : CTxOut),
    txPrev.nTime = txPrev'.nTime → txPrev.vout[prevout.n.toNat]? = some o →
    txPrev'.vout[prevout.n.toNat]? = some o' → 0 < o.nValue → o.nValue ≤ o'.nValue →
    o'.nValue ≤ MAX_MONEY →
    checkStakeKernelHash crypto pindexPrev nBits txPrev prevout nTimeTx = .ok true →
    checkStakeKernelHash crypto pindexPrev nBits txPrev' prevout nTimeTx = .ok true

/-- The weighted target is the product of target and value, cut off at the largest target. -/
def WeightedTargetSaturates (nBits : UInt32) : Prop :=
  ∀ v : CAmount, 0 < v → v ≤ MAX_MONEY →
    (weightedTarget nBits v).toNat =
      min ((setCompact nBits).target.toNat * v.toInt.toNat) (2 ^ 256 - 1)

theorem toNat_weightedTarget (nBits : UInt32) {v : CAmount} (h : 0 ≤ v.toInt) :
    (weightedTarget nBits v).toNat =
      (setCompact nBits).target.toNat * v.toInt.toNat % 2 ^ 256 := by
  have hv : v.toInt.toNat < 2 ^ 256 := by
    have := v.toInt_lt
    omega
  rw [weightedTarget, BitVec.toNat_mul, BitVec.toNat_ofNat, toNat_toUInt64 h,
    Nat.mod_eq_of_lt hv]

/-- When a kernel passes: the time stamp is in order and the hash is at most the weighted target. -/
theorem checkStakeKernelHash_eq_ok {crypto : Crypto} {pindexPrev : CBlockIndex} {nBits : UInt32}
    {txPrev : CCoins} {prevout : COutPoint} {nTimeTx : UInt32} {o : CTxOut}
    (ho : txPrev.vout[prevout.n.toNat]? = some o) (hv : 0 < o.nValue) :
    checkStakeKernelHash crypto pindexPrev nBits txPrev prevout nTimeTx = .ok true ↔
      ¬ nTimeTx < txPrev.nTime ∧
        (kernelHash crypto pindexPrev.nStakeModifier txPrev.nTime prevout nTimeTx).toNat ≤
          (weightedTarget nBits o.nValue).toNat := by
  have hne : o.nValue ≠ 0 := fun he => by
    rw [he] at hv
    exact absurd hv (by decide)
  unfold checkStakeKernelHash
  split_ifs with ht
  · simp [ht]
  · simp [ht, ho, hne, orFail, Bind.bind, Except.bind, pure, Except.pure, BitVec.le_def]

/-- The first multiple of `T` that reaches `N` wraps to less than `T`. -/
theorem exists_first_wrap {T M N : ℕ} (h0 : 0 < T) (hT : T < N) (hM : N ≤ T * M) :
    ∃ q, 0 < q ∧ q < M ∧ T * q < N ∧ T * (q + 1) % N < T := by
  have hq := Nat.div_add_mod (N - 1) T
  have hr := Nat.mod_lt (N - 1) h0
  set q := (N - 1) / T with hqdef
  have hlt : T * q < N := by omega
  have hge : N ≤ T * (q + 1) := by rw [Nat.mul_add]; omega
  refine ⟨q, ?_, ?_, hlt, ?_⟩
  · exact Nat.div_pos (by omega) h0
  · exact Nat.lt_of_mul_lt_mul_left (hlt.trans_le hM)
  · have hsub : T * (q + 1) - N < T := by rw [Nat.mul_add] at hge ⊢; omega
    rw [Nat.mod_eq_sub_mod hge, Nat.mod_eq_of_lt (hsub.trans hT)]
    exact hsub

theorem exists_amount {q : ℕ} (hq : q < 2 ^ 63) : ∃ v : CAmount, v.toInt = q :=
  ⟨Int64.ofInt q, Int64.toInt_ofInt_of_le (by omega) (by omega)⟩

section

variable {nBits : UInt32}

theorem stakeWeightMonotone_of_lt
    (h : (setCompact nBits).target.toNat * MAX_MONEY.toInt.toNat < 2 ^ 256) :
    StakeWeightMonotone nBits := by
  intro crypto pindexPrev txPrev txPrev' prevout nTimeTx o o' htime ho ho' hv hle hmax hpass
  have hv' : 0 < o'.nValue := by
    rw [Int64.lt_iff_toInt_lt] at hv ⊢
    rw [Int64.le_iff_toInt_le] at hle
    omega
  rw [checkStakeKernelHash_eq_ok ho hv] at hpass
  rw [checkStakeKernelHash_eq_ok ho' hv', ← htime]
  refine ⟨hpass.1, hpass.2.trans ?_⟩
  rw [Int64.lt_iff_toInt_lt] at hv hv'
  rw [Int64.le_iff_toInt_le] at hle hmax
  have hz : (0 : CAmount).toInt = 0 := rfl
  have hmono : ∀ {a b : ℤ}, a ≤ b → (setCompact nBits).target.toNat * a.toNat ≤
      (setCompact nBits).target.toNat * b.toNat :=
    fun hab => Nat.mul_le_mul_left _ (Int.toNat_le_toNat hab)
  rw [toNat_weightedTarget nBits (by omega), toNat_weightedTarget nBits (by omega),
    Nat.mod_eq_of_lt ((hmono (hle.trans hmax)).trans_lt h),
    Nat.mod_eq_of_lt ((hmono hmax).trans_lt h)]
  exact hmono hle

theorem weightedTargetSaturates_of_lt
    (h : (setCompact nBits).target.toNat * MAX_MONEY.toInt.toNat < 2 ^ 256) :
    WeightedTargetSaturates nBits := by
  intro v hv hmax
  rw [Int64.lt_iff_toInt_lt] at hv
  rw [Int64.le_iff_toInt_le] at hmax
  have hz : (0 : CAmount).toInt = 0 := rfl
  have hlt : (setCompact nBits).target.toNat * v.toInt.toNat < 2 ^ 256 :=
    (Nat.mul_le_mul_left _ (Int.toNat_le_toNat hmax)).trans_lt h
  rw [toNat_weightedTarget nBits (by omega), Nat.mod_eq_of_lt hlt, min_eq_left (by omega)]

/-- Where the product with `MAX_MONEY` reaches `2 ^ 256`, two consecutive values have weighted
targets in the wrong order. -/
theorem exists_weightedTarget_gt (h0 : 0 < (setCompact nBits).target)
    (h : 2 ^ 256 ≤ (setCompact nBits).target.toNat * MAX_MONEY.toInt.toNat) :
    ∃ v v' : CAmount, 0 < v ∧ v ≤ v' ∧ v' ≤ MAX_MONEY ∧
      (weightedTarget nBits v').toNat < (weightedTarget nBits v).toNat ∧
      (weightedTarget nBits v').toNat < (setCompact nBits).target.toNat ∧
      2 ^ 256 ≤ (setCompact nBits).target.toNat * v'.toInt.toNat := by
  have hpos : 0 < (setCompact nBits).target.toNat := by
    simpa [BitVec.lt_def] using h0
  obtain ⟨q, hq0, hqM, hlt, hwrap⟩ :=
    exists_first_wrap hpos (setCompact nBits).target.isLt h
  have hM : MAX_MONEY.toInt.toNat = 2 ^ 63 - 1 := by rw [toInt_MAX_MONEY]; rfl
  obtain ⟨v, hv⟩ := exists_amount (q := q) (by omega)
  obtain ⟨v', hv'⟩ := exists_amount (q := q + 1) (by omega)
  have hz : (0 : CAmount).toInt = 0 := rfl
  have hw : (weightedTarget nBits v).toNat = (setCompact nBits).target.toNat * q := by
    rw [toNat_weightedTarget nBits (by omega), hv, Int.toNat_natCast, Nat.mod_eq_of_lt hlt]
  have hw' : (weightedTarget nBits v').toNat =
      (setCompact nBits).target.toNat * (q + 1) % 2 ^ 256 := by
    rw [toNat_weightedTarget nBits (by omega), hv', Int.toNat_natCast]
  refine ⟨v, v', ?_, ?_, le_MAX_MONEY v', ?_, ?_, ?_⟩
  · rw [Int64.lt_iff_toInt_lt]
    omega
  · rw [Int64.le_iff_toInt_le]
    omega
  · rw [hw, hw']
    exact hwrap.trans_le (Nat.le_mul_of_pos_right _ hq0)
  · rw [hw']
    exact hwrap
  · rw [hv', Int.toNat_natCast]
    by_contra hcon
    rw [Nat.mod_eq_of_lt (not_le.mp hcon)] at hwrap
    exact absurd hwrap (not_lt.mpr (Nat.le_mul_of_pos_right _ (Nat.succ_pos q)))

theorem pos_of_pos_of_le {v v' : CAmount} (hv : 0 < v) (hle : v ≤ v') : 0 < v' := by
  rw [Int64.lt_iff_toInt_lt] at hv ⊢
  rw [Int64.le_iff_toInt_le] at hle
  omega

/-- A hash equal to the larger of two weighted targets tells the two values apart. -/
theorem not_stakeWeightMonotone {v v' : CAmount} (hv : 0 < v) (hle : v ≤ v')
    (hgt : (weightedTarget nBits v').toNat < (weightedTarget nBits v).toNat) :
    ¬ StakeWeightMonotone nBits := by
  intro hmono
  let crypto : Crypto := ⟨fun _ => weightedTarget nBits v, fun _ => 0, fun _ _ _ => false,
    fun _ => false, fun _ _ _ _ _ => .ok ()⟩
  have hhash : ∀ m t o t', kernelHash crypto m t o t' = weightedTarget nBits v :=
    fun _ _ _ _ => rfl
  have hpass := hmono crypto (CBlockIndex.ofHeader 0 ⟨0, 0, 0, 0, 0, 0⟩)
    { vout := [⟨v, []⟩] } { vout := [⟨v', []⟩] } ⟨0, 0⟩ 0 ⟨v, []⟩ ⟨v', []⟩ rfl rfl rfl hv hle
    (le_MAX_MONEY v')
  rw [checkStakeKernelHash_eq_ok (o := ⟨v, []⟩) rfl hv,
    checkStakeKernelHash_eq_ok (o := ⟨v', []⟩) rfl (pos_of_pos_of_le hv hle), hhash] at hpass
  exact absurd (hpass ⟨lt_irrefl (0 : ℕ), le_rfl⟩).2 (not_le.mpr hgt)

/-- A larger stake passes wherever a smaller one does, and the weighted target never wraps, exactly
for targets whose product with `MAX_MONEY` stays below `2 ^ 256`. -/
theorem stakeWeight_iff (h0 : 0 < (setCompact nBits).target)
    (hlimit : (setCompact nBits).target ≤ mainParams.posLimitV2) :
    (StakeWeightMonotone nBits ↔
      (setCompact nBits).target.toNat * MAX_MONEY.toInt.toNat < 2 ^ 256) ∧
    (WeightedTargetSaturates nBits ↔
      (setCompact nBits).target.toNat * MAX_MONEY.toInt.toNat < 2 ^ 256) := by
  refine ⟨⟨fun hmono => ?_, stakeWeightMonotone_of_lt⟩,
    ⟨fun hsat => ?_, weightedTargetSaturates_of_lt⟩⟩
  · by_contra hge
    obtain ⟨v, v', hv, hle, -, hgt, -⟩ := exists_weightedTarget_gt h0 (not_lt.mp hge)
    exact not_stakeWeightMonotone hv hle hgt hmono
  · by_contra hge
    obtain ⟨v, v', hv, hle, hmax, -, hsmall, hbig⟩ := exists_weightedTarget_gt h0 (not_lt.mp hge)
    have hcut := hsat v' (pos_of_pos_of_le hv hle) hmax
    have hlim : (setCompact nBits).target.toNat ≤ 2 ^ 236 - 1 := hlimit
    rw [min_eq_right (by omega)] at hcut
    omega

theorem stakeWeight_of_small_target :
    StakeWeightMonotone 0x1800ffff ∧ WeightedTargetSaturates 0x1800ffff := by
  obtain ⟨hmono, hsat⟩ := @stakeWeight_iff 0x1800ffff (by decide) (by decide)
  exact ⟨hmono.mpr (by decide), hsat.mpr (by decide)⟩

end

/-- A coin of the given value, received at height 1 of the main net. -/
def smallCoin (v : CAmount) : CCoins :=
  { vout := [⟨v, [0x51]⟩], nHeight := 1, nVersion := 1, nTime := 1769817680 }

def smallCoinOutPoint : COutPoint :=
  ⟨0x14b8e44a4395f8ddca88e61d693bd720d0db1de667c678d7503821b16f9dfa7f, 0⟩

/-- Double SHA-256 on the kernel of `smallCoinOutPoint` at time 1769820880. -/
def smallCoinCrypto : Crypto where
  hash256 bytes :=
    if bytes = writeUint256 0 ++ leBytes 4 1769817680 ++ writeUint256 smallCoinOutPoint.hash ++
        leBytes 4 0 ++ leBytes 4 1769820880 then
      0x0e643543c853aff1eba6b46380f7e2dc256c172abd96f866c834a04d9d0c4d91
    else 0
  scrypt _ := 0
  verify _ _ _ := false
  checkLowS _ := false
  verifyScript _ _ _ _ _ := .error "unknown error"

/-- With the bits the first proof-of-stake block must have, a coin of 1048577 satoshis passes and
one of 1048578 does not. -/
theorem smallCoin_passes_larger_fails :
    getNextTargetRequired mainParams [mainGenesisIndex] true = 0x1e0fffff ∧
      checkStakeKernelHash smallCoinCrypto mainGenesisIndex 0x1e0fffff (smallCoin 1048577)
        smallCoinOutPoint 1769820880 = .ok true ∧
      checkStakeKernelHash smallCoinCrypto mainGenesisIndex 0x1e0fffff (smallCoin 1048578)
        smallCoinOutPoint 1769820880 = .ok false := by
  decide +kernel

end X2XCoin
