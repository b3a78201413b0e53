import X2XCoin.Consensus.Arith256
import X2XCoin.Consensus.Pow

/-!
# Retargeting on the main net

`CalculateNextTargetRequired` with the parameters of the main net.  Nothing is lost in the 32-bit
factor or the 256-bit product, and only the compact form rounds.
-/

namespace X2XCoin

open Truncation

/-- The numerator of the factor for a spacing. -/
def retargetFactor (spacing : ℤ) : ℕ := 3480 + 2 * (min spacing 1200).toNat

/-- The next target before it is rounded. -/
def retargeted (limit target : ℕ) (spacing : ℤ) : ℕ :=
  min limit (target * retargetFactor spacing / 3720)

theorem retargetFactor_le (spacing : ℤ) : retargetFactor spacing ≤ 5880 := by
  unfold retargetFactor
  omega

theorem retargeted_mono (limit target : ℕ) {a b : ℤ} (h : a ≤ b) :
    retargeted limit target a ≤ retargeted limit target b := by
  refine min_le_min_left limit (Nat.div_le_div_right (Nat.mul_le_mul_left target ?_))
  unfold retargetFactor
  omega

theorem retargeted_target_spacing {limit target : ℕ} (h : target ≤ limit) :
    retargeted limit target 120 = target := by
  have hfactor : retargetFactor 120 = 3720 := rfl
  rw [retargeted, hfactor, Nat.mul_div_cancel _ (by decide), min_eq_right h]

theorem retargeted_pos {limit target : ℕ} (htarget : 2 ≤ target) (hlimit : target ≤ limit) {a : ℤ}
    (ha : 1 ≤ a) : 0 < retargeted limit target a := by
  refine lt_min (by omega) (Nat.div_pos ?_ (by decide))
  have hfactor : 3482 ≤ retargetFactor a := by
    unfold retargetFactor
    omega
  calc 3720 ≤ 2 * 3482 := by decide
    _ ≤ target * retargetFactor a := Nat.mul_le_mul htarget hfactor

section

variable {last : CBlockIndex} {nFirstBlockTime : ℤ} {fProofOfStake : Bool}

theorem getTargetLimit_main (nTime : ℤ) (fProofOfStake : Bool) :
    getTargetLimit mainParams nTime fProofOfStake = BitVec.ofNat 256 (2 ^ 236 - 1) := by
  unfold getTargetLimit
  split_ifs <;> rfl

theorem actualSpacing_main (hV3 : mainParams.isProtocolV3 last.getBlockTime = true)
    (hspacing : 1 ≤ last.getBlockTime - nFirstBlockTime) :
    actualSpacing mainParams 120 last.getBlockTime nFirstBlockTime =
      min (last.getBlockTime - nFirstBlockTime) 1200 := by
  have hnonneg : ¬ (mainParams.isProtocolV1RetargetingFixed last.getBlockTime = true ∧
      last.getBlockTime - nFirstBlockTime < 0) := fun h => by omega
  simp only [actualSpacing, hV3, if_neg hnonneg, true_and]
  split_ifs with h <;> omega

/-- The factor passes the 32-bit parameter, and the product the 256 bits. -/
theorem toNat_retarget (nBits : UInt32) (spacing : ℤ)
    (hlimit : (setCompact nBits).target.toNat ≤ 2 ^ 236 - 1) :
    ((setCompact nBits).target * BitVec.ofNat 256 (retargetFactor spacing) /
      BitVec.ofNat 256 3720).toNat =
        (setCompact nBits).target.toNat * retargetFactor spacing / 3720 := by
  have hfactor := retargetFactor_le spacing
  have hproduct : (setCompact nBits).target.toNat * retargetFactor spacing < 2 ^ 256 :=
    (Nat.mul_le_mul hlimit hfactor).trans_lt (by decide)
  rw [BitVec.toNat_udiv, BitVec.toNat_mul, BitVec.toNat_ofNat, BitVec.toNat_ofNat,
    Nat.mod_eq_of_lt (by omega : retargetFactor spacing < 2 ^ 256), Nat.mod_eq_of_lt hproduct,
    Nat.mod_eq_of_lt (by decide : 3720 < 2 ^ 256)]

section

variable (hV3 : mainParams.isProtocolV3 last.getBlockTime = true)
  (htarget : 2 ≤ (setCompact last.nBits).target.toNat)
  (hlimit : (setCompact last.nBits).target.toNat ≤ 2 ^ 236 - 1)
  (hspacing : 1 ≤ last.getBlockTime - nFirstBlockTime)
include hV3 htarget hlimit hspacing

theorem calculateNextTargetRequired_main :
    calculateNextTargetRequired mainParams last nFirstBlockTime fProofOfStake =
      getCompact (BitVec.ofNat 256 (retargeted (2 ^ 236 - 1) (setCompact last.nBits).target.toNat
        (last.getBlockTime - nFirstBlockTime))) := by
  have hpos := retargeted_pos htarget hlimit hspacing
  have hnoretarget : (if fProofOfStake = true then mainParams.fPoSNoRetargeting
      else mainParams.fPowNoRetargeting) = false := by
    split_ifs <;> rfl
  have hsame : (if mainParams.isProtocolV2 last.getBlockTime = true then mainParams.nTargetSpacing
      else mainParams.nTargetSpacingV1) = 120 := by
    split_ifs <;> rfl
  have hinterval : mainParams.nTargetTimespan.tdiv 120 = 30 := rfl
  have hfactor : BitVec.ofInt 256 (((30 - 1) * 120 +
      min (last.getBlockTime - nFirstBlockTime) 1200 +
      min (last.getBlockTime - nFirstBlockTime) 1200) % 2 ^ 32) =
      BitVec.ofNat 256 (retargetFactor (last.getBlockTime - nFirstBlockTime)) := by
    rw [← BitVec.ofInt_natCast]
    congr 1
    unfold retargetFactor
    omega
  have hdivisor : BitVec.ofInt 256 (((30 + 1) * 120) % 2 ^ 64) = BitVec.ofNat 256 3720 := rfl
  unfold calculateNextTargetRequired
  rw [hnoretarget, if_neg Bool.false_ne_true]
  simp only [hsame, hinterval, actualSpacing_main hV3 hspacing, hfactor, hdivisor,
    getTargetLimit_main]
  congr 1
  have hval := toNat_retarget last.nBits (last.getBlockTime - nFirstBlockTime) hlimit
  rw [retargeted, ← hval] at hpos ⊢
  generalize (setCompact last.nBits).target *
    BitVec.ofNat 256 (retargetFactor (last.getBlockTime - nFirstBlockTime)) /
      BitVec.ofNat 256 3720 = bnNew at hpos ⊢
  have hmax : (BitVec.ofNat 256 (2 ^ 236 - 1)).toNat = 2 ^ 236 - 1 := rfl
  have hne : bnNew ≠ 0 := by
    rintro rfl
    exact absurd hpos (by decide)
  by_cases hgt : bnNew > BitVec.ofNat 256 (2 ^ 236 - 1)
  · have hle : 2 ^ 236 - 1 ≤ bnNew.toNat := (BitVec.lt_def.mp hgt).le
    rw [if_pos (.inr hgt), min_eq_left hle]
  · have hle : bnNew.toNat ≤ 2 ^ 236 - 1 := not_lt.mp fun h => hgt (BitVec.lt_def.mpr h)
    rw [if_neg (not_or.mpr ⟨hne, hgt⟩), min_eq_right hle, BitVec.ofNat_toNat, BitVec.setWidth_eq]

theorem toNat_setCompact_next :
    (setCompact (calculateNextTargetRequired mainParams last nFirstBlockTime
      fProofOfStake)).target.toNat =
      truncate 256 (2 ^ 23) (retargeted (2 ^ 236 - 1) (setCompact last.nBits).target.toNat
        (last.getBlockTime - nFirstBlockTime)) := by
  have hlt : retargeted (2 ^ 236 - 1) (setCompact last.nBits).target.toNat
      (last.getBlockTime - nFirstBlockTime) < 2 ^ 256 :=
    (min_le_left _ _).trans_lt (by decide)
  rw [calculateNextTargetRequired_main hV3 htarget hlimit hspacing, toNat_setCompact_getCompact,
    BitVec.toNat_ofNat, Nat.mod_eq_of_lt hlt]

end

theorem truncate_target (hpos : 0 < (setCompact last.nBits).target.toNat)
    (hlimit : (setCompact last.nBits).target.toNat ≤ 2 ^ 236 - 1) :
    truncate 256 (2 ^ 23) (setCompact last.nBits).target.toNat =
      (setCompact last.nBits).target.toNat := by
  obtain ⟨mantissa, hmantissa, j, hrepr⟩ :=
    exists_setCompact_eq hpos (hlimit.trans_lt (by decide))
  rw [hrepr]
  exact truncate_mul_pow (by decide) (by decide) hmantissa j

end

/-- Retargeting is exact, bounded and monotone, and moves towards the spacing of 120 seconds. -/
theorem retargeting_exact (last : CBlockIndex) (nFirstBlockTime : ℤ) (fProofOfStake : Bool)
    (hV3 : mainParams.isProtocolV3 last.getBlockTime = true)
    (htarget : 2 ≤ (setCompact last.nBits).target.toNat)
    (hlimit : (setCompact last.nBits).target ≤
      getTargetLimit mainParams last.getBlockTime fProofOfStake)
    (hspacing : 1 ≤ last.getBlockTime - nFirstBlockTime) :
    let limit := (getTargetLimit mainParams last.getBlockTime fProofOfStake).toNat
    let target := (setCompact last.nBits).target
    let spacing := last.getBlockTime - nFirstBlockTime
    let next := fun nFirstBlockTime =>
      calculateNextTargetRequired mainParams last nFirstBlockTime fProofOfStake
    let nextTarget := fun nFirstBlockTime => (setCompact (next nFirstBlockTime)).target.toNat
    next nFirstBlockTime = getCompact (BitVec.ofNat 256 (retargeted limit target.toNat spacing)) ∧
      retargetFactor spacing < 2 ^ 32 ∧ target.toNat * retargetFactor spacing < 2 ^ 256 ∧
      (mulAssign target (UInt32.ofNat (retargetFactor spacing))).toNat =
        target.toNat * retargetFactor spacing ∧
      (divAssign (mulAssign target (UInt32.ofNat (retargetFactor spacing)))
        (BitVec.ofNat 256 3720)).map BitVec.toNat =
          some (target.toNat * retargetFactor spacing / 3720) ∧
      0 < nextTarget nFirstBlockTime ∧ nextTarget nFirstBlockTime ≤ limit ∧
      (∀ earlier ≤ nFirstBlockTime, nextTarget nFirstBlockTime ≤ nextTarget earlier) ∧
      (spacing = 120 → nextTarget nFirstBlockTime = target.toNat) ∧
      (nextTarget nFirstBlockTime < target.toNat → spacing < 120) ∧
      (target.toNat < nextTarget nFirstBlockTime → 120 < spacing) := by
  intro limit target spacing next nextTarget
  have hlimit' : target.toNat ≤ 2 ^ 236 - 1 := by
    rw [getTargetLimit_main] at hlimit
    exact hlimit
  have hmax : limit = 2 ^ 236 - 1 := congrArg BitVec.toNat (getTargetLimit_main _ _)
  have hfactor := retargetFactor_le spacing
  have hproduct : target.toNat * retargetFactor spacing < 2 ^ 256 :=
    (Nat.mul_le_mul hlimit' hfactor).trans_lt (by decide)
  have hnext : ∀ earlier ≤ nFirstBlockTime, nextTarget earlier =
      truncate 256 (2 ^ 23) (retargeted limit target.toNat (last.getBlockTime - earlier)) := by
    intro earlier hle
    rw [hmax]
    exact toNat_setCompact_next hV3 htarget hlimit' (by omega)
  have hself : truncate 256 (2 ^ 23) target.toNat = target.toNat :=
    truncate_target (by omega) hlimit'
  have hmono : ∀ {x y : ℕ}, x ≤ y → truncate 256 (2 ^ 23) x ≤ truncate 256 (2 ^ 23) y :=
    fun h => truncate_mono (by decide) (by decide) (by decide) h
  have hmiddle : retargeted limit target.toNat 120 = target.toNat :=
    retargeted_target_spacing (hmax ▸ hlimit')
  have hmul : (mulAssign target (UInt32.ofNat (retargetFactor spacing))).toNat =
      target.toNat * retargetFactor spacing := by
    rw [mulAssign_eq, BitVec.toNat_mul, BitVec.toNat_ofNat, UInt32.toNat_ofNat',
      Nat.mod_eq_of_lt (by omega : retargetFactor spacing < 2 ^ 32),
      Nat.mod_eq_of_lt (by omega : retargetFactor spacing < 2 ^ 256), Nat.mod_eq_of_lt hproduct]
  refine ⟨?_, by omega, hproduct, hmul, ?_, ?_, ?_, fun earlier hle => ?_, fun heq => ?_,
    fun hlt => ?_, fun hlt => ?_⟩
  · rw [hmax]
    exact calculateNextTargetRequired_main hV3 htarget hlimit' hspacing
  · rw [divAssign_eq (by decide), Option.map_some, BitVec.toNat_udiv, hmul]
    rfl
  · rw [hnext _ le_rfl]
    exact truncate_pos (by decide) (by decide) (by decide)
      (retargeted_pos htarget (hmax ▸ hlimit') hspacing)
  · rw [hnext _ le_rfl]
    exact (truncate_le _ _ _).trans (min_le_left _ _)
  · rw [hnext _ le_rfl, hnext _ hle]
    exact hmono (retargeted_mono _ _ (by omega))
  · rw [hnext _ le_rfl, show last.getBlockTime - nFirstBlockTime = 120 from heq, hmiddle, hself]
  · -- a longer spacing gives at least the target
    by_contra hge
    have hle := hmono (retargeted_mono limit target.toNat (not_lt.mp hge))
    rw [hmiddle, hself] at hle
    rw [hnext _ le_rfl] at hlt
    exact absurd hlt (not_lt.mpr hle)
  · by_contra hge
    have hle := hmono (retargeted_mono limit target.toNat (not_lt.mp hge))
    rw [hmiddle, hself] at hle
    rw [hnext _ le_rfl] at hlt
    exact absurd hlt (not_lt.mpr hle)

/-- A block of the main net after 100 seconds. -/
def fastBlock : CBlockIndex where
  hash := 1
  nVersion := 1
  hashMerkleRoot := 0
  nTime := 1769900100
  nBits := 0x1d0fffff
  nNonce := 0

theorem retargeting_fastBlock :
    (setCompact (calculateNextTargetRequired mainParams fastBlock 1769900000 false)).target.toNat ≤
      (getTargetLimit mainParams fastBlock.getBlockTime false).toNat :=
  (retargeting_exact fastBlock 1769900000 false (by decide) (by decide) (by decide)
    (by decide)).2.2.2.2.2.2.1

end X2XCoin
