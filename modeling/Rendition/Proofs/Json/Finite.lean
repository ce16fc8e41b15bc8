import Mathlib
import Rendition.Json.Basic

/-!
# Integers as floating-point numbers

Where a floating-point number is expected, an integer of 64 bits is taken as the nearest one. That
is never infinite: rounding drops digits at the end and moves the exponent up, at most to the place
of the first digit, which is far below what the format can hold.

## Main definitions

* `Binary.Packable`: A number whose exponent the format can hold.

## Theorems

* `isFinite_pack`, `packable_unpack`: The finite numbers are those.
* `packable_round`: Rounding a number of moderate size gives such a number.
* `isFinite_toFloat`: A word is a finite number.
* `isFinite_of_float?`: What is read from a value as a number is finite.
-/

namespace Rendition.Binary

open Float.Model (Format UnpackedFloat totalExponent)
open Float.Model.UnpackedFloat (unpackExponent unpackExponent_packComponents Accuracy
  ExtendedMantissa Sign shiftToTargetExponent shiftToExponent roundWithAccuracy)

/-- What the format can hold: a number that is not too large. -/
def Packable : UnpackedFloat → Prop
  | .zero _ => True
  | .finite _ _ exponent _ => exponent ≤ 971
  | _ => False

theorem bias_eq : (Format.exponentBias Format.binary64 : Int) = 1023 := rfl

theorem isFinite_unpack {bits : BitVec 64}
    (h : @unpackExponent Format.binary64 bits ≠ -1#11) :
    (UnpackedFloat.unpack Format.binary64 bits).isFinite = true := by
  simp only [UnpackedFloat.unpack, if_neg h]
  split
  · split <;> rfl
  · rfl

theorem isFinite_pack {x : UnpackedFloat} (h : Packable x) :
    (Float.Model.pack x).isFinite = true := by
  refine isFinite_unpack ?_
  cases x with
  | infinity sign => exact h.elim
  | notANumber => exact h.elim
  | zero sign =>
    rw [Float.Model.pack, UInt64.toBitVec_ofBitVec, UnpackedFloat.pack, UnpackedFloat.packedZero,
      unpackExponent_packComponents]
    decide
  | finite sign mantissa exponent hpos =>
    have hexponent : exponent ≤ 971 := h
    have hbits : (exponent + 1023 + (52 : Nat)).toNat < 2047 := by omega
    simp only [Float.Model.pack, UnpackedFloat.pack]
    split
    next hlarge =>
      have hlarge : 2048 ≤ (exponent + 1023 + (52 : Nat)).toNat + 1 := hlarge
      omega
    split
    · rw [unpackExponent_packComponents]
      intro heq
      have hvalue : (exponent + 1023 + (52 : Nat)).toNat % 2048 = 2047 := congrArg BitVec.toNat heq
      omega
    · rw [unpackExponent_packComponents]
      decide

theorem packable_unpack {bits : BitVec 64}
    (h : (UnpackedFloat.unpack Format.binary64 bits).isFinite = true) :
    Packable (UnpackedFloat.unpack Format.binary64 bits) := by
  have hlt : (@unpackExponent Format.binary64 bits).toNat < 2048 := BitVec.isLt _
  simp only [UnpackedFloat.unpack] at h ⊢
  -- The greatest exponent is the one of infinities and of what is no number.
  split at h
  · split at h <;> cases h
  next hne =>
    have htop : (@unpackExponent Format.binary64 bits).toNat ≠ 2047 := by
      intro heq
      exact hne (BitVec.eq_of_toNat_eq heq)
    rw [if_neg hne]
    split
    next hzero =>
      split
      · exact trivial
      · simp only [Packable, bias_eq, hzero]
        decide
    · simp only [Packable, bias_eq]
      omega

theorem packable_neg {x : UnpackedFloat} (h : Packable x) : Packable x.neg := by
  cases x <;> exact h

theorem isFinite_neg {x : Float} (h : x.isFinite = true) : (-x).isFinite = true :=
  isFinite_pack (packable_neg (packable_unpack h))

theorem mantissa_shift (mantissa : ExtendedMantissa) (n : Nat) :
    (mantissa >>> n).mantissa ≤ mantissa.mantissa := by
  induction n with
  | zero => exact le_refl _
  | succ n ih => exact (Nat.div_le_self _ 2).trans ih

theorem roundedMantissa_le (mantissa : ExtendedMantissa) :
    mantissa.roundedMantissa ≤ mantissa.mantissa + 1 := by
  obtain ⟨m, round, sticky⟩ := mantissa
  cases round <;> cases sticky <;>
    simp [ExtendedMantissa.roundedMantissa, ExtendedMantissa.accuracy,
      Accuracy.roundToNearestEven]
  omega

/-- Dropping digits moves the exponent up to the place of the leading digit at most. -/
theorem shift_le (mantissa : Nat) (exponent : Int) (accuracy : Accuracy) :
    (shiftToTargetExponent Format.binary64 mantissa exponent accuracy).1.mantissa ≤ mantissa ∧
      (shiftToTargetExponent Format.binary64 mantissa exponent accuracy).2 ≤
        max (exponent + mantissa.log2) (-1074) := by
  constructor
  · refine (mantissa_shift _ _).trans_eq ?_
    rcases accuracy with _ | (_ | _ | _) <;> rfl
  · simp only [shiftToTargetExponent, shiftToExponent, Format.targetExponent, totalExponent,
      Format.mantissaBits, Format.minExponent]
    norm_num
    omega

theorem packable_round (sign : Sign) {mantissa : Nat} {exponent : Int}
    (hmantissa : mantissa.log2 ≤ 150) (hexponent : exponent ≤ 150) (accuracy : Accuracy) :
    Packable (roundWithAccuracy Format.binary64 sign mantissa exponent accuracy) := by
  obtain ⟨hfirst, hplace⟩ := shift_le mantissa exponent accuracy
  simp only [roundWithAccuracy]
  generalize shiftToTargetExponent Format.binary64 mantissa exponent accuracy = first at *
  -- Rounding up may make the number one digit longer, so it is shifted once more.
  obtain ⟨hsecond, hfinal⟩ := shift_le first.1.roundedMantissa first.2 .exact
  have hrounded : first.1.roundedMantissa < 2 ^ 152 := by
    have hm : mantissa < 2 ^ 151 :=
      Nat.lt_log2_self.trans_le (Nat.pow_le_pow_right (by decide) (by omega))
    have := roundedMantissa_le first.1
    omega
  have hlog : first.1.roundedMantissa.log2 ≤ 152 := by
    by_cases h : first.1.roundedMantissa = 0
    · simp [h]
    · exact ((Nat.log2_lt h).mpr hrounded).le
  split
  · exact trivial
  · simp only [Packable]
    omega

/-- Every word without a sign is a finite number. -/
theorem isFinite_toFloat (n : UInt64) : n.toFloat.isFinite = true := by
  refine isFinite_pack ?_
  have hword : n.toNat < 2 ^ 64 := n.toNat_lt
  simp only [UnpackedFloat.ofUInt64, UnpackedFloat.ofNat, UnpackedFloat.ofInt,
    UnpackedFloat.normalize]
  cases hsign : compare (n.toNat : Int) 0 with
  | lt =>
    have hneg : (n.toNat : Int) < 0 := Int.compare_eq_lt.mp hsign
    omega
  | eq => exact trivial
  | gt =>
    have hpos : 0 < (n.toNat : Int) := Int.compare_eq_gt.mp hsign
    simp only [UnpackedFloat.round, UnpackedFloat.decreaseExponent, Int.toNat_natCast]
    -- The digits are moved up by no more than the format has.
    have hshift : (0 - Format.binary64.targetExponent (totalExponent n.toNat 0)).toNat ≤ 52 := by
      simp only [Format.targetExponent, totalExponent, Format.mantissaBits]
      omega
    generalize (0 - Format.binary64.targetExponent (totalExponent n.toNat 0)).toNat = shift at *
    refine packable_round _ ?_ (by omega) _
    rw [Nat.shiftLeft_eq]
    have hdigits : n.toNat * 2 ^ shift < 2 ^ 64 * 2 ^ 52 :=
      Nat.mul_lt_mul_of_lt_of_le hword (Nat.pow_le_pow_right (by decide) hshift) (by decide)
    have hne : n.toNat * 2 ^ shift ≠ 0 := by
      have hpower : 2 ^ shift ≠ 0 := (Nat.two_pow_pos shift).ne'
      exact Nat.mul_ne_zero (by omega) hpower
    exact ((Nat.log2_lt hne).mpr (hdigits.trans (by decide))).le

end Rendition.Binary

/-- What is read from a value as a number is finite, if the value holds no number that is not. -/
theorem Rendition.Json.isFinite_of_float? {value : Json} {x : Float}
    (hvalue : ∀ y, value = .float y → y.isFinite = true) (h : value.float? = some x) :
    x.isFinite = true := by
  cases value with
  | float y =>
    rw [float?, Option.some.injEq] at h
    rw [← h]
    exact hvalue y rfl
  | int n =>
    rw [float?, Option.some.injEq] at h
    rw [← h]
    have hword := Binary.isFinite_toFloat (UInt64.ofNat n.natAbs)
    by_cases hneg : n < 0
    · rw [if_pos hneg]
      exact Binary.isFinite_neg hword
    · rw [if_neg hneg]
      exact hword
  | _ => exact absurd h (by simp only [float?, reduceCtorEq, not_false_eq_true])
