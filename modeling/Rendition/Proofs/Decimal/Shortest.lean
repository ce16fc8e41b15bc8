import Rendition.Proofs.Decimal.Interval

/-!
# Shortest decimals round to their doubles

The search for the shortest decimal of a double tries finer and finer grids. What it finds on a grid
lies in the interval of the double, and it does find something: the multiples of a power of ten that
is sixteen places below the first digit are closer together than the ends of the interval.

## Main definitions

* `Decimal.value`: The number that a decimal stands for.

## Theorems

* `rounds_of_onGrid?`: What is found on a grid lies in the interval.
* `isSome_onGrid?`: On a grid that is fine enough something is found.
* `zpow_magnitude_le`: The magnitude of a number is at most the place of its first digit.
* `rounds_shortest`: The shortest decimal of a finite double rounds to it.
-/

namespace Rendition

/-- The number that a decimal stands for. -/
def Decimal.value (d : Decimal) : ℚ :=
  d.coefficient * 10 ^ d.exponent

namespace Binary

theorem unit_pos (b : Binary) (grid : Int) : 0 < (b.unit grid).1 ∧ 0 < (b.unit grid).2 := by
  simp only [unit, Nat.pow_eq]
  constructor <;> positivity

/-- A power with a whole exponent is the quotient of two powers with natural exponents. -/
theorem zpow_mul_pow_neg {a : ℚ} (ha : a ≠ 0) (e : Int) :
    a ^ e * a ^ (-e).toNat = a ^ e.toNat := by
  rw [← zpow_natCast, ← zpow_natCast, ← zpow_add₀ ha]
  congr 1
  omega

/-- The unit of the interval is a quarter of the last place, measured on the grid. -/
theorem unit_eq (b : Binary) (grid : Int) :
    ((b.unit grid).1 : ℚ) * 10 ^ grid = (b.unit grid).2 * b.quarter := by
  have htwo := zpow_mul_pow_neg (two_ne_zero (α := ℚ)) b.exponent
  have hten := zpow_mul_pow_neg (a := 10) (by norm_num) grid
  simp only [unit, quarter, Nat.pow_eq]
  push_cast
  rw [← htwo, ← hten]
  ring

/-- Comparisons with a point of the grid are comparisons with its value. -/
theorem point_iff (b : Binary) (grid : Int) (k c : Nat) :
    (k * (b.unit grid).1 ≤ c * (b.unit grid).2 ↔
      (k : ℚ) * b.quarter ≤ (⟨c, grid⟩ : Decimal).value) ∧
    (c * (b.unit grid).2 ≤ k * (b.unit grid).1 ↔
      (⟨c, grid⟩ : Decimal).value ≤ (k : ℚ) * b.quarter) := by
  have hden : (0 : ℚ) < (b.unit grid).2 := by exact_mod_cast (unit_pos b grid).2
  have hgrid : (0 : ℚ) < 10 ^ grid := by positivity
  have hend : ((k * (b.unit grid).1 : Nat) : ℚ) * 10 ^ grid =
      (b.unit grid).2 * (k * b.quarter) := by
    rw [Nat.cast_mul, mul_assoc, unit_eq]
    ring
  have hpoint : ((c * (b.unit grid).2 : Nat) : ℚ) * 10 ^ grid =
      (b.unit grid).2 * (⟨c, grid⟩ : Decimal).value := by
    rw [Nat.cast_mul, Decimal.value]
    ring
  constructor <;>
    rw [← Nat.cast_le (α := ℚ), ← mul_le_mul_iff_of_pos_right hgrid, hend, hpoint,
      mul_le_mul_iff_of_pos_left hden]

/-- A point of the grid rounds to the number if it lies within the ends of the interval. -/
theorem rounds_point {b : Binary} {grid : Int} {c : Nat}
    (hlow : b.within (b.lower * (b.unit grid).1) (c * (b.unit grid).2) = true)
    (hhigh : b.within (c * (b.unit grid).2) (b.upper * (b.unit grid).1) = true) :
    b.Rounds (⟨c, grid⟩ : Decimal).value := by
  rw [within] at hlow hhigh
  rw [Rounds]
  split at hlow
  next heven =>
    rw [if_pos heven, decide_eq_true_eq] at hhigh
    rw [decide_eq_true_eq] at hlow
    rw [if_pos heven]
    exact ⟨(point_iff b grid _ c).1.mp hlow, (point_iff b grid _ c).2.mp hhigh⟩
  next hodd =>
    rw [if_neg hodd, decide_eq_true_eq] at hhigh
    rw [decide_eq_true_eq] at hlow
    rw [if_neg hodd]
    refine ⟨lt_of_not_ge fun hle => ?_, lt_of_not_ge fun hle => ?_⟩
    · exact absurd ((point_iff b grid _ c).2.mpr hle) (not_le.mpr hlow)
    · exact absurd ((point_iff b grid _ c).1.mpr hle) (not_le.mpr hhigh)

theorem within_of_lt (b : Binary) {x y : Nat} (h : x < y) : b.within x y = true := by
  rw [within]
  split <;> simp only [decide_eq_true_eq]
  · exact h.le
  · exact h

theorem lower_le (b : Binary) : b.lower ≤ 4 * b.significand := by
  rw [lower]
  split <;> omega

theorem lt_upper (b : Binary) : 4 * b.significand < b.upper := by
  rw [upper]
  omega

/-- What is found on a grid is one of the two neighbours of the number, and lies in its interval. -/
theorem rounds_of_onGrid? {tie : Tie} {b : Binary} {grid : Int} {c : Nat}
    (h : b.onGrid? tie grid = some c) : b.Rounds (⟨c, grid⟩ : Decimal).value := by
  obtain ⟨hnum, hden⟩ := unit_pos b grid
  rw [onGrid?] at h
  generalize hunit : b.unit grid = u at h hnum hden
  obtain ⟨num, den⟩ := u
  dsimp only at h hnum hden
  have hdiv := Nat.div_add_mod (4 * b.significand * num) den
  have hmod := Nat.mod_lt (4 * b.significand * num) hden
  generalize hbelow : 4 * b.significand * num / den = below at h hdiv
  generalize hrest : 4 * b.significand * num % den = rest at h hdiv hmod
  -- The neighbour below is at most the number and the one above is greater.
  have hfloor : below * den ≤ 4 * b.significand * num := by rw [← hdiv, Nat.mul_comm]; omega
  have hceil : 4 * b.significand * num < (below + 1) * den := by
    rw [← hdiv, Nat.add_mul, Nat.mul_comm den, Nat.one_mul]
    omega
  have hhigh : b.within (below * den) (b.upper * num) = true :=
    within_of_lt b (hfloor.trans_lt (Nat.mul_lt_mul_of_pos_right (lt_upper b) hnum))
  have hlow : b.within (b.lower * num) ((below + 1) * den) = true :=
    within_of_lt b ((Nat.mul_le_mul_right num (lower_le b)).trans_lt hceil)
  have hrounds : ∀ k, b.within (b.lower * num) (k * den) = true →
      b.within (k * den) (b.upper * num) = true → b.Rounds (⟨k, grid⟩ : Decimal).value := by
    intro k hklow hkhigh
    refine rounds_point ?_ ?_ <;> rw [hunit] <;> assumption
  rcases hlowFits : b.within (b.lower * num) (below * den) <;>
    rcases hhighFits : b.within ((below + 1) * den) (b.upper * num) <;>
    rw [hlowFits, hhighFits] at h
  · cases h
  · cases h
    exact hrounds _ hlow hhighFits
  · cases h
    exact hrounds _ hlowFits hhigh
  · -- Both neighbours fit, and one of them is taken.
    have htaken : c = below ∨ c = below + 1 := by
      cases tie <;> dsimp only at h <;> split_ifs at h <;> cases h <;> simp only [true_or, or_true]
    rcases htaken with rfl | rfl
    · exact hrounds _ hlowFits hhigh
    · exact hrounds _ hlow hhighFits

/-- On a grid that is finer than the interval is wide something is found. -/
theorem isSome_onGrid? (tie : Tie) {b : Binary} {grid : Int}
    (h : (b.unit grid).2 < (b.upper - b.lower) * (b.unit grid).1) :
    (b.onGrid? tie grid).isSome = true := by
  rw [onGrid?]
  generalize b.unit grid = u at h
  obtain ⟨num, den⟩ := u
  dsimp only at h ⊢
  generalize 4 * b.significand * num / den = below
  -- If both neighbours were outside, the interval would fit between them.
  have hwide : b.lower * num + den < b.upper * num := by
    rw [Nat.sub_mul] at h
    omega
  have hfits : b.within (b.lower * num) (below * den) = true ∨
      b.within ((below + 1) * den) (b.upper * num) = true := by
    by_cases hlow : b.lower * num < below * den
    · exact .inl (within_of_lt b hlow)
    · refine .inr (within_of_lt b ?_)
      rw [Nat.add_mul, Nat.one_mul]
      omega
  split
  · cases tie <;> split_ifs <;> rfl
  · rfl
  · rfl
  next hlow hhigh =>
    rw [hlow, hhigh] at hfits
    cases hfits with
    | inl h => cases h
    | inr h => cases h

/-! ## The first digit -/

/-- With enough fuel the zeros after the point are counted up to the first digit. -/
theorem le_zerosAfterPoint (den fuel num : Nat) (h : den ≤ 10 * (10 ^ fuel * num)) :
    den ≤ 10 * (10 ^ zerosAfterPoint den fuel num * num) := by
  induction fuel generalizing num with
  | zero => exact h
  | succ fuel ih =>
    rw [zerosAfterPoint]
    split
    next hfirst => rwa [Nat.pow_zero, Nat.one_mul]
    next hlater =>
      rw [Nat.pow_succ, Nat.mul_assoc]
      refine ih (10 * num) ?_
      rwa [← Nat.mul_assoc (10 ^ fuel), ← Nat.pow_succ]

/-- A quotient is at least the power of ten that its number of digits says. -/
theorem zpow_digits_le {num den : Nat} (hden : 0 < den) (hle : den ≤ num) :
    (10 : ℚ) ^ (((Nat.toDigits 10 (num / den)).length : Int) - 1) * den ≤ num := by
  obtain ⟨places, hplaces⟩ : ∃ places, (Nat.toDigits 10 (num / den)).length = places + 1 :=
    ⟨_, (Nat.succ_pred_eq_of_pos Nat.length_toDigits_pos).symm⟩
  have hquotient : 10 ^ places ≤ num / den := by
    rcases Nat.eq_zero_or_pos places with rfl | hpos
    · exact Nat.div_pos hle hden
    · refine Nat.le_of_not_lt fun hlt => ?_
      have := (Nat.length_toDigits_le_iff (by decide) hpos).mpr hlt
      omega
  have hnum : 10 ^ places * den ≤ num :=
    (Nat.mul_le_mul_right den hquotient).trans (Nat.div_mul_le_self num den)
  rw [hplaces, Nat.cast_succ, add_sub_cancel_right, zpow_natCast]
  exact_mod_cast hnum

/-- A fraction is at least the power of ten that the zeros after its point say. -/
theorem zpow_zeros_le {num den fuel : Nat} (h : den ≤ 10 * (10 ^ fuel * num)) :
    (10 : ℚ) ^ (-(zerosAfterPoint den fuel num : Int) - 1) * den ≤ num := by
  have hzeros := le_zerosAfterPoint den fuel num h
  generalize zerosAfterPoint den fuel num = zeros at hzeros ⊢
  have hpow : (0 : ℚ) < 10 ^ (zeros + 1) := by positivity
  rw [← neg_add', ← Nat.cast_succ, zpow_neg, zpow_natCast, inv_mul_le_iff₀ hpow]
  rw [← Nat.mul_assoc, ← Nat.pow_succ'] at hzeros
  exact_mod_cast hzeros

theorem two_pow_le_ten_pow {k n : Nat} (h : k ≤ 3 * (n + 1)) : 2 ^ k ≤ 10 * 10 ^ n := by
  calc 2 ^ k ≤ 2 ^ (3 * (n + 1)) := Nat.pow_le_pow_right (by decide) h
    _ = 8 ^ (n + 1) := Nat.pow_mul 2 3 (n + 1)
    _ ≤ 10 ^ (n + 1) := Nat.pow_le_pow_left (by decide) (n + 1)
    _ = 10 * 10 ^ n := Nat.pow_succ'

/-- The magnitude of a number is at most the place of its first digit. -/
theorem zpow_magnitude_le {b : Binary} (hpos : 0 < b.significand) (hexponent : -1074 ≤ b.exponent) :
    (10 : ℚ) ^ (b.magnitude - 1) ≤ b.significand * 2 ^ b.exponent := by
  have hpow := zpow_mul_pow_neg (two_ne_zero (α := ℚ)) b.exponent
  have hden : (0 : ℚ) < 2 ^ (-b.exponent).toNat := by positivity
  -- Both sides are compared after multiplication with the denominator.
  have hscaled : (10 : ℚ) ^ (b.magnitude - 1) * (2 ^ (-b.exponent).toNat : Nat) ≤
      (b.significand * 2 ^ b.exponent.toNat : Nat) := by
    simp only [magnitude, Nat.pow_eq]
    split
    next hle => exact zpow_digits_le (by positivity) hle
    next hlt =>
      refine zpow_zeros_le ?_
      have hnum : 1 ≤ b.significand * 2 ^ b.exponent.toNat := Nat.mul_pos hpos (by positivity)
      exact (two_pow_le_ten_pow (by omega)).trans
        (Nat.mul_le_mul_left 10 (Nat.le_mul_of_pos_right _ hnum))
  push_cast at hscaled
  rw [← hpow, ← mul_assoc] at hscaled
  exact le_of_mul_le_mul_right hscaled hden

/-! ## The search -/

theorem exponent_ofPlace (n : Nat) : -1074 ≤ (ofPlace n).exponent := by
  rw [ofPlace]
  split
  · exact le_refl _
  next hfield =>
    have hpos := Nat.pos_of_ne_zero hfield
    change -1074 ≤ ((n / leading : Nat) : Int) - 1075
    omega

/-- The interval is four quarters wide, or three below the least significand. -/
theorem width_eq {b : Binary} (hpos : 0 < b.significand) : b.upper - b.lower = 4 ∨
    b.significand = leading ∧ b.upper - b.lower = 3 := by
  rw [upper, lower]
  split
  next h => exact .inr ⟨h.1, by omega⟩
  next => exact .inl (by omega)

/-- Seventeen digits tell doubles apart. -/
theorem isSome_seventeen (tie : Tie) {n : Nat} (hpos : 0 < (ofPlace n).significand) :
    ((ofPlace n).onGrid? tie ((ofPlace n).magnitude - 17)).isSome = true := by
  have hmagnitude := zpow_magnitude_le hpos (exponent_ofPlace n)
  have hsmall := significand_lt n
  generalize ofPlace n = b at hpos hmagnitude hsmall
  have hquarter := b.quarter_pos
  have hgrid : (10 : ℚ) ^ (b.magnitude - 17) * 10 ^ 16 ≤ 4 * b.significand * b.quarter := by
    calc (10 : ℚ) ^ (b.magnitude - 17) * 10 ^ 16 = 10 ^ (b.magnitude - 1) := by
          rw [← zpow_natCast, ← zpow_add₀ (by norm_num)]
          congr 1
          push_cast
          ring
      _ ≤ b.significand * 2 ^ b.exponent := hmagnitude
      _ = 4 * b.significand * b.quarter := by rw [quarter]; ring
  -- The step of the grid is less than the width of the interval.
  have hstep : (10 : ℚ) ^ (b.magnitude - 17) < (b.upper - b.lower : Nat) * b.quarter := by
    rcases width_eq hpos with hwidth | ⟨hleading, hwidth⟩
    · have hbound : (b.significand : ℚ) < 10 ^ 16 := by
        have : (b.significand : ℚ) < 2 ^ 53 := by exact_mod_cast hsmall
        linarith
      rw [hwidth]
      push_cast
      nlinarith
    · have hbound : (b.significand : ℚ) * 4 < 3 * 10 ^ 16 := by
        rw [hleading, leading]
        norm_num
      rw [hwidth]
      push_cast
      nlinarith
  refine isSome_onGrid? tie (Nat.lt_of_not_le fun hle => not_le.mpr hstep ?_)
  have hpoint := (point_iff b (b.magnitude - 17) (b.upper - b.lower) 1).1
  rw [Nat.one_mul, Decimal.value, Nat.cast_one, one_mul] at hpoint
  exact hpoint.mp hle

/-- Nothing rounds to a positive number but positive numbers, and to zero zero does. -/
theorem rounds_zero {b : Binary} (h : b.significand = 0) : b.Rounds 0 := by
  have hstart : b.start = 0 := by
    have hlower : b.lower = 0 := by
      rw [lower, h, if_neg fun hleading => absurd hleading.1 (by decide)]
    rw [start, hlower, Nat.cast_zero, zero_mul]
  rw [Rounds, h, if_pos rfl]
  exact ⟨hstart.le, hstart ▸ (start_lt_stop b).le⟩

end Binary

namespace Decimal

/-- Zeros at the end of the coefficient can be left out. -/
theorem value_trimmed (fuel : Nat) (d : Decimal) : (trimmed fuel d).value = d.value := by
  induction fuel generalizing d with
  | zero => rfl
  | succ fuel ih =>
    rw [trimmed]
    split
    next hzero =>
      have hcoefficient : d.coefficient = 10 * (d.coefficient / 10) := by omega
      rw [ih, value, value, zpow_add_one₀ (by norm_num)]
      conv => rhs; rw [hcoefficient]
      push_cast
      ring
    next => rfl

/-- What the search finds rounds to the number, if there is something to find. -/
theorem rounds_search (tie : Tie) (b : Binary) (magnitude : Int) (fuel digits : Nat)
    (h : (b.onGrid? tie (magnitude - (digits + fuel : Nat))).isSome = true) :
    b.Rounds (search tie b magnitude (fuel + 1) digits).value := by
  induction fuel generalizing digits with
  | zero =>
    obtain ⟨c, hc⟩ := Option.isSome_iff_exists.mp h
    rw [Nat.add_zero] at hc
    rw [search]
    simp only [hc, value_trimmed]
    exact Binary.rounds_of_onGrid? hc
  | succ fuel ih =>
    rw [search]
    split
    next c hc =>
      rw [value_trimmed]
      exact Binary.rounds_of_onGrid? hc
    next =>
      refine ih (digits + 1) ?_
      rwa [Nat.add_assoc, Nat.add_comm 1 fuel]

/-- The shortest decimal of a finite double rounds to it. -/
theorem rounds_shortest (tie : Tie) (x : Float) :
    (Binary.ofPlace (x.toBits.toNat % 2 ^ 63)).Rounds (shortest tie x).value := by
  rw [shortest, Binary.ofBits_eq]
  split
  next hzero =>
    rw [value, Nat.cast_zero, zero_mul]
    exact Binary.rounds_zero hzero
  next hne =>
    exact rounds_search tie _ _ 16 1 (Binary.isSome_seventeen tie (Nat.pos_of_ne_zero hne))

end Decimal

end Rendition
