import Mathlib
import Rendition.Decimal.Shortest

/-!
# Intervals of doubles

Around each finite double lies the interval of the numbers that round to it. The doubles of one sign
are numbered by their bits, and where the interval of one ends the interval of the next begins. The
end between two of them belongs to the one with an even number only, so every number lies in one
interval at most.

## Main definitions

* `Binary.ofPlace`: The double with a number.
* `Binary.Rounds`: A number lies in the interval of a double.

## Theorems

* `ofBits_eq`: The bits of a double are its sign and its number.
* `stop_eq_start_succ`: Where one interval ends the next begins.
* `Rounds.place_inj`: Intervals do not overlap.
-/

namespace Rendition

namespace Binary

/-- How much a quarter of the last place is worth. -/
def quarter (b : Binary) : ℚ :=
  2 ^ b.exponent / 4

theorem quarter_pos (b : Binary) : 0 < b.quarter := by
  rw [quarter]
  positivity

theorem quarter_mk (m n : Nat) (e : Int) : quarter ⟨m, e⟩ = quarter ⟨n, e⟩ := by
  rw [quarter, quarter]

/-- Where the interval of a double begins. -/
def start (b : Binary) : ℚ :=
  b.lower * b.quarter

/-- Where the interval of a double ends. -/
def stop (b : Binary) : ℚ :=
  b.upper * b.quarter

/-- A number lies in the interval of a double. The ends belong to it if the significand is even. -/
def Rounds (b : Binary) (v : ℚ) : Prop :=
  if b.significand % 2 = 0 then b.start ≤ v ∧ v ≤ b.stop else b.start < v ∧ v < b.stop

theorem Rounds.le {b : Binary} {v : ℚ} (h : b.Rounds v) : b.start ≤ v ∧ v ≤ b.stop := by
  rw [Rounds] at h
  split at h
  · exact h
  · exact ⟨h.1.le, h.2.le⟩

theorem Rounds.lt {b : Binary} {v : ℚ} (h : b.Rounds v) (hodd : b.significand % 2 ≠ 0) :
    b.start < v ∧ v < b.stop := by
  rwa [Rounds, if_neg hodd] at h

/-- The magnitude of the double with a number: doubles in ascending order. -/
def ofPlace (n : Nat) : Binary :=
  if n / leading = 0 then ⟨n % leading, -1074⟩
  else ⟨n % leading + leading, (n / leading : Nat) - 1075⟩

/-- The bits of a double are its sign and its number. -/
theorem ofBits_eq (bits : UInt64) : ofBits bits = ofPlace (bits.toNat % 2 ^ 63) := by
  have hfield : (bits >>> 52).toNat % 2048 = bits.toNat % 2 ^ 63 / leading := by
    rw [UInt64.toNat_shiftRight, Nat.shiftRight_eq_div_pow]
    simp only [leading, show (52 : UInt64).toNat % 64 = 52 from rfl]
    omega
  have hfraction : bits.toNat % leading = bits.toNat % 2 ^ 63 % leading := by
    simp only [leading]
    omega
  rw [ofBits, ofPlace, ← hfraction]
  simp only [hfield]

theorem significand_ofPlace (n : Nat) : (ofPlace n).significand % 2 = n % 2 := by
  rw [ofPlace]
  split <;> simp only [leading] <;> omega

theorem significand_lt (n : Nat) : (ofPlace n).significand < 2 ^ 53 := by
  rw [ofPlace]
  split <;> simp only [leading] <;> omega

theorem start_lt_stop (b : Binary) : b.start < b.stop := by
  have hlower : (b.lower : ℚ) < b.upper := by
    have : b.lower < b.upper := by
      rw [lower, upper]
      split <;> omega
    exact_mod_cast this
  exact mul_lt_mul_of_pos_right hlower b.quarter_pos

/-- The interval of a double whose significand is not the least one reaches down by half a place,
    and so does the interval of a double with the least exponent. -/
theorem start_eq {b : Binary} (h : b.significand ≠ leading ∨ b.exponent = -1074)
    (hpos : 0 < b.significand) : b.start = (4 * b.significand - 2) * b.quarter := by
  have hregular : ¬ (b.significand = leading ∧ b.exponent ≠ -1074) := by tauto
  rw [start, lower, if_neg hregular, Nat.cast_sub (by omega)]
  push_cast
  rfl

theorem stop_eq (b : Binary) : b.stop = (4 * b.significand + 2) * b.quarter := by
  rw [stop, upper]
  push_cast
  rfl

/-- Where the interval of a double ends the interval of the next one begins. -/
theorem stop_eq_start_succ (n : Nat) : (ofPlace n).stop = (ofPlace (n + 1)).start := by
  have hpos : 0 < leading := by decide
  have hstep := Nat.div_add_mod n leading
  have hmod := Nat.mod_lt n hpos
  obtain ⟨field, hfield⟩ : ∃ field, field = n / leading := ⟨_, rfl⟩
  obtain ⟨fraction, hfraction⟩ : ∃ fraction, fraction = n % leading := ⟨_, rfl⟩
  rw [← hfield, ← hfraction] at hstep
  rw [← hfraction] at hmod
  by_cases hlast : fraction + 1 < leading
  · -- The next double has the same exponent, and its significand is not the least one.
    have hbeyond : fraction + 1 + leading ≠ leading := by omega
    have hdiv : (n + 1) / leading = field := by
      rw [← hstep, Nat.add_assoc, Nat.mul_add_div hpos, Nat.div_eq_of_lt hlast, Nat.add_zero]
    have hrest : (n + 1) % leading = fraction + 1 := by
      rw [← hstep, Nat.add_assoc, Nat.mul_add_mod, Nat.mod_eq_of_lt hlast]
    rw [ofPlace, ofPlace, hdiv, hrest, ← hfield, ← hfraction]
    split
    · rw [stop_eq, start_eq (.inr rfl) (Nat.succ_pos _), quarter_mk fraction (fraction + 1)]
      push_cast
      ring
    · rw [stop_eq, start_eq (.inl hbeyond) (Nat.add_pos_left (Nat.succ_pos _) _),
        quarter_mk (fraction + leading) (fraction + 1 + leading)]
      push_cast
      ring
  · -- The next double has the least significand for its exponent.
    have hfull : fraction + 1 = leading := by omega
    have hnext : n + 1 = leading * (field + 1) := by rw [← hstep, Nat.add_assoc, hfull]; ring
    have hdiv : (n + 1) / leading = field + 1 := by rw [hnext, Nat.mul_div_cancel_left _ hpos]
    have hrest : (n + 1) % leading = 0 := by rw [hnext, Nat.mul_mod_right]
    have hcast : (fraction : ℚ) = leading - 1 := by
      rw [← hfull]
      push_cast
      ring
    rw [ofPlace, ofPlace, hdiv, hrest, ← hfield, ← hfraction, if_neg (Nat.succ_ne_zero field),
      Nat.zero_add]
    split
    next hzero =>
      subst hzero
      have hexponent : ((0 + 1 : Nat) : Int) - 1075 = -1074 := by decide
      rw [stop_eq, hexponent, start_eq (.inr rfl) hpos, quarter_mk leading fraction, hcast]
      ring
    next hne =>
      have hexponent : ((field + 1 : Nat) : Int) - 1075 ≠ -1074 := by omega
      have hscale : (2 : ℚ) ^ (((field + 1 : Nat) : Int) - 1075) =
          2 * 2 ^ ((field : Int) - 1075) := by
        rw [← zpow_one_add₀ two_ne_zero]
        congr 1
        push_cast
        ring
      rw [stop_eq, start, lower, if_pos ⟨rfl, hexponent⟩, 
        Nat.cast_sub (show 1 ≤ 4 * leading by decide)]
      simp only [quarter, hscale]
      push_cast
      rw [hcast]
      ring

/-- The interval of a double ends before the intervals of greater ones begin. -/
theorem stop_le_start {m n : Nat} (h : m < n) : (ofPlace m).stop ≤ (ofPlace n).start := by
  induction n, h using Nat.le_induction with
  | base => exact (stop_eq_start_succ m).le
  | succ n hmn ih => exact (ih.trans (start_lt_stop _).le).trans (stop_eq_start_succ n).le

/-- Intervals do not overlap. -/
theorem Rounds.place_inj {m n : Nat} {v : ℚ} (hm : (ofPlace m).Rounds v)
    (hn : (ofPlace n).Rounds v) : m = n := by
  -- A number in two intervals would be the end of one and the start of the next.
  have hlt : ∀ {m n : Nat}, (ofPlace m).Rounds v → (ofPlace n).Rounds v → ¬ m < n := by
    intro m n hm hn h
    rcases Nat.lt_or_eq_of_le (Nat.succ_le_of_lt h) with hgap | rfl
    · have hbelow := (start_lt_stop (ofPlace (m + 1))).trans_le (stop_le_start hgap)
      rw [← stop_eq_start_succ m] at hbelow
      exact absurd (hm.le.2.trans_lt hbelow) (not_lt.mpr hn.le.1)
    · have hend := stop_eq_start_succ m
      by_cases hodd : (ofPlace m).significand % 2 = 0
      · have hnext : (ofPlace (m + 1)).significand % 2 ≠ 0 := by
          rw [significand_ofPlace] at hodd ⊢
          omega
        exact absurd hm.le.2 (not_le.mpr (hend ▸ (hn.lt hnext).1))
      · exact absurd hn.le.1 (not_le.mpr (hend ▸ (hm.lt hodd).2))
  exact Nat.le_antisymm (not_lt.mp (hlt hn hm)) (not_lt.mp (hlt hm hn))

end Binary

end Rendition
