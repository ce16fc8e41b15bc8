/-!
# Shortest decimals

A double is `m · 2 ^ q` for natural `m`; the reals that round to it form an interval around it,
whose ends belong to it when `m` is even. The shortest decimal of a double is a decimal in that
interval with as few digits as possible and, among those, nearest to the double. On the grid of
multiples of a power of ten only the two neighbours of the double have to be tried: when a grid
point lies in the interval, so does one of them.

## Main definitions

* `Binary`: The number `m · 2 ^ q`.
* `Decimal`: The number `c · 10 ^ e`.
* `Tie`: Which neighbour wins when both are equally near.
* `Binary.onGrid?`: The nearest point of a decimal grid, if it rounds to the double.
* `Decimal.shortest`: The shortest decimal of a double.
* `Decimal.toFloat`: The double nearest to a decimal.
-/

namespace Rendition

/-- The number `significand · 2 ^ exponent`. -/
structure Binary where
  significand : Nat
  exponent : Int
  deriving DecidableEq

/-- The number `coefficient · 10 ^ exponent`. -/
structure Decimal where
  coefficient : Nat
  exponent : Int
  deriving DecidableEq

/-- Which of two equally near neighbours wins. -/
inductive Tie where
  | up
  | even
  deriving DecidableEq

namespace Binary

/-- The least significand of a double that is not among the smallest, `2 ^ 52`. -/
def leading : Nat := 4503599627370496

/-- The magnitude that the bits of a finite double denote. -/
def ofBits (bits : UInt64) : Binary :=
  let field := (bits >>> 52).toNat % 2048
  let fraction := bits.toNat % leading
  if field = 0 then ⟨fraction, -1074⟩ else ⟨fraction + leading, field - 1075⟩

/-- Numerator and denominator of `2 ^ exponent / (4 · 10 ^ grid)`, the unit in which the interval
    is measured on a grid. -/
def unit (b : Binary) (grid : Int) : Nat × Nat :=
  (Nat.pow 2 b.exponent.toNat * Nat.pow 10 (-grid).toNat,
    4 * Nat.pow 2 (-b.exponent).toNat * Nat.pow 10 grid.toNat)

/-- The lower end of the interval, in quarters of the last place. Below a power of two the next
    double is only half as far away. -/
def lower (b : Binary) : Nat :=
  if b.significand = leading ∧ b.exponent ≠ -1074 then 4 * b.significand - 1
  else 4 * b.significand - 2

/-- The upper end of the interval, in quarters of the last place. -/
def upper (b : Binary) : Nat :=
  4 * b.significand + 2

/-- Comparison that admits equality at even significands. -/
def within (b : Binary) (x y : Nat) : Bool :=
  if b.significand % 2 = 0 then x ≤ y else x < y

/-- The neighbour of the number on the multiples of `10 ^ grid` that rounds to it, the nearer one
    if both do. -/
def onGrid? (tie : Tie) (b : Binary) (grid : Int) : Option Nat :=
  let (num, den) := b.unit grid
  let scaled := 4 * b.significand * num
  let below := scaled / den
  let rest := scaled % den
  -- Only the two neighbours on the grid can be the nearest point in the interval.
  let lowFits := b.within (b.lower * num) (below * den)
  let highFits := b.within ((below + 1) * den) (b.upper * num)
  match lowFits, highFits with
  | true, true =>
    if 2 * rest < den then some below
    else if den < 2 * rest then some (below + 1)
    else match tie with
      | .up => some (below + 1)
      | .even => if below % 2 = 0 then some below else some (below + 1)
  | true, false => some below
  | false, true => some (below + 1)
  | false, false => none

/-- How many zeros follow the point before the first digit of `num / den`, at most `fuel`. -/
def zerosAfterPoint (den : Nat) : Nat → Nat → Nat
  | 0, _ => 0
  | fuel + 1, num => if den ≤ 10 * num then 0 else zerosAfterPoint den fuel (10 * num) + 1

/-- The least power of ten above the number, for a positive number. -/
def magnitude (b : Binary) : Int :=
  let num := b.significand * Nat.pow 2 b.exponent.toNat
  let den := Nat.pow 2 (-b.exponent).toNat
  if den ≤ num then (Nat.toDigits 10 (num / den)).length else -(zerosAfterPoint den 400 num : Int)

end Binary

namespace Decimal

/-- The same number without zeros at the end of the coefficient, of which there are at most
    `fuel`. -/
def trimmed : Nat → Decimal → Decimal
  | 0, d => d
  | fuel + 1, d =>
    if d.coefficient ≠ 0 ∧ d.coefficient % 10 = 0 then
      trimmed fuel ⟨d.coefficient / 10, d.exponent + 1⟩
    else d

/-- The first decimal that rounds to `b` when `digits` digits and more are tried, `fuel` times. -/
def search (tie : Tie) (b : Binary) (magnitude : Int) : Nat → Nat → Decimal
  | 0, _ => ⟨b.significand, 0⟩
  | fuel + 1, digits =>
    let grid := magnitude - digits
    match b.onGrid? tie grid with
    | some coefficient => trimmed 20 ⟨coefficient, grid⟩
    | none => search tie b magnitude fuel (digits + 1)

/-- The shortest decimal of the magnitude of a finite double. Seventeen digits always suffice. -/
def shortest (tie : Tie) (x : Float) : Decimal :=
  let b := Binary.ofBits x.toBits
  if b.significand = 0 then ⟨0, 0⟩ else search tie b b.magnitude 17 1

/-- The double nearest to a decimal. Magnitudes far outside the range of doubles are settled
    without computing the power of ten. -/
def toFloat (d : Decimal) : Float :=
  let top := (Nat.toDigits 10 d.coefficient).length + d.exponent
  if d.coefficient = 0 then 0
  else if 400 < top then 1.0 / 0.0
  else if top < -400 then 0
  else Float.ofScientific d.coefficient (d.exponent < 0) d.exponent.natAbs

end Decimal

end Rendition
