import Rendition.Decimal.Shortest

/-!
# Written forms of floating-point numbers

Both formats that the library writes show the shortest decimal of a number, and differ in where
they change to an exponent and in how the exponent is written. A `Style` is one record of these
decisions.

## Main definitions

* `Style`: The decisions of a format.
* `Style.source`: The form in emitted source text.
* `Style.json`: The form in JSON texts.
* `Style.text`: The written form of a number.
-/

namespace Rendition

/-- How a format writes floating-point numbers. -/
structure Style where
  /-- The least exponent of the first digit at which the number is written without exponent. -/
  plainFrom : Int
  /-- The least exponent above it at which an exponent is written again. -/
  plainUntil : Int
  /-- The text before an exponent that is not negative. -/
  positive : String
  /-- Which of two equally near shortest decimals is written. -/
  tie : Tie

namespace Style

/-- Numbers in emitted source text: `0.0001`, `1e-5`, `1e16`. -/
def source : Style :=
  ⟨-4, 16, "", .up⟩

/-- Numbers in JSON texts: `0.00001`, `1e-6`, `1e+16`. -/
def json : Style :=
  ⟨-5, 16, "+", .even⟩

/-- A run of zeros. -/
def zeros (n : Nat) : String :=
  String.ofList (List.replicate n '0')

/-- The text of `0.d₁d₂… · 10 ^ point` without an exponent, with a digit on each side of the
    point. -/
def plain (digits : List Char) (point : Int) : String :=
  if point ≤ 0 then "0." ++ zeros (-point).toNat ++ String.ofList digits
  else
    let whole := digits.take point.toNat
    let fraction := digits.drop point.toNat
    String.ofList whole ++ zeros (point.toNat - digits.length) ++ "."
      ++ (if fraction.isEmpty then "0" else String.ofList fraction)

/-- The text of `0.d₁d₂… · 10 ^ point` with an exponent. -/
def scientific (style : Style) (digits : List Char) (point : Int) : String :=
  let exponent := point - 1
  let fraction := digits.drop 1
  String.ofList (digits.take 1)
    ++ (if fraction.isEmpty then "" else "." ++ String.ofList fraction)
    ++ "e" ++ (if exponent < 0 then "-" else style.positive) ++ toString exponent.natAbs

/-- The text of a decimal. -/
def decimalText (style : Style) (d : Decimal) : String :=
  let digits := Nat.toDigits 10 d.coefficient
  let point := d.exponent + digits.length
  if d.coefficient = 0 then "0.0"
  else if style.plainFrom < point ∧ point ≤ style.plainUntil then plain digits point
  else style.scientific digits point

/-- The written form of a number. -/
def text (style : Style) (x : Float) : String :=
  if x.isNaN then "NaN"
  else
    (if x.toBits >>> 63 = 1 then "-" else "")
      ++ (if x.isInf then "inf" else style.decimalText (Decimal.shortest style.tie x))

end Style

end Rendition
