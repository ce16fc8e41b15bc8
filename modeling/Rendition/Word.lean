/-!
# Words of 64 bits

The ranges of the integers that fit into a word.

## Main definitions

* `Word.isSigned`, `Word.isUnsigned`: Whether an integer fits into a word with or without a sign.
-/

namespace Rendition.Word

/-- The first natural number that does not fit into a word with a sign, `2 ^ 63`. -/
def signedBound : Nat := 9223372036854775808

/-- The first natural number that does not fit into a word without a sign, `2 ^ 64`. -/
def unsignedBound : Nat := 18446744073709551616

/-- Whether an integer fits into a word with a sign. -/
def isSigned (value : Int) : Bool :=
  -(signedBound : Int) ≤ value && value < signedBound

/-- Whether an integer fits into a word without a sign. -/
def isUnsigned (value : Int) : Bool :=
  0 ≤ value && value < unsignedBound

end Rendition.Word
