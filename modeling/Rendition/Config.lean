import Rendition.Tree.Serial

/-!
# Settings

The settings that all renditions share. Each rendition reads those that it understands and
ignores the rest. A setting that is not given has a default.

## Main definitions

* `Config`: The settings as they were given.
* `Config.annotates`, `Config.width`, `Config.isPretty`: The settings in effect.
* `Config.decode?`: Settings of a serialized form.
-/

namespace Rendition

/-- The settings as they were given. -/
structure Config where
  /-- Whether names in PhySL carry the place that they come from. -/
  annotatePositions : Option Bool := none
  /-- The number of blanks per level in emitted source text. -/
  indentWidth : Option Nat := none
  /-- Whether values are laid out over several lines. -/
  pretty : Option Bool := none
  deriving DecidableEq

namespace Config

/-- Names carry no places unless it was asked for. -/
def annotates (config : Config) : Bool :=
  config.annotatePositions.getD false

/-- A level is four blanks wide by default. -/
def width (config : Config) : Nat :=
  config.indentWidth.getD 4

/-- Values stand on one line unless it was asked otherwise. -/
def isPretty (config : Config) : Bool :=
  config.pretty.getD false

/-- The settings with the given values, a missing one being the default. -/
def ofValues? (annotatePositions indentWidth pretty : Json) : Option Config := do
  return ⟨← annotatePositions.nullable? Json.bool?, ← indentWidth.nullable? Json.nat64?,
    ← pretty.nullable? Json.bool?⟩

/-- The settings of a serialized form: an object, every field of which may be absent, or an array
    of at most three values in order. -/
def decode? : Json → Option Config
  | .object members =>
    let field (key : String) := (members.lookup key).getD .null
    ofValues? (field "annotate_positions") (field "indent_width") (field "pretty")
  | .array [] => some {}
  | .array [annotatePositions] => ofValues? annotatePositions .null .null
  | .array [annotatePositions, indentWidth] => ofValues? annotatePositions indentWidth .null
  | .array [annotatePositions, indentWidth, pretty] =>
    ofValues? annotatePositions indentWidth pretty
  | _ => none

end Config

end Rendition
