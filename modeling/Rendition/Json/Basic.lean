import Rendition.Word

/-!
# JSON values

Values of the data format in which trees, tasks and requests are exchanged. Integers and
floating-point numbers are told apart, and an object keeps its members in the order of their
keys, each key once, so that equal objects are equal values.

## Main definitions

* `Json`: A value.
* `Json.insert`: An object's members with one more, which replaces a member of the same key.
* `Json.field?`: A member of an object.
-/

namespace Rendition

/-- A value of the data format. -/
inductive Json where
  | null
  | bool (value : Bool)
  | int (value : Int)
  | float (value : Float)
  | string (value : String)
  | array (items : List Json)
  | object (members : List (String × Json))
  deriving Inhabited

namespace Json

/-- Whether one text comes before another, compared code point by code point, which is the order
    of their UTF-8 bytes. -/
def keyLt : List Char → List Char → Bool
  | [], [] => false
  | [], _ :: _ => true
  | _ :: _, [] => false
  | a :: as, b :: bs => if a = b then keyLt as bs else a.toNat < b.toNat

/-- The members with one more, in order of keys. A member of the same key is replaced. -/
def insert (key : String) (value : Json) : List (String × Json) → List (String × Json)
  | [] => [(key, value)]
  | (k, v) :: rest =>
    if key = k then (key, value) :: rest
    else if keyLt key.toList k.toList then (key, value) :: (k, v) :: rest
    else (k, v) :: insert key value rest

/-- The object with the given members, the last one of each key. -/
def ofMembers (members : List (String × Json)) : Json :=
  object (members.foldl (fun acc member => insert member.1 member.2 acc) [])

/-- The member of that key, if the value is an object that has it. -/
def field? (key : String) : Json → Option Json
  | object members => members.lookup key
  | _ => none

/-- A list of texts as a value. -/
def ofStrings (texts : List String) : Json :=
  array (texts.map string)

/-- A text that may be absent. -/
def ofString? : Option String → Json
  | some text => string text
  | none => null

/-- A floating-point number. What is no finite number has no written form and becomes `null`. -/
def ofFloat (value : Float) : Json :=
  if value.isFinite then float value else null

/-- The boolean that the value is. -/
def bool? : Json → Option Bool
  | bool value => some value
  | _ => none

/-- The integer that the value is. -/
def int? : Json → Option Int
  | int value => some value
  | _ => none

/-- The natural number of 64 bits that the value is. -/
def nat64? : Json → Option Nat
  | int value => if Word.isUnsigned value then some value.toNat else none
  | _ => none

/-- The signed integer of 64 bits that the value is. -/
def int64? : Json → Option Int
  | int value => if Word.isSigned value then some value else none
  | _ => none

/-- The number that the value is, integers of 64 bits included. -/
def float? : Json → Option Float
  | float value => some value
  | int value =>
    let magnitude := (UInt64.ofNat value.natAbs).toFloat
    some (if value < 0 then -magnitude else magnitude)
  | _ => none

/-- The text that the value is. -/
def string? : Json → Option String
  | string value => some value
  | _ => none

/-- The items of the array that the value is. -/
def array? : Json → Option (List Json)
  | array items => some items
  | _ => none

/-- The items of an array, each read by `decode`. -/
def list? {α : Type} (decode : Json → Option α) (value : Json) : Option (List α) :=
  value.array?.bind fun items => items.mapM decode

/-- A value that may be `null`. -/
def nullable? {α : Type} (decode : Json → Option α) : Json → Option (Option α)
  | null => some none
  | value => (decode value).map some

mutual

/-- The number of values on the longest way down. -/
def height : Json → Nat
  | array items => heightList items + 1
  | object members => heightMembers members + 1
  | _ => 1

/-- The greatest height in a list. -/
def heightList : List Json → Nat
  | [] => 0
  | value :: rest => max value.height (heightList rest)

/-- The greatest height among the members of an object. -/
def heightMembers : List (String × Json) → Nat
  | [] => 0
  | (_, value) :: rest => max value.height (heightMembers rest)

end

end Json

end Rendition
