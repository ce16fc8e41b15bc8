import Rendition.Proofs.Tree.Agreement

/-!
# Equality of values

Two values are equal if they are of one kind and have equal parts. Floats are compared as numbers,
as they are in trees, so zeros of different sign are equal.

## Main definitions

* `Json.agree`: Equality of values.

## Theorems

* `agree_array`, `agree_object`: Arrays and objects are compared part by part.
* `agree_ofStrings`, `agree_ofString?`: Texts and lists of texts.
-/

namespace Rendition.Json

mutual

/-- Equality of values, floats being compared as numbers. -/
def agree : Json → Json → Bool
  | null, null => true
  | bool a, bool b => a == b
  | int a, int b => a == b
  | float a, float b => a == b
  | string a, string b => a == b
  | array as, array bs => agreeItems as bs
  | object as, object bs => agreeMembers as bs
  | _, _ => false

/-- Equality of lists of values. -/
def agreeItems : List Json → List Json → Bool
  | [], [] => true
  | a :: as, b :: bs => agree a b && agreeItems as bs
  | _, _ => false

/-- Equality of the members of objects. -/
def agreeMembers : List (String × Json) → List (String × Json) → Bool
  | [], [] => true
  | (key, a) :: as, (key', b) :: bs => key == key' && agree a b && agreeMembers as bs
  | _, _ => false

end

theorem agreeItems_eq (as : List Json) : ∀ bs, agreeItems as bs = agreeList agree as bs := by
  induction as with
  | nil => rintro (_ | ⟨b, bs⟩) <;> simp only [agreeItems, agreeList]
  | cons a as ih =>
    rintro (_ | ⟨b, bs⟩) <;> simp only [agreeItems, agreeList, ih]

theorem agreeMembers_eq (as : List (String × Json)) : ∀ bs,
    agreeMembers as bs = agreeList (fun a b => a.1 == b.1 && a.2.agree b.2) as bs := by
  induction as with
  | nil => rintro (_ | ⟨b, bs⟩) <;> simp only [agreeMembers, agreeList]
  | cons a as ih =>
    rintro (_ | ⟨b, bs⟩) <;> simp only [agreeMembers, agreeList, ih]

@[simp]
theorem agree_string (a b : String) : (string a).agree (string b) = (a == b) := by
  simp only [agree]

@[simp]
theorem agree_array (as bs : List Json) : (array as).agree (array bs) = agreeList agree as bs := by
  rw [agree, agreeItems_eq]

@[simp]
theorem agree_object (as bs : List (String × Json)) : (object as).agree (object bs) =
    agreeList (fun a b => a.1 == b.1 && a.2.agree b.2) as bs := by
  rw [agree, agreeMembers_eq]

@[simp]
theorem agree_ofStrings (as bs : List String) :
    (ofStrings as).agree (ofStrings bs) = (as == bs) := by
  rw [ofStrings, ofStrings, agree_array, agreeList_map, ← agreeList_beq]
  simp only [agree_string]

@[simp]
theorem agree_ofString? (a b : Option String) :
    (ofString? a).agree (ofString? b) = (a == b) := by
  cases a <;> cases b <;> simp [ofString?, agree]

theorem agree_null_left {a : Json} (h : a ≠ null) : null.agree a = false := by
  cases a <;> first | rfl | exact absurd rfl h

theorem agree_null_right {a : Json} (h : a ≠ null) : a.agree null = false := by
  cases a <;> first | rfl | exact absurd rfl h

end Rendition.Json
