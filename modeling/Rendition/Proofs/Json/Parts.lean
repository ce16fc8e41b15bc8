import Mathlib.Data.List.Forall2
import Rendition.Proofs.Json.Members

/-!
# Values inside values

What is read from a value is read from the values inside it: from items of arrays, from members of
objects, and where a member may be absent, from `null`. A value inside another is no higher, and if
the numbers of a value can be written, so can those of the values inside.

## Main definitions

* `Json.Representable`: The numbers in the value can be written.
* `Json.Holds`: One value is inside another, or is the `null` that stands for what is absent.
* `Json.ReadAll`: Some results are read from values that are inside another.

## Theorems

* `Holds.height_le`, `Holds.representable`: What is inside a value is no higher, and representable
  with it.
* `exists_ofMembers`: The members of an object are found under their keys.
* `list?_map`: A list is read back if its elements are.
* `ReadAll.list`, `ReadAll.optional`, `ReadAll.flatMap`: What is read of a list or of an optional
  value is read from values inside.
-/

namespace Rendition.Json

/-- The numbers in the value can be written: its integers fit into 64 bits, with or without a sign,
    and its other numbers are finite. -/
inductive Representable : Json → Prop
  | null : Representable .null
  | bool (value : Bool) : Representable (.bool value)
  | int {value : Int} (h : Word.isSigned value = true ∨ Word.isUnsigned value = true) :
      Representable (.int value)
  | float {value : Float} (h : value.isFinite = true) : Representable (.float value)
  | string (value : String) : Representable (.string value)
  | array {items : List Json} (h : ∀ item ∈ items, Representable item) :
      Representable (.array items)
  | object {members : List (String × Json)} (h : ∀ member ∈ members, Representable member.2) :
      Representable (.object members)

/-- The second value is the first or inside it, or it is the `null` that is read where something is
    absent. -/
inductive Holds : Json → Json → Prop
  | self (value : Json) : Holds value value
  | absent (value : Json) : Holds value .null
  | item {items : List Json} {value part : Json} (hmem : value ∈ items) (h : Holds value part) :
      Holds (.array items) part
  | member {members : List (String × Json)} {key : String} {value part : Json}
      (hmem : (key, value) ∈ members) (h : Holds value part) : Holds (.object members) part

theorem Holds.trans {a b c : Json} (hab : Holds a b) (hbc : Holds b c) : Holds a c := by
  induction hab with
  | self => exact hbc
  | absent =>
    cases hbc with
    | self => exact .absent _
    | absent => exact .absent _
  | item hmem _ ih => exact .item hmem (ih hbc)
  | member hmem _ ih => exact .member hmem (ih hbc)

theorem height_pos (value : Json) : 1 ≤ value.height := by
  cases value <;> simp only [height, le_refl, Nat.le_add_left]

theorem height_le_of_mem {value : Json} {items : List Json} (h : value ∈ items) :
    value.height ≤ heightList items := by
  induction items with
  | nil => cases h
  | cons item items ih =>
    rw [heightList]
    rcases List.mem_cons.mp h with rfl | h
    · exact Nat.le_max_left ..
    · exact (ih h).trans (Nat.le_max_right ..)

theorem height_le_of_member {key : String} {value : Json} {members : List (String × Json)}
    (h : (key, value) ∈ members) : value.height ≤ heightMembers members := by
  induction members with
  | nil => cases h
  | cons member members ih =>
    rw [heightMembers]
    rcases List.mem_cons.mp h with rfl | h
    · exact Nat.le_max_left ..
    · exact (ih h).trans (Nat.le_max_right ..)

/-- What is inside a value is no higher. -/
theorem Holds.height_le {value part : Json} (h : Holds value part) :
    part.height ≤ value.height := by
  induction h with
  | self => exact le_refl _
  | absent value => exact height_pos value
  | item hmem _ ih => exact (ih.trans (height_le_of_mem hmem)).trans (Nat.le_succ _)
  | member hmem _ ih => exact (ih.trans (height_le_of_member hmem)).trans (Nat.le_succ _)

/-- What is inside a representable value is representable. -/
theorem Holds.representable {value part : Json} (h : Holds value part) :
    value.Representable → part.Representable := by
  induction h with
  | self => exact id
  | absent => exact fun _ => .null
  | item hmem _ ih =>
    rintro (_ | _ | _ | _ | _ | hitems | _)
    exact ih (hitems _ hmem)
  | member hmem _ ih =>
    rintro (_ | _ | _ | _ | _ | _ | hmembers)
    exact ih (hmembers _ hmem)

theorem lookup_of_mem {members : List (String × Json)} (hkeys : (members.map Prod.fst).Nodup)
    {key : String} {value : Json} (h : (key, value) ∈ members) :
    members.lookup key = some value := by
  induction members with
  | nil => cases h
  | cons member members ih =>
    obtain ⟨hnew, hkeys⟩ := List.nodup_cons.mp hkeys
    rw [List.lookup_cons]
    rcases List.mem_cons.mp h with rfl | h
    · rw [beq_self_eq_true]
    · -- The first member has another key, as no key comes twice.
      have hne : key ≠ member.1 := fun heq => hnew (heq ▸ List.mem_map_of_mem (f := Prod.fst) h)
      rw [beq_false_of_ne hne]
      exact ih hkeys h

/-- An object holds its members, in some order, and each is found under its key. -/
theorem exists_ofMembers {members : List (String × Json)} (hkeys : (members.map Prod.fst).Nodup) :
    ∃ sorted, ofMembers members = object sorted ∧
      ∀ key value, (key, value) ∈ members → sorted.lookup key = some value := by
  obtain ⟨hperm, -⟩ := @foldl_insert [] members hkeys .nil
  rw [List.nil_append] at hperm
  refine ⟨_, rfl, fun key value hmem => lookup_of_mem ?_ (hperm.mem_iff.mpr hmem)⟩
  exact (hperm.map Prod.fst).nodup_iff.mpr hkeys

section Read

variable {α β : Type}

theorem mapM_eq_some {f : α → Option β} (as : List α) : ∀ bs : List β,
    as.mapM f = some bs ↔ List.Forall₂ (fun a b => f a = some b) as bs := by
  induction as with
  | nil =>
    intro bs
    simp only [List.mapM_nil, Option.pure_def, Option.some.injEq, List.forall₂_nil_left_iff,
      eq_comm]
  | cons a as ih =>
    intro bs
    simp only [List.mapM_cons, Option.bind_eq_bind, Option.bind_eq_some_iff, Option.pure_def,
      Option.some.injEq, List.forall₂_cons_left_iff, ih]
    constructor
    · rintro ⟨b, hb, rest, hrest, rfl⟩
      exact ⟨b, rest, hb, hrest, rfl⟩
    · rintro ⟨b, rest, hb, hrest, rfl⟩
      exact ⟨b, hb, rest, hrest, rfl⟩

theorem exists_of_mapM {f : α → Option β} {as : List α} {bs : List β} (h : as.mapM f = some bs)
    {b : β} (hb : b ∈ bs) : ∃ a ∈ as, f a = some b := by
  rw [mapM_eq_some] at h
  induction h with
  | nil => cases hb
  | @cons a b' as bs hab _ ih =>
    rcases List.mem_cons.mp hb with rfl | hb
    · exact ⟨a, List.mem_cons_self, hab⟩
    · obtain ⟨a', ha', h⟩ := ih hb
      exact ⟨a', List.mem_cons_of_mem a ha', h⟩

variable {decode : Json → Option α}

/-- A list is read back if each of its elements is. -/
theorem list?_map {encode : α → Json} {items : List α}
    (h : ∀ item ∈ items, decode (encode item) = some item) :
    (array (items.map encode)).list? decode = some items := by
  rw [list?, array?, Option.bind_some, mapM_eq_some, List.forall₂_map_left_iff, List.forall₂_same]
  exact h

@[simp]
theorem list?_ofStrings (texts : List String) : (ofStrings texts).list? string? = some texts :=
  list?_map fun _ _ => rfl

@[simp]
theorem nullable?_ofString? (text : Option String) :
    (ofString? text).nullable? string? = some text := by
  cases text <;> rfl

theorem nullable?_of_ne_null {value : Json} {result : α} (hvalue : value ≠ null)
    (h : decode value = some result) : value.nullable? decode = some (some result) := by
  cases value with
  | null => exact absurd rfl hvalue
  | _ => rw [nullable?, h, Option.map_some]; exact hvalue

/-- Each of the results is read from a value inside another. -/
def ReadAll (decode : Json → Option α) (value : Json) (results : List α) : Prop :=
  ∀ result ∈ results, ∃ part, Holds value part ∧ decode part = some result

namespace ReadAll

variable {value part : Json} {result : α} {results others : List α}

theorem nil : ReadAll decode value [] :=
  fun _ h => absurd h List.not_mem_nil

theorem cons (hpart : Holds value part) (h : decode part = some result)
    (hresults : ReadAll decode value results) : ReadAll decode value (result :: results) :=
  List.forall_mem_cons.mpr ⟨⟨part, hpart, h⟩, hresults⟩

theorem append (hresults : ReadAll decode value results) (hothers : ReadAll decode value others) :
    ReadAll decode value (results ++ others) :=
  List.forall_mem_append.mpr ⟨hresults, hothers⟩

theorem within (hpart : Holds value part) (h : ReadAll decode part results) :
    ReadAll decode value results := by
  intro result hmem
  obtain ⟨inner, hinner, hdecode⟩ := h result hmem
  exact ⟨inner, hpart.trans hinner, hdecode⟩

/-- The elements of a list are read from its items. -/
theorem list (hpart : Holds value part) (h : part.list? decode = some results) :
    ReadAll decode value results := by
  refine within hpart fun result hmem => ?_
  obtain ⟨items, hitems, hmap⟩ := Option.bind_eq_some_iff.mp h
  cases part with
  | array values =>
    cases hitems
    obtain ⟨item, hitem, hdecode⟩ := exists_of_mapM hmap hmem
    exact ⟨item, .item hitem (.self item), hdecode⟩
  | _ => cases hitems

/-- What is read of an optional value is read from that value. -/
theorem optional (hpart : Holds value part) {result? : Option α}
    (h : part.nullable? decode = some result?) : ReadAll decode value result?.toList := by
  intro result hmem
  obtain rfl := Option.mem_toList.mp hmem
  refine ⟨part, hpart, ?_⟩
  cases part with
  | null => cases h
  | _ => simpa only [nullable?, Option.map_eq_some_iff, Option.some.injEq, exists_eq_right] using h

/-- What is read of each item of a list is read from values inside the list. -/
theorem flatMap {f : β → List α} {decodeItem : Json → Option β}
    (hitem : ∀ {part item}, decodeItem part = some item → ReadAll decode part (f item))
    (hpart : Holds value part) {items : List β} (h : part.list? decodeItem = some items) :
    ReadAll decode value (items.flatMap f) := by
  intro result hmem
  obtain ⟨item, hmem, hresult⟩ := List.mem_flatMap.mp hmem
  obtain ⟨inner, hinner, hdecode⟩ := list hpart h item hmem
  exact within hinner (hitem hdecode) result hresult

end ReadAll

end Read

end Rendition.Json
