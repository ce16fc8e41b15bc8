import Mathlib.Data.List.Nodup
import Rendition.Proofs.Json.Parts
import Rendition.Task

/-!
# Serialized trees are read back

What a node is written as is read as that node, if its children are read back: the name of the
alternative tells the kind, the fields of a record are found in the object whatever their order
there, and lists, operators, names and constants are each read back. An absent child is written as
`null`, which is told from a child that is there because no child is written so.

Places and integers are numbers of 64 bits, and what is no finite number has no written form; a tree
in which all numbers can be written is called representable.

## Main definitions

* `Tree.Representable`: The numbers in the tree can be written.
* `Node.Restored`: A child is read back from its form.

## Theorems

* `record_ofMembers`: The fields of a record are those that were put into it.
* `Span.decode?_encode`, `Literal.decode?_encode`, `ImportedName.decode?_encode`: The parts of nodes
  that hold no children are read back.
* `Node.decode?_encode`: A node is read back if its children are.
-/

namespace Rendition

open Serial

/-- The numbers of the place fit into 64 bits. -/
def Span.Representable (s : Span) : Prop :=
  s.line < Word.unsignedBound ∧ s.column < Word.unsignedBound

/-- The number in the constant, if any, can be written. -/
def Literal.Representable : Literal → Prop
  | int value => Word.isSigned value = true
  | float value => value.isFinite = true
  | _ => True

/-- The numbers in the node itself can be written. -/
def Node.Representable {α : Type} : Node α → Prop
  | constant value => value.Representable
  | tryStmt _ handlers _ => ∀ h ∈ handlers, h.span.Representable
  | _ => True

theorem Node.representable_map {α β : Type} {f : α → β} {node : Node α} :
    (node.map f).Representable ↔ node.Representable := by
  cases node <;> simp [map, Representable, Handler.map]

/-- The numbers in the tree can be written. -/
def Tree.Representable (t : Tree) : Prop :=
  ∀ d ∈ t.descendants, d.span.Representable ∧ d.node.Representable

namespace Serial

theorem record_object {fields : List (String × Bool)} {members sorted : List (String × Json)}
    (hkeys : members.map Prod.fst = fields.map Prod.fst)
    (h : ∀ key value, (key, value) ∈ members → sorted.lookup key = some value) :
    record fields (.object sorted) = some (members.map Prod.snd) := by
  rw [record, Json.mapM_eq_some, List.forall₂_map_right_iff]
  induction fields generalizing members with
  | nil =>
    rw [List.map_nil, List.map_eq_nil_iff] at hkeys
    subst hkeys
    exact .nil
  | cons field fields ih =>
    cases members with
    | nil => cases hkeys
    | cons member members =>
      obtain ⟨hkey, hkeys⟩ := List.cons.inj hkeys
      -- The object is searched for each field, so the order of its members is not looked at.
      refine .cons ?_ (ih hkeys fun key value hmem => h key value (List.mem_cons_of_mem _ hmem))
      have hfound := h member.1 member.2 List.mem_cons_self
      rw [hkey] at hfound
      simp only [hfound]

/-- The fields of a record are those that were put into it. -/
theorem record_ofMembers {fields : List (String × Bool)} {members : List (String × Json)}
    (hkeys : members.map Prod.fst = fields.map Prod.fst)
    (hnodup : (fields.map Prod.fst).Nodup) :
    record fields (Json.ofMembers members) = some (members.map Prod.snd) := by
  obtain ⟨sorted, hsorted, hlookup⟩ := Json.exists_ofMembers (hkeys ▸ hnodup)
  rw [hsorted]
  exact record_object hkeys hlookup

theorem unit?_string (name : String) : unit? (.string name) = some name := rfl

end Serial

@[simp]
theorem NodeKind.ofTag?_tag (kind : NodeKind) : ofTag? kind.tag = some kind := by
  cases kind <;> decide

@[simp]
theorem Operator.ofName?_name (op : Operator) : ofName? op.name = some op := by
  cases op <;> decide

@[simp]
theorem UnaryOperator.ofName?_name (op : UnaryOperator) : ofName? op.name = some op := by
  cases op <;> decide

@[simp]
theorem Comparison.ofName?_name (op : Comparison) : ofName? op.name = some op := by
  cases op <;> decide

@[simp]
theorem Connective.ofName?_name (op : Connective) : ofName? op.name = some op := by
  cases op <;> decide

theorem Json.nat64?_int {n : Nat} (h : n < Word.unsignedBound) : (Json.int n).nat64? = some n := by
  have hword : Word.isUnsigned n = true := by
    rw [Word.isUnsigned, Bool.and_eq_true, decide_eq_true_eq, decide_eq_true_eq]
    exact ⟨Int.natCast_nonneg n, Int.ofNat_lt.mpr h⟩
  simp only [nat64?, hword, if_true, Int.toNat_natCast]

/-- A place is read from its line and its column. -/
theorem Span.decode?_of_record {value line column : Json} {l c : Nat}
    (hrecord : record [required "line", required "column"] value = some [line, column])
    (hline : line.nat64? = some l) (hcolumn : column.nat64? = some c) :
    decode? value = some ⟨l, c⟩ := by
  rw [decode?, hrecord]
  simp only [Option.bind_eq_bind, Option.bind_some, hline, hcolumn, Option.pure_def]

/-- A place is read back. -/
theorem Span.decode?_encode {s : Span} (h : s.Representable) : decode? s.encode = some s :=
  decode?_of_record rfl (Json.nat64?_int h.1) (Json.nat64?_int h.2)

/-- A constant is read back. -/
theorem Literal.decode?_encode {value : Literal} (h : value.Representable) :
    decode? (value.encode Json.ofFloat) = some value := by
  cases value with
  | none => rfl
  | bool value => rfl
  | str value => rfl
  | int value =>
    have hvalue : (Json.int value).int64? = some value := if_pos h
    change (Json.int value).int64?.bind _ = _
    rw [hvalue]
    rfl
  | float value =>
    have hvalue : Json.ofFloat value = .float value := if_pos h
    rw [encode, hvalue]
    rfl

/-- An imported name is read back. -/
theorem ImportedName.decode?_encode (name : ImportedName) : decode? name.encode = some name := by
  have hrecord : record [required "name", optional "alias"] name.encode =
      some [.string name.name, Json.ofString? name.asName] := rfl
  rw [decode?, hrecord]
  simp only [Option.bind_eq_bind, Option.bind_some, Json.string?, Json.nullable?_ofString?,
    Option.pure_def]

namespace Node

variable {α : Type} {child : Json → Option α} {encodeChild : α → Json}

/-- A child is read back from its form, which is not the one of an absent value. -/
def Restored (child : Json → Option α) (encodeChild : α → Json) (c : α) : Prop :=
  encodeChild c ≠ .null ∧ child (encodeChild c) = some c

/-- Children in a list are read back. -/
theorem list?_restored {items : List α} (h : ∀ c ∈ items, Restored child encodeChild c) :
    (Json.array (items.map encodeChild)).list? child = some items :=
  Json.list?_map fun c hc => (h c hc).2

/-- A child that may be absent is read back. -/
theorem nullable?_restored {value : Option α} (h : ∀ c ∈ value, Restored child encodeChild c) :
    (encodeOption (value.map encodeChild)).nullable? child = some value := by
  cases value with
  | none => rfl
  | some c =>
    obtain ⟨hne, hc⟩ := h c rfl
    exact Json.nullable?_of_ne_null hne hc

/-- A clause is read from its fields. -/
theorem decodeHandler?_of_record {value span exception name body : Json} {handler : Handler α}
    (hrecord : record [required "span", optional "exception", optional "name", required "body"]
      value = some [span, exception, name, body])
    (hspan : Span.decode? span = some handler.span)
    (hexception : exception.nullable? child = some handler.exception)
    (hname : name.nullable? Json.string? = some handler.name)
    (hbody : body.list? child = some handler.body) :
    decodeHandler? child value = some handler := by
  rw [decodeHandler?, hrecord]
  simp only [Option.bind_eq_bind, Option.bind_some, hspan, hexception, hname, hbody,
    Option.pure_def]

/-- A clause is read back. -/
theorem decodeHandler?_encode {handler : Handler α} (hspan : handler.span.Representable)
    (h : ∀ c ∈ handler.toList, Restored child encodeChild c) :
    decodeHandler? child (encodeHandler (handler.map encodeChild)) = some handler := by
  refine decodeHandler?_of_record (record_ofMembers rfl (by decide)) (Span.decode?_encode hspan)
    (nullable?_restored ?_) (Json.nullable?_ofString? _) (list?_restored ?_)
  · exact fun c hc => h c (List.mem_append_left _ (Option.mem_toList.mpr hc))
  · exact fun c hc => h c (List.mem_append_right _ hc)

/-- An item is read back. -/
theorem decodeItem?_encode {item : WithItem α} (h : Restored child encodeChild item.context) :
    decodeItem? child (encodeItem (item.map encodeChild)) = some item := by
  rw [decodeItem?, encodeItem, record_ofMembers rfl (by decide)]
  simp [WithItem.map, h.2]

/-- A keyword argument is read back. -/
theorem decodeKeyword?_encode {keyword : Keyword α} (h : Restored child encodeChild keyword.value) :
    decodeKeyword? child (encodeKeyword (keyword.map encodeChild)) = some keyword := by
  rw [decodeKeyword?, encodeKeyword, record_ofMembers rfl (by decide)]
  simp [Keyword.map, Json.string?, h.2]

/-- An alternative is found by its name. -/
theorem decode?_object (kind : NodeKind) (value : Json) :
    decode? child (.object [(kind.tag, value)]) = decodeAs? child kind value := by
  simp only [decode?, choice?, Option.bind_eq_bind, Option.bind_some, NodeKind.ofTag?_tag]

/-- A record is read back from its fields. -/
theorem decode?_encodeFields (kind : NodeKind) (members : List (String × Json)) :
    decode? child (encodeFields kind members) = decodeAs? child kind (Json.ofMembers members) :=
  decode?_object kind _

/-- A node is read back if its children are. -/
theorem decode?_encode {node : Node α} (hnode : node.Representable)
    (h : ∀ c ∈ node.toList, Restored child encodeChild c) :
    decode? child ((node.map encodeChild).encode Json.ofFloat) = some node := by
  -- Children stand alone, in a list, or where they may be absent.
  have hone {c : α} (hc : c ∈ node.toList) := (h c hc).2
  have hall {l : List α} (hsub : l ⊆ node.toList) := list?_restored fun c hc => h c (hsub hc)
  have hmay {o : Option α} (hsub : o.toList ⊆ node.toList) :=
    nullable?_restored fun c hc => h c (hsub (Option.mem_toList.mpr hc))
  cases node with
  | moduleDef body =>
    have hbody := hall (List.Subset.refl body)
    rw [map, encode, decode?_encodeFields, decodeAs?, record_ofMembers rfl (by decide)]
    simp [hbody]
  | functionDef name params body =>
    have hbody := hall (List.Subset.refl body)
    rw [map, encode, decode?_encodeFields, decodeAs?, record_ofMembers rfl (by decide)]
    simp [hbody, Json.string?]
  | returnStmt value =>
    have hvalue := hmay (List.Subset.refl value.toList)
    rw [map, encode, decode?_object, decodeAs?]
    simp [hvalue]
  | assign target value =>
    have htarget := hone (c := target) (by simp [toList])
    have hvalue := hone (c := value) (by simp [toList])
    rw [map, encode, decode?_encodeFields, decodeAs?, record_ofMembers rfl (by decide)]
    simp [htarget, hvalue]
  | augAssign target op value =>
    have htarget := hone (c := target) (by simp [toList])
    have hvalue := hone (c := value) (by simp [toList])
    rw [map, encode, decode?_encodeFields, decodeAs?, record_ofMembers rfl (by decide)]
    simp [htarget, hvalue, unit?_string]
  | exprStmt value =>
    have hvalue := hone (c := value) (by simp [toList])
    rw [map, encode, decode?_object, decodeAs?]
    simp [hvalue]
  | ifStmt test body orelse =>
    have htest := hone (c := test) (by simp [toList])
    have hbody := hall (l := body) (by simp [toList])
    have horelse := hall (l := orelse) (by simp [toList])
    rw [map, encode, decode?_encodeFields, decodeAs?, record_ofMembers rfl (by decide)]
    simp [htest, hbody, horelse]
  | whileLoop test body =>
    have htest := hone (c := test) (by simp [toList])
    have hbody := hall (l := body) (by simp [toList])
    rw [map, encode, decode?_encodeFields, decodeAs?, record_ofMembers rfl (by decide)]
    simp [htest, hbody]
  | forLoop target iter body =>
    have htarget := hone (c := target) (by simp [toList])
    have hiter := hone (c := iter) (by simp [toList])
    have hbody := hall (l := body) (by simp [toList])
    rw [map, encode, decode?_encodeFields, decodeAs?, record_ofMembers rfl (by decide)]
    simp [htarget, hiter, hbody]
  | passStmt => rfl
  | breakStmt => rfl
  | continueStmt => rfl
  | tryStmt body handlers finalbody =>
    have hbody := hall (l := body) (by simp [toList])
    have hfinalbody := hall (l := finalbody) (by simp [toList])
    -- A clause has a place and children of its own.
    have hhandlers : (Json.array ((handlers.map (Handler.map encodeChild)).map
        encodeHandler)).list? (decodeHandler? child) = some handlers := by
      rw [List.map_map]
      refine Json.list?_map fun handler hmem => decodeHandler?_encode (hnode handler hmem) ?_
      intro c hc
      refine h c (List.mem_append_left _ (List.mem_append_right _ ?_))
      exact List.mem_flatMap.mpr ⟨handler, hmem, hc⟩
    rw [map, encode, decode?_encodeFields, decodeAs?, record_ofMembers rfl (by decide)]
    simp only [List.map_cons, List.map_nil, Option.bind_eq_bind, Option.bind_some, hbody,
      hhandlers, hfinalbody, Option.pure_def]
  | withStmt items body =>
    have hbody := hall (l := body) (by simp [toList])
    have hitems : (Json.array ((items.map (WithItem.map encodeChild)).map
        encodeItem)).list? (decodeItem? child) = some items := by
      rw [List.map_map]
      refine Json.list?_map fun item hmem => decodeItem?_encode (h _ ?_)
      exact List.mem_append_left _ (List.mem_map_of_mem hmem)
    rw [map, encode, decode?_encodeFields, decodeAs?, record_ofMembers rfl (by decide)]
    simp only [List.map_cons, List.map_nil, Option.bind_eq_bind, Option.bind_some, hitems, hbody,
      Option.pure_def]
  | raiseStmt exception =>
    have hexception := hmay (List.Subset.refl exception.toList)
    rw [map, encode, decode?_object, decodeAs?]
    simp [hexception]
  | classDef name bases body =>
    have hbases := hall (l := bases) (by simp [toList])
    have hbody := hall (l := body) (by simp [toList])
    rw [map, encode, decode?_encodeFields, decodeAs?, record_ofMembers rfl (by decide)]
    simp [hbases, hbody, Json.string?]
  | importStmt source names =>
    have hnames := Json.list?_map fun name (_ : name ∈ names) => ImportedName.decode?_encode name
    rw [map, encode, decode?_encodeFields, decodeAs?, record_ofMembers rfl (by decide)]
    simp [hnames]
  | ident id => rfl
  | constant value =>
    have hvalue := Literal.decode?_encode (show value.Representable from hnode)
    rw [map, encode, decode?_object, decodeAs?]
    rw [hvalue]
    rfl
  | binOp left op right =>
    have hleft := hone (c := left) (by simp [toList])
    have hright := hone (c := right) (by simp [toList])
    rw [map, encode, decode?_encodeFields, decodeAs?, record_ofMembers rfl (by decide)]
    simp [hleft, hright, unit?_string]
  | unaryOp op operand =>
    have hoperand := hone (c := operand) (by simp [toList])
    rw [map, encode, decode?_encodeFields, decodeAs?, record_ofMembers rfl (by decide)]
    simp [hoperand, unit?_string]
  | compare left ops comparators =>
    have hleft := hone (c := left) (by simp [toList])
    have hcomparators := hall (l := comparators) (by simp [toList])
    have hops : (Json.ofStrings (ops.map Comparison.name)).list?
        (fun op => (unit? op).bind Comparison.ofName?) = some ops := by
      -- An operator is written as its name, which only that operator has.
      rw [Json.ofStrings, List.map_map]
      exact Json.list?_map fun op _ => Comparison.ofName?_name op
    rw [map, encode, decode?_encodeFields, decodeAs?, record_ofMembers rfl (by decide)]
    simp [hleft, hops, hcomparators]
  | boolOp op values =>
    have hvalues := hall (List.Subset.refl values)
    rw [map, encode, decode?_encodeFields, decodeAs?, record_ofMembers rfl (by decide)]
    simp [hvalues, unit?_string]
  | call func args keywords =>
    have hfunc := hone (c := func) (by simp [toList])
    have hargs := hall (l := args) (by simp [toList])
    have hkeywords : (Json.array ((keywords.map (Keyword.map encodeChild)).map
        encodeKeyword)).list? (decodeKeyword? child) = some keywords := by
      rw [List.map_map]
      refine Json.list?_map fun keyword hmem => decodeKeyword?_encode (h _ ?_)
      exact List.mem_cons_of_mem _ (List.mem_append_right _ (List.mem_map_of_mem hmem))
    rw [map, encode, decode?_encodeFields, decodeAs?, record_ofMembers rfl (by decide)]
    simp only [List.map_cons, List.map_nil, Option.bind_eq_bind, Option.bind_some, hfunc, hargs,
      hkeywords, Option.pure_def]
  | attr value name =>
    have hvalue := hone (c := value) (by simp [toList])
    rw [map, encode, decode?_encodeFields, decodeAs?, record_ofMembers rfl (by decide)]
    simp [hvalue, Json.string?]
  | subscript value index =>
    have hvalue := hone (c := value) (by simp [toList])
    have hindex := hone (c := index) (by simp [toList])
    rw [map, encode, decode?_encodeFields, decodeAs?, record_ofMembers rfl (by decide)]
    simp [hvalue, hindex]
  | slice lower upper step =>
    have hlower := hmay (o := lower) (by simp [toList])
    have hupper := hmay (o := upper) (by simp [toList])
    have hstep := hmay (o := step) (by simp [toList])
    rw [map, encode, decode?_encodeFields, decodeAs?, record_ofMembers rfl (by decide)]
    simp [hlower, hupper, hstep]
  | list items =>
    have hitems := hall (List.Subset.refl items)
    rw [map, encode, decode?_object, decodeAs?]
    simp [hitems]
  | tuple items =>
    have hitems := hall (List.Subset.refl items)
    rw [map, encode, decode?_object, decodeAs?]
    simp [hitems]
  | dict entries =>
    -- An entry is written as an array of two.
    have hentries : (Json.array ((entries.map fun entry =>
        (encodeChild entry.1, encodeChild entry.2)).map fun entry =>
          .array [entry.1, entry.2])).list? (decodePair? child) = some entries := by
      rw [List.map_map]
      refine Json.list?_map fun entry hmem => ?_
      have hkey := hone (c := entry.1) (List.mem_flatMap.mpr ⟨entry, hmem, by simp⟩)
      have hvalue := hone (c := entry.2) (List.mem_flatMap.mpr ⟨entry, hmem, by simp⟩)
      simp [decodePair?, hkey, hvalue]
    rw [map, encode, decode?_encodeFields, decodeAs?, record_ofMembers rfl (by decide)]
    simp only [List.map_cons, List.map_nil, Option.bind_eq_bind, Option.bind_some, hentries,
      Option.pure_def]
  | ifExp test body orelse =>
    have htest := hone (c := test) (by simp [toList])
    have hbody := hone (c := body) (by simp [toList])
    have horelse := hone (c := orelse) (by simp [toList])
    rw [map, encode, decode?_encodeFields, decodeAs?, record_ofMembers rfl (by decide)]
    simp [htest, hbody, horelse]
  | lambda params body =>
    have hbody := hone (c := body) (by simp [toList])
    rw [map, encode, decode?_encodeFields, decodeAs?, record_ofMembers rfl (by decide)]
    simp [hbody]

end Node

end Rendition
