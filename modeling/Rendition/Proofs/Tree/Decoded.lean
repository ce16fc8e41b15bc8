import Rendition.Proofs.Json.Finite
import Rendition.Proofs.Tree.Encoded

/-!
# Serialized trees are read from what is inside them

Whichever form a node is read from, its children are read from values inside that form, and its own
numbers are numbers there. Two things follow. The children of a serialized tree are lower than the
tree, so reading never runs out of fuel and a representable tree is read back. And a tree that was
read from a representable value is representable, so it is read back as well, even if the value was
not the form in which the tree is written.

## Theorems

* `holds_of_record`, `holds_of_choice?`: Fields and what an alternative holds are inside the form.
* `Node.readAll_of_decode?`: The children of a node are read from values inside its form.
* `Tree.decodeWithin?_encode`: A tree is read back if there is fuel for the height of its form.
* `Tree.decode?_encode`, `Task.decode?_encode`: Trees and tasks are read back.
* `Tree.representable_of_decode?`, `Task.representable_of_decode?`: What was read is representable.
* `encode_restores`: Writing what was read and reading it again gives the same.
-/

namespace Rendition

open Serial

namespace Serial

variable {β γ δ ε : Type} {fields : List (String × Bool)} {value : Json}

/-- The fields of a record are inside its form. -/
theorem holds_of_record {parts : List Json} (h : record fields value = some parts) {part : Json}
    (hpart : part ∈ parts) : value.Holds part := by
  cases value with
  | object members =>
    obtain ⟨⟨key, mayLack⟩, -, hfield⟩ := Json.exists_of_mapM h hpart
    simp only at hfield
    split at hfield
    next found hfound =>
      cases hfield
      obtain ⟨before, after, rfl, -⟩ := List.lookup_eq_some_iff.mp hfound
      exact .member (List.mem_append_right _ List.mem_cons_self) (.self _)
    next =>
      split at hfield
      · cases hfield
        exact .absent _
      · cases hfield
  | array items =>
    simp only [record] at h
    split at h
    · cases h
      exact .item hpart (.self _)
    · cases h
  | _ => cases h

/-- What is read of a record with one field is read from a value inside. -/
theorem record_one {f : γ → β} {r : Json → Option γ} {result : β}
    (h : (do
      let [a] ← record fields value | none
      return f (← r a)) = some result) :
    ∃ a x, value.Holds a ∧ r a = some x ∧ f x = result := by
  obtain ⟨parts, hparts, h⟩ := Option.bind_eq_some_iff.mp h
  match parts with
  | [a] =>
    obtain ⟨x, hx, h⟩ := Option.bind_eq_some_iff.mp h
    exact ⟨a, x, holds_of_record hparts (by simp), hx, Option.some.inj h⟩
  | [] | _ :: _ :: _ => cases h

/-- What is read of a record with two fields is read from values inside. -/
theorem record_two {f : γ → δ → β} {r : Json → Option γ} {s : Json → Option δ} {result : β}
    (h : (do
      let [a, b] ← record fields value | none
      return f (← r a) (← s b)) = some result) :
    ∃ a b x y, value.Holds a ∧ value.Holds b ∧ r a = some x ∧ s b = some y ∧ f x y = result := by
  obtain ⟨parts, hparts, h⟩ := Option.bind_eq_some_iff.mp h
  match parts with
  | [a, b] =>
    obtain ⟨x, hx, h⟩ := Option.bind_eq_some_iff.mp h
    obtain ⟨y, hy, h⟩ := Option.bind_eq_some_iff.mp h
    exact ⟨a, b, x, y, holds_of_record hparts (by simp), holds_of_record hparts (by simp), hx, hy,
      Option.some.inj h⟩
  | [] | [_] | _ :: _ :: _ :: _ => cases h

/-- What is read of a record with three fields is read from values inside. -/
theorem record_three {f : γ → δ → ε → β} {r : Json → Option γ} {s : Json → Option δ}
    {t : Json → Option ε} {result : β}
    (h : (do
      let [a, b, c] ← record fields value | none
      return f (← r a) (← s b) (← t c)) = some result) :
    ∃ a b c x y z, value.Holds a ∧ value.Holds b ∧ value.Holds c ∧
      r a = some x ∧ s b = some y ∧ t c = some z ∧ f x y z = result := by
  obtain ⟨parts, hparts, h⟩ := Option.bind_eq_some_iff.mp h
  match parts with
  | [a, b, c] =>
    obtain ⟨x, hx, h⟩ := Option.bind_eq_some_iff.mp h
    obtain ⟨y, hy, h⟩ := Option.bind_eq_some_iff.mp h
    obtain ⟨z, hz, h⟩ := Option.bind_eq_some_iff.mp h
    exact ⟨a, b, c, x, y, z, holds_of_record hparts (by simp), holds_of_record hparts (by simp),
      holds_of_record hparts (by simp), hx, hy, hz, Option.some.inj h⟩
  | [] | [_] | [_, _] | _ :: _ :: _ :: _ :: _ => cases h

/-- What an alternative holds is inside its form. -/
theorem holds_of_choice? {name : String} {part : Json}
    (h : choice? value = some (name, some part)) : value.Holds part := by
  unfold choice? at h
  split at h
  · cases h
  · cases h
    exact .member List.mem_cons_self (.self _)
  · cases h

end Serial

theorem Json.lt_of_nat64? {value : Json} {n : Nat} (h : value.nat64? = some n) :
    n < Word.unsignedBound := by
  cases value with
  | int value =>
    rw [nat64?, Option.ite_none_right_eq_some] at h
    obtain ⟨hword, h⟩ := h
    rw [Word.isUnsigned, Bool.and_eq_true, decide_eq_true_eq, decide_eq_true_eq] at hword
    rw [Option.some.injEq] at h
    omega
  | _ => exact absurd h (by simp only [nat64?, reduceCtorEq, not_false_eq_true])

theorem Json.isSigned_of_int64? {value : Json} {n : Int} (h : value.int64? = some n) :
    Word.isSigned n = true := by
  cases value with
  | int value =>
    rw [int64?, Option.ite_none_right_eq_some] at h
    obtain ⟨hword, h⟩ := h
    obtain rfl := Option.some.inj h
    exact hword
  | _ => exact absurd h (by simp only [int64?, reduceCtorEq, not_false_eq_true])

/-- The numbers of a place that was read fit into 64 bits. -/
theorem Span.representable_of_decode? {value : Json} {s : Span} (h : decode? value = some s) :
    s.Representable := by
  obtain ⟨a, b, line, column, -, -, hline, hcolumn, rfl⟩ := record_two h
  exact ⟨Json.lt_of_nat64? hline, Json.lt_of_nat64? hcolumn⟩

/-- The number of a constant that was read can be written. -/
theorem Literal.representable_of_decode? {value : Json} {literal : Literal}
    (hvalue : value.Representable) (h : decode? value = some literal) :
    literal.Representable := by
  obtain ⟨⟨name, part⟩, hchoice, h⟩ := Option.bind_eq_some_iff.mp h
  split at h
  case h_4 held heq =>
    obtain ⟨n, hn, h⟩ := Option.bind_eq_some_iff.mp h
    obtain rfl := Option.some.inj h
    exact Json.isSigned_of_int64? hn
  case h_5 held heq =>
    obtain ⟨x, hx, h⟩ := Option.bind_eq_some_iff.mp h
    obtain rfl := Option.some.inj h
    cases heq
    -- An integer is taken as a finite number, and a number in the value is finite.
    refine Json.isFinite_of_float? (fun y hy => ?_) hx
    rcases hy ▸ (holds_of_choice? hchoice).representable hvalue with _ | _ | _ | hfinite
    exact hfinite
  case h_3 =>
    obtain ⟨b, -, h⟩ := Option.bind_eq_some_iff.mp h
    obtain rfl := Option.some.inj h
    exact trivial
  case h_6 =>
    obtain ⟨text, -, h⟩ := Option.bind_eq_some_iff.mp h
    obtain rfl := Option.some.inj h
    exact trivial
  case h_7 => cases h
  all_goals
    obtain rfl := Option.some.inj h
    exact trivial

namespace Node

variable {α : Type} {child : Json → Option α} {value : Json}

/-- The place of a clause is representable, and its children are read from values inside. -/
theorem decodeHandler?_eq_some {handler : Handler α}
    (h : decodeHandler? child value = some handler) :
    handler.span.Representable ∧ Json.ReadAll child value handler.toList := by
  obtain ⟨parts, hparts, h⟩ := Option.bind_eq_some_iff.mp h
  have hold {part : Json} (hpart : part ∈ parts) := holds_of_record hparts hpart
  match parts with
  | [span, exception, name, body] =>
    simp only [Option.bind_eq_bind, Option.bind_eq_some_iff, Option.pure_def, Option.some.injEq]
      at h
    obtain ⟨place, hplace, caught, hcaught, _, -, statements, hstatements, rfl⟩ := h
    exact ⟨Span.representable_of_decode? hplace,
      .append (.optional (hold (by simp)) hcaught) (.list (hold (by simp)) hstatements)⟩
  | [] | [_] | [_, _] | [_, _, _] | _ :: _ :: _ :: _ :: _ :: _ => cases h

theorem readAll_of_decodeHandler? {handler : Handler α}
    (h : decodeHandler? child value = some handler) : Json.ReadAll child value handler.toList :=
  (decodeHandler?_eq_some h).2

theorem representable_of_decodeHandler? {handler : Handler α}
    (h : decodeHandler? child value = some handler) : handler.span.Representable :=
  (decodeHandler?_eq_some h).1

theorem readAll_of_decodeItem? {item : WithItem α} (h : decodeItem? child value = some item) :
    Json.ReadAll child value [item.context] := by
  obtain ⟨a, b, context, asName, ha, -, hcontext, -, rfl⟩ := record_two h
  exact .cons ha hcontext .nil

theorem readAll_of_decodeKeyword? {keyword : Keyword α}
    (h : decodeKeyword? child value = some keyword) : Json.ReadAll child value [keyword.value] := by
  obtain ⟨a, b, name, argument, -, hb, -, hargument, rfl⟩ := record_two h
  exact .cons hb hargument .nil

theorem readAll_of_decodePair? {entry : α × α} (h : decodePair? child value = some entry) :
    Json.ReadAll child value [entry.1, entry.2] := by
  unfold decodePair? at h
  split at h
  · simp only [Option.bind_eq_bind, Option.bind_eq_some_iff, Option.pure_def, Option.some.injEq]
      at h
    obtain ⟨key, hkey, held, hheld, rfl⟩ := h
    exact .cons (.item (by simp) (.self _)) hkey (.cons (.item (by simp) (.self _)) hheld .nil)
  · cases h

/-- The children of a node are read from values inside the value that the node is read from, and
    the numbers of the node can be written if those of the value can. -/
theorem readAll_of_decodeAs? {kind : NodeKind} {node : Node α}
    (h : decodeAs? child kind value = some node) :
    Json.ReadAll child value node.toList ∧ (value.Representable → node.Representable) := by
  cases kind with
  | moduleDef =>
    obtain ⟨a, body, ha, hbody, rfl⟩ := record_one h
    exact ⟨.list ha hbody, fun _ => trivial⟩
  | functionDef =>
    obtain ⟨a, b, c, name, params, body, ha, hb, hc, -, -, hbody, rfl⟩ := record_three h
    exact ⟨.list hc hbody, fun _ => trivial⟩
  | returnStmt =>
    obtain ⟨result, hresult, h⟩ := Option.bind_eq_some_iff.mp h
    obtain rfl := Option.some.inj h
    exact ⟨.optional (.self value) hresult, fun _ => trivial⟩
  | assign =>
    obtain ⟨a, b, target, value, ha, hb, htarget, hvalue, rfl⟩ := record_two h
    exact ⟨.cons ha htarget (.cons hb hvalue .nil), fun _ => trivial⟩
  | augAssign =>
    obtain ⟨a, b, c, target, op, value, ha, hb, hc, htarget, -, hvalue, rfl⟩ := record_three h
    exact ⟨.cons ha htarget (.cons hc hvalue .nil), fun _ => trivial⟩
  | exprStmt =>
    obtain ⟨result, hresult, h⟩ := Option.bind_eq_some_iff.mp h
    obtain rfl := Option.some.inj h
    exact ⟨.cons (.self value) hresult .nil, fun _ => trivial⟩
  | ifStmt =>
    obtain ⟨a, b, c, test, body, orelse, ha, hb, hc, htest, hbody, horelse, rfl⟩ := record_three h
    exact ⟨.cons ha htest (.append (.list hb hbody) (.list hc horelse)), fun _ => trivial⟩
  | whileLoop =>
    obtain ⟨a, b, test, body, ha, hb, htest, hbody, rfl⟩ := record_two h
    exact ⟨.cons ha htest (.list hb hbody), fun _ => trivial⟩
  | forLoop =>
    obtain ⟨a, b, c, target, iter, body, ha, hb, hc, htarget, hiter, hbody, rfl⟩ := record_three h
    exact ⟨.cons ha htarget (.cons hb hiter (.list hc hbody)), fun _ => trivial⟩
  | passStmt =>
    cases value with
    | null => obtain rfl := Option.some.inj h; exact ⟨.nil, fun _ => trivial⟩
    | _ => cases h
  | breakStmt =>
    cases value with
    | null => obtain rfl := Option.some.inj h; exact ⟨.nil, fun _ => trivial⟩
    | _ => cases h
  | continueStmt =>
    cases value with
    | null => obtain rfl := Option.some.inj h; exact ⟨.nil, fun _ => trivial⟩
    | _ => cases h
  | tryStmt =>
    obtain ⟨a, b, c, body, handlers, finalbody, ha, hb, hc, hbody, hhandlers, hfinalbody, rfl⟩ :=
      record_three h
    refine ⟨.append (.append (.list ha hbody) (.flatMap readAll_of_decodeHandler? hb hhandlers))
      (.list hc hfinalbody), fun _ handler hmem => ?_⟩
    -- The places of the clauses are numbers of the node as well.
    obtain ⟨part, -, hhandler⟩ := Json.ReadAll.list hb hhandlers handler hmem
    exact representable_of_decodeHandler? hhandler
  | withStmt =>
    obtain ⟨a, b, items, body, ha, hb, hitems, hbody, rfl⟩ := record_two h
    refine ⟨.append ?_ (.list hb hbody), fun _ => trivial⟩
    rw [List.map_eq_flatMap]
    exact .flatMap readAll_of_decodeItem? ha hitems
  | raiseStmt =>
    obtain ⟨exception, hexception, h⟩ := Option.bind_eq_some_iff.mp h
    obtain rfl := Option.some.inj h
    exact ⟨.optional (.self value) hexception, fun _ => trivial⟩
  | classDef =>
    obtain ⟨a, b, c, name, bases, body, ha, hb, hc, -, hbases, hbody, rfl⟩ := record_three h
    exact ⟨.append (.list hb hbases) (.list hc hbody), fun _ => trivial⟩
  | importStmt =>
    obtain ⟨a, b, source, names, ha, hb, -, -, rfl⟩ := record_two h
    exact ⟨.nil, fun _ => trivial⟩
  | ident =>
    obtain ⟨id, -, h⟩ := Option.bind_eq_some_iff.mp h
    obtain rfl := Option.some.inj h
    exact ⟨.nil, fun _ => trivial⟩
  | constant =>
    obtain ⟨literal, hliteral, h⟩ := Option.bind_eq_some_iff.mp h
    obtain rfl := Option.some.inj h
    exact ⟨.nil, fun hvalue => Literal.representable_of_decode? hvalue hliteral⟩
  | binOp =>
    obtain ⟨a, b, c, left, op, right, ha, hb, hc, hleft, -, hright, rfl⟩ := record_three h
    exact ⟨.cons ha hleft (.cons hc hright .nil), fun _ => trivial⟩
  | unaryOp =>
    obtain ⟨a, b, op, operand, ha, hb, -, hoperand, rfl⟩ := record_two h
    exact ⟨.cons hb hoperand .nil, fun _ => trivial⟩
  | compare =>
    obtain ⟨a, b, c, left, ops, comparators, ha, hb, hc, hleft, -, hcomparators, rfl⟩ :=
      record_three h
    exact ⟨.cons ha hleft (.list hc hcomparators), fun _ => trivial⟩
  | boolOp =>
    obtain ⟨a, b, op, values, ha, hb, -, hvalues, rfl⟩ := record_two h
    exact ⟨.list hb hvalues, fun _ => trivial⟩
  | call =>
    obtain ⟨a, b, c, func, args, keywords, ha, hb, hc, hfunc, hargs, hkeywords, rfl⟩ :=
      record_three h
    refine ⟨.cons ha hfunc (.append (.list hb hargs) ?_), fun _ => trivial⟩
    rw [List.map_eq_flatMap]
    exact .flatMap readAll_of_decodeKeyword? hc hkeywords
  | attr =>
    obtain ⟨a, b, value, name, ha, hb, hvalue, -, rfl⟩ := record_two h
    exact ⟨.cons ha hvalue .nil, fun _ => trivial⟩
  | subscript =>
    obtain ⟨a, b, value, index, ha, hb, hvalue, hindex, rfl⟩ := record_two h
    exact ⟨.cons ha hvalue (.cons hb hindex .nil), fun _ => trivial⟩
  | slice =>
    obtain ⟨a, b, c, lower, upper, step, ha, hb, hc, hlower, hupper, hstep, rfl⟩ := record_three h
    exact ⟨.append (.append (.optional ha hlower) (.optional hb hupper)) (.optional hc hstep),
      fun _ => trivial⟩
  | list =>
    obtain ⟨items, hitems, h⟩ := Option.bind_eq_some_iff.mp h
    obtain rfl := Option.some.inj h
    exact ⟨.list (.self value) hitems, fun _ => trivial⟩
  | tuple =>
    obtain ⟨items, hitems, h⟩ := Option.bind_eq_some_iff.mp h
    obtain rfl := Option.some.inj h
    exact ⟨.list (.self value) hitems, fun _ => trivial⟩
  | dict =>
    obtain ⟨a, entries, ha, hentries, rfl⟩ := record_one h
    exact ⟨.flatMap readAll_of_decodePair? ha hentries, fun _ => trivial⟩
  | ifExp =>
    obtain ⟨a, b, c, test, body, orelse, ha, hb, hc, htest, hbody, horelse, rfl⟩ := record_three h
    exact ⟨.cons ha htest (.cons hb hbody (.cons hc horelse .nil)), fun _ => trivial⟩
  | lambda =>
    obtain ⟨a, b, params, body, ha, hb, -, hbody, rfl⟩ := record_two h
    exact ⟨.cons hb hbody .nil, fun _ => trivial⟩

/-- What is read of a node is read from values inside its form. -/
theorem readAll_of_decode? {node : Node α} (h : decode? child value = some node) :
    Json.ReadAll child value node.toList ∧ (value.Representable → node.Representable) := by
  obtain ⟨⟨name, part⟩, hchoice, h⟩ := Option.bind_eq_some_iff.mp h
  split at h
  case h_4 => cases h
  case h_5 tag held heq =>
    cases heq
    obtain ⟨kind, -, h⟩ := Option.bind_eq_some_iff.mp h
    obtain ⟨hread, hnode⟩ := readAll_of_decodeAs? h
    have hheld := holds_of_choice? hchoice
    exact ⟨hread.within hheld, fun hvalue => hnode (hheld.representable hvalue)⟩
  all_goals
    obtain rfl := Option.some.inj h
    exact ⟨.nil, fun _ => trivial⟩

end Node

namespace Tree

theorem representable_mk {span : Span} {node : Node Tree} :
    (mk span node).Representable ↔
      span.Representable ∧ node.Representable ∧ ∀ c ∈ node.toList, c.Representable := by
  simp only [Representable, descendants_mk, List.forall_mem_cons, List.forall_mem_flatMap, span_mk,
    node_mk, and_assoc]

theorem encode_mk (span : Span) (node : Node Tree) : encode (mk span node) =
    .object [("node", (node.map encode).encode Json.ofFloat), ("span", span.encode)] := by
  rw [encode, encodeWith, fold_mk]
  rfl

theorem encode_ne_null (t : Tree) : t.encode ≠ .null := by
  obtain ⟨span, node⟩ := t
  rw [encode_mk]
  exact Json.noConfusion

/-- A tree is read from its place and its node. -/
theorem decodeWithin?_of_record {fuel : Nat} {value span node : Json} {s : Span} {root : Node Tree}
    (hrecord : record [required "span", required "node"] value = some [span, node])
    (hspan : Span.decode? span = some s)
    (hnode : Node.decode? (decodeWithin? fuel) node = some root) :
    decodeWithin? (fuel + 1) value = some (mk s root) := by
  rw [decodeWithin?, hrecord]
  simp only [Option.bind_eq_bind, Option.bind_some, hspan, hnode, Option.pure_def]

/-- The form of a child is inside the form of the node. -/
theorem height_encode_le {node : Node Tree} (hnode : node.Representable) {c : Tree}
    (hc : c ∈ node.toList) :
    c.encode.height ≤ ((node.map encode).encode Json.ofFloat).height := by
  -- A node of forms is read back from what it is written as, so its children are found there.
  have hforms : Node.decode? some (((node.map encode).map fun form => form).encode Json.ofFloat) =
      some (node.map encode) := by
    refine Node.decode?_encode (Node.representable_map.mpr hnode) fun form hform => ?_
    rw [Node.toList_map] at hform
    obtain ⟨child, -, rfl⟩ := List.mem_map.mp hform
    exact ⟨child.encode_ne_null, rfl⟩
  rw [Node.map_id] at hforms
  obtain ⟨part, hpart, heq⟩ := (Node.readAll_of_decode? hforms).1 c.encode
    (by rw [Node.toList_map]; exact List.mem_map_of_mem hc)
  obtain rfl := Option.some.inj heq
  exact hpart.height_le

/-- A tree is read back from its form, however much fuel is left. -/
theorem decodeWithin?_encode (t : Tree) : t.Representable → ∀ fuel, t.encode.height ≤ fuel →
    decodeWithin? fuel t.encode = some t := by
  induction t using inductionOn with
  | step span node ih =>
    intro ht fuel hfuel
    obtain ⟨hspan, hnode, hchildren⟩ := representable_mk.mp ht
    rw [encode_mk] at hfuel ⊢
    simp only [Json.height, Json.heightMembers] at hfuel
    -- One unit is spent on the record, which is higher than the node in it.
    obtain ⟨fuel, rfl⟩ : ∃ rest, fuel = rest + 1 := ⟨fuel - 1, by omega⟩
    refine decodeWithin?_of_record rfl (Span.decode?_encode hspan) (Node.decode?_encode hnode ?_)
    intro c hc
    have hheight := height_encode_le hnode hc
    exact ⟨c.encode_ne_null, ih c hc (hchildren c hc) fuel (by omega)⟩

/-- A tree is read back from its form. -/
theorem decode?_encode {t : Tree} (h : t.Representable) : decode? t.encode = some t :=
  decodeWithin?_encode t h _ (le_refl _)

theorem representable_of_decodeWithin? (fuel : Nat) : ∀ {value : Json} {t : Tree},
    value.Representable → decodeWithin? fuel value = some t → t.Representable := by
  induction fuel with
  | zero => intro value t _ h; cases h
  | succ fuel ih =>
    intro value t hvalue h
    obtain ⟨a, b, span, node, -, hb, hspan, hnode, rfl⟩ := record_two h
    obtain ⟨hread, hnumbers⟩ := Node.readAll_of_decode? hnode
    have hform := hb.representable hvalue
    -- The children were read with less fuel, from values that are representable too.
    refine representable_mk.mpr ⟨Span.representable_of_decode? hspan, hnumbers hform, ?_⟩
    intro c hc
    obtain ⟨part, hpart, hchild⟩ := hread c hc
    exact ih (hpart.representable hform) hchild

/-- The numbers of a tree that was read can be written. -/
theorem representable_of_decode? {value : Json} {t : Tree} (hvalue : value.Representable)
    (h : decode? value = some t) : t.Representable :=
  representable_of_decodeWithin? _ hvalue h

end Tree

/-- What is known of a function is read from its fields. -/
theorem SourceFunction.decode?_of_record {value name text line : Json} {f : SourceFunction}
    (hrecord : record [required "name", required "source", required "line"] value =
      some [name, text, line])
    (hname : name.string? = some f.name) (htext : text.string? = some f.text)
    (hline : line.nat64? = some f.line) : decode? value = some f := by
  rw [decode?, hrecord]
  simp only [Option.bind_eq_bind, Option.bind_some, hname, htext, hline, Option.pure_def]

namespace Task

/-- The numbers in the task can be written. -/
def Representable (task : Task) : Prop :=
  task.function.line < Word.unsignedBound ∧ task.tree.Representable

/-- A task is read from its function and its tree. -/
theorem decode?_of_record {value function tree : Json} {task : Task}
    (hrecord : record [required "function", required "syntax_tree"] value = some [function, tree])
    (hfunction : SourceFunction.decode? function = some task.function)
    (htree : Tree.decode? tree = some task.tree) : decode? value = some task := by
  rw [decode?, hrecord]
  simp only [Option.bind_eq_bind, Option.bind_some, hfunction, htree, Option.pure_def]

/-- A task is read back from its form. -/
theorem decode?_encode {task : Task} (h : task.Representable) : decode? task.encode = some task :=
  decode?_of_record (record_ofMembers rfl (by decide))
    (SourceFunction.decode?_of_record (record_ofMembers rfl (by decide)) rfl rfl
      (Json.nat64?_int h.1))
    (Tree.decode?_encode h.2)

/-- The numbers of a task that was read can be written. -/
theorem representable_of_decode? {value : Json} {task : Task} (hvalue : value.Representable)
    (h : decode? value = some task) : task.Representable := by
  obtain ⟨a, b, function, tree, -, hb, hfunction, htree, rfl⟩ := record_two h
  obtain ⟨_, _, c, name, text, line, -, -, -, -, -, hline, rfl⟩ := record_three hfunction
  exact ⟨Json.lt_of_nat64? hline, Tree.representable_of_decode? (hb.representable hvalue) htree⟩

end Task

/-- Trees and tasks are read back from their forms, so whatever a tree or a task was read from,
    writing it and reading that gives the same again. -/
theorem encode_restores :
    (∀ t : Tree, t.Representable → Tree.decode? t.encode = some t) ∧
      (∀ task : Task, task.Representable → Task.decode? task.encode = some task) ∧
      (∀ (value : Json) (t : Tree), value.Representable → Tree.decode? value = some t →
        Tree.decode? t.encode = some t) ∧
      ∀ (value : Json) (task : Task), value.Representable → Task.decode? value = some task →
        Task.decode? task.encode = some task := by
  refine ⟨fun t => Tree.decode?_encode, fun task => Task.decode?_encode, ?_, ?_⟩
  · intro value t hvalue h
    exact Tree.decode?_encode (Tree.representable_of_decode? hvalue h)
  · intro value task hvalue h
    exact Task.decode?_encode (Task.representable_of_decode? hvalue h)

/-- A place may be given as an array, and an integer where a number is expected. What was read is
    written in another way and read back all the same. -/
theorem encode_restores_constant :
    let value : Json := .array [.array [.int 1, .int 0],
      .object [("Constant", .object [("Float", .int 3)])]]
    let t : Tree := .mk ⟨1, 0⟩ (.constant (.float (UInt64.ofNat 3).toFloat))
    let given : Json := .array [.array [.string "f", .string "3", .int 1], value]
    let task : Task := ⟨⟨"f", "3", 1⟩, t⟩
    (t.Representable ∧ Tree.decode? t.encode = some t) ∧
      (task.Representable ∧ Task.decode? task.encode = some task) ∧
      (value.Representable ∧ Tree.decode? value = some t ∧ Tree.decode? t.encode = some t) ∧
      given.Representable ∧ Task.decode? given = some task ∧
        Task.decode? task.encode = some task := by
  intro value t given task
  have hint (n : Int) (h : Word.isSigned n = true) : (Json.int n).Representable := .int (.inl h)
  have hvalue : value.Representable := by
    refine .array (List.forall_mem_cons.mpr ⟨.array ?_, List.forall_mem_singleton.mpr ?_⟩)
    · exact List.forall_mem_cons.mpr
        ⟨hint 1 (by decide), List.forall_mem_singleton.mpr (hint 0 (by decide))⟩
    · refine .object (List.forall_mem_singleton.mpr (.object ?_))
      exact List.forall_mem_singleton.mpr (hint 3 (by decide))
  have hgiven : given.Representable := by
    refine .array (List.forall_mem_cons.mpr ⟨.array ?_, List.forall_mem_singleton.mpr hvalue⟩)
    refine List.forall_mem_cons.mpr ⟨.string _, List.forall_mem_cons.mpr ⟨.string _, ?_⟩⟩
    exact List.forall_mem_singleton.mpr (hint 1 (by decide))
  have hread : Tree.decode? value = some t := rfl
  have hreadTask : Task.decode? given = some task := rfl
  have ht := Tree.representable_of_decode? hvalue hread
  have htask := Task.representable_of_decode? hgiven hreadTask
  obtain ⟨htrees, htasks, hvalues, hgivens⟩ := encode_restores
  exact ⟨⟨ht, htrees t ht⟩, ⟨htask, htasks task htask⟩,
    ⟨hvalue, hread, hvalues value t hvalue hread⟩,
    hgiven, hreadTask, hgivens given task hgiven hreadTask⟩

end Rendition
