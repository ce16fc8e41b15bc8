import Rendition.Proofs.Python.Textual

/-!
# Heads and expressions of orderly trees

In an orderly tree every expression is written on one line, and so is what stands in front of the
suites of a statement. None of these texts is empty, since a name is not, and everything else is
written with at least one mark or word.

## Main definitions

* `Python.Fixed`: Texts on one line, the same at all widths.

## Theorems

* `fixed_wording`: An expression is written on one line.
* `headOf_ne_empty`, `wording_ne_empty`: Heads and expressions are not empty.
-/

namespace Rendition.Python

open Text (Unbroken unbroken_append)

/-- Expressions and statements are no whole source texts. -/
theorem kind_ne_moduleDef {kind : NodeKind}
    (h : kind.category = .expression ∨ kind.category = .statement) : kind ≠ .moduleDef := by
  rintro rfl
  rcases h with h | h <;> cases h

/-- Texts on one line, the same at all widths of a level. -/
def Fixed (f : Nat → String) : Prop :=
  (∀ width, f width = f 0) ∧ Unbroken (f 0).toList

theorem textual_fixed : Textual (fun name => Unbroken name.toList) Fixed where
  plain _ h := ⟨fun _ => rfl, h⟩
  name h := ⟨fun _ => rfl, h⟩
  append {f g} hf hg := by
    refine ⟨fun width => congrArg₂ (· ++ ·) (hf.1 width) (hg.1 width), ?_⟩
    rw [String.toList_append]
    exact unbroken_append.mpr ⟨hf.2, hg.2⟩

/-- An expression is written on one line. -/
theorem fixed_wording {t : Tree} (h : t.Orderly) (hkind : t.kind.category = .expression) :
    (Fixed fun width => (wording (blanks width) t).text) ∧
      Fixed fun width => (wording (blanks width) t).index := by
  induction t using Tree.inductionOn with
  | step span node ih =>
    have hchildren : ∀ c ∈ node.expressions,
        (Fixed fun width => (wording (blanks width) c).text) ∧
          Fixed fun width => (wording (blanks width) c).index := fun c hc =>
      have hmem := Node.mem_of_mem_expressions hc
      ih c hmem (h.child hmem) (h.root.expressions c hc)
    have hne : node.kind ≠ .moduleDef := kind_ne_moduleDef (.inl hkind)
    have hhead := textual_fixed.headOf hne hchildren fun name hname => (h.root.names name hname).2
    have htext :
        Fixed fun width => assemble (blanks width) (node.map (wording (blanks width))) := by
      have heq (width : Nat) : assemble (blanks width) (node.map (wording (blanks width))) =
          headOf (node.map (wording (blanks width))) :=
        assemble_expression (by rw [Node.kind_map]; exact hkind) _
      simpa only [heq] using hhead
    simp only [wording_mk]
    refine ⟨htext, ?_⟩
    -- Only a tuple with elements is worded differently as an index.
    cases node with
    | tuple items =>
      rcases items with _ | ⟨first, rest⟩
      · exact htext
      · exact textual_fixed.texts_listing fun i hi => (hchildren i hi).1
    | _ => exact htext

/-! ## Texts that are not empty -/

theorem constantText_ne_empty (value : Literal) : constantText value ≠ "" := by
  cases value with
  | none => decide
  | bool value => cases value <;> decide
  | int value => exact Physl.text_int_ne_empty value
  | float value => exact Physl.text_float_ne_empty value
  | str text =>
    intro h
    have hchars := congrArg String.toList h
    simp [constantText, Text.quote] at hchars

/-- A head is not empty if the expressions in the node and its names are not. -/
theorem headOf_ne_empty {node : Node Wording} (hkind : node.kind ≠ .moduleDef)
    (hvalue : ∀ c ∈ node.expressions, c.text ≠ "") (hnames : ∀ name ∈ node.names, name ≠ "") :
    headOf node ≠ "" := by
  cases node with
  | moduleDef body => exact absurd rfl hkind
  | exprStmt value => exact hvalue value List.mem_cons_self
  | ident id => exact hnames id List.mem_cons_self
  | constant value => exact constantText_ne_empty value
  | returnStmt value => cases value <;> simp [headOf, assemble]
  | raiseStmt exception => cases exception <;> simp [headOf, assemble]
  | classDef name bases body =>
    simp only [headOf]
    split <;> simp
  | importStmt source names => cases source <;> simp [headOf, assemble]
  | tuple items =>
    rcases items with _ | ⟨first, _ | ⟨second, rest⟩⟩ <;> simp [headOf, assemble, tuple, texts]
  -- Everything else has a word or a mark of its own.
  | _ => simp [headOf, assemble]

theorem wording_ne_empty {t : Tree} (h : t.Orderly) (hkind : t.kind.category = .expression)
    (indent : String) : (wording indent t).text ≠ "" := by
  induction t using Tree.inductionOn with
  | step span node ih =>
    have hcategory : (node.map (wording indent)).kind.category = .expression := by
      rw [Node.kind_map]
      exact hkind
    rw [wording_mk, assemble_expression hcategory]
    refine headOf_ne_empty (kind_ne_moduleDef (.inl hcategory)) (fun c hc => ?_)
      fun name hname => ?_
    · rw [Node.expressions_map] at hc
      obtain ⟨child, hchild, rfl⟩ := List.mem_map.mp hc
      have hmem := Node.mem_of_mem_expressions hchild
      exact ih child hmem (h.child hmem) (h.root.expressions child hchild)
    · rw [Node.names_map] at hname
      exact (h.root.names name hname).1

end Rendition.Python
