import Rendition.Proofs.Physl.Pieces
import Rendition.Proofs.Python.Level
import Rendition.Proofs.Python.Rows
import Rendition.Proofs.Python.Wording
import Rendition.Proofs.Tree.Orderly

/-!
# What texts are put together from

The text of a node consists of fixed texts, names, constants and the texts of its children, one
after another; only suites are indented. So what holds of these parts at all widths of a level, and
of texts put together, holds of the text of every node.

## Main definitions

* `Python.headOf`: The text of a node without its suites.
* `Python.Textual`, `Python.Layered`: Properties of texts that are kept when texts are put together,
  or indented.

## Theorems

* `Textual.headOf`: The text of a node without its suites has the property.
* `Layered.assemble`: The text of a node has the property.
-/

namespace Rendition

namespace Python

open Text (Unbroken unbroken_quote)

/-- The head of a clause of a `try` statement. -/
def clauseHead (handler : Handler Wording) : String :=
  let exception := handler.exception.toList.map fun exception => " " ++ exception.text
  withAlias (String.join ("except" :: exception)) handler.name

/-- The text of a node without its suites: the head of the first one, or all of the text. -/
def headOf : Node Wording → String
  | .functionDef name params _ => "def " ++ name ++ "(" ++ listing params ++ ")"
  | .ifStmt test _ _ => "if " ++ test.text
  | .whileLoop test _ => "while " ++ test.text
  | .forLoop target iter _ => "for " ++ target.text ++ " in " ++ iter.text
  | .tryStmt _ _ _ => "try"
  | .withStmt items _ =>
    "with " ++ listing (items.map fun item => withAlias item.context.text item.asName)
  | .classDef name bases _ =>
    if (texts bases).isEmpty then "class " ++ name
    else "class " ++ name ++ "(" ++ listing (texts bases) ++ ")"
  | node => assemble "" node

/-- A property of texts at all widths of a level that fixed texts without line ends and the names of
    some kind have, and that is kept when texts are put one after another. -/
structure Textual (ok : String → Prop) (R : (Nat → String) → Prop) : Prop where
  plain (text : String) (h : Unbroken text.toList) : R fun _ => text
  name {text : String} (h : ok text) : R fun _ => text
  append {f g : Nat → String} (hf : R f) (hg : R g) : R fun width => f width ++ g width

/-- The same for properties that line feeds have, too, and that are kept when texts become a
    suite. -/
structure Layered (ok : String → Prop) (R : (Nat → String) → Prop) : Prop extends
    Textual ok R where
  feed : R fun _ => "\n"
  headed {head : Nat → String} {body : List (Nat → String)} (hhead : R head)
    (hbody : ∀ f ∈ body, R f) :
    R fun width => headed (blanks width) (head width) (body.map fun f => f width)

theorem unbroken_of_unadorned {text : List Char} (h : Physl.Unadorned text) : Unbroken text := by
  intro c hc
  have hplain := h c hc
  refine ⟨?_, ?_⟩ <;> rintro rfl <;> exact absurd hplain (by decide)

/-- A constant is written on one line. -/
theorem unbroken_constantText (value : Literal) : Unbroken (constantText value).toList := by
  cases value with
  | none => decide
  | bool value => cases value <;> decide
  | int value => exact unbroken_of_unadorned (Physl.unadorned_int value)
  | float value => exact unbroken_of_unadorned (Physl.unadorned_float value)
  | str text => exact unbroken_quote text

namespace Textual

variable {ok : String → Prop} {R : (Nat → String) → Prop}

theorem join (h : Textual ok R) {fs : List (Nat → String)} (hfs : ∀ f ∈ fs, R f) :
    R fun width => String.join (fs.map fun f => f width) := by
  induction fs with
  | nil => exact h.plain "" (by decide)
  | cons f fs ih =>
    obtain ⟨hf, hfs⟩ := List.forall_mem_cons.mp hfs
    simp only [List.map_cons, String.join_cons]
    exact h.append hf (ih hfs)

theorem intercalate (h : Textual ok R) {mark : String} (hmark : R fun _ => mark)
    {fs : List (Nat → String)} (hfs : ∀ f ∈ fs, R f) :
    R fun width => mark.intercalate (fs.map fun f => f width) := by
  induction fs with
  | nil => exact h.plain "" (by decide)
  | cons f fs ih =>
    obtain ⟨hf, hfs⟩ := List.forall_mem_cons.mp hfs
    rcases fs with _ | ⟨g, fs⟩
    · simpa only [List.map_cons, List.map_nil, String.intercalate_singleton] using hf
    · simp only [List.map_cons, String.intercalate_cons_cons] at ih ⊢
      exact h.append (h.append hf hmark) (ih hfs)

theorem listing (h : Textual ok R) {fs : List (Nat → String)} (hfs : ∀ f ∈ fs, R f) :
    R fun width => listing (fs.map fun f => f width) :=
  h.intercalate (h.plain ", " (by decide)) hfs

theorem tuple (h : Textual ok R) {fs : List (Nat → String)} (hfs : ∀ f ∈ fs, R f) :
    R fun width => tuple (fs.map fun f => f width) := by
  have hopen := h.plain "(" (by decide)
  have hclose := h.plain ")" (by decide)
  rcases fs with _ | ⟨f, _ | ⟨g, fs⟩⟩
  · exact h.append (h.append hopen (h.listing hfs)) hclose
  · exact h.append (h.append hopen (hfs f List.mem_cons_self)) (h.plain ",)" (by decide))
  · exact h.append (h.append hopen (h.listing hfs)) hclose

theorem withAlias (h : Textual ok R) {f : Nat → String} (hf : R f) {asName : Option String}
    (hname : ∀ name ∈ asName, ok name) : R fun width => withAlias (f width) asName := by
  rcases asName with _ | name
  · exact hf
  · exact h.append (h.append hf (h.plain " as " (by decide))) (h.name (hname name rfl))

theorem links (h : Textual ok R) : ∀ (ops : List Comparison) {fs : List (Nat → String)},
    (∀ f ∈ fs, R f) → R fun width => links ops (fs.map fun f => f width)
  | [], _, _ => h.plain "" (by decide)
  | _ :: _, [], _ => h.plain "" (by decide)
  | op :: ops, f :: fs, hfs => by
    obtain ⟨hf, hfs⟩ := List.forall_mem_cons.mp hfs
    have hop : Unbroken op.symbol.toList := by cases op <;> decide
    have hblank := h.plain " " (by decide)
    exact h.append (h.append (h.append (h.append hblank (h.plain _ hop)) hblank) hf)
      (links h ops hfs)

theorem names (h : Textual ok R) {names : List String} (hnames : ∀ name ∈ names, ok name) :
    ∀ f ∈ names.map fun name (_ : Nat) => name, R f := by
  intro f hf
  obtain ⟨name, hname, rfl⟩ := List.mem_map.mp hf
  exact h.name (hnames name hname)

variable {α : Type} {W : Nat → α → Wording}

/-- The texts of children with the property. -/
theorem texts {as : List α} (has : ∀ a ∈ as, R fun width => (W width a).text) :
    ∃ fs : List (Nat → String), (∀ f ∈ fs, R f) ∧
      ∀ width, texts (as.map (W width)) = fs.map fun f => f width := by
  refine ⟨as.map fun a width => (W width a).text, fun f hf => ?_, fun width => ?_⟩
  · obtain ⟨a, ha, rfl⟩ := List.mem_map.mp hf
    exact has a ha
  · simp only [Python.texts, List.map_map, Function.comp_def]

theorem texts_listing (h : Textual ok R) {as : List α}
    (has : ∀ a ∈ as, R fun width => (W width a).text) :
    R fun width => Python.listing (Python.texts (as.map (W width))) := by
  obtain ⟨fs, hfs, htexts⟩ := texts has
  simp only [htexts]
  exact h.listing hfs

/-- The text of a node without its suites has the property if the expressions in the node and its
    names have it. -/
theorem headOf (h : Textual ok R) {node : Node α} (hkind : node.kind ≠ .moduleDef)
    (hchildren : ∀ c ∈ node.expressions,
      (R fun width => (W width c).text) ∧ R fun width => (W width c).index)
    (hnames : ∀ name ∈ node.names, ok name) :
    R fun width => headOf (node.map (W width)) := by
  cases node with
  | moduleDef body => exact absurd rfl hkind
  | functionDef name params body =>
    obtain ⟨hname, hparams⟩ := List.forall_mem_cons.mp hnames
    have hlisting := h.listing (h.names hparams)
    simp only [List.map_map, Function.comp_def, List.map_id'] at hlisting
    exact h.append (h.append (h.append (h.append (h.plain "def " (by decide)) (h.name hname))
      (h.plain "(" (by decide))) hlisting) (h.plain ")" (by decide))
  | returnStmt value =>
    rcases value with _ | value
    · exact h.plain "return" (by decide)
    · exact h.append (h.plain "return " (by decide)) (hchildren value List.mem_cons_self).1
  | assign target value =>
    simp only [Node.expressions, Node.toList, List.mem_cons, List.not_mem_nil, or_false,
      forall_eq_or_imp, forall_eq] at hchildren
    exact h.append (h.append hchildren.1.1 (h.plain " = " (by decide))) hchildren.2.1
  | augAssign target op value =>
    have hop : Unbroken op.symbol.toList := by cases op <;> decide
    simp only [Node.expressions, Node.toList, List.mem_cons, List.not_mem_nil, or_false,
      forall_eq_or_imp, forall_eq] at hchildren
    exact h.append (h.append (h.append (h.append hchildren.1.1 (h.plain " " (by decide)))
      (h.plain _ hop)) (h.plain "= " (by decide))) hchildren.2.1
  | exprStmt value => exact (hchildren value List.mem_cons_self).1
  | ifStmt test body orelse =>
    exact h.append (h.plain "if " (by decide)) (hchildren test List.mem_cons_self).1
  | whileLoop test body =>
    exact h.append (h.plain "while " (by decide)) (hchildren test List.mem_cons_self).1
  | forLoop target iter body =>
    simp only [Node.expressions, List.mem_cons, List.not_mem_nil, or_false, forall_eq_or_imp,
      forall_eq] at hchildren
    exact h.append (h.append (h.append (h.plain "for " (by decide)) hchildren.1.1)
      (h.plain " in " (by decide))) hchildren.2.1
  | passStmt => exact h.plain "pass" (by decide)
  | breakStmt => exact h.plain "break" (by decide)
  | continueStmt => exact h.plain "continue" (by decide)
  | tryStmt body handlers finalbody => exact h.plain "try" (by decide)
  | withStmt items body =>
    have hitems : ∀ f ∈ items.map fun item width =>
        Python.withAlias (W width item.context).text item.asName, R f := by
      intro f hf
      obtain ⟨item, hitem, rfl⟩ := List.mem_map.mp hf
      refine h.withAlias (hchildren item.context (List.mem_map_of_mem hitem)).1 fun name hname => ?_
      exact hnames name (List.mem_flatMap.mpr ⟨item, hitem, Option.mem_toList.mpr hname⟩)
    have hlisting := h.listing hitems
    simp only [List.map_map, Function.comp_def] at hlisting
    simp only [Python.headOf, Node.map, List.map_map, Function.comp_def, WithItem.map]
    exact h.append (h.plain "with " (by decide)) hlisting
  | raiseStmt exception =>
    rcases exception with _ | exception
    · exact h.plain "raise" (by decide)
    · exact h.append (h.plain "raise " (by decide)) (hchildren exception List.mem_cons_self).1
  | classDef name bases body =>
    have hname := h.append (h.plain "class " (by decide)) (h.name (hnames name List.mem_cons_self))
    rcases bases with _ | ⟨first, rest⟩
    · exact hname
    · have hbases := h.texts_listing fun b hb => (hchildren b hb).1
      exact h.append (h.append (h.append hname (h.plain "(" (by decide))) hbases)
        (h.plain ")" (by decide))
  | importStmt source names =>
    have himported : ∀ f ∈ names.map fun name (_ : Nat) =>
        Python.withAlias name.name name.asName, R f := by
      intro f hf
      obtain ⟨name, hname, rfl⟩ := List.mem_map.mp hf
      have hmem : ∀ text ∈ name.name :: name.asName.toList, ok text := fun text htext =>
        hnames text (List.mem_append_right _ (List.mem_flatMap.mpr ⟨name, hname, htext⟩))
      exact h.withAlias (h.name (hmem _ List.mem_cons_self)) fun text htext =>
        hmem text (List.mem_cons_of_mem _ (Option.mem_toList.mpr htext))
    have hlisting := h.listing himported
    simp only [List.map_map, Function.comp_def] at hlisting
    rcases source with _ | source
    · exact h.append (h.plain "import " (by decide)) hlisting
    · exact h.append (h.append (h.append (h.plain "from " (by decide))
        (h.name (hnames source List.mem_cons_self))) (h.plain " import " (by decide))) hlisting
  | ident id => exact h.name (hnames id List.mem_cons_self)
  | constant value => exact h.plain _ (unbroken_constantText value)
  | binOp left op right =>
    have hop : Unbroken op.symbol.toList := by cases op <;> decide
    simp only [Node.expressions, Node.toList, List.mem_cons, List.not_mem_nil, or_false,
      forall_eq_or_imp, forall_eq] at hchildren
    exact h.append (h.append (h.append (h.append (h.append (h.append (h.plain "(" (by decide))
      hchildren.1.1) (h.plain " " (by decide))) (h.plain _ hop)) (h.plain " " (by decide)))
      hchildren.2.1) (h.plain ")" (by decide))
  | unaryOp op operand =>
    have hop : Unbroken op.symbol.toList := by cases op <;> decide
    have hblank : Unbroken (if op = .not then " " else "").toList := by cases op <;> decide
    exact h.append (h.append (h.append (h.append (h.plain "(" (by decide)) (h.plain _ hop))
      (h.plain _ hblank)) (hchildren operand List.mem_cons_self).1) (h.plain ")" (by decide))
  | compare left ops comparators =>
    obtain ⟨hleft, hcomparators⟩ := List.forall_mem_cons.mp hchildren
    obtain ⟨fs, hfs, htexts⟩ := texts fun c hc =>
      (hcomparators c (List.mem_of_mem_take (i := ops.length) hc)).1
    have hlinks := h.links ops hfs
    simp only [← htexts] at hlinks
    simp only [Python.headOf, Python.assemble, Node.map, ← List.map_take]
    exact h.append (h.append (h.append (h.plain "(" (by decide)) hleft.1) hlinks)
      (h.plain ")" (by decide))
  | boolOp op values =>
    have hop : Unbroken (" " ++ op.symbol ++ " ").toList := by cases op <;> decide
    obtain ⟨fs, hfs, htexts⟩ := texts fun v hv => (hchildren v hv).1
    have hvalues := h.intercalate (h.plain _ hop) hfs
    simp only [← htexts] at hvalues
    exact h.append (h.append (h.plain "(" (by decide)) hvalues) (h.plain ")" (by decide))
  | call func args keywords =>
    obtain ⟨hfunc, hrest⟩ := List.forall_mem_cons.mp hchildren
    have hargs : ∀ f ∈ (args.map fun arg width => (W width arg).text) ++
        keywords.map fun keyword width => keyword.name ++ "=" ++ (W width keyword.value).text,
        R f := by
      intro f hf
      rcases List.mem_append.mp hf with hf | hf
      · obtain ⟨arg, harg, rfl⟩ := List.mem_map.mp hf
        exact (hrest arg (List.mem_append_left _ harg)).1
      · obtain ⟨keyword, hkeyword, rfl⟩ := List.mem_map.mp hf
        have hvalue := hrest _ (List.mem_append_right _ (List.mem_map_of_mem hkeyword))
        exact h.append (h.append (h.name (hnames _ (List.mem_map_of_mem hkeyword)))
          (h.plain "=" (by decide))) hvalue.1
    have hlisting := h.listing hargs
    simp only [List.map_append, List.map_map, Function.comp_def] at hlisting
    simp only [Python.headOf, Python.assemble, Node.map, Python.texts, List.map_map,
      Function.comp_def, Keyword.map]
    exact h.append (h.append (h.append hfunc.1 (h.plain "(" (by decide))) hlisting)
      (h.plain ")" (by decide))
  | attr value name =>
    exact h.append (h.append (hchildren value List.mem_cons_self).1 (h.plain "." (by decide)))
      (h.name (hnames name List.mem_cons_self))
  | subscript value index =>
    simp only [Node.expressions, Node.toList, List.mem_cons, List.not_mem_nil, or_false,
      forall_eq_or_imp, forall_eq] at hchildren
    exact h.append (h.append (h.append hchildren.1.1 (h.plain "[" (by decide))) hchildren.2.2)
      (h.plain "]" (by decide))
  | slice lower upper step =>
    have hbound : ∀ bound : Option α, (∀ b ∈ bound, R fun width => (W width b).text) →
        R fun width => textOr "" (bound.map (W width)) := by
      rintro (_ | bound) hbound
      · exact h.plain "" (by decide)
      · exact hbound bound rfl
    have hlower := hbound lower fun b hb => (hchildren b
      (List.mem_append_left _ (List.mem_append_left _ (Option.mem_toList.mpr hb)))).1
    have hupper := hbound upper fun b hb => (hchildren b
      (List.mem_append_left _ (List.mem_append_right _ (Option.mem_toList.mpr hb)))).1
    have hstep : ∀ f ∈ step.toList.map fun step width => ":" ++ (W width step).text, R f := by
      intro f hf
      obtain ⟨step, hmem, rfl⟩ := List.mem_map.mp hf
      exact h.append (h.plain ":" (by decide)) (hchildren step (List.mem_append_right _ hmem)).1
    have hsteps := h.join hstep
    simp only [List.map_map, Function.comp_def] at hsteps
    simp only [Python.headOf, Python.assemble, Node.map, Option.toList_map, List.map_map,
      Function.comp_def]
    exact h.append (h.append (h.append hlower (h.plain ":" (by decide))) hupper) hsteps
  | list items =>
    exact h.append (h.append (h.plain "[" (by decide))
      (h.texts_listing fun i hi => (hchildren i hi).1)) (h.plain "]" (by decide))
  | tuple items =>
    obtain ⟨fs, hfs, htexts⟩ := texts fun i hi => (hchildren i hi).1
    have htuple := h.tuple hfs
    simp only [← htexts] at htuple
    exact htuple
  | dict entries =>
    have hentries : ∀ f ∈ entries.map fun entry width =>
        (W width entry.1).text ++ ": " ++ (W width entry.2).text, R f := by
      intro f hf
      obtain ⟨entry, hentry, rfl⟩ := List.mem_map.mp hf
      have hkey := hchildren entry.1 (List.mem_flatMap.mpr ⟨entry, hentry, List.mem_cons_self⟩)
      have hvalue := hchildren entry.2 (List.mem_flatMap.mpr
        ⟨entry, hentry, List.mem_cons_of_mem _ List.mem_cons_self⟩)
      exact h.append (h.append hkey.1 (h.plain ": " (by decide))) hvalue.1
    have hlisting := h.listing hentries
    simp only [List.map_map, Function.comp_def] at hlisting
    simp only [Python.headOf, Python.assemble, Node.map, List.map_map, Function.comp_def]
    exact h.append (h.append (h.plain "\x7b" (by decide)) hlisting) (h.plain "\x7d" (by decide))
  | ifExp test body orelse =>
    simp only [Node.expressions, Node.toList, List.mem_cons, List.not_mem_nil, or_false,
      forall_eq_or_imp, forall_eq] at hchildren
    exact h.append (h.append (h.append (h.append (h.append (h.append (h.plain "(" (by decide))
      hchildren.2.1.1) (h.plain " if " (by decide))) hchildren.1.1) (h.plain " else " (by decide)))
      hchildren.2.2.1) (h.plain ")" (by decide))
  | lambda params body =>
    have hbody := (hchildren body List.mem_cons_self).1
    have hhead :
        R fun _ => if params.isEmpty then "lambda" else "lambda " ++ Python.listing params := by
      rcases params with _ | ⟨first, rest⟩
      · exact h.plain "lambda" (by decide)
      · have hlisting := h.listing (h.names hnames)
        simp only [List.map_map, Function.comp_def, List.map_id'] at hlisting
        exact h.append (h.plain "lambda " (by decide)) hlisting
    exact h.append (h.append (h.append (h.append (h.plain "(" (by decide)) hhead)
      (h.plain ": " (by decide))) hbody) (h.plain ")" (by decide))

/-- The head of a clause has the property. -/
theorem clauseHead (h : Textual ok R) {handler : Handler α}
    (hexception : ∀ e ∈ handler.exception, R fun width => (W width e).text)
    (hname : ∀ name ∈ handler.name, ok name) :
    R fun width => clauseHead (handler.map (W width)) := by
  refine h.withAlias ?_ hname
  simp only [Handler.map, String.join_cons]
  refine h.append (h.plain "except" (by decide)) ?_
  rcases hcase : handler.exception with _ | e
  · exact h.plain "" (by decide)
  · exact h.append (h.plain "" (by decide))
      (h.append (h.plain " " (by decide)) (hexception e hcase))

end Textual

/-- The text of an expression has no suites. -/
theorem assemble_expression {node : Node Wording} (h : node.kind.category = .expression)
    (indent : String) : assemble indent node = headOf node := by
  cases node <;> first | rfl | cases h

namespace Layered

variable {ok : String → Prop} {R : (Nat → String) → Prop} {α : Type} {W : Nat → α → Wording}

theorem headed_texts (h : Layered ok R) {head : Nat → String} (hhead : R head) {body : List α}
    (hbody : ∀ c ∈ body, R fun width => (W width c).text) :
    R fun width => Python.headed (blanks width) (head width) (texts (body.map (W width))) := by
  obtain ⟨fs, hfs, htexts⟩ := Textual.texts hbody
  simp only [htexts]
  exact h.headed hhead hfs

/-- What follows the first branch of a conditional statement has the property. -/
theorem otherwise (h : Layered ok R) {orelse : List α}
    (horelse : ∀ c ∈ orelse, R fun width => (W width c).text)
    (hisIf : ∀ c ∈ orelse, ∀ width, (W width c).isIf = (W 0 c).isIf) :
    R fun width => otherwise (blanks width) (orelse.map (W width)) := by
  have helse := h.append h.feed (h.headed_texts (h.plain "else" (by decide)) horelse)
  rcases orelse with _ | ⟨single, _ | ⟨second, rest⟩⟩
  · exact h.plain "" (by decide)
  · simp only [Python.otherwise, List.map_cons, List.map_nil, hisIf single List.mem_cons_self]
    cases (W 0 single).isIf with
    | true =>
      exact h.append (h.append h.feed (h.plain "el" (by decide)))
        (horelse single List.mem_cons_self)
    | false => exact helse
  · exact helse

/-- The text of a whole source text has the property if those of its statements have it. -/
theorem module_texts (h : Layered ok R) {body : List α}
    (hbody : ∀ c ∈ body, R fun width => (W width c).text) :
    R fun width => Python.assemble (blanks width) ((Node.moduleDef body).map (W width)) := by
  have hlines : ∀ f ∈ body.map fun c width => (W width c).text ++ "\n", R f := by
    intro f hf
    obtain ⟨c, hc, rfl⟩ := List.mem_map.mp hf
    exact h.append (hbody c hc) h.feed
  have hjoin := h.join hlines
  simp only [List.map_map, Function.comp_def] at hjoin
  simp only [Python.assemble, Node.map, texts, List.map_map, Function.comp_def]
  exact hjoin

/-- The text of a node has the property if the texts of its children and its names have it. -/
theorem assemble (h : Layered ok R) {node : Node α}
    (hchildren : ∀ c ∈ node.toList,
      (R fun width => (W width c).text) ∧ R fun width => (W width c).index)
    (hisIf : ∀ c ∈ node.toList, ∀ width, (W width c).isIf = (W 0 c).isIf)
    (hnames : ∀ name ∈ node.names, ok name) :
    R fun width => assemble (blanks width) (node.map (W width)) := by
  have hbody {body : List α} (hmem : ∀ c ∈ body, c ∈ node.statements) :
      ∀ c ∈ body, R fun width => (W width c).text :=
    fun c hc => (hchildren c (Node.mem_of_mem_statements (hmem c hc))).1
  by_cases hkind : node.kind = .moduleDef
  · cases node with
    | moduleDef body => exact h.module_texts (hbody fun c hc => hc)
    | _ => cases hkind
  have hhead :=
    h.headOf hkind (fun c hc => hchildren c (Node.mem_of_mem_expressions hc)) hnames
  cases node with
  | moduleDef body => exact absurd rfl hkind
  | functionDef name params body =>
    exact h.headed_texts hhead (hbody fun c hc => hc)
  | ifStmt test body orelse =>
    exact h.append
      (h.headed_texts hhead (hbody fun c hc => List.mem_append_left _ hc))
      (h.otherwise (hbody fun c hc => List.mem_append_right _ hc) fun c hc =>
        hisIf c (List.mem_cons_of_mem _ (List.mem_append_right _ hc)))
  | whileLoop test body =>
    exact h.headed_texts hhead (hbody fun c hc => hc)
  | forLoop target iter body =>
    exact h.headed_texts hhead (hbody fun c hc => hc)
  | tryStmt body handlers finalbody =>
    have hfirst := h.headed_texts hhead (hbody fun c hc =>
      List.mem_append_left _ (List.mem_append_left _ hc))
    have hclauses : ∀ f ∈ handlers.map fun handler width =>
        clause (blanks width) (handler.map (W width)), R f := by
      intro f hf
      obtain ⟨handler, hhandler, rfl⟩ := List.mem_map.mp hf
      refine h.headed_texts (h.clauseHead (fun e he => ?_) fun name hname => ?_)
        (hbody fun c hc => ?_)
      · exact (hchildren e (Node.mem_of_mem_expressions (List.mem_flatMap.mpr
          ⟨handler, hhandler, Option.mem_toList.mpr he⟩))).1
      · exact hnames name (List.mem_flatMap.mpr ⟨handler, hhandler, Option.mem_toList.mpr hname⟩)
      · exact List.mem_append_left _ (List.mem_append_right _
          (List.mem_flatMap.mpr ⟨handler, hhandler, hc⟩))
    have hlast := h.headed_texts (h.plain "finally" (by decide)) (hbody fun c hc =>
      List.mem_append_right _ hc)
    simp only [Python.assemble, Node.map, List.map_map, Function.comp_def]
    rcases finalbody with _ | ⟨first, rest⟩
    · have hall := h.intercalate h.feed (List.forall_mem_cons.mpr ⟨hfirst, hclauses⟩)
      simp only [List.map_cons, List.map_map, Function.comp_def] at hall
      simp only [List.map_nil, texts, List.isEmpty_nil, if_true, List.append_nil]
      exact hall
    · have hall := h.intercalate h.feed (List.forall_mem_cons.mpr ⟨hfirst,
        List.forall_mem_append.mpr ⟨hclauses, List.forall_mem_singleton.mpr hlast⟩⟩)
      simp only [List.map_cons, List.map_append, List.map_nil, List.map_map,
        Function.comp_def] at hall
      exact hall
  | withStmt items body =>
    exact h.headed_texts hhead (hbody fun c hc => hc)
  | classDef name bases body =>
    exact h.headed_texts hhead (hbody fun c hc => hc)
  | returnStmt value =>
    rcases value with _ | value
    · exact hhead
    · exact hhead
  | raiseStmt exception =>
    rcases exception with _ | exception
    · exact hhead
    · exact hhead
  | _ => exact hhead

end Layered

end Python

end Rendition
