import Rendition.Proofs.Python.Entries
import Rendition.Proofs.Python.Heads
import Rendition.Proofs.Python.Layout

/-!
# How a rendition is laid out

The rendition of a whole source text is a sequence of lines, each at a depth that does not depend on
how wide a level is. In an orderly tree these are the lines of its statements: each stands as deep
as there are suites around its statement, and below the head of a suite stands a line of the suite.

Where a level is not wide at all, there is one exception. A name may be a carriage return. On a line
of its own it is lost, and the line is left with its blanks; where these are no blanks either, the
line is gone, if it is the last one of a statement.

## Main definitions

* `Python.laidOut`: The text of lines.
* `Python.Shown`: Texts that are the texts of lines.

## Theorems

* `shown_entries`: The text of a statement is the text of its lines.
* `module_layout`: How the rendition of a whole source text is laid out.
* `not_exists_rows`: The exception.
-/

namespace Rendition.Python

open Text (Unbroken unbroken_append)

/-! ## The text of lines -/

/-- The text of lines where a level is `width` wide. -/
def laidOut (width : Nat) (es : List Entry) : String :=
  String.ofList (printed width (es.map Entry.toRow))

theorem laidOut_append {width : Nat} {as bs : List Entry} (has : as ≠ []) (hbs : bs ≠ []) :
    laidOut width (as ++ bs) = laidOut width as ++ "\n" ++ laidOut width bs := by
  rw [laidOut, List.map_append]
  exact ofList_printed_append (by simpa using has) (by simpa using hbs)

theorem laidOut_singleton (width : Nat) (role : Role) (text : String) :
    laidOut width [.own role text] = text := by
  rw [laidOut, List.map_singleton, printed_singleton, Entry.own, Row.print_zero,
    String.ofList_toList]

/-- The text of a suite is the text of its lines. -/
theorem laidOut_suite {statements : List (List Entry)}
    (h : ∀ es ∈ statements, ∀ e ∈ es, e.toRow.Firm) (width : Nat) :
    suite (blanks width) (statements.map (laidOut width)) =
      laidOut width (suiteEntries statements) := by
  have hlines {statements : List (List Entry)} (hne : statements ≠ [])
      (h : ∀ es ∈ statements, ∀ e ∈ es, e.toRow.Firm) :
      suite (blanks width) (statements.map (laidOut width)) =
        laidOut width (statements.flatten.map Entry.down) := by
    have hfirm : ∀ rows ∈ statements.map (List.map Entry.toRow), ∀ row ∈ rows, row.Firm := by
      intro rows hrows row hrow
      obtain ⟨es, hes, rfl⟩ := List.mem_map.mp hrows
      obtain ⟨e, he, rfl⟩ := List.mem_map.mp hrow
      exact h es hes e he
    have hsuite := suite_firm (by simpa using hne) hfirm width
    rw [← List.map_flatten, List.map_map, List.map_map] at hsuite
    rw [laidOut, List.map_map]
    exact hsuite
  -- A suite without statements is written as one with `pass`.
  rcases statements with _ | ⟨es, rest⟩
  · have hpass := @hlines [[.own .filler "pass"]] (List.cons_ne_nil _ _) fun es hes e he => by
      rw [List.mem_singleton.mp hes, List.mem_singleton] at he
      rw [he]
      exact ⟨by decide, by decide⟩
    rw [List.map_singleton, laidOut_singleton] at hpass
    exact hpass
  · exact hlines (List.cons_ne_nil es rest) h

/-- Texts that are the texts of lines, the first of which is not indented. -/
structure Shown (f : Nat → String) (es : List Entry) : Prop where
  starts : Starts es
  firm : ∀ e ∈ es, e.toRow.Firm
  text : ∀ width, f width = laidOut width es

theorem Shown.ne_nil {f : Nat → String} {es : List Entry} (h : Shown f es) : es ≠ [] := by
  obtain ⟨first, rest, rfl, -⟩ := h.starts
  exact List.cons_ne_nil first rest

theorem shown_line {f : Nat → String} (hf : Fixed f) (hne : f 0 ≠ "") :
    Shown f [.own .line (f 0)] where
  starts := ⟨_, [], rfl, rfl⟩
  firm := List.forall_mem_singleton.mpr ⟨hf.2, fun h => hne (String.toList_eq_nil_iff.mp h)⟩
  text width := (hf.1 width).trans (laidOut_singleton width .line (f 0)).symm

theorem Shown.append {f g : Nat → String} {as bs : List Entry} (hf : Shown f as)
    (hg : Shown g bs) : Shown (fun width => f width ++ "\n" ++ g width) (as ++ bs) where
  starts := by
    obtain ⟨first, rest, rfl, hdepth⟩ := hf.starts
    exact ⟨first, rest ++ bs, rfl, hdepth⟩
  firm := List.forall_mem_append.mpr ⟨hf.firm, hg.firm⟩
  text width := by rw [hf.text, hg.text, laidOut_append hf.ne_nil hg.ne_nil]

/-- Whose the lines are does not show. -/
theorem Shown.under {f : Nat → String} {es : List Entry} (h : Shown f es) (i : Nat) :
    Shown f (es.map (Entry.under i)) where
  starts := by
    obtain ⟨first, rest, rfl, hdepth⟩ := h.starts
    exact ⟨_, _, rfl, hdepth⟩
  firm e he := by
    obtain ⟨inner, hinner, rfl⟩ := List.mem_map.mp he
    exact h.firm inner hinner
  text width := by
    rw [h.text, laidOut, laidOut, List.map_map]
    rfl

/-- Texts of lines, each on lines of its own. -/
theorem shown_intercalate {lines : List ((Nat → String) × List Entry)} (hne : lines ≠ [])
    (h : ∀ pair ∈ lines, Shown pair.1 pair.2) :
    Shown (fun width => "\n".intercalate (lines.map fun pair => pair.1 width))
      (lines.map Prod.snd).flatten := by
  induction lines with
  | nil => exact absurd rfl hne
  | cons pair rest ih =>
    obtain ⟨hpair, hrest⟩ := List.forall_mem_cons.mp h
    -- There is a line feed only in front of a further text.
    rcases rest with _ | ⟨next, rest⟩
    · simpa only [List.map_cons, List.map_nil, String.intercalate_singleton, List.flatten_cons,
        List.flatten_nil, List.append_nil] using hpair
    · simpa only [List.map_cons, String.intercalate_cons_cons, List.flatten_cons] using
        hpair.append (ih (List.cons_ne_nil next rest) hrest)

/-- Statements with the lines that are their texts. -/
def Shows (body : List (Tree × List Entry)) : Prop :=
  ∀ c ∈ body, Shown (fun width => (wording (blanks width) c.1).text) c.2

theorem suiteEntries_ne_nil {statements : List (List Entry)} (h : [] ∉ statements) :
    suiteEntries statements ≠ [] := by
  rcases statements with _ | ⟨es, rest⟩
  · exact List.cons_ne_nil _ _
  · rcases es with _ | ⟨e, es⟩
    · exact absurd List.mem_cons_self h
    · exact List.cons_ne_nil _ _

theorem shown_headed {head : Nat → String} (hhead : Fixed head) {body : List (Tree × List Entry)}
    (hbody : Shows body) :
    Shown (fun width => headed (blanks width) (head width)
      (texts (body.map fun c => wording (blanks width) c.1)))
      (headedEntries (head 0) (body.map Prod.snd)) := by
  have hfirm : ∀ es ∈ body.map Prod.snd, ∀ e ∈ es, e.toRow.Firm := by
    intro es hes
    obtain ⟨c, hc, rfl⟩ := List.mem_map.mp hes
    exact (hbody c hc).firm
  have hne : [] ∉ body.map Prod.snd := by
    intro hmem
    obtain ⟨c, hc, hnil⟩ := List.mem_map.mp hmem
    exact (hbody c hc).ne_nil hnil
  have hcolon := textual_fixed.append hhead (textual_fixed.plain ":" (by decide))
  have htexts (width : Nat) : texts (body.map fun c => wording (blanks width) c.1) =
      (body.map Prod.snd).map (laidOut width) := by
    rw [texts, List.map_map, List.map_map]
    exact List.map_congr_left fun c hc => (hbody c hc).text width
  refine ⟨⟨_, _, rfl, rfl⟩, List.forall_mem_cons.mpr ⟨⟨hcolon.2, ?_⟩, fun e he => ?_⟩,
    fun width => ?_⟩
  · exact fun hnil => by simp [Entry.own] at hnil
  · unfold suiteEntries at he
    split at he
    · rw [List.mem_singleton.mp he]
      exact ⟨by decide, by decide⟩
    · obtain ⟨inner, hinner, rfl⟩ := List.mem_map.mp he
      obtain ⟨es, hes, hinner⟩ := List.mem_flatten.mp hinner
      exact hfirm es hes inner hinner
  · have hlines : headedEntries (head 0) (body.map Prod.snd) =
        [.own .head (head 0 ++ ":")] ++ suiteEntries (body.map Prod.snd) := rfl
    rw [headed_eq, htexts, laidOut_suite hfirm, hlines,
      laidOut_append (List.cons_ne_nil _ _) (suiteEntries_ne_nil hne), laidOut_singleton,
      hhead.1 width]

theorem isIf_wording (indent : String) (t : Tree) :
    (wording indent t).isIf = decide (t.kind = .ifStmt) := by
  rcases t with ⟨span, node⟩
  rw [wording_mk]
  rfl

/-- A conditional statement that continues another one. -/
theorem Shown.continued {f : Nat → String} {es : List Entry} (h : Shown f es) :
    Shown (fun width => "el" ++ f width) (es.modifyHead Entry.continued) := by
  obtain ⟨⟨first, rest, rfl, hdepth⟩, hfirm, htext⟩ := h
  obtain ⟨hfirst, hrest⟩ := List.forall_mem_cons.mp hfirm
  refine ⟨⟨first.continued, rest, rfl, hdepth⟩, List.forall_mem_cons.mpr ⟨⟨?_, ?_⟩, hrest⟩,
    fun width => ?_⟩
  · exact unbroken_append.mpr ⟨by decide, hfirst.1⟩
  · exact List.append_ne_nil_of_right_ne_nil _ hfirst.2
  · have hrow : first.toRow = ⟨0, first.text⟩ := congrArg (Row.mk · first.text) hdepth
    have hcontinued : first.continued.toRow = ⟨0, "el".toList ++ first.text⟩ :=
      congrArg (Row.mk · ("el".toList ++ first.text)) hdepth
    rw [htext, laidOut, laidOut, List.modifyHead_cons, List.map_cons, List.map_cons, hcontinued,
      printed_behind, String.ofList_append, String.ofList_toList, hrow]

/-- The first branch of a conditional statement and what follows it. -/
theorem shown_otherwise {f : Nat → String} {es : List Entry} (h : Shown f es)
    {orelse : List (Tree × List Entry)} (horelse : Shows orelse) :
    Shown (fun width => f width ++ otherwise (blanks width)
      (orelse.map fun c => wording (blanks width) c.1)) (es ++ otherwiseEntries orelse) := by
  have helse := h.append (shown_headed (textual_fixed.plain "else" (by decide)) horelse)
  simp only [String.append_assoc] at helse
  rcases orelse with _ | ⟨single, _ | ⟨second, rest⟩⟩
  · simpa only [List.map_nil, otherwise, String.append_empty, otherwiseEntries, List.append_nil]
      using h
  · by_cases hif : single.1.kind = .ifStmt
    · have hcontinued := h.append (horelse single List.mem_cons_self).continued
      simp only [otherwise, List.map_cons, List.map_nil, isIf_wording, hif, decide_true, if_true,
        otherwiseEntries]
      have hel (text : String) : "\nel" ++ text = "\n" ++ ("el" ++ text) := by
        rw [← String.append_assoc]
        rfl
      simpa only [hel, String.append_assoc] using hcontinued
    · simp only [otherwise, List.map_cons, List.map_nil, isIf_wording, hif, decide_false,
        Bool.false_eq_true, if_false, otherwiseEntries]
      exact helse
  · exact helse

theorem shown_clause {handler : Handler (Tree × List Entry)} (hbody : Shows handler.body)
    (hexception : ∀ c ∈ handler.exception, c.1.Orderly ∧ c.1.kind.category = .expression)
    (hname : ∀ name ∈ handler.name, Unbroken name.toList) :
    Shown (fun width => clause (blanks width) (handler.map fun c => wording (blanks width) c.1))
      (clauseEntries handler) := by
  have hhead := textual_fixed.clauseHead (W := fun width (c : Tree × List Entry) =>
    wording (blanks width) c.1) (fun c hc => (fixed_wording (hexception c hc).1
      (hexception c hc).2).1) hname
  exact shown_headed hhead hbody

theorem shown_entriesOf {node : Node (Tree × List Entry)} (hkind : node.kind.category = .statement)
    (hstatements : Shows node.statements)
    (hexpressions : ∀ c ∈ node.expressions, c.1.Orderly ∧ c.1.kind.category = .expression)
    (hnames : ∀ name ∈ node.names, name ≠ "" ∧ Unbroken name.toList) :
    Shown (fun width => assemble (blanks width) (node.map fun c => wording (blanks width) c.1))
      (entriesOf node) := by
  have hfixed : ∀ c ∈ node.expressions, (Fixed fun width => (wording (blanks width) c.1).text) ∧
      Fixed fun width => (wording (blanks width) c.1).index :=
    fun c hc => fixed_wording (hexpressions c hc).1 (hexpressions c hc).2
  have hne := kind_ne_moduleDef (.inr hkind)
  have hhead : Fixed fun width => headOf (node.map fun c => wording (blanks width) c.1) :=
    textual_fixed.headOf (W := fun width c => wording (blanks width) c.1) hne hfixed
      fun name hname => (hnames name hname).2
  have hline : Shown (fun width => headOf (node.map fun c => wording (blanks width) c.1))
      [.own .line (headOf (node.map fun c => wording (blanks 0) c.1))] := by
    refine shown_line hhead (headOf_ne_empty ?_ (fun c hc => ?_) fun name hname => ?_)
    · rwa [Node.kind_map]
    · rw [Node.expressions_map] at hc
      obtain ⟨child, hchild, rfl⟩ := List.mem_map.mp hc
      exact wording_ne_empty (hexpressions child hchild).1 (hexpressions child hchild).2 _
    · rw [Node.names_map] at hname
      exact (hnames name hname).1
  -- The heads in the lines are those at no width, where a level is the empty text.
  cases node with
  | moduleDef body => cases hkind
  | functionDef name params body => exact shown_headed hhead hstatements
  | whileLoop test body => exact shown_headed hhead hstatements
  | forLoop target iter body => exact shown_headed hhead hstatements
  | withStmt items body => exact shown_headed hhead hstatements
  | classDef name bases body => exact shown_headed hhead hstatements
  | ifStmt test body orelse =>
    obtain ⟨hbody, horelse⟩ := List.forall_mem_append.mp hstatements
    exact shown_otherwise (shown_headed hhead hbody) horelse
  | tryStmt body handlers finalbody =>
    obtain ⟨hinner, hfinal⟩ := List.forall_mem_append.mp hstatements
    obtain ⟨hbody, hhandlers⟩ := List.forall_mem_append.mp hinner
    have hclauses : ∀ pair ∈ handlers.map fun handler => ((fun width => clause (blanks width)
        (handler.map fun c => wording (blanks width) c.1)), clauseEntries handler),
        Shown pair.1 pair.2 := by
      intro pair hpair
      obtain ⟨handler, hhandler, rfl⟩ := List.mem_map.mp hpair
      refine shown_clause (fun c hc => hhandlers c ?_) (fun c hc => hexpressions c ?_)
        fun name hname => (hnames name ?_).2
      · exact List.mem_flatMap.mpr ⟨handler, hhandler, hc⟩
      · exact List.mem_flatMap.mpr ⟨handler, hhandler, Option.mem_toList.mpr hc⟩
      · exact List.mem_flatMap.mpr ⟨handler, hhandler, Option.mem_toList.mpr hname⟩
    have hlast := shown_headed (textual_fixed.plain "finally" (by decide)) hfinal
    have hfirst := shown_headed hhead hbody
    simp only [assemble, Node.map, List.map_map, Function.comp_def]
    rcases finalbody with _ | ⟨first, rest⟩
    · have hall := shown_intercalate (List.cons_ne_nil (_, _) _)
        (List.forall_mem_cons.mpr ⟨hfirst, hclauses⟩)
      simp only [List.map_cons, List.map_map, Function.comp_def, List.flatten_cons] at hall
      simp only [entriesOf, List.map_nil, texts, List.isEmpty_nil, if_true, List.append_nil,
        List.flatMap_def]
      exact hall
    · have hlast := (List.forall_mem_singleton (p := fun pair => Shown pair.1 pair.2)
        (a := (_, _))).mpr hlast
      have hall := shown_intercalate (List.cons_ne_nil (_, _) _)
        (List.forall_mem_cons.mpr ⟨hfirst, List.forall_mem_append.mpr ⟨hclauses, hlast⟩⟩)
      simp only [List.map_cons, List.map_append, List.map_nil, List.map_map, Function.comp_def,
        List.flatten_cons, List.flatten_append, List.flatten_nil, List.append_nil] at hall
      simp only [entriesOf, List.flatMap_def, List.append_assoc]
      exact hall
  | returnStmt value =>
    cases value <;> exact hline
  | raiseStmt exception =>
    cases exception <;> exact hline
  | passStmt => exact hline
  | breakStmt => exact hline
  | continueStmt => exact hline
  | assign target value => exact hline
  | augAssign target op value => exact hline
  | exprStmt value => exact hline
  | importStmt source names => exact hline
  | _ => cases hkind

/-! ## Statements and whole source texts -/

/-- The text of a statement is the text of its lines. -/
theorem shown_entries {t : Tree} (h : t.Orderly) (hkind : t.kind.category = .statement) :
    Shown (fun width => (wording (blanks width) t).text) (entries t) := by
  induction t using Tree.inductionOn with
  | step span node ih =>
    have hwording (width : Nat) : node.map (wording (blanks width)) =
        (node.mapIdx childEntries).map fun c => wording (blanks width) c.1 := by
      rw [Node.mapIdx_eq_numbered, Node.map_map, ← Node.map_numbered]
      rfl
    simp only [wording_mk, hwording, entries_mk]
    refine shown_entriesOf ?_ (fun pair hpair => ?_) (fun pair hpair => ?_) fun name hname => ?_
    · rwa [Node.kind_mapIdx]
    · rw [Node.mapIdx_eq_numbered, Node.statements_map] at hpair
      obtain ⟨⟨i, c⟩, hmem, rfl⟩ := List.mem_map.mp hpair
      obtain ⟨hc, hstatement⟩ := Node.mem_numbered_statements hmem
      have hchild : c ∈ node.toList := List.mem_of_getElem? hc
      exact (ih c hchild (h.child hchild) (h.root.statements c hstatement)).under i
    · rw [Node.mapIdx_eq_numbered, Node.expressions_map] at hpair
      obtain ⟨⟨i, c⟩, hmem, rfl⟩ := List.mem_map.mp hpair
      have hexpression := Node.mem_numbered_expressions hmem
      exact ⟨h.child (Node.mem_of_mem_expressions hexpression), h.root.expressions c hexpression⟩
    · rw [Node.mapIdx_eq_numbered, Node.names_map, Node.names_numbered] at hname
      exact h.root.names name hname

/-- The lines of a whole source text are those of its statements, one after another. -/
theorem rows_module (span : Span) (body : List Tree) :
    (entries (.mk span (.moduleDef body))).map Entry.toRow =
      (body.map fun t => (entries t).map Entry.toRow).flatten := by
  rw [entries_mk]
  simp only [Node.mapIdx, entriesOf, List.flatMap_def, List.map_flatten, list_map_mapIdx,
    childEntries, List.map_map]
  refine congrArg List.flatten (List.ext_getElem? fun i => ?_)
  rw [List.getElem?_mapIdx, List.getElem?_map]
  rfl

/-- The rendition of an orderly source text is the text of its lines. -/
theorem render_entries (function : SourceFunction) {span : Span} {body : List Tree}
    (h : (Tree.mk span (.moduleDef body)).Orderly) (config : Config) :
    renderer.render ⟨function, .mk span (.moduleDef body)⟩ config =
      .ok (spread config.width ((entries (.mk span (.moduleDef body))).map Entry.toRow)) := by
  have hshown : ∀ t ∈ body, Shown (fun width => (wording (blanks width) t).text) (entries t) :=
    fun t ht => shown_entries (h.child ht) (h.root.statements t ht)
  have hne : [] ∉ body.map fun t => (entries t).map Entry.toRow := by
    intro hmem
    obtain ⟨t, ht, hnil⟩ := List.mem_map.mp hmem
    exact (hshown t ht).ne_nil (List.map_eq_nil_iff.mp hnil)
  have htexts : texts (body.map (wording (blanks config.width))) =
      (body.map fun t => (entries t).map Entry.toRow).map fun rows =>
        String.ofList (printed config.width rows) := by
    rw [texts, List.map_map, List.map_map]
    exact List.map_congr_left fun t ht => (hshown t ht).text config.width
  rw [render_text, rows_module, ← join_printed hne, ← htexts, wording_mk]
  rfl

/-- The rendition of a whole source text is a sequence of lines, each behind the blanks of its
    depth. These are the same at all widths of a level from one on, and where a level is not wide at
    all as well if no name holds a carriage return. If the tree is orderly, they are the lines of
    its statements. -/
theorem module_layout (function : SourceFunction) {t : Tree} (h : t.kind = .moduleDef) :
    ∃ rows : List Row, (∀ row ∈ rows, '\n' ∉ row.text) ∧
      (∀ config : Config, 1 ≤ config.width ∨
          (∀ d ∈ t.descendants, ∀ name ∈ d.node.names, '\r' ∉ name.toList) →
        renderer.render ⟨function, t⟩ config = .ok (spread config.width rows)) ∧
      (t.Orderly → rows = (entries t).map Entry.toRow ∧ Aligned t (entries t)) := by
  rcases t with ⟨span, node⟩
  cases node with
  | moduleDef body =>
    by_cases horderly : (Tree.mk span (.moduleDef body)).Orderly
    · refine ⟨(entries (.mk span (.moduleDef body))).map Entry.toRow, fun row hrow => ?_,
        fun config _ => render_entries function horderly config,
        fun _ => ⟨rfl, aligned_entries horderly⟩⟩
      rw [rows_module] at hrow
      obtain ⟨lines, hlines, hrow⟩ := List.mem_flatten.mp hrow
      obtain ⟨t, ht, rfl⟩ := List.mem_map.mp hlines
      obtain ⟨e, he, rfl⟩ := List.mem_map.mp hrow
      have hshown := shown_entries (horderly.child ht) (horderly.root.statements t ht)
      exact ((hshown.firm e he).fits 0).feed
    · -- Any other tree has rows, too, but which of them fit at no width depends on its names.
      by_cases hnames : ∀ d ∈ (Tree.mk span (.moduleDef body)).descendants,
          ∀ name ∈ d.node.names, '\r' ∉ name.toList
      · obtain ⟨rows, hfits, hrender⟩ := exists_rows function span body fun d hd name hname =>
          (fun _ => hnames d hd name hname : Narrow 0 name)
        exact ⟨rows, fun row hrow => (hfits row hrow).feed,
          fun config _ => hrender config (Nat.zero_le _), fun h => absurd h horderly⟩
      · obtain ⟨rows, hfits, hrender⟩ := exists_rows function span body fun d hd name hname =>
          (nofun : Narrow 1 name)
        exact ⟨rows, fun row hrow => (hfits row hrow).feed,
          fun config hconfig => hrender config (hconfig.resolve_right hnames),
          fun h => absurd h horderly⟩
  | _ => cases h

/-- A conditional statement with two branches, the second of which is empty. -/
theorem module_layout_branches :
    let name (id : String) : Tree := .mk ⟨1, 0⟩ (.ident id)
    let t : Tree := .mk ⟨1, 0⟩ (.moduleDef [.mk ⟨1, 0⟩ (.ifStmt (name "a") [.mk ⟨1, 0⟩ .passStmt]
      [.mk ⟨1, 0⟩ (.ifStmt (name "b") [] [])])])
    t.kind = .moduleDef ∧ ∃ rows,
      spread 0 rows = "if a:\npass\nelif b:\npass\n" ∧
      spread 2 rows = "if a:\n  pass\nelif b:\n  pass\n" ∧
      rows = (entries t).map Entry.toRow ∧ Aligned t (entries t) := by
  intro name t
  obtain ⟨rows, -, hrender, horderly⟩ :=
    module_layout ⟨"f", "", 1⟩ (show t.kind = .moduleDef from rfl)
  have hnames : ∀ d ∈ t.descendants, ∀ name ∈ d.node.names, '\r' ∉ name.toList := by decide
  have ht : t.Orderly := by decide
  have hnarrow : "if a:\npass\nelif b:\npass\n" = spread 0 rows :=
    Except.ok.inj (hrender ⟨none, some 0, none⟩ (.inr hnames))
  have hwide : "if a:\n  pass\nelif b:\n  pass\n" = spread 2 rows := by
    have htext : (wording (blanks 2) t).text = "if a:\n  pass\nelif b:\n  pass\n" := by decide
    have hrows := hrender ⟨none, some 2, none⟩ (.inr hnames)
    rw [render_text] at hrows
    exact htext.symm.trans (Except.ok.inj hrows)
  exact ⟨rfl, rows, hnarrow.symm, hwide.symm, horderly ht⟩

/-! ## Names that end a line -/

/-- The number of line feeds does not depend on the width. -/
theorem count_spread (width : Nat) (rows : List Row) :
    (spread width rows).toList.count '\n' = (spread 0 rows).toList.count '\n' := by
  rw [spread, spread, String.toList_ofList, String.toList_ofList]
  induction rows with
  | nil => rfl
  | cons row rest ih =>
    have hprint (n : Nat) : (row.print n).count '\n' = row.text.count '\n' := by
      have hblanks : (List.replicate (n * row.depth) ' ').count '\n' = 0 :=
        List.count_eq_zero.mpr fun hmem => absurd (List.eq_of_mem_replicate hmem) (by decide)
      rw [Row.print, List.count_append, hblanks, Nat.zero_add]
    simp only [List.flatMap_cons, List.count_append, hprint, ih]

/-- Statements that are a carriage return and a line feed, inside of three suites. -/
def carriage : Tree :=
  let name (id : String) : Tree := .mk ⟨1, 0⟩ (.ident id)
  let line (id : String) : Tree := .mk ⟨1, 0⟩ (.exprStmt (name id))
  let branch (id : String) (body : List Tree) : Tree := .mk ⟨1, 0⟩ (.ifStmt (name id) body [])
  .mk ⟨1, 0⟩ (.moduleDef [branch "a" [branch "b" [branch "c" [line "\r", line "\n"]]]])

/-- With a carriage return as a name there may be a line less where a level is not wide at all. -/
theorem not_exists_rows : ¬∃ rows : List Row, ∀ config : Config,
    renderer.render ⟨⟨"f", "", 1⟩, carriage⟩ config = .ok (spread config.width rows) := by
  rintro ⟨rows, hrows⟩
  have hnarrow : "if a:\nif b:\nif c:\n" = spread 0 rows :=
    Except.ok.inj (hrows ⟨none, some 0, none⟩)
  have hwide : "if a:\n if b:\n  if c:\n   \n" = spread 1 rows :=
    Except.ok.inj (hrows ⟨none, some 1, none⟩)
  have hcount := (count_spread 1 rows).symm
  rw [← hnarrow, ← hwide] at hcount
  exact absurd hcount (by decide)

end Rendition.Python
