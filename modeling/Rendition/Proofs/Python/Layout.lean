import Rendition.Proofs.Python.Textual

/-!
# Every text has rows

Whatever a tree is, its text is the text of the same rows at all widths of a level, except perhaps
where a level is not wide at all. That exception is needed only where a name holds a carriage
return.

## Main definitions

* `Python.Laid`: Texts that are the text of the same rows at all widths from one on.

## Theorems

* `layered_laid`: Texts with rows can be put together and indented.
* `laid_wording`: The text of a tree has rows.
* `exists_rows`: So has the rendition of a module, each row with the end of its line.
-/

namespace Rendition.Python

open Text (Unbroken)

/-- Texts that are the text of the same rows at all widths from `low` on. The first row is not
    indented. -/
def Laid (low : Nat) (f : Nat → String) : Prop :=
  ∃ start rest, (∀ row ∈ ⟨0, start⟩ :: rest, row.Fits low) ∧
    ∀ width, low ≤ width → f width = String.ofList (printed width (⟨0, start⟩ :: rest))

/-- The names that leave texts with rows. -/
def Narrow (low : Nat) (name : String) : Prop :=
  low = 0 → '\r' ∉ name.toList

variable {low : Nat}

theorem laid_append {f g : Nat → String} (hf : Laid low f) (hg : Laid low g) :
    Laid low fun width => f width ++ g width := by
  obtain ⟨start, rest, hfits, hprinted⟩ := hf
  obtain ⟨text, more, hfits', hprinted'⟩ := hg
  obtain ⟨first, after, hglue⟩ := glue_cons start rest text more
  refine ⟨first, after, hglue ▸ fits_glue hfits hfits', fun width hwidth => ?_⟩
  simp only [hprinted width hwidth, hprinted' width hwidth, ← hglue,
    printed_glue (List.cons_ne_nil _ _), String.ofList_append]

/-- A text that does not depend on the width has rows. -/
theorem laid_const {text : String} (h : Narrow low text) : Laid low fun _ => text := by
  have hchars : ∀ chars : List Char, (low = 0 → '\r' ∉ chars) →
      Laid low fun _ => String.ofList chars := by
    intro chars hchars
    induction chars with
    | nil =>
      exact ⟨[], [], List.forall_mem_singleton.mpr ⟨nofun, fun _ => nofun, fun _ => .inl rfl⟩,
        fun width _ => by rw [printed_singleton, Row.print_zero]⟩
    | cons c chars ih =>
      have hrest := ih fun hlow hmem => hchars hlow (List.mem_cons_of_mem c hmem)
      have hcons : Laid low fun _ => String.ofList [c] := by
        by_cases hc : c = '\n'
        · have hempty : Row.Fits low ⟨0, []⟩ := ⟨nofun, fun _ => nofun, fun _ => .inl rfl⟩
          refine ⟨[], [⟨0, []⟩], List.forall_mem_cons.mpr
            ⟨hempty, List.forall_mem_singleton.mpr hempty⟩, fun width _ => ?_⟩
          rw [printed_cons _ (List.cons_ne_nil _ _), printed_singleton, Row.print_zero, hc,
            List.nil_append]
        · refine ⟨[c], [], List.forall_mem_singleton.mpr ⟨fun hmem => ?_, fun hlow hmem => ?_,
            fun _ => .inl rfl⟩, fun width _ => by rw [printed_singleton, Row.print_zero]⟩
          · exact hc (List.mem_singleton.mp hmem).symm
          · exact hchars hlow ((List.mem_singleton.mp hmem) ▸ List.mem_cons_self)
      have happend := laid_append hcons hrest
      simpa only [← String.ofList_append, List.singleton_append] using happend
  simpa only [String.ofList_toList] using hchars text.toList h

/-- The lines of texts with rows, one text after another, have rows. -/
theorem exists_statementRows {body : List (Nat → String)} (h : ∀ f ∈ body, Laid low f) :
    ∃ statements : List (List Row), [] ∉ statements ∧
      (∀ rows ∈ statements, ∀ row ∈ rows, row.Fits low) ∧ ∀ width, low ≤ width →
        (body.map fun f => f width) =
          statements.map fun rows => String.ofList (printed width rows) := by
  induction body with
  | nil => exact ⟨[], nofun, nofun, fun _ _ => rfl⟩
  | cons f body ih =>
    obtain ⟨hf, hbody⟩ := List.forall_mem_cons.mp h
    obtain ⟨start, rest, hfits, hprinted⟩ := hf
    obtain ⟨statements, hne, hstatements, htexts⟩ := ih hbody
    refine ⟨(⟨0, start⟩ :: rest) :: statements, ?_,
      List.forall_mem_cons.mpr ⟨hfits, hstatements⟩, fun width hwidth => ?_⟩
    · rw [List.mem_cons, not_or]
      exact ⟨nofun, hne⟩
    rw [List.map_cons, List.map_cons, hprinted width hwidth, htexts width hwidth]

/-- A suite of texts with rows has rows, though they need not start at the margin. -/
theorem exists_suiteRows {body : List (Nat → String)} (h : ∀ f ∈ body, Laid low f) :
    ∃ rows : List Row, rows ≠ [] ∧ (∀ row ∈ rows, row.Fits low) ∧ ∀ width, low ≤ width →
      suite (blanks width) (body.map fun f => f width) = String.ofList (printed width rows) := by
  have hlines {statements : List (List Row)} (hne : statements ≠ [])
      (hfits : ∀ rows ∈ statements, ∀ row ∈ rows, row.Fits low) :
      ∃ rows : List Row, rows ≠ [] ∧ (∀ row ∈ rows, row.Fits low) ∧ ∀ width, low ≤ width →
        suite (blanks width) (statements.map fun rows => String.ofList (printed width rows)) =
          String.ofList (printed width rows) := by
    rcases hrows : suiteRows statements with _ | ⟨row, more⟩
    · -- A suite of empty texts is an empty line.
      refine ⟨[⟨0, []⟩], List.cons_ne_nil _ _, List.forall_mem_singleton.mpr
        ⟨nofun, fun _ => nofun, fun _ => .inl rfl⟩, fun width hwidth => ?_⟩
      rw [suite_printed hne hfits hwidth, hrows, printed_singleton, Row.print_zero]
      rfl
    · refine ⟨row :: more, List.cons_ne_nil _ _, hrows ▸ fits_suiteRows hfits,
        fun width hwidth => ?_⟩
      rw [suite_printed hne hfits hwidth, hrows]
  obtain ⟨statements, -, hfits, htexts⟩ := exists_statementRows h
  rcases statements with _ | ⟨first, rest⟩
  · -- A suite without statements is written as one with `pass`.
    have hpass : ∀ rows ∈ [[Row.mk 0 "pass".toList]], ∀ row ∈ rows, Row.Fits low row := by
      simp only [List.mem_singleton, forall_eq]
      exact ⟨by decide, fun _ => by decide, fun _ => .inl rfl⟩
    obtain ⟨rows, hne, hrows, hsuite⟩ := hlines (List.cons_ne_nil _ _) hpass
    refine ⟨rows, hne, hrows, fun width hwidth => ?_⟩
    rw [htexts width hwidth, ← hsuite width hwidth, List.map_singleton, printed_singleton,
      Row.print_zero, String.ofList_toList]
    rfl
  · obtain ⟨rows, hne, hrows, hsuite⟩ := hlines (List.cons_ne_nil first rest) hfits
    exact ⟨rows, hne, hrows, fun width hwidth => (congrArg _ (htexts width hwidth)).trans
      (hsuite width hwidth)⟩

theorem laid_headed {head : Nat → String} {body : List (Nat → String)} (hhead : Laid low head)
    (hbody : ∀ f ∈ body, Laid low f) :
    Laid low fun width => headed (blanks width) (head width) (body.map fun f => f width) := by
  obtain ⟨start, rest, hfits, hprinted⟩ := laid_append hhead
    (@laid_const low ":" fun _ => by decide)
  obtain ⟨rows, hne, hrows, hsuite⟩ := exists_suiteRows hbody
  refine ⟨start, rest ++ rows, ?_, fun width hwidth => ?_⟩
  · rw [← List.cons_append, List.forall_mem_append]
    exact ⟨hfits, hrows⟩
  · have hcolon : head width ++ ":" = _ := hprinted width hwidth
    simp only [headed_eq, hsuite width hwidth, hcolon]
    rw [← List.cons_append, ofList_printed_append (List.cons_ne_nil _ _) hne]

theorem layered_laid : Layered (Narrow low) (Laid low) where
  plain text h := laid_const fun _ hmem => (h '\r' hmem).2 rfl
  name h := laid_const h
  append := laid_append
  feed := laid_const fun _ => by decide
  headed := laid_headed

/-- The text of a tree has rows, and so has its text as an index. -/
theorem laid_wording {t : Tree} (h : ∀ d ∈ t.descendants, ∀ name ∈ d.node.names, Narrow low name) :
    (Laid low fun width => (wording (blanks width) t).text) ∧
      Laid low fun width => (wording (blanks width) t).index := by
  induction t using Tree.inductionOn with
  | step span node ih =>
    have hchildren : ∀ c ∈ node.toList, (Laid low fun width => (wording (blanks width) c).text) ∧
        Laid low fun width => (wording (blanks width) c).index := fun c hc =>
      ih c hc fun d hd => h d (Tree.mem_descendants_of_child (t := .mk span node) hc hd)
    have hisIf : ∀ c ∈ node.toList, ∀ width,
        (wording (blanks width) c).isIf = (wording (blanks 0) c).isIf := by
      rintro ⟨span, node⟩ _ width
      rw [wording_mk, wording_mk]
    have hnames := h _ (Tree.mem_descendants_self _)
    have htext := layered_laid.assemble hchildren hisIf hnames
    simp only [wording_mk]
    refine ⟨htext, ?_⟩
    -- Only a tuple with elements is worded differently as an index.
    cases node with
    | tuple items =>
      rcases items with _ | ⟨first, rest⟩
      · exact htext
      · exact layered_laid.texts_listing fun i hi => (hchildren i hi).1
    | _ => exact htext

/-- The rendition of a module has rows, the same at all widths from one on, and at no width as well
    if no name holds a carriage return. -/
theorem exists_rows (function : SourceFunction) (span : Span) (body : List Tree)
    (h : ∀ d ∈ (Tree.mk span (.moduleDef body)).descendants, ∀ name ∈ d.node.names,
      Narrow low name) :
    ∃ rows : List Row, (∀ row ∈ rows, row.Fits low) ∧ ∀ config : Config, low ≤ config.width →
      renderer.render ⟨function, .mk span (.moduleDef body)⟩ config =
        .ok (spread config.width rows) := by
  have hbody : ∀ f ∈ body.map fun t width => (wording (blanks width) t).text, Laid low f := by
    intro f hf
    obtain ⟨t, ht, rfl⟩ := List.mem_map.mp hf
    exact (laid_wording fun d hd => h d (Tree.mem_descendants_of_child ht hd)).1
  obtain ⟨statements, hne, hfits, htexts⟩ := exists_statementRows hbody
  refine ⟨statements.flatten, fun row hrow => ?_, fun config hwidth => ?_⟩
  · obtain ⟨rows, hrows, hrow⟩ := List.mem_flatten.mp hrow
    exact hfits rows hrows row hrow
  · have htext := htexts config.width hwidth
    rw [List.map_map] at htext
    rw [render_text, ← join_printed hne, ← htext, wording_mk]
    simp only [assemble, Node.map, texts, List.map_map, Function.comp_def]
    rfl

end Rendition.Python
