import Rendition.Proofs.Text.Lines
import Rendition.Rendering.Python

/-!
# Rows of a text

The same text is written with deeper or less deep indentation, depending on how wide a level is.
What stays the same are its rows: each has a depth, and stands behind that many levels of blanks. A
suite takes the texts of its statements apart into lines again and indents every line that is not
empty, so a row can only be followed through it while an empty line and the blanks of a level are
told apart. This fails where a level is not wide at all: there a row with no text of its own, which
is left when a carriage return goes with the line feed after it, looks like an empty line.

## Main definitions

* `Python.Row`: A text at a depth.
* `Python.printed`: The text of rows where a level has a width.
* `Python.spread`: Rows, each with the end of its line.
* `Python.Row.Fits`: Rows that can be followed through suites, at all widths from one on.
* `Python.glue`: The rows of two texts one after the other.
* `Python.cut`, `Python.Row.deeper`: What becomes of the rows of a statement in a suite.
* `Python.Row.Firm`: Rows with a text on one line.

## Theorems

* `join_printed`: Texts with rows, each with the end of its last line.
* `printed_glue`: The text of rows that were put together.
* `lines_printed`: The lines of the text of rows.
* `suite_printed`: The text of a suite.
* `suite_firm`: A suite of firm rows has the same rows, all of them a level deeper.
-/

namespace Rendition.Python

open Text (Unbroken chomp joinLines)

/-- A text at a depth. -/
structure Row where
  /-- How many levels of blanks stand in front of the text. -/
  depth : Nat
  text : List Char

/-- The characters of a row where a level is `width` wide. -/
def Row.print (width : Nat) (row : Row) : List Char :=
  List.replicate (width * row.depth) ' ' ++ row.text

/-- The text of rows where a level is `width` wide. -/
def printed (width : Nat) (rows : List Row) : List Char :=
  joinLines (rows.map (Row.print width))

/-- Rows that can be followed through suites at all widths from `low` on. -/
structure Row.Fits (low : Nat) (row : Row) : Prop where
  feed : '\n' ∉ row.text
  carriage : low = 0 → '\r' ∉ row.text
  text : low = 0 → row.depth = 0 ∨ row.text ≠ []

variable {low width : Nat}

theorem Row.Fits.print_eq_nil {row : Row} (h : row.Fits low) (hwidth : low ≤ width) :
    row.print width = [] ↔ row.depth = 0 ∧ row.text = [] := by
  rw [Row.print, List.append_eq_nil_iff, List.replicate_eq_nil_iff, Nat.mul_eq_zero]
  constructor
  · rintro ⟨hzero | hdepth, htext⟩
    · exact ⟨(h.text (by omega)).resolve_right fun hne => hne htext, htext⟩
    · exact ⟨hdepth, htext⟩
  · exact fun ⟨hdepth, htext⟩ => ⟨.inr hdepth, htext⟩

theorem Row.Fits.feed_print {row : Row} (h : row.Fits low) (width : Nat) :
    '\n' ∉ row.print width := by
  rw [Row.print, List.mem_append, not_or]
  exact ⟨fun hmem => absurd (List.eq_of_mem_replicate hmem) (by decide), h.feed⟩

theorem Row.print_zero (text : List Char) : Row.print width ⟨0, text⟩ = text := by
  rw [Row.print, Nat.mul_zero, List.replicate_zero, List.nil_append]

theorem printed_append {as bs : List Row} (has : as ≠ []) (hbs : bs ≠ []) :
    printed width (as ++ bs) = printed width as ++ '\n' :: printed width bs := by
  rw [printed, List.map_append, Text.joinLines_append (by simpa using has) (by simpa using hbs)]
  rfl

theorem ofList_printed_append {as bs : List Row} (has : as ≠ []) (hbs : bs ≠ []) :
    String.ofList (printed width (as ++ bs)) =
      String.ofList (printed width as) ++ "\n" ++ String.ofList (printed width bs) := by
  have hfeed : '\n' :: printed width bs = ['\n'] ++ printed width bs := rfl
  rw [printed_append has hbs, hfeed, String.ofList_append, String.ofList_append,
    ← String.append_assoc]

theorem printed_cons (row : Row) {rows : List Row} (h : rows ≠ []) :
    printed width (row :: rows) = row.print width ++ '\n' :: printed width rows :=
  Text.joinLines_cons (by simpa using h)

theorem printed_singleton (row : Row) : printed width [row] = row.print width :=
  Text.joinLines_singleton _

/-- Texts with rows, each on lines of its own. -/
theorem intercalate_printed {texts : List (List Row)} (hne : texts ≠ []) (h : [] ∉ texts) :
    "\n".intercalate (texts.map fun rows => String.ofList (printed width rows)) =
      String.ofList (printed width texts.flatten) := by
  induction texts with
  | nil => exact absurd rfl hne
  | cons rows rest ih =>
    rw [List.mem_cons, not_or] at h
    rcases rest with _ | ⟨next, rest⟩
    · rw [List.map_singleton, String.intercalate_singleton, List.flatten_singleton]
    · have hflatten : (next :: rest).flatten ≠ [] := by
        rw [List.flatten_cons]
        exact List.append_ne_nil_of_left_ne_nil (fun heq => h.2 (heq ▸ List.mem_cons_self)) _
      have hrest := ih (List.cons_ne_nil next rest) h.2
      rw [List.map_cons] at hrest
      rw [List.map_cons, List.map_cons, String.intercalate_cons_cons, hrest,
        ← ofList_printed_append (fun heq => h.1 heq.symm) hflatten, List.flatten_cons (l := rows)]

/-! ## Rows with the ends of their lines -/

/-- Rows, each with the end of its line. -/
def spread (width : Nat) (rows : List Row) : String :=
  String.ofList (rows.flatMap fun row => row.print width ++ ['\n'])

theorem printed_feed {rows : List Row} (h : rows ≠ []) :
    String.ofList (printed width rows) ++ "\n" = spread width rows := by
  have hchars :
      printed width rows ++ ['\n'] = rows.flatMap fun row => row.print width ++ ['\n'] := by
    induction rows with
    | nil => exact absurd rfl h
    | cons row rest ih =>
      rcases rest with _ | ⟨next, rest⟩
      · rw [printed_singleton, List.flatMap_singleton]
      · rw [printed_cons _ (List.cons_ne_nil _ _), List.append_assoc, List.cons_append,
          ih (List.cons_ne_nil _ _), @List.flatMap_cons _ _ row, List.append_assoc,
          List.singleton_append]
  rw [spread, ← hchars, String.ofList_append]

/-- Statements one after another, each with the end of its last line. -/
theorem join_printed {statements : List (List Row)} (h : [] ∉ statements) :
    String.join ((statements.map fun rows => String.ofList (printed width rows)).map (· ++ "\n")) =
      spread width statements.flatten := by
  induction statements with
  | nil => rfl
  | cons rows rest ih =>
    rw [List.mem_cons, not_or] at h
    rw [List.map_cons, List.map_cons, String.join_cons, ih h.2,
      printed_feed fun heq => h.1 heq.symm, List.flatten_cons, spread, spread, spread,
      List.flatMap_append, String.ofList_append]

/-! ## Two texts one after the other -/

/-- The rows of a text with rows followed by one whose first row is not indented. -/
def glue : List Row → List Char → List Row → List Row
  | [], text, more => ⟨0, text⟩ :: more
  | [row], text, more => ⟨row.depth, row.text ++ text⟩ :: more
  | row :: next :: rest, text, more => row :: glue (next :: rest) text more

theorem glue_ne_nil (rows : List Row) (text : List Char) (more : List Row) :
    glue rows text more ≠ [] := by
  rcases rows with _ | ⟨row, _ | ⟨next, rest⟩⟩ <;> exact List.cons_ne_nil _ _

/-- The first row stays one that is not indented. -/
theorem glue_cons (start : List Char) (rest : List Row) (text : List Char) (more : List Row) :
    ∃ first after, glue (⟨0, start⟩ :: rest) text more = ⟨0, first⟩ :: after := by
  rcases rest with _ | ⟨next, rest⟩ <;> exact ⟨_, _, rfl⟩

theorem printed_glue {rows : List Row} (h : rows ≠ []) (text : List Char) (more : List Row) :
    printed width (glue rows text more) =
      printed width rows ++ printed width (⟨0, text⟩ :: more) := by
  induction rows with
  | nil => exact absurd rfl h
  | cons row rest ih =>
    rcases rest with _ | ⟨next, rest⟩
    · have hprint : Row.print width ⟨row.depth, row.text ++ text⟩ = row.print width ++ text :=
        (List.append_assoc _ _ _).symm
      rcases more with _ | ⟨m, more⟩
      · simp only [glue, printed_singleton, hprint, Row.print_zero]
      · have hmore := List.cons_ne_nil m more
        simp only [glue, printed_singleton, printed_cons _ hmore, hprint, Row.print_zero,
          List.append_assoc]
    · rw [glue, printed_cons _ (glue_ne_nil _ _ _), ih (List.cons_ne_nil _ _),
        printed_cons _ (List.cons_ne_nil _ _), List.append_assoc, List.cons_append]

/-- Characters in front of the first row stand in front of all rows. -/
theorem printed_behind (start text : List Char) (more : List Row) :
    printed width (⟨0, start ++ text⟩ :: more) = start ++ printed width (⟨0, text⟩ :: more) := by
  have hglue : glue [⟨0, start⟩] text more = ⟨0, start ++ text⟩ :: more := rfl
  rw [← hglue, printed_glue (List.cons_ne_nil _ _), printed_singleton, Row.print_zero]

theorem fits_glue {rows : List Row} (hrows : ∀ row ∈ rows, row.Fits low) {text : List Char}
    {more : List Row} (hmore : ∀ row ∈ ⟨0, text⟩ :: more, row.Fits low) :
    ∀ row ∈ glue rows text more, row.Fits low := by
  induction rows with
  | nil => exact hmore
  | cons row rest ih =>
    obtain ⟨htext, hmore'⟩ := List.forall_mem_cons.mp hmore
    obtain ⟨hrow, hrest⟩ := List.forall_mem_cons.mp hrows
    rcases rest with _ | ⟨next, rest⟩
    · refine List.forall_mem_cons.mpr ⟨⟨?_, fun hlow => ?_, fun hlow => ?_⟩, hmore'⟩
      · rw [List.mem_append, not_or]
        exact ⟨hrow.feed, htext.feed⟩
      · rw [List.mem_append, not_or]
        exact ⟨hrow.carriage hlow, htext.carriage hlow⟩
      · exact (hrow.text hlow).imp_right fun hne => List.append_ne_nil_of_left_ne_nil hne _
    · exact List.forall_mem_cons.mpr ⟨hrow, ih hrest⟩

/-! ## The rows of a suite -/

/-- A row that a line feed follows in a text, without what belongs to the end of the line. -/
def Row.chomp (row : Row) : Row :=
  ⟨row.depth, Text.chomp row.text⟩

/-- The rows of the lines of a text with rows. An empty last line does not show. -/
def cut : List Row → List Row
  | [] => []
  | [row] => if row.depth = 0 ∧ row.text = [] then [] else [row]
  | row :: next :: rest => row.chomp :: cut (next :: rest)

/-- The row a level deeper. An empty line stays empty. -/
def Row.deeper (row : Row) : Row :=
  if row.depth = 0 ∧ row.text = [] then row else ⟨row.depth + 1, row.text⟩

theorem Row.print_chomp (row : Row) (width : Nat) :
    row.chomp.print width = Text.chomp (row.print width) := by
  rcases row with ⟨depth, text⟩
  rcases List.eq_nil_or_concat text with rfl | ⟨init, last, rfl⟩
  · have hblank : (List.replicate (width * depth) ' ').getLast? ≠ some '\r' := fun heq =>
      absurd (List.eq_of_mem_replicate (List.mem_of_getLast? heq)) (by decide)
    have hprint : Text.chomp (List.replicate (width * depth) ' ') =
        List.replicate (width * depth) ' ' := if_neg hblank
    rw [Row.chomp, Row.print, Row.print, List.append_nil, hprint]
    exact List.append_nil _
  · simp only [Row.chomp, Row.print, Text.chomp, List.concat_eq_append, ← List.append_assoc,
      List.getLast?_concat, List.dropLast_concat]
    split <;> simp only [List.append_assoc]

theorem Row.Fits.chomp {row : Row} (h : row.Fits low) : row.chomp.Fits low := by
  have hsub : ∀ c, c ∈ Text.chomp row.text → c ∈ row.text := by
    intro c hc
    rw [Text.chomp] at hc
    split at hc
    · exact List.dropLast_subset _ hc
    · exact hc
  refine ⟨fun hmem => h.feed (hsub _ hmem), fun hlow hmem => h.carriage hlow (hsub _ hmem),
    fun hlow => ?_⟩
  have hsame : Text.chomp row.text = row.text :=
    if_neg fun hlast => h.carriage hlow (List.mem_of_getLast? hlast)
  rw [Row.chomp, hsame]
  exact h.text hlow

theorem fits_cut {rows : List Row} (h : ∀ row ∈ rows, row.Fits low) :
    ∀ row ∈ cut rows, row.Fits low := by
  induction rows with
  | nil => exact h
  | cons row rest ih =>
    obtain ⟨hrow, hrest⟩ := List.forall_mem_cons.mp h
    rcases rest with _ | ⟨next, rest⟩
    · rw [cut]
      split
      · exact fun _ hmem => absurd hmem List.not_mem_nil
      · exact h
    · exact List.forall_mem_cons.mpr ⟨hrow.chomp, ih hrest⟩

/-- The lines of the text of rows. -/
theorem lines_printed {rows : List Row} (h : ∀ row ∈ rows, row.Fits low) (hwidth : low ≤ width) :
    Text.lines (printed width rows) = (cut rows).map (Row.print width) := by
  induction rows with
  | nil => rfl
  | cons row rest ih =>
    obtain ⟨hrow, hrest⟩ := List.forall_mem_cons.mp h
    rcases rest with _ | ⟨next, rest⟩
    · rw [printed_singleton, cut]
      split
      · next hempty =>
        rw [(hrow.print_eq_nil hwidth).mpr hempty]
        rfl
      · next hne =>
        exact Text.lines_last (hrow.feed_print width)
          fun hnil => hne ((hrow.print_eq_nil hwidth).mp hnil)
    · rw [printed_cons _ (List.cons_ne_nil _ _), Text.lines_chomp (hrow.feed_print width), ih hrest,
        cut, List.map_cons, Row.print_chomp]

theorem Row.Fits.deeper {row : Row} (h : row.Fits low) : row.deeper.Fits low := by
  unfold Row.deeper
  split
  · exact h
  · next hne =>
    refine ⟨h.feed, h.carriage, fun hlow => .inr fun htext => ?_⟩
    exact hne ⟨(h.text hlow).resolve_right fun hne => hne htext, htext⟩

/-- The blanks of a level. -/
def blanks (width : Nat) : String :=
  String.ofList (List.replicate width ' ')

theorem Row.Fits.indentLine {row : Row} (h : row.Fits low) (hwidth : low ≤ width) :
    indentLine (blanks width).toList (row.print width) = row.deeper.print width := by
  have hnil := h.print_eq_nil hwidth
  rw [Python.indentLine, Row.deeper, blanks, String.toList_ofList]
  by_cases hempty : row.depth = 0 ∧ row.text = []
  · rw [if_pos hempty, hnil.mpr hempty]
    rfl
  · have hne : (row.print width).isEmpty = false :=
      List.isEmpty_eq_false_iff.mpr fun heq => hempty (hnil.mp heq)
    rw [if_neg hempty, hne, if_neg Bool.false_ne_true, Row.print, Row.print, Nat.mul_succ,
      Nat.add_comm _ width, ← List.replicate_append_replicate, List.append_assoc]

/-- The rows of a suite of texts with rows. -/
def suiteRows (statements : List (List Row)) : List Row :=
  (statements.flatMap cut).map Row.deeper

theorem fits_suiteRows {statements : List (List Row)}
    (h : ∀ rows ∈ statements, ∀ row ∈ rows, row.Fits low) :
    ∀ row ∈ suiteRows statements, row.Fits low := by
  intro row hrow
  obtain ⟨inner, hinner, rfl⟩ := List.mem_map.mp hrow
  obtain ⟨rows, hrows, hinner⟩ := List.mem_flatMap.mp hinner
  exact (fits_cut (h rows hrows) inner hinner).deeper

/-- The text of a suite with statements. -/
theorem suite_printed {statements : List (List Row)} (hne : statements ≠ [])
    (h : ∀ rows ∈ statements, ∀ row ∈ rows, row.Fits low) (hwidth : low ≤ width) :
    suite (blanks width) (statements.map fun rows => String.ofList (printed width rows)) =
      String.ofList (printed width (suiteRows statements)) := by
  have hnonempty :
      (statements.map fun rows => String.ofList (printed width rows)).isEmpty = false :=
    List.isEmpty_eq_false_iff.mpr (by simpa using hne)
  have hlines : (statements.map fun rows => String.ofList (printed width rows)).flatMap
      (fun statement => Text.lines statement.toList) =
        (statements.flatMap cut).map (Row.print width) := by
    rw [List.flatMap_map, List.map_flatMap]
    refine List.flatMap_congr fun rows hrows => ?_
    rw [String.toList_ofList, lines_printed (h rows hrows) hwidth]
  simp only [suite, hnonempty, Bool.false_eq_true, if_false, hlines]
  rw [printed, suiteRows, List.map_map, List.map_map]
  refine congrArg (fun lines => String.ofList (joinLines lines))
    (List.map_congr_left fun row hrow => ?_)
  obtain ⟨rows, hrows, hrow⟩ := List.mem_flatMap.mp hrow
  exact (fits_cut (h rows hrows) row hrow).indentLine hwidth

/-- A head ends with a colon, and the suite begins on the next line. -/
theorem headed_eq (indent head : String) (statements : List String) :
    headed indent head statements = head ++ ":" ++ "\n" ++ suite indent statements := by
  have hmarks : ":\n" = ":" ++ "\n" := rfl
  rw [headed, hmarks, ← String.append_assoc]

/-! ## Firm rows -/

/-- Rows with a text on one line. -/
def Row.Firm (row : Row) : Prop :=
  Unbroken row.text ∧ row.text ≠ []

/-- The same text a level deeper. -/
def Row.down (row : Row) : Row :=
  { row with depth := row.depth + 1 }

theorem Row.Firm.fits {row : Row} (h : row.Firm) (low : Nat) : row.Fits low :=
  ⟨fun hmem => (h.1 _ hmem).1 rfl, fun _ hmem => (h.1 _ hmem).2 rfl, fun _ => .inr h.2⟩

/-- Nothing is lost of firm rows when they are cut apart. -/
theorem cut_firm {rows : List Row} (h : ∀ row ∈ rows, row.Firm) : cut rows = rows := by
  induction rows with
  | nil => rfl
  | cons row rest ih =>
    obtain ⟨hrow, hrest⟩ := List.forall_mem_cons.mp h
    rcases rest with _ | ⟨next, rest⟩
    · rw [cut, if_neg fun hempty => hrow.2 hempty.2]
    · rw [cut, ih hrest, Row.chomp, Text.chomp_unbroken hrow.1]

/-- A suite of firm rows has the same rows, all of them a level deeper. -/
theorem suite_firm {statements : List (List Row)} (hne : statements ≠ [])
    (h : ∀ rows ∈ statements, ∀ row ∈ rows, row.Firm) (width : Nat) :
    suite (blanks width) (statements.map fun rows => String.ofList (printed width rows)) =
      String.ofList (printed width (statements.flatten.map Row.down)) := by
  have hcut : statements.flatMap cut = statements.flatten := by
    rw [List.flatMap_def, List.map_congr_left fun rows hrows => cut_firm (h rows hrows),
      List.map_id']
  have hrows : suiteRows statements = statements.flatten.map Row.down := by
    rw [suiteRows, hcut]
    refine List.map_congr_left fun row hrow => ?_
    obtain ⟨rows, hrows, hrow⟩ := List.mem_flatten.mp hrow
    exact if_neg fun hempty => (h rows hrows row hrow).2 hempty.2
  rw [← hrows]
  exact suite_printed hne (fun rows hmem row hrow => (h rows hmem row hrow).fits 0)
    (Nat.zero_le width)

end Rendition.Python
