import Rendition.Proofs.Python.Dotted
import Rendition.Proofs.Python.Rows

/-!
# Statements are rendered line by line

What a statement is rendered as is the text of its lines, each behind the blanks of its depth. A
suite takes the texts of its statements apart into lines again to indent them, so this rests on
lines that hold no line ends themselves.

## Main definitions

* `Python.Line.Sound`: Lines that are spelled out as the lexer needs it.
* `Python.stacked`: The text of lines.

## Theorems

* `sound_lines`: The lines of faithful statements are sound.
* `run_lines`: Statements are rendered as their lines.
-/

namespace Rendition.Python

open Source Source.Lexeme Text

/-- A line can only be followed by the end of it. -/
def endsLine (c : Char) : Bool :=
  c = '\n'

/-- Lines that are spelled out as the lexer needs it. -/
def Line.Sound (line : Line) : Prop :=
  Whole endsLine line.phrase

/-- The characters of a line where a level is `width` deep. -/
def Line.text (width : Nat) (line : Line) : List Char :=
  List.replicate (width * line.depth) ' ' ++ spell (line.phrase {})

/-- The text of lines. -/
def stacked (width : Nat) (ls : List Line) : String :=
  String.ofList (joinLines (ls.map (Line.text width)))

/-- A line as a row. -/
def Line.row (line : Line) : Row :=
  ⟨line.depth, spell (line.phrase {})⟩

theorem stacked_eq (width : Nat) (ls : List Line) :
    stacked width ls = String.ofList (printed width (ls.map Line.row)) := by
  rw [stacked, printed, List.map_map]
  rfl

theorem Line.Sound.firm {line : Line} (h : line.Sound) : line.row.Firm :=
  ⟨unbroken_spell (h.level {} unbroken_empty), h.ne⟩

theorem Line.Sound.deeper {line : Line} (h : line.Sound) : line.deeper.Sound :=
  h

/-- The lines of a suite with statements. -/
theorem suiteLines_eq {body : List Tree} (hne : body ≠ []) :
    suiteLines (body.map draft) = (body.flatMap lines).map Line.deeper := by
  have hbody : (body.map draft).isEmpty = false := by
    rw [List.isEmpty_eq_false_iff, ne_eq, List.map_eq_nil_iff]
    exact hne
  simp only [suiteLines, hbody, Bool.false_eq_true, if_false, List.flatMap_map]
  rfl

theorem suite_stacked (width : Nat) {body : List Tree} (hne : body ≠ [])
    (h : ∀ t ∈ body, ∀ line ∈ lines t, line.Sound) :
    suite (blanks width) (body.map fun t => stacked width (lines t)) =
      stacked width (suiteLines (body.map draft)) := by
  have hfirm : ∀ rows ∈ (body.map lines).map (List.map Line.row), ∀ row ∈ rows, row.Firm := by
    intro rows hrows row hrow
    obtain ⟨ls, hls, rfl⟩ := List.mem_map.mp hrows
    obtain ⟨t, ht, rfl⟩ := List.mem_map.mp hls
    obtain ⟨line, hline, rfl⟩ := List.mem_map.mp hrow
    exact (h t ht line hline).firm
  have hrows : ((body.map lines).map (List.map Line.row)).flatten.map Row.down =
      ((body.flatMap lines).map Line.deeper).map Line.row := by
    rw [← List.map_flatten, List.map_map, List.map_map, List.flatMap_def]
    rfl
  have hsuite := suite_firm (by simpa using hne) hfirm width
  rw [hrows, ← stacked_eq, ← suiteLines_eq hne] at hsuite
  simpa only [List.map_map, Function.comp_def, ← stacked_eq] using hsuite

/-! ## The lines of statements -/

/-- What ends the head of a statement. -/
def endsHead (c : Char) : Bool :=
  c = ':'

theorem closes_endsLine {c : Char} (h : endsLine c = true) : closes c = true := by
  obtain rfl : c = '\n' := of_decide_eq_true h
  decide

theorem closes_endsHead {c : Char} (h : endsHead c = true) : closes c = true := by
  obtain rfl : c = ':' := of_decide_eq_true h
  decide

/-- Sound lines, the first of which is not indented. -/
structure Sheet (ls : List Line) : Prop where
  here : ∃ p rest, ls = .here p :: rest
  sound : ∀ line ∈ ls, line.Sound

theorem Sheet.ne_nil {ls : List Line} (h : Sheet ls) : ls ≠ [] := by
  obtain ⟨p, rest, hls⟩ := h.here
  rw [hls]
  exact List.cons_ne_nil _ _

theorem sheet_single {p : Phrase} (h : Whole endsLine p) : Sheet [.here p] :=
  ⟨⟨p, [], rfl⟩, fun line hline => by
    rw [List.mem_singleton.mp hline]
    exact h⟩

theorem sheet_append {as bs : List Line} (has : Sheet as) (hbs : ∀ line ∈ bs, line.Sound) :
    Sheet (as ++ bs) := by
  obtain ⟨p, rest, hfirst⟩ := has.here
  exact ⟨⟨p, rest ++ bs, by rw [hfirst, List.cons_append]⟩,
    List.forall_mem_append.mpr ⟨has.sound, hbs⟩⟩

theorem sheet_headed {head : Phrase} (hhead : Whole endsHead head) {body : List Tree}
    (hne : body ≠ []) (hbody : ∀ t ∈ body, Sheet (lines t)) :
    Sheet (headedLines head (body.map draft)) := by
  rw [headedLines, suiteLines_eq hne]
  refine ⟨⟨_, _, rfl⟩, List.forall_mem_cons.mpr ⟨?_, fun line hline => ?_⟩⟩
  · refine hhead.append (d := ':') (by decide) (fun c => ⟨_, rfl⟩) (fun c hc => ?_)
      (inline_cons.mpr ⟨by decide, inline_nil⟩)
    obtain rfl : c = '\n' := of_decide_eq_true hc
    exact fits_singleton (leads_colon Gap.plain_empty (by decide))
  · obtain ⟨inner, hinner, rfl⟩ := List.mem_map.mp hline
    obtain ⟨t, ht, hinner⟩ := List.mem_flatMap.mp hinner
    exact ((hbody t ht).sound inner hinner).deeper

theorem headedLines_ne_nil (head : Phrase) (body : List Draft) : headedLines head body ≠ [] :=
  List.cons_ne_nil _ _

/-- The lines of a conditional statement as a further branch. -/
def branch (t : Tree) : Option (List Line) :=
  (draft t).branch

theorem branch_mk (span : Span) (node : Node Tree) :
    branch (.mk span node) = branchOf (node.map draft) := by
  rw [branch, draft_mk]
  rfl

/-- The lines of a conditional statement whose `else` holds one statement. -/
theorem conditionalLines_single (keyword : String) (test : Draft) (body : List Draft)
    (single : Tree) : conditionalLines keyword test body [draft single] =
      headedLines (fun g => word keyword g :: test.phrase .blank) body ++
        (branch single).getD (headedLines (fun g => [word "else" g]) [draft single]) := by
  simp only [conditionalLines, branch]
  cases (draft single).branch <;> rfl

/-- A conditional statement is sound, and so it is as a further branch. -/
theorem sheet_conditional {keyword : String} (hkeyword : IsName keyword) {test : Tree}
    {body orelse : List Tree} (htest : Whole closes (phrase test)) (hne : body ≠ [])
    (hbody : ∀ t ∈ body, Sheet (lines t))
    (horelse : ∀ t ∈ orelse, Sheet (lines t) ∧ ∀ ls ∈ branch t, Sheet ls) :
    Sheet (conditionalLines keyword (draft test) (body.map draft) (orelse.map draft)) := by
  have hhead : Whole endsHead fun g => word keyword g :: phrase test .blank :=
    (htest.weaken fun _ => closes_endsHead).behind hkeyword
  have helse : Whole endsHead fun g => [word "else" g] :=
    (whole_single (isName_reserved (by decide))).weaken fun _ hc => closes_ends (closes_endsHead hc)
  have hif := sheet_headed hhead hne hbody
  rcases orelse with _ | ⟨first, _ | ⟨second, rest⟩⟩
  · exact sheet_append hif fun line hline => absurd hline List.not_mem_nil
  · obtain ⟨hlines, hbranch⟩ := horelse first List.mem_cons_self
    rw [List.map_singleton, conditionalLines_single]
    refine sheet_append hif ?_
    rcases hfirst : branch first with _ | ls
    · refine (@sheet_headed _ helse [first] (List.cons_ne_nil _ _) fun t ht => ?_).sound
      rw [List.mem_singleton.mp ht]
      exact hlines
    · exact (hbranch ls hfirst).sound
  · exact sheet_append hif (@sheet_headed _ helse (first :: second :: rest)
      (List.cons_ne_nil _ _) fun t ht => (horelse t ht).1).sound

theorem endsHead_ends {c : Char} (h : endsHead c = true) : ends c = true :=
  closes_ends (closes_endsHead h)

theorem endsLine_ends {c : Char} (h : endsLine c = true) : ends c = true :=
  closes_ends (closes_endsLine h)

/-- A keyword alone. -/
theorem whole_alone {stop : Char → Bool} {text : String} (h : isReserved text = true)
    (hstop : ∀ c, stop c = true → ends c = true) : Whole stop fun g => [word text g] :=
  (whole_single (isName_reserved h)).weaken hstop

/-- A keyword in front of an expression that may be absent. -/
theorem whole_optional {stop : Char → Bool} {text : String} (h : isReserved text = true)
    {t : Option Tree} (ht : ∀ e ∈ t, e.IsExpression Faithful)
    (hstop : ∀ c, stop c = true → closes c = true) :
    Whole stop fun g => word text g :: optionalPhrase t .blank := by
  rcases t with _ | t
  · exact whole_alone h fun c hc => closes_ends (hstop c hc)
  · exact ((whole_phrase (ht t rfl)).weaken hstop).behind (isName_reserved h)

/-- A parenthesized list behind a name. -/
theorem whole_named {keyword name : String} (hkeyword : isReserved keyword = true)
    (hname : IsName name) {inner : List Lexeme} (hfits : Fits inner ')') (hlevel : Inline inner) :
    Whole endsHead fun g => word keyword g :: word name .blank :: enclosed inner {} := by
  have hinner := sound_enclosed endsHead hfits
  refine whole_word (isName_reserved hkeyword) (fun c hc => ⟨?_, ' ', ⟨_, rfl⟩, by decide⟩) ?_
  · exact fits_cons (leads_word Gap.plain_blank hname (c := '(') (by decide)) ⟨_, rfl⟩
      (hinner.fits {} Gap.simple_empty c hc)
  · exact inline_cons.mpr ⟨inline_word unbroken_blank (unbroken_name hname),
      level_enclosed hlevel {} unbroken_empty⟩

/-- A phrase, a word or a mark between blanks, and another phrase. -/
theorem Whole.between {stop stop' : Char → Bool} {p q : Phrase} {l : Lexeme}
    (hp : Whole stop p) (hq : Whole stop' q) (hstop : stop ' ' = true)
    (hgap : l.gap = .blank) (hl : ∀ rest, l.Leads (' ' :: rest)) (htext : Unbroken l.text.toList) :
    Whole stop' fun g => p g ++ l :: q .blank := by
  refine hp.append (d := ' ') hstop (fun c => ?_) (fun c hc => ?_) (inline_cons.mpr ⟨?_, ?_⟩)
  · exact ⟨_, by rw [spell_cons, Lexeme.chars, hgap]; rfl⟩
  · exact fits_cons hl (hq.heads_blank c) (hq.fits .blank Gap.simple_blank c hc)
  · rw [Lexeme.chars, hgap]
    exact unbroken_append.mpr ⟨unbroken_blank, htext⟩
  · exact hq.level .blank unbroken_blank

/-- An item of a `with` statement. -/
def itemPhrase (item : WithItem Tree) : Phrase :=
  aliased (phrase item.context) (item.asName.map fun name => dotted name.toList)

theorem whole_item {item : WithItem Tree} (hcontext : item.context.IsExpression Faithful)
    (hname : ∀ name ∈ item.asName, IsDotted name.toList) : Whole closes (itemPhrase item) := by
  refine whole_aliased (whole_phrase hcontext) fun q hq => ?_
  obtain ⟨name, hmem, rfl⟩ := Option.map_eq_some_iff.mp hq
  exact whole_dotted (hname name hmem)

/-- The head of an `except` clause. -/
theorem whole_handler {exception : Option Tree} {name : Option String}
    (hexception : ∀ e ∈ exception, e.IsExpression Faithful)
    (hname : ∀ n ∈ name, IsDotted n.toList) :
    Whole endsHead (aliased (fun g => word "except" g :: optionalPhrase exception .blank)
      (name.map fun n => dotted n.toList)) := by
  refine (whole_aliased (whole_optional (by decide) hexception fun _ hc => hc) ?_).weaken
    fun _ => closes_endsHead
  intro q hq
  obtain ⟨n, hmem, rfl⟩ := Option.map_eq_some_iff.mp hq
  exact whole_dotted (hname n hmem)

/-- The lines of faithful statements are sound. -/
theorem sheet_lines {t : Tree} (h : t.IsStatement Faithful) :
    Sheet (lines t) ∧ ∀ ls ∈ branch t, Sheet ls := by
  have hno {t : Tree} (hsheet : Sheet (lines t)) (hbranch : branch t = none) :
      Sheet (lines t) ∧ ∀ ls ∈ branch t, Sheet ls :=
    ⟨hsheet, fun ls hls => by rw [hbranch] at hls; cases hls⟩
  induction h with
  | @functionDef span name params body hok hname hparams hbody ih =>
    refine hno ?_ (branch_mk span _)
    rw [lines_mk]
    refine sheet_headed (whole_named (by decide) hname.1 ?_ ?_) hok fun t ht => (ih t ht).1
    · refine @fits_row ends _ (fun p hp => ?_) (by decide) _ Gap.simple_empty _ (by decide)
      obtain ⟨param, hparam, rfl⟩ := List.mem_map.mp hp
      exact (sound_word (hparams param hparam).1).toSpelled
    · exact level_names (fun p hp => (hparams p hp).1) {} unbroken_empty
  | @returnStmt span value hok hvalue =>
    refine hno ?_ (branch_mk span _)
    rw [lines_mk]
    exact sheet_single (whole_optional (by decide) hvalue fun _ => closes_endsLine)
  | @assign span target value hok htarget hleft hvalue =>
    refine hno ?_ (branch_mk span _)
    rw [lines_mk]
    refine sheet_single ((whole_phrase htarget).between
      ((whole_phrase hvalue).weaken fun _ => closes_endsLine) (by decide) rfl
      (fun rest => leads_operator Gap.plain_blank (by decide) (by decide) (by decide) rest)
      (by decide))
  | @augAssign span target value op hok htarget hleft hvalue =>
    refine hno ?_ (branch_mk span _)
    rw [lines_mk]
    have hop : op.symbol ++ "=" ∈ marks ∧ op.symbol ++ "=" ≠ "." ∧
        Unbroken (op.symbol ++ "=").toList := by cases op <;> decide
    refine sheet_single ((whole_phrase htarget).between
      ((whole_phrase hvalue).weaken fun _ => closes_endsLine) (by decide) rfl
      (fun rest => leads_operator Gap.plain_blank hop.1 hop.2.1 (by decide) rest) hop.2.2)
  | @exprStmt span value hok hvalue =>
    refine hno ?_ (branch_mk span _)
    rw [lines_mk]
    exact sheet_single ((whole_phrase hvalue).weaken fun _ => closes_endsLine)
  | @ifStmt span test body orelse hok htest hbody horelse ihbody ihorelse =>
    have hsheet {keyword : String} (hkeyword : isReserved keyword = true) :=
      sheet_conditional (isName_reserved hkeyword) (whole_phrase htest) hok
        (fun t ht => (ihbody t ht).1) ihorelse
    rw [lines_mk, branch_mk]
    refine ⟨hsheet (by decide), fun ls hls => ?_⟩
    rw [← Option.some.inj hls]
    exact hsheet (by decide)
  | @whileLoop span test body hok htest hbody ih =>
    refine hno ?_ (branch_mk span _)
    rw [lines_mk]
    exact sheet_headed (((whole_phrase htest).weaken fun _ => closes_endsHead).behind
      (isName_reserved (by decide))) hok fun t ht => (ih t ht).1
  | @forLoop span target iter body hok htarget hleft hiter hbody ih =>
    refine hno ?_ (branch_mk span _)
    rw [lines_mk]
    have hin : IsName "in" := isName_reserved (by decide)
    have hparts := (whole_phrase htarget).between
      ((whole_phrase hiter).weaken fun _ => closes_endsHead) (l := word "in" .blank) (by decide) rfl
      (fun rest => leads_word Gap.plain_blank hin (by decide) rest) (by decide)
    exact sheet_headed (hparts.behind (isName_reserved (by decide))) hok fun t ht => (ih t ht).1
  | passStmt hok =>
    refine hno ?_ (branch_mk _ _)
    rw [lines_mk]
    exact sheet_single (whole_alone (by decide) fun _ => endsLine_ends)
  | breakStmt hok =>
    refine hno ?_ (branch_mk _ _)
    rw [lines_mk]
    exact sheet_single (whole_alone (by decide) fun _ => endsLine_ends)
  | continueStmt hok =>
    refine hno ?_ (branch_mk _ _)
    rw [lines_mk]
    exact sheet_single (whole_alone (by decide) fun _ => endsLine_ends)
  | @tryStmt span body finalbody handlers hok hbody hexceptions hnames hhandlers hfinal ihbody
      ihhandlers ihfinal =>
    refine hno ?_ (branch_mk span _)
    rw [lines_mk]
    have htry := sheet_headed (@whole_alone _ "try" (by decide) fun _ => endsHead_ends) hok.1
      fun t ht => (ihbody t ht).1
    refine sheet_append (sheet_append htry fun line hline => ?_) fun line hline => ?_
    · rw [List.flatMap_map] at hline
      obtain ⟨c, hc, hline⟩ := List.mem_flatMap.mp hline
      exact (sheet_headed (whole_handler (hexceptions c hc) (hok.2 c hc).2) (hok.2 c hc).1
        fun t ht => (ihhandlers c hc t ht).1).sound line hline
    · rcases finalbody with _ | ⟨first, rest⟩
      · exact absurd hline List.not_mem_nil
      · exact (@sheet_headed _ (@whole_alone _ "finally" (by decide) fun _ => endsHead_ends)
          (first :: rest) (List.cons_ne_nil _ _) fun t ht => (ihfinal t ht).1).sound line hline
  | @withStmt span items body hok hne hitems hbody ih =>
    refine hno ?_ (branch_mk span _)
    rw [lines_mk]
    obtain ⟨hbodyne, hnames, -⟩ := hok
    have hrow : Whole closes (row ((items.map (WithItem.map draft)).map fun item =>
        aliased item.context.phrase (item.asName.map fun name => dotted name.toList))) := by
      refine whole_row (by simpa using hne) (fun p hp => ?_) (by decide)
      rw [List.map_map] at hp
      obtain ⟨item, hitem, rfl⟩ := List.mem_map.mp hp
      exact whole_item (hitems item hitem) (hnames item hitem)
    exact sheet_headed ((hrow.weaken fun _ => closes_endsHead).behind (isName_reserved (by decide)))
      hbodyne fun t ht => (ih t ht).1
  | @raiseStmt span exception hok hexception =>
    refine hno ?_ (branch_mk span _)
    rw [lines_mk]
    exact sheet_single (whole_optional (by decide) hexception fun _ => closes_endsLine)
  | @classDef span name bases body hok hname hbases hbody ih =>
    refine hno ?_ (branch_mk span _)
    rw [lines_mk]
    refine sheet_headed ?_ hok fun t ht => (ih t ht).1
    rcases bases with _ | ⟨first, rest⟩
    · exact ((whole_single hname.1).weaken fun _ => endsHead_ends).behind
        (isName_reserved (by decide))
    · refine whole_named (by decide) hname.1 ?_ ?_
      · refine @fits_row closes _ (fun p hp => ?_) (by decide) _ Gap.simple_empty _ (by decide)
        rw [List.map_map] at hp
        obtain ⟨base, hbase, rfl⟩ := List.mem_map.mp hp
        exact (whole_phrase (hbases base hbase)).toSpelled
      · rw [List.map_map]
        exact level_items (fun base hbase => level_phrase (hbases base hbase)) {} unbroken_empty
  | @importStmt span source names hok hne =>
    refine hno ?_ (branch_mk span _)
    rw [lines_mk]
    obtain ⟨hnames, -, hsource⟩ := hok
    have hrow : Whole endsLine (row (names.map imported)) := by
      refine (@whole_row closesSlice _ (by simpa using hne) (fun p hp => ?_)
        (by decide)).weaken fun c hc => ?_
      · obtain ⟨name, hname, rfl⟩ := List.mem_map.mp hp
        exact whole_imported (hnames name hname)
      · obtain rfl : c = '\n' := of_decide_eq_true hc
        decide
    have himport : IsName "import" := isName_reserved (by decide)
    rcases source with _ | source
    · exact sheet_single (hrow.behind himport)
    · refine sheet_single (((whole_module (hsource source rfl).1).between hrow
        (l := word "import" .blank) (by decide) rfl
        (fun rest => leads_word Gap.plain_blank himport (by decide) rest) (by decide)).behind
        (isName_reserved (by decide)))

/-! ## Rendition -/

theorem stacked_append (width : Nat) {as bs : List Line} (has : as ≠ []) (hbs : bs ≠ []) :
    stacked width (as ++ bs) = stacked width as ++ "\n" ++ stacked width bs := by
  rw [stacked_eq, stacked_eq, stacked_eq, List.map_append]
  exact ofList_printed_append (by simpa using has) (by simpa using hbs)

theorem stacked_single (width : Nat) (p : Phrase) : stacked width [.here p] = written p := by
  rw [stacked, List.map_singleton, joinLines_singleton]
  rfl

/-- A text in front of the first line is one in front of all lines. -/
theorem stacked_head (width : Nat) {start : String} {p q : Phrase}
    (h : spell (q {}) = start.toList ++ spell (p {})) (rest : List Line) :
    stacked width (.here q :: rest) = start ++ stacked width (.here p :: rest) := by
  have hrow : (Line.here q).row = ⟨0, start.toList ++ spell (p {})⟩ := congrArg (Row.mk 0) h
  rw [stacked_eq, stacked_eq, List.map_cons, List.map_cons, hrow, printed_behind,
    String.ofList_append, String.ofList_toList]
  rfl

theorem headed_stacked (width : Nat) {head : String} {p : Phrase} {body : List Tree}
    (hhead : head.toList = spell (p {})) (hne : body ≠ [])
    (h : ∀ t ∈ body, Sheet (lines t)) :
    headed (blanks width) head (body.map fun t => stacked width (lines t)) =
      stacked width (headedLines p (body.map draft)) := by
  have hsuite : suiteLines (body.map draft) ≠ [] := by
    obtain ⟨first, rest, rfl⟩ := List.exists_cons_of_ne_nil hne
    obtain ⟨line, more, hfirst⟩ := List.exists_cons_of_ne_nil (h first List.mem_cons_self).ne_nil
    rw [suiteLines_eq hne, List.flatMap_cons, hfirst]
    exact List.cons_ne_nil _ _
  have hcolon : head ++ ":" = written fun g => p g ++ [mark ":" {}] := by
    rw [← String.toList_inj, String.toList_append, toList_written, hhead, spell_append]
    rfl
  rw [headed_eq, suite_stacked width hne fun t ht => (h t ht).sound, headedLines,
    ← List.singleton_append, stacked_append width (List.cons_ne_nil _ _) hsuite, stacked_single,
    hcolon]

/-- As a further branch, a conditional statement starts with another word. -/
theorem stacked_branch (width : Nat) {t : Tree} {ls : List Line} (h : branch t = some ls) :
    stacked width ls = "el" ++ stacked width (lines t) := by
  rcases t with ⟨span, node⟩
  rw [branch_mk] at h
  rw [lines_mk]
  cases node with
  | ifStmt test body orelse =>
    rw [← Option.some.inj h]
    exact stacked_head width rfl _
  | _ => cases h

/-- A word in front of a phrase. -/
theorem toList_behind {stop : Char → Bool} {start keyword : String} {p : Phrase}
    (hstart : start.toList = keyword.toList ++ [' ']) (h : Spelled stop p) :
    (start ++ written p).toList = spell (word keyword {} :: p .blank) := by
  simp only [String.toList_append, toList_written, spell_cons, chars_word, h.spell_blank, hstart,
    List.append_assoc, List.singleton_append]

theorem blank_dotted {name : String} (h : IsDotted name.toList) :
    spell (dotted name.toList .blank) = ' ' :: name.toList := by
  rw [(whole_dotted h).spell_blank, spell_dotted]

theorem written_item {item : WithItem Tree} (h : ∀ name ∈ item.asName, IsDotted name.toList) :
    written (itemPhrase item) = withAlias (written (phrase item.context)) item.asName :=
  written_aliased fun name hname => blank_dotted (h name hname)

/-- Texts of lines one below another are the text of all lines. -/
theorem intercalate_stacked (width : Nat) {first : List Line} {rest : List (List Line)}
    (hfirst : first ≠ []) (hrest : ∀ ls ∈ rest, ls ≠ []) :
    "\n".intercalate (stacked width first :: rest.map (stacked width)) =
      stacked width (first ++ rest.flatten) := by
  have hne : ∀ ls ∈ first :: rest, ls ≠ [] := List.forall_mem_cons.mpr ⟨hfirst, hrest⟩
  have hrows : [] ∉ (first :: rest).map (List.map Line.row) := by
    intro hmem
    obtain ⟨ls, hls, hnil⟩ := List.mem_map.mp hmem
    exact hne ls hls (List.map_eq_nil_iff.mp hnil)
  have htext := @intercalate_printed width ((first :: rest).map (List.map Line.row))
    (List.cons_ne_nil _ _) hrows
  rw [← List.map_flatten, ← stacked_eq, List.map_map, List.flatten_cons] at htext
  simpa only [Function.comp_def, ← stacked_eq, List.map_cons] using htext

/-- The lines of the final suite of a `try` statement, if it has one. -/
def finalLines (finalbody : List Tree) : List (List Line) :=
  if finalbody.isEmpty then []
  else [headedLines (fun g => [word "finally" g]) (finalbody.map draft)]

theorem isIf_visit {m : Type → Type} [Monad m] [MonadExceptOf Unimplemented m]
    (r : Rule m String) (t : Tree) : isIf (Tree.visit r t) = (branch t).isSome := by
  rcases t with ⟨span, node⟩
  rw [Tree.visit_mk, isIf, Visit.node, Node.kind_map, branch_mk]
  cases node <;> rfl

section Run

variable {m : Type → Type} [Monad m] [LawfulMonad m] [MonadExceptOf Unimplemented m] {width : Nat}

/-- A statement is rendered as the text that the rule gives for it. -/
theorem run_of_lines {span : Span} {node : Node Tree} {text : String} {ls : List Line}
    (h : rule (m := m) (blanks width) span (node.map (Tree.visit (rule (blanks width)))) =
      pure (some text))
    (hlines : lines (.mk span node) = ls) (htext : text = stacked width ls) :
    (Tree.visit (m := m) (rule (blanks width)) (.mk span node)).run =
      pure (stacked width (lines (.mk span node))) := by
  rw [run_eq_pure h, hlines, htext]

/-- A statement of one line is rendered as the text of its phrase. -/
theorem run_of_line {span : Span} {node : Node Tree} {text : String} {p : Phrase}
    (h : rule (m := m) (blanks width) span (node.map (Tree.visit (rule (blanks width)))) =
      pure (some text))
    (hlines : lines (.mk span node) = [.here p]) (htext : text.toList = spell (p {})) :
    (Tree.visit (m := m) (rule (blanks width)) (.mk span node)).run =
      pure (stacked width (lines (.mk span node))) := by
  refine run_of_lines h hlines ?_
  rw [stacked_single, ← String.toList_inj, toList_written, htext]

/-- What a clause of a `try` statement is rendered as. -/
def runHandler (width : Nat) (handler : Handler (Visit m String)) : m String := do
  let exception ← handler.exception.toList.mapM Visit.run
  let head := withAlias (String.join ("except" :: exception.map (" " ++ ·))) handler.name
  return headed (blanks width) head (← runAll handler.body)

theorem run_handler {handler : Handler Tree}
    (hexception : ∀ e ∈ handler.exception, e.IsExpression Faithful)
    (hname : ∀ n ∈ handler.name, IsDotted n.toList) (hne : handler.body ≠ [])
    (hrun : ∀ t ∈ handler.body,
      (Tree.visit (m := m) (rule (blanks width)) t).run = pure (stacked width (lines t)))
    (hsheets : ∀ t ∈ handler.body, Sheet (lines t)) :
    runHandler (m := m) width (handler.map (Tree.visit (rule (blanks width)))) =
      pure (stacked width (handlerLines (handler.map draft))) := by
  rcases handler with ⟨span, exception, name, body⟩
  have hexceptions : (exception.map (Tree.visit (m := m) (rule (blanks width)))).toList.mapM
      Visit.run = pure (exception.toList.map fun e => written (phrase e)) := by
    rcases exception with _ | e
    · rfl
    · exact runAll_visit _ fun e he => run_phrase (hexception e (Option.mem_toList.mp he))
  simp only [runHandler, Handler.map, hexceptions, runAll_visit _ hrun, pure_bind]
  congr 1
  refine headed_stacked width ?_ hne hsheets
  have hhead : written (fun g => word "except" g :: optionalPhrase exception .blank) =
      String.join ("except" :: (exception.toList.map fun e => written (phrase e)).map (" " ++ ·)) := by
    rw [← String.toList_inj, toList_written]
    rcases exception with _ | e
    · rfl
    · simp only [optionalPhrase, Option.map_some, optional, draft_phrase, Option.toList_some,
        List.map_cons, List.map_nil, String.join_cons, String.join_nil, String.toList_append,
        toList_written, spell_cons, chars_word,
        (whole_phrase (hexception e rfl)).spell_blank]
      exact congrArg _ (congrArg _ (List.append_nil _).symm)
  rw [← hhead, ← written_aliased fun n hn => blank_dotted (hname n hn), toList_written]
  rfl

/-- Statements are rendered as their lines. -/
theorem run_lines {t : Tree} (h : t.IsStatement Faithful) :
    (Tree.visit (m := m) (rule (blanks width)) t).run = pure (stacked width (lines t)) := by
  have hsheets {ts : List Tree} (hts : ∀ t ∈ ts, t.IsStatement Faithful) :
      ∀ t ∈ ts, Sheet (lines t) := fun t ht => (sheet_lines (hts t ht)).1
  induction h with
  | @functionDef span name params body hok hname hparams hbody ih =>
    refine run_of_lines (by
      simp only [rule, Node.map, runAll_visit _ ih, pure_bind]; rfl) (lines_mk span _) ?_
    refine headed_stacked width ?_ hok (hsheets hbody)
    simp only [String.toList_append,
      listing_names fun p hp => (sound_word (hparams p hp).1).toSpelled, spell_cons, chars_word,
      chars_word_blank, spell_enclosed]
    simp only [List.append_assoc, List.cons_append]
    rfl
  | @returnStmt span value hok hvalue =>
    rcases value with _ | value
    · exact run_of_line rfl (lines_mk span _) rfl
    · refine run_of_line (by
        simp only [rule, Node.map, Option.map_some, run_phrase (hvalue value rfl), pure_bind]; rfl)
        (lines_mk span _) ?_
      exact toList_behind rfl (whole_phrase (hvalue value rfl)).toSpelled
  | @assign span target value hok htarget hleft hvalue =>
    refine run_of_line (by
      simp only [rule, Node.map, run_phrase htarget, run_phrase hvalue, pure_bind]; rfl)
      (lines_mk span _) ?_
    simp only [String.toList_append, toList_written, draft_phrase, spell_append, spell_cons,
      chars_mark_blank, (whole_phrase hvalue).spell_blank, List.append_assoc]
    rfl
  | @augAssign span target value op hok htarget hleft hvalue =>
    refine run_of_line (by
      simp only [rule, Node.map, run_phrase htarget, run_phrase hvalue, pure_bind]; rfl)
      (lines_mk span _) ?_
    simp only [String.toList_append, toList_written, draft_phrase, spell_append, spell_cons,
      chars_mark_blank, (whole_phrase hvalue).spell_blank, List.append_assoc, List.cons_append]
    rfl
  | @exprStmt span value hok hvalue =>
    refine run_of_lines (by
      simp only [rule, Node.map, run_phrase hvalue, pure_bind]; rfl) (lines_mk span _) ?_
    exact (stacked_single width (phrase value)).symm
  | @ifStmt span test body orelse hok htest hbody horelse ihbody ihorelse =>
    have hif := @headed_stacked width ("if " ++ written (phrase test))
      (fun g => word "if" g :: phrase test .blank) _
      (toList_behind rfl (whole_phrase htest).toSpelled) hok (hsheets hbody)
    have hrun := runAll_visit (m := m) _ ihbody
    rcases orelse with _ | ⟨first, _ | ⟨second, rest⟩⟩
    · refine run_of_lines (by
        simp only [rule, Node.map, run_phrase htest, hrun, pure_bind, List.map_nil]; rfl)
        (lines_mk span _) ?_
      exact hif.trans (congrArg (stacked width) (List.append_nil _).symm)
    · have hfirst := ihorelse first List.mem_cons_self
      obtain ⟨hsheet, hbranch⟩ := sheet_lines (horelse first List.mem_cons_self)
      have hsplit := conditionalLines_single "if" (draft test) (body.map draft) first
      rcases hcase : branch first with _ | ls
      · have hisIf : isIf (Tree.visit (m := m) (rule (blanks width)) first) = false := by
          rw [isIf_visit, hcase, Option.isSome_none]
        have helse := @headed_stacked width "else" (fun g => [word "else" g])
          [first] rfl (List.cons_ne_nil _ _) fun t ht => by
            rw [List.mem_singleton.mp ht]
            exact hsheet
        rw [hcase, Option.getD_none] at hsplit
        refine run_of_lines (by
          simp only [rule, Node.map, run_phrase htest, hrun, pure_bind, List.map_singleton, hfirst,
            hisIf]
          rfl) ((lines_mk span _).trans hsplit) ?_
        rw [stacked_append width (headedLines_ne_nil _ _) (headedLines_ne_nil _ _)]
        exact congr (congrArg _ (congrArg (· ++ "\n") hif)) helse
      · have hisIf : isIf (Tree.visit (m := m) (rule (blanks width)) first) = true := by
          rw [isIf_visit, hcase, Option.isSome_some]
        have hword (text : String) : text ++ "\n" ++ "el" = text ++ "\nel" := by
          rw [String.append_assoc]
          rfl
        rw [hcase, Option.getD_some] at hsplit
        refine run_of_lines (by
          simp only [rule, Node.map, run_phrase htest, hrun, pure_bind, List.map_singleton, hfirst,
            hisIf]
          rfl) ((lines_mk span _).trans hsplit) ?_
        rw [stacked_append width (headedLines_ne_nil _ _) (hbranch ls hcase).ne_nil,
          stacked_branch width hcase, ← String.append_assoc, hword]
        exact congrArg (· ++ "\nel" ++ stacked width (lines first)) hif
    · have hrest := runAll_visit (m := m) _ ihorelse
      have helse := @headed_stacked width "else" (fun g => [word "else" g])
        (first :: second :: rest) rfl (List.cons_ne_nil _ _) (hsheets horelse)
      simp only [List.map_cons] at hrest
      refine run_of_lines (by
        simp only [rule, Node.map, run_phrase htest, hrun, pure_bind, List.map_cons, hrest]; rfl)
        (lines_mk span _) ?_
      refine Eq.trans ?_
        (stacked_append width (headedLines_ne_nil _ _) (headedLines_ne_nil _ _)).symm
      exact congr (congrArg _ (congrArg (· ++ "\n") hif)) helse
  | @whileLoop span test body hok htest hbody ih =>
    refine run_of_lines (by
      simp only [rule, Node.map, run_phrase htest, runAll_visit _ ih, pure_bind]; rfl)
      (lines_mk span _) (headed_stacked width ?_ hok (hsheets hbody))
    exact toList_behind rfl (whole_phrase htest).toSpelled
  | @forLoop span target iter body hok htarget hleft hiter hbody ih =>
    refine run_of_lines (by
      simp only [rule, Node.map, run_phrase htarget, run_phrase hiter, runAll_visit _ ih, pure_bind]
      rfl) (lines_mk span _) (headed_stacked width ?_ hok (hsheets hbody))
    simp only [String.toList_append, toList_written, draft_phrase, spell_append, spell_cons,
      chars_word, chars_word_blank, (whole_phrase htarget).spell_blank,
      (whole_phrase hiter).spell_blank, List.append_assoc]
    rfl
  | passStmt hok => exact run_of_line rfl (lines_mk _ _) rfl
  | breakStmt hok => exact run_of_line rfl (lines_mk _ _) rfl
  | continueStmt hok => exact run_of_line rfl (lines_mk _ _) rfl
  | @tryStmt span body finalbody handlers hok hbody hexceptions hnames hhandlers hfinal ihbody
      ihhandlers ihfinal =>
    have hrun : ∀ c ∈ handlers, runHandler (m := m) width
        (c.map (Tree.visit (rule (blanks width)))) =
        pure (stacked width (handlerLines (c.map draft))) := fun c hc =>
      run_handler (hexceptions c hc) (hok.2 c hc).2 (hok.2 c hc).1 (ihhandlers c hc)
        (hsheets (hhandlers c hc))
    have hclauses := mapM_eq_pure (m := m) (f := Handler.map (Tree.visit (rule (blanks width))))
      (g := runHandler width) hrun
    have htry := @headed_stacked width "try" (fun g => [word "try" g]) _ rfl hok.1
      (hsheets hbody)
    have hlast : (if (finalbody.map fun t => stacked width (lines t)).isEmpty then [] else
        [headed (blanks width) "finally" (finalbody.map fun t => stacked width (lines t))]) =
        (finalLines finalbody).map (stacked width) := by
      rcases finalbody with _ | ⟨first, rest⟩
      · rfl
      · exact congrArg (fun text => [text]) (@headed_stacked width "finally"
          (fun g => [word "finally" g]) _ rfl (List.cons_ne_nil first rest) (hsheets hfinal))
    refine run_of_lines ?_ (lines_mk span _) (show "\n".intercalate
      (stacked width (headedLines (fun g => [word "try" g]) (body.map draft)) ::
        (handlers.map (fun c => handlerLines (c.map draft)) ++
          finalLines finalbody).map (stacked width)) = _ from ?_)
    · simp only [rule, Node.map, runAll_visit _ ihbody, runAll_visit _ ihfinal, pure_bind, htry,
        hlast]
      refine (congrArg (· >>= _) hclauses).trans ?_
      simp only [pure_bind, List.map_append, List.map_map, List.cons_append]
      rfl
    · refine (intercalate_stacked width (List.cons_ne_nil _ _) fun ls hls => ?_).trans ?_
      · rcases List.mem_append.mp hls with hls | hls
        · obtain ⟨c, hc, rfl⟩ := List.mem_map.mp hls
          exact List.cons_ne_nil _ _
        · rcases finalbody with _ | ⟨first, rest⟩
          · exact absurd hls List.not_mem_nil
          · rw [List.mem_singleton.mp hls]
            exact List.cons_ne_nil _ _
      · have hfinals : (finalLines finalbody).flatten = if (finalbody.map draft).isEmpty then []
            else headedLines (fun g => [word "finally" g]) (finalbody.map draft) := by
          rcases finalbody with _ | ⟨first, rest⟩
          · rfl
          · exact List.append_nil _
        have hclauses : (handlers.map fun c => handlerLines (c.map draft)).flatten =
            (handlers.map (Handler.map draft)).flatMap handlerLines := by
          rw [List.flatMap_map, List.flatMap_def]
        rw [List.flatten_append, ← List.append_assoc, hfinals, hclauses]
        rfl
  | @withStmt span items body hok hne hitems hbody ih =>
    obtain ⟨hbodyne, hnames, -⟩ := hok
    have hitem : (items.map (WithItem.map (Tree.visit (m := m) (rule (blanks width))))).mapM
        (fun item => do return withAlias (← item.context.run) item.asName) =
        pure (items.map fun item => written (itemPhrase item)) := by
      refine mapM_eq_pure fun item hitem => ?_
      simp only [WithItem.map, run_phrase (hitems item hitem), pure_bind,
        written_item (hnames item hitem)]
    have hwhole : ∀ item ∈ items, Whole closes (itemPhrase item) :=
      fun item hitem => whole_item (hitems item hitem) (hnames item hitem)
    have hblank := @spell_row_blank _ (items.map itemPhrase) (by simpa using hne)
      fun p hp => by
        obtain ⟨item, hitem, rfl⟩ := List.mem_map.mp hp
        exact (hwhole item hitem).toSpelled
    refine run_of_lines (by
      simp only [rule, Node.map, hitem, runAll_visit _ ih, pure_bind]; rfl)
      (lines_mk span _) (headed_stacked width ?_ hbodyne (hsheets hbody))
    rw [List.map_map]
    change _ = spell (word "with" {} :: row (items.map itemPhrase) .blank)
    simp only [String.toList_append, spell_cons, chars_word, hblank,
      listing_spelled fun item hitem => (hwhole item hitem).toSpelled]
    rfl
  | @raiseStmt span exception hok hexception =>
    rcases exception with _ | exception
    · exact run_of_line rfl (lines_mk span _) rfl
    · refine run_of_line (by
        simp only [rule, Node.map, Option.map_some, run_phrase (hexception exception rfl), pure_bind]
        rfl) (lines_mk span _) ?_
      exact toList_behind rfl (whole_phrase (hexception exception rfl)).toSpelled
  | @classDef span name bases body hok hname hbases hbody ih =>
    have hrun := runAll_visit (blanks width) fun b hb => run_phrase (m := m) (hbases b hb)
    refine run_of_lines (by
      simp only [rule, Node.map, hrun, runAll_visit _ ih, pure_bind]; rfl)
      (lines_mk span _) (headed_stacked width ?_ hok (hsheets hbody))
    by_cases hempty : bases = []
    · subst hempty
      simp only [List.map_nil, List.isEmpty_nil, if_true, String.toList_append, spell_cons,
        chars_word, chars_word_blank, spell_nil, List.append_nil]
      rfl
    · have hnames : (bases.map fun b => written (phrase b)).isEmpty = false := by
        rwa [List.isEmpty_eq_false_iff, ne_eq, List.map_eq_nil_iff]
      have hdrafts : (bases.map draft).isEmpty = false := by
        rwa [List.isEmpty_eq_false_iff, ne_eq, List.map_eq_nil_iff]
      simp only [hnames, hdrafts, Bool.false_eq_true, if_false, map_phrase_draft,
        String.toList_append, spell_cons, chars_word, chars_word_blank, spell_enclosed,
        listing_spelled fun b hb => (whole_phrase (hbases b hb)).toSpelled]
      simp only [List.append_assoc, List.cons_append]
      rfl
  | @importStmt span source names hok hne =>
    obtain ⟨hnames, -, hsource⟩ := hok
    have hrow := listing_spelled fun name hname => (whole_imported (hnames name hname)).toSpelled
    have hblank := @spell_row_blank _ (names.map imported) (by simpa using hne)
      fun p hp => by
        obtain ⟨name, hname, rfl⟩ := List.mem_map.mp hp
        exact (whole_imported (hnames name hname)).toSpelled
    rw [List.map_congr_left fun name hname => written_imported (hnames name hname)] at hrow
    rcases source with _ | source
    · refine run_of_line rfl (lines_mk span _) ?_
      simp only [String.toList_append, hrow, spell_cons, chars_word, hblank]
      rfl
    · refine run_of_line rfl (lines_mk span _) ?_
      have hmodule := whole_module (hsource source rfl).1
      simp only [String.toList_append, hrow, spell_cons, spell_append, chars_word,
        chars_word_blank, hblank, hmodule.spell_blank, spell_module, List.append_assoc,
        List.cons_append]
      rfl

end Run

end Rendition.Python
