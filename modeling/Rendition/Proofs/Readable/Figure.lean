import Rendition.Proofs.Python.Wording
import Rendition.Proofs.Readable.Brackets
import Rendition.Proofs.Readable.Legible

/-!
# The figure of an expression

The text of an expression with its brackets matched. Everything between two brackets is one glyph of
the figure, so that what separates the parts of a node stands outside of all brackets, and what
separates parts of its parts inside of some.

## Main definitions

* `Readable.Figure`: What an expression is written as, and what as an index.
* `Readable.depict`: The glyphs of a node, from the figures of its children.
* `Readable.figure`: The figure of a tree.
* `Readable.keywordText`, `Readable.entryText`: The glyphs of keyword arguments and entries.
* `Readable.Depicted`: The figure of a tree can be read and spells its text.

## Theorems

* `figure_index`: As an index a tuple is written without its brackets.
* `Legible.depicted`: Legible trees are depicted.
-/

namespace Rendition.Python.Readable

/-- What an expression is written as. -/
structure Figure where
  text : List Glyph
  /-- The glyphs as an index: a tuple needs no brackets there. -/
  index : List Glyph

/-- Characters as glyphs. -/
def word (text : String) : List Glyph :=
  text.toList.map .char

/-- Glyphs one blank apart. -/
def spaced (parts : List (List Glyph)) : List Glyph :=
  [.char ' '].intercalate parts

/-- Glyphs with commas between them. -/
def listed (items : List (List Glyph)) : List Glyph :=
  [.char ',', .char ' '].intercalate items

/-- The words of each operator with the operand after them. -/
def chain : List Comparison → List (List Glyph) → List (List Glyph)
  | op :: ops, operand :: operands => op.words.map word ++ operand :: chain ops operands
  | _, _ => []

/-- What stands between the parentheses of a function without a name, before the colon. -/
def lambdaHead (params : List String) : String :=
  if params.isEmpty then "lambda" else "lambda " ++ listing params

/-- The glyphs of an expression, from the figures of its children. -/
def depict : Node Figure → List Glyph
  | .ident id => word id
  | .constant (.str value) => [.literal (value.toList.flatMap Text.quoteChar)]
  | .constant value => word (constantText value)
  | .binOp left op right => [.group .round (spaced [left.text, word op.symbol, right.text])]
  | .unaryOp op operand =>
    [.group .round (word op.symbol ++ ((if op = .not then [.char ' '] else []) ++ operand.text))]
  | .compare left ops comparators =>
    [.group .round (spaced (left.text :: chain ops (comparators.map Figure.text)))]
  | .boolOp op values =>
    [.group .round ((.char ' ' :: (word op.symbol ++ [.char ' '])).intercalate
      (values.map Figure.text))]
  | .call func args keywords =>
    let keywords := keywords.map fun keyword => word keyword.name ++ .char '=' :: keyword.value.text
    func.text ++ [.group .round (listed (args.map Figure.text ++ keywords))]
  | .attr value name => value.text ++ .char '.' :: word name
  | .subscript value index => value.text ++ [.group .square index.index]
  | .slice lower upper step =>
    (lower.map Figure.text).getD [] ++ .char ':' :: ((upper.map Figure.text).getD [] ++
      (step.map fun step => .char ':' :: step.text).getD [])
  | .list items => [.group .square (listed (items.map Figure.text))]
  | .tuple [single] => [.group .round (single.text ++ [.char ','])]
  | .tuple items => [.group .round (listed (items.map Figure.text))]
  | .dict entries =>
    [.group .curly (listed (entries.map fun entry =>
      entry.1.text ++ .char ':' :: .char ' ' :: entry.2.text))]
  | .ifExp test body orelse =>
    [.group .round (spaced [body.text, word "if", test.text, word "else", orelse.text])]
  | .lambda params body =>
    [.group .round (word (lambdaHead params) ++ .char ':' :: .char ' ' :: body.text)]
  | _ => []

theorem depict_constant {value : Literal} (h : ∀ text, value ≠ .str text) :
    depict (.constant value) = word (constantText value) := by
  cases value <;> first | rfl | exact absurd rfl (h _)

/-- The glyphs of an expression as an index. -/
def depictIndex : Node Figure → List Glyph
  | .tuple (first :: rest) => listed ((first :: rest).map Figure.text)
  | node => depict node

/-- The figure of an expression. -/
def figure (t : Tree) : Figure :=
  t.fold fun _ node => ⟨depict node, depictIndex node⟩

theorem figure_mk (span : Span) (node : Node Tree) :
    figure (.mk span node) = ⟨depict (node.map figure), depictIndex (node.map figure)⟩ := by
  rw [figure, Tree.fold_mk]
  rfl

/-- As an index a tuple is written without its brackets. -/
theorem figure_index (index : Tree) :
    (figure index).index = listed (index.indices.map fun i => (figure i).text) := by
  rcases index with ⟨span, node⟩
  have hself : listed ([Tree.mk span node].map fun i => (figure i).text) =
      depict (node.map figure) := by
    rw [List.map_singleton, listed, List.intercalate_singleton, figure_mk]
  cases node with
  | tuple items =>
    rcases items with _ | ⟨first, rest⟩
    · rw [figure_mk]
      exact hself.symm
    · rw [figure_mk]
      simp only [Node.map, depictIndex, Tree.indices, Tree.node_mk, List.map_cons, List.map_map]
      rfl
  | _ =>
    rw [figure_mk]
    exact hself.symm

/-- The figure of an index that is a slice has a colon outside of all brackets. -/
theorem figure_slice (span : Span) (lower upper step : Option Tree) :
    (figure (.mk span (.slice lower upper step))).text =
      (lower.map fun e => (figure e).text).getD [] ++ .char ':' ::
        ((upper.map fun e => (figure e).text).getD [] ++
          (step.map fun e => .char ':' :: (figure e).text).getD []) := by
  rw [figure_mk]
  simp only [Node.map, depict, Option.map_map]
  rfl

/-- The glyphs of a keyword argument. -/
def keywordText (keyword : Keyword Tree) : List Glyph :=
  word keyword.name ++ .char '=' :: (figure keyword.value).text

/-- The glyphs of an entry. -/
def entryText (entry : Tree × Tree) : List Glyph :=
  (figure entry.1).text ++ .char ':' :: .char ' ' :: (figure entry.2).text

theorem figure_call (span : Span) (func : Tree) (args : List Tree)
    (keywords : List (Keyword Tree)) : (figure (.mk span (.call func args keywords))).text =
      (figure func).text ++ [.group .round
        (listed ((args.map figure).map Figure.text ++ keywords.map keywordText))] := by
  rw [figure_mk]
  simp only [Node.map, depict, List.map_map]
  rfl

theorem figure_dict (span : Span) (entries : List (Tree × Tree)) :
    (figure (.mk span (.dict entries))).text =
      [.group .curly (listed (entries.map entryText))] := by
  rw [figure_mk]
  simp only [Node.map, depict, List.map_map]
  rfl

theorem wording_index (indent : String) (index : Tree) : (wording indent index).index =
    listing (index.indices.map fun i => (wording indent i).text) := by
  rcases index with ⟨span, node⟩
  have hself : listing ([Tree.mk span node].map fun i => (wording indent i).text) =
      assemble indent (node.map (wording indent)) := by
    rw [List.map_singleton, wording_mk]
    exact String.intercalate_singleton
  cases node with
  | tuple items =>
    rcases items with _ | ⟨first, rest⟩
    · rw [wording_mk]
      exact hself.symm
    · rw [wording_mk]
      simp only [Node.map, assembleIndex, texts, Tree.indices, Tree.node_mk, List.map_cons,
        List.map_map]
      rfl
  | _ =>
    rw [wording_mk]
    exact hself.symm

/-! ## Texts of glyphs -/

theorem spell_word (text : String) : spell (word text) = text.toList :=
  spell_map_char text.toList

theorem toList_listing (items : List String) :
    (listing items).toList = [',', ' '].intercalate (items.map String.toList) :=
  String.toList_intercalate

theorem word_append (a b : String) : word (a ++ b) = word a ++ word b := by
  rw [word, String.toList_append, List.map_append]
  rfl

theorem word_listing (items : List String) : word (listing items) = listed (items.map word) := by
  rw [word, toList_listing, listed]
  induction items with
  | nil => rfl
  | cons item items ih =>
    rcases items with _ | ⟨next, items⟩
    · simp only [List.map_cons, List.map_nil, List.intercalate_singleton, word]
    · simp only [List.map_cons, List.intercalate_cons_cons, List.map_append] at ih ⊢
      rw [ih]
      rfl

theorem spell_round (inside : List Glyph) :
    spell [.group .round inside] = '(' :: (spell inside ++ [')']) := by
  rw [spell_group, spell_nil]
  rfl

theorem spell_square (inside : List Glyph) :
    spell [.group .square inside] = '[' :: (spell inside ++ [']']) := by
  rw [spell_group, spell_nil]
  rfl

theorem spell_curly (inside : List Glyph) :
    spell [.group .curly inside] = '\x7b' :: (spell inside ++ ['\x7d']) := by
  rw [spell_group, spell_nil]
  rfl

theorem spell_listed (items : List (List Glyph)) :
    spell (listed items) = [',', ' '].intercalate (items.map spell) := by
  rw [listed, spell_intercalate]
  simp only [spell_char, spell_nil]

theorem spell_spaced (parts : List (List Glyph)) :
    spell (spaced parts) = [' '].intercalate (parts.map spell) := by
  rw [spaced, spell_intercalate]
  simp only [spell_char, spell_nil]

/-- Operators and operands, one blank apart, follow the first operand. -/
theorem spell_chain {ops : List Comparison} {operands : List (List Glyph)} {texts : List String}
    (h : operands.map spell = texts.map String.toList) (first : List Glyph) :
    spell (spaced (first :: chain ops operands)) = spell first ++ (links ops texts).toList := by
  have hnone : ∀ first, spell (spaced [first]) = spell first ++ "".toList := by
    intro first
    rw [spaced, List.intercalate_singleton]
    exact (List.append_nil _).symm
  induction ops generalizing operands texts first with
  | nil => exact hnone first
  | cons op ops ih =>
    rcases operands with _ | ⟨operand, operands⟩ <;> rcases texts with _ | ⟨text, texts⟩
    · exact hnone first
    · cases h
    · cases h
    · obtain ⟨hoperand, hoperands⟩ := List.cons.inj h
      have hrest := ih hoperands operand
      rw [spell_spaced, List.map_cons, hoperand] at hrest
      rw [chain, links]
      -- An operator has one word or two.
      cases op <;>
        simp [spell_spaced, Comparison.words, Comparison.symbol, spell_word, hrest, hoperand]

/-- The figure of a tree can be read and spells its text. -/
structure Depicted (indent : String) (t : Tree) : Prop where
  sound : Sound (figure t).text
  spelled : spell (figure t).text = (wording indent t).text.toList

section

variable {indent : String}

theorem Depicted.spelled_map {ts : List Tree} (h : ∀ t ∈ ts, Depicted indent t) :
    (ts.map fun t => spell (figure t).text) = ts.map fun t => (wording indent t).text.toList :=
  List.map_congr_left fun t ht => (h t ht).spelled

theorem encloses_of_continuesName {c : Char} (h : Text.continuesName c = true) :
    encloses c = false := by
  refine Bool.eq_false_iff.mpr fun hencloses => ?_
  simp only [encloses, closes, Bool.or_eq_true, List.contains_iff_mem, List.mem_cons,
    List.not_mem_nil, or_false] at hencloses
  rcases hencloses with (rfl | rfl | rfl | rfl) | rfl | rfl | rfl <;> exact absurd h (by decide)

theorem encloses_of_isPlain {c : Char} (h : Physl.isPlain c = true) : encloses c = false := by
  refine Bool.eq_false_iff.mpr fun hencloses => ?_
  simp only [encloses, closes, Bool.or_eq_true, List.contains_iff_mem, List.mem_cons,
    List.not_mem_nil, or_false] at hencloses
  rcases hencloses with (rfl | rfl | rfl | rfl) | rfl | rfl | rfl <;> exact absurd h (by decide)

theorem continuesName_of_isName {name : String} (h : Text.IsName name) :
    ∀ c ∈ name.toList, Text.continuesName c = true := by
  obtain ⟨c, cs, hcs, hc, hname⟩ := h
  rw [hcs]
  exact List.forall_mem_cons.mpr ⟨Source.Lexeme.continuesName_of_startsName hc, hname⟩

theorem sound_name {name : String} (h : Text.IsIdentifier name) : Sound (word name) :=
  sound_map_char fun c hc => encloses_of_continuesName (continuesName_of_isName h.1 c hc)

/-- A constant that is no text is written without brackets and quotes. -/
theorem unadorned_constantText {value : Literal} (h : ∀ text, value ≠ .str text) :
    Physl.Unadorned (constantText value).toList := by
  cases value with
  | none => exact Physl.unadorned_of_all (by decide)
  | bool value => cases value <;> exact Physl.unadorned_of_all (by decide)
  | int value => exact Physl.unadorned_int value
  | float value => exact Physl.unadorned_float value
  | str text => exact absurd rfl (h text)

/-- A slice is depicted if its bounds are. -/
theorem depicted_of_bounds {i : Tree} (h : ∀ e ∈ i.bounds, Depicted indent e) :
    Depicted indent i := by
  have hcolon : encloses ':' = false := by decide
  -- A bound that is absent is written as nothing.
  have hbound : ∀ {bound : Option Tree}, (∀ e ∈ bound, Depicted indent e) →
      Sound ((bound.map fun e => (figure e).text).getD []) ∧
        spell ((bound.map fun e => (figure e).text).getD []) =
          ((bound.map fun e => (wording indent e).text).getD "").toList := by
    rintro (_ | e) he
    · exact ⟨.nil, spell_nil⟩
    · exact ⟨(he e rfl).sound, (he e rfl).spelled⟩
  rcases Tree.slice_or_bounds i with ⟨span, lower, upper, step, rfl⟩ | hbounds
  · simp only [Tree.bounds, Tree.node_mk, List.forall_mem_append, Option.mem_toList] at h
    obtain ⟨⟨hlower, hupper⟩, hstep⟩ := h
    obtain ⟨hsound, hspelled⟩ := hbound hlower
    obtain ⟨hsound', hspelled'⟩ := hbound hupper
    constructor
    · simp only [figure_mk, Node.map, depict, Option.map_map]
      refine hsound.append (.char hcolon (hsound'.append ?_))
      rcases step with _ | step
      · exact .nil
      · exact .char hcolon (hstep step rfl).sound
    · have hlast : spell ((step.map fun e => .char ':' :: (figure e).text).getD []) =
          (String.join (step.toList.map fun e => ":" ++ (wording indent e).text)).toList := by
        rcases step with _ | step
        · exact spell_nil
        · simp [spell_char, (hstep step rfl).spelled, String.toList_append]
      simp only [figure_mk, wording_mk, Node.map, depict, assemble, textOr, Option.map_map,
        Option.toList_map, List.map_map, Function.comp_def, spell_append, spell_char, hspelled,
        hspelled', hlast, String.toList_append, List.append_assoc]
      rfl
  · exact h i (by rw [hbounds]; exact List.mem_cons_self)

theorem sound_listed {items : List (List Glyph)} (h : ∀ item ∈ items, Sound item) :
    Sound (listed items) :=
  sound_intercalate (.char (by decide) (.char (by decide) .nil)) h

theorem sound_spaced {parts : List (List Glyph)} (h : ∀ part ∈ parts, Sound part) :
    Sound (spaced parts) :=
  sound_intercalate (.char (by decide) .nil) h

theorem Depicted.sound_map {ts : List Tree} (h : ∀ t ∈ ts, Depicted indent t) :
    ∀ item ∈ ts.map fun t => (figure t).text, Sound item :=
  List.forall_mem_map.mpr fun t ht => (h t ht).sound

theorem sound_word {text : String} (h : (text.toList.all fun c => !encloses c) = true) :
    Sound (word text) :=
  sound_map_char fun c hc => by simpa only [Bool.not_eq_true'] using List.all_eq_true.mp h c hc

theorem sound_operator (op : Operator) : Sound (word op.symbol) :=
  sound_word (by cases op <;> decide)

/-- What holds of the words of operators and of operands holds of a chain of them. -/
theorem forall_mem_chain {p : List Glyph → Prop} {ops : List Comparison}
    {operands : List (List Glyph)}
    (hwords : ∀ op : Comparison, ∀ symbol ∈ op.words, p (word symbol))
    (h : ∀ operand ∈ operands, p operand) : ∀ part ∈ chain ops operands, p part := by
  induction ops generalizing operands with
  | nil => exact List.forall_mem_nil _
  | cons op ops ih =>
    rcases operands with _ | ⟨operand, operands⟩
    · exact List.forall_mem_nil _
    · rw [List.forall_mem_cons] at h
      rw [chain, List.forall_mem_append, List.forall_mem_cons, List.forall_mem_map]
      exact ⟨hwords op, h.1, ih h.2⟩

theorem sound_comparison (op : Comparison) : ∀ symbol ∈ op.words, Sound (word symbol) := by
  have hwords : (op.words.all fun symbol => symbol.toList.all fun c => !encloses c) = true := by
    cases op <;> decide
  exact fun symbol hsymbol => sound_word (List.all_eq_true.mp hwords symbol hsymbol)

/-- A keyword argument is depicted if its value is. -/
theorem depicted_keyword {keyword : Keyword Tree} (hname : Text.IsIdentifier keyword.name)
    (h : Depicted indent keyword.value) : Sound (keywordText keyword) ∧
      spell (keywordText keyword) =
        (keyword.name ++ "=" ++ (wording indent keyword.value).text).toList := by
  refine ⟨(sound_name hname).append (.char (by decide) h.sound), ?_⟩
  rw [keywordText, spell_append, spell_word, spell_char, h.spelled, String.toList_append,
    String.toList_append, List.append_assoc]
  rfl

theorem depicted_call {span : Span} {func : Tree} {args : List Tree}
    {keywords : List (Keyword Tree)} (hfunc : Depicted indent func)
    (hargs : ∀ a ∈ args, Depicted indent a) (hnames : ∀ k ∈ keywords, Text.IsIdentifier k.name)
    (hkeywords : ∀ k ∈ keywords, Depicted indent k.value) :
    Depicted indent (.mk span (.call func args keywords)) := by
  refine ⟨?_, ?_⟩ <;> rw [figure_call]
  · refine hfunc.sound.append (.group (sound_listed ?_) .nil)
    rw [List.map_map, List.forall_mem_append]
    exact ⟨Depicted.sound_map hargs, List.forall_mem_map.mpr fun k hk =>
      (depicted_keyword (hnames k hk) (hkeywords k hk)).1⟩
  · have hvalues : (keywords.map fun keyword => spell (keywordText keyword)) =
        keywords.map fun keyword =>
          (keyword.name ++ "=" ++ (wording indent keyword.value).text).toList :=
      List.map_congr_left fun k hk => (depicted_keyword (hnames k hk) (hkeywords k hk)).2
    have harguments :
        spell (listed ((args.map figure).map Figure.text ++ keywords.map keywordText)) =
          (listing (texts (args.map (wording indent)) ++
            (keywords.map (Keyword.map (wording indent))).map fun keyword =>
              keyword.name ++ "=" ++ keyword.value.text)).toList := by
      rw [spell_listed, toList_listing, List.map_append, List.map_append, texts]
      simp only [List.map_map, Function.comp_def, Keyword.map, hvalues, Depicted.spelled_map hargs]
    rw [wording_mk]
    simp only [Node.map, assemble, spell_append, spell_round, harguments, hfunc.spelled,
      String.toList_append, List.append_assoc]
    rfl

theorem depicted_tuple {span : Span} {items : List Tree} (h : ∀ i ∈ items, Depicted indent i) :
    Depicted indent (.mk span (.tuple items)) := by
  have hsound : Sound (listed ((items.map figure).map Figure.text)) := by
    rw [List.map_map]
    exact sound_listed (Depicted.sound_map h)
  have hspelled : spell (listed ((items.map figure).map Figure.text)) =
      (listing (texts (items.map (wording indent)))).toList := by
    rw [spell_listed, toList_listing, texts, List.map_map, List.map_map, List.map_map,
      List.map_map]
    exact congrArg _ (Depicted.spelled_map h)
  refine ⟨?_, ?_⟩ <;> rw [figure_mk]
  · -- A tuple of one element has a comma behind it.
    rcases items with _ | ⟨first, _ | ⟨second, rest⟩⟩
    · exact .group hsound .nil
    · exact .group ((h first List.mem_cons_self).sound.append (.char (by decide) .nil)) .nil
    · exact .group hsound .nil
  · rw [wording_mk]
    rcases items with _ | ⟨first, _ | ⟨second, rest⟩⟩
    · simp only [Node.map, depict, assemble, texts, Python.tuple, List.map_nil, spell_round,
        String.toList_append] at hspelled ⊢
      rw [hspelled]
      rfl
    · simp [Node.map, depict, assemble, texts, Python.tuple, spell_round, spell_append,
        spell_char, spell_nil, (h first List.mem_cons_self).spelled]
    · simp only [Node.map, depict, assemble, texts, Python.tuple, List.map_cons, spell_round,
        String.toList_append] at hspelled ⊢
      rw [hspelled]
      rfl

theorem depicted_dict {span : Span} {entries : List (Tree × Tree)}
    (hkeys : ∀ e ∈ entries, Depicted indent e.1) (hvalues : ∀ e ∈ entries, Depicted indent e.2) :
    Depicted indent (.mk span (.dict entries)) := by
  refine ⟨?_, ?_⟩ <;> rw [figure_dict]
  · refine .group (sound_listed (List.forall_mem_map.mpr fun entry hentry => ?_)) .nil
    exact (hkeys entry hentry).sound.append
      (.char (by decide) (.char (by decide) (hvalues entry hentry).sound))
  · have hentries : (entries.map fun entry => spell (entryText entry)) =
        entries.map fun entry => ((wording indent entry.1).text ++ ": " ++
          (wording indent entry.2).text).toList := by
      refine List.map_congr_left fun entry hentry => ?_
      simp only [entryText, spell_append, spell_char, (hkeys entry hentry).spelled,
        (hvalues entry hentry).spelled, String.toList_append, List.append_assoc]
      rfl
    rw [wording_mk]
    simp only [Node.map, assemble, spell_curly, spell_listed, String.toList_append,
      toList_listing, List.map_map, Function.comp_def, hentries]
    rfl

/-- Legible trees are depicted. -/
theorem Legible.depicted {t : Tree} (h : Legible t) : Depicted indent t := by
  induction h with
  | ident hid =>
    refine ⟨?_, ?_⟩ <;> rw [figure_mk]
    · exact sound_name hid
    · rw [wording_mk]
      exact spell_word _
  | @constant span value hfinite =>
    by_cases htext : ∃ text, value = .str text
    · obtain ⟨text, rfl⟩ := htext
      refine ⟨?_, ?_⟩ <;> rw [figure_mk]
      · exact .literal (Physl.inside_quoted _) .nil
      · rw [wording_mk]
        simp only [Node.map, depict, assemble, constantText, Text.quote, String.toList_ofList,
          spell_literal, spell_nil]
    · have hnot : ∀ text, value ≠ .str text := fun text heq => htext ⟨text, heq⟩
      refine ⟨?_, ?_⟩ <;> rw [figure_mk] <;> simp only [Node.map, depict_constant hnot]
      · exact sound_map_char fun c hc => encloses_of_isPlain (unadorned_constantText hnot c hc)
      · rw [wording_mk]
        exact spell_word _
  | @binOp span left right op hleft hright ihleft ihright =>
    refine ⟨?_, ?_⟩ <;> rw [figure_mk]
    · refine .group (sound_spaced ?_) .nil
      simp only [List.forall_mem_cons]
      exact ⟨ihleft.sound, sound_operator op, ihright.sound, List.forall_mem_nil _⟩
    · rw [wording_mk]
      simp [Node.map, depict, assemble, spell_round, spell_spaced, spell_word, ihleft.spelled,
        ihright.spelled]
  | @unaryOp span op operand hoperand ih =>
    refine ⟨?_, ?_⟩ <;> rw [figure_mk]
    · refine .group (Sound.append (sound_word ?_) (Sound.append ?_ ih.sound)) .nil
      · cases op <;> decide
      · cases op <;> first | exact .nil | exact .char (by decide) .nil
    · rw [wording_mk]
      cases op <;> simp [Node.map, depict, assemble, spell_round, spell_append, spell_char,
        spell_word, ih.spelled, UnaryOperator.symbol]
  | @compare span left ops comparators hops hlength hleft hcomparators ihleft ih =>
    refine ⟨?_, ?_⟩ <;> rw [figure_mk]
    · refine .group (sound_spaced (List.forall_mem_cons.mpr ⟨ihleft.sound,
        forall_mem_chain sound_comparison ?_⟩)) .nil
      rw [List.map_map]
      exact Depicted.sound_map ih
    · have hoperands : ((comparators.map figure).map Figure.text).map spell =
          (texts ((comparators.map (wording indent)).take ops.length)).map String.toList := by
        rw [List.take_of_length_le (by rw [List.length_map, hlength])]
        simp only [texts, List.map_map]
        exact Depicted.spelled_map ih
      rw [wording_mk]
      simp only [Node.map, depict, assemble, spell_round, spell_chain hoperands, ihleft.spelled,
        String.toList_append]
      rfl
  | @boolOp span op values hlength hvalues ih =>
    refine ⟨?_, ?_⟩ <;> rw [figure_mk]
    · refine .group (sound_intercalate (.char (by decide) (Sound.append (sound_word ?_)
        (.char (by decide) .nil))) ?_) .nil
      · cases op <;> decide
      · rw [List.map_map]
        exact Depicted.sound_map ih
    · rw [wording_mk]
      simp only [Node.map, depict, assemble, texts, spell_round, spell_intercalate, spell_char,
        spell_append, spell_word, spell_nil, String.toList_append, String.toList_intercalate,
        List.map_map, Function.comp_def, Depicted.spelled_map ih]
      rfl
  | call hfunc hargs hnames hkeywords ihfunc ihargs ihkeywords =>
    exact depicted_call ihfunc ihargs hnames ihkeywords
  | @attr span value name hvalue hname ih =>
    refine ⟨?_, ?_⟩ <;> rw [figure_mk]
    · exact ih.sound.append (.char (by decide) (sound_name hname))
    · rw [wording_mk]
      simp [Node.map, depict, assemble, spell_append, spell_char, spell_word, ih.spelled]
  | @subscript span value index hvalue hsingle hindex ihvalue ihindex =>
    have hindices : ∀ i ∈ index.indices, Depicted indent i :=
      fun i hi => depicted_of_bounds (ihindex i hi)
    refine ⟨?_, ?_⟩ <;> rw [figure_mk]
    · refine ihvalue.sound.append (.group ?_ .nil)
      rw [figure_index]
      exact sound_listed (Depicted.sound_map hindices)
    · rw [wording_mk]
      simp [Node.map, depict, assemble, spell_append, spell_square, ihvalue.spelled, figure_index,
        spell_listed, wording_index, toList_listing, Function.comp_def,
        Depicted.spelled_map hindices]
  | @list span items hitems ih =>
    refine ⟨?_, ?_⟩ <;> rw [figure_mk]
    · refine .group (sound_listed ?_) .nil
      rw [List.map_map]
      exact Depicted.sound_map ih
    · rw [wording_mk]
      simp [Node.map, depict, assemble, texts, spell_square, spell_listed, toList_listing,
        Function.comp_def, Depicted.spelled_map ih]
  | tuple hitems ih => exact depicted_tuple ih
  | dict hkeys hvalues ihkeys ihvalues => exact depicted_dict ihkeys ihvalues
  | @ifExp span test body orelse htest hbody horelse ihtest ihbody ihorelse =>
    refine ⟨?_, ?_⟩ <;> rw [figure_mk]
    · refine .group (sound_spaced ?_) .nil
      simp only [List.forall_mem_cons]
      exact ⟨ihbody.sound, sound_word (by decide), ihtest.sound, sound_word (by decide),
        ihorelse.sound, List.forall_mem_nil _⟩
    · rw [wording_mk]
      simp [Node.map, depict, assemble, spell_round, spell_spaced, spell_word, ihtest.spelled,
        ihbody.spelled, ihorelse.spelled]
  | @lambda span params body hparams hbody ih =>
    refine ⟨?_, ?_⟩ <;> rw [figure_mk]
    · refine .group (Sound.append ?_ (.char (by decide) (.char (by decide) ih.sound))) .nil
      rw [lambdaHead]
      split
      · exact sound_word (by decide)
      · rw [word_append, word_listing]
        exact (sound_word (by decide)).append (sound_listed
          (List.forall_mem_map.mpr fun param hparam => sound_name (hparams param hparam)))
    · rw [wording_mk]
      simp [Node.map, depict, assemble, lambdaHead, spell_round, spell_append, spell_word,
        spell_char, ih.spelled]

end

end Rendition.Python.Readable
