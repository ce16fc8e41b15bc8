import Rendition.Proofs.Python.Rendered
import Rendition.Proofs.Text.Lines

/-!
# Phrases stay on their line

No lexeme of a phrase holds the end of a line, so the lines of a text can be told apart again.

## Main definitions

* `Python.Level`: Phrases that stay on their line.
* `Python.Whole`: Phrases that the lexer finds on their line.

## Theorems

* `level_phrase`, `whole_phrase`: The phrases of faithful expressions stay on their line.
-/

namespace Rendition

namespace Text

theorem unbroken_quote (text : String) : Unbroken (quote text).toList := by
  have hpairs : (escaped.all fun d => decide (Unbroken ['\\', d])) = true := by decide
  have hpair : ∀ d ∈ escaped, Unbroken ['\\', d] :=
    fun d hd => of_decide_eq_true (List.all_eq_true.mp hpairs d hd)
  rw [toList_quote]
  refine unbroken_cons.mpr ⟨by decide, unbroken_append.mpr ⟨?_, by decide⟩⟩
  intro c hc
  obtain ⟨d, -, hd⟩ := List.mem_flatMap.mp hc
  rcases quoteChar_cases d with ⟨e, he, heq, -⟩ | ⟨heq, -, -, hline, hreturn⟩
  · rw [heq] at hd
    exact hpair e he c hd
  · rw [heq, List.mem_singleton] at hd
    rw [hd]
    exact ⟨hline, hreturn⟩

theorem unbroken_name {text : String} (h : IsName text) : Unbroken text.toList := by
  have hcontinues {c : Char} (hc : continuesName c = true) : c ≠ '\n' ∧ c ≠ '\r' := by
    constructor <;> rintro rfl <;> exact absurd hc (by decide)
  obtain ⟨d, ds, htext, hd, hds⟩ := h
  rw [htext]
  exact unbroken_cons.mpr ⟨hcontinues (Source.Lexeme.continuesName_of_startsName hd),
    fun c hc => hcontinues (hds c hc)⟩

theorem unbroken_digits {text : List Char} (h : ∀ d ∈ text, d.isDigit = true) :
    Unbroken text := by
  intro c hc
  constructor <;> rintro rfl <;> exact absurd (h _ hc) (by decide)

end Text

namespace Python

open Source Source.Lexeme Text

theorem unbroken_power {text : List Char} (h : IsPower text) : Unbroken text := by
  cases h with
  | absent => exact unbroken_nil
  | positive hds h => exact unbroken_cons.mpr ⟨by decide, unbroken_digits h⟩
  | negative hds h =>
    exact unbroken_cons.mpr ⟨by decide, unbroken_cons.mpr ⟨by decide, unbroken_digits h⟩⟩

theorem unbroken_float {text : List Char} (h : IsFloat text) : Unbroken text := by
  cases h with
  | pointed hwhole h hfraction hpower =>
    exact unbroken_append.mpr ⟨unbroken_digits h, unbroken_cons.mpr ⟨by decide,
      unbroken_append.mpr ⟨unbroken_digits hfraction, unbroken_power hpower⟩⟩⟩
  | scaled hwhole h hpower hne =>
    exact unbroken_append.mpr ⟨unbroken_digits h, unbroken_power hpower⟩

/-- Lexemes on one line. -/
def Inline (ls : List Lexeme) : Prop :=
  ∀ l ∈ ls, Unbroken l.chars

/-- Phrases that stay on their line. -/
def Level (p : Phrase) : Prop :=
  ∀ g : Gap, Unbroken g.text → Inline (p g)

theorem inline_append {as bs : List Lexeme} : Inline (as ++ bs) ↔ Inline as ∧ Inline bs :=
  List.forall_mem_append

theorem inline_cons {l : Lexeme} {ls : List Lexeme} :
    Inline (l :: ls) ↔ Unbroken l.chars ∧ Inline ls :=
  List.forall_mem_cons

theorem inline_nil : Inline [] :=
  fun _ hl => absurd hl List.not_mem_nil

theorem inline_flatMap {α : Type} {as : List α} {f : α → List Lexeme}
    (h : ∀ a ∈ as, Inline (f a)) : Inline (as.flatMap f) := by
  intro l hl
  obtain ⟨a, ha, hl⟩ := List.mem_flatMap.mp hl
  exact h a ha l hl

theorem unbroken_spell {ls : List Lexeme} (h : Inline ls) : Unbroken (spell ls) := by
  intro c hc
  obtain ⟨l, hl, hc⟩ := List.mem_flatMap.mp hc
  exact h l hl c hc

theorem unbroken_empty : Unbroken (Gap.text {}) := unbroken_nil

theorem unbroken_blank : Unbroken Gap.blank.text := by decide

theorem inline_word {g : Gap} {text : String} (hg : Unbroken g.text) (h : Unbroken text.toList) :
    Unbroken (word text g).chars :=
  unbroken_append.mpr ⟨hg, h⟩

theorem inline_mark {g : Gap} {text : String} (hg : Unbroken g.text) (h : Unbroken text.toList) :
    Unbroken (mark text g).chars :=
  unbroken_append.mpr ⟨hg, h⟩

theorem level_enclosed {inner : List Lexeme} (h : Inline inner) : Level (enclosed inner) :=
  fun _ hg => inline_cons.mpr ⟨inline_mark hg (by decide), inline_append.mpr ⟨h, inline_cons.mpr
    ⟨by decide, inline_nil⟩⟩⟩

theorem level_row {ps : List Phrase} (h : ∀ p ∈ ps, Level p) : Level (row ps) := by
  intro g hg
  rcases ps with _ | ⟨p, rest⟩
  · exact inline_nil
  · refine inline_append.mpr ⟨h p List.mem_cons_self g hg, inline_flatMap fun q hq => ?_⟩
    exact inline_cons.mpr ⟨by decide, h q (List.mem_cons_of_mem p hq) .blank unbroken_blank⟩

theorem level_items {items : List Tree} (h : ∀ i ∈ items, Level (phrase i)) :
    Level (row (items.map phrase)) := by
  refine level_row fun p hp => ?_
  obtain ⟨i, hi, rfl⟩ := List.mem_map.mp hp
  exact h i hi

theorem level_names {names : List String} (h : ∀ name ∈ names, Text.IsName name) :
    Level (row (names.map fun name g => [word name g])) := by
  refine level_row fun p hp => ?_
  obtain ⟨name, hname, rfl⟩ := List.mem_map.mp hp
  exact fun g hg => inline_cons.mpr ⟨inline_word hg (unbroken_name (h name hname)), inline_nil⟩

theorem level_constant {value : Literal} (hfaithful : Faithful (.constant value))
    (hint : ∀ n, value = .int n → 0 ≤ n ∧ n < Word.signedBound) :
    Level fun g => [constant value g] := by
  have htext : Unbroken (constant value {}).text.toList := by
    cases value with
    | none => decide
    | bool value => cases value <;> decide
    | int value =>
      obtain ⟨k, rfl⟩ := Int.eq_ofNat_of_zero_le (hint value rfl).1
      refine unbroken_digits ?_
      change ∀ d ∈ (toString k).toList, d.isDigit = true
      rw [toList_toString_nat]
      exact digits_toDigits k
    | float value =>
      obtain ⟨y, hy, -⟩ := hfaithful
      exact unbroken_float (isFloat_text hy)
    | str text => exact unbroken_quote text
  intro g hg
  refine inline_cons.mpr ⟨unbroken_append.mpr ⟨?_, ?_⟩, inline_nil⟩
  · cases value with
    | bool value => cases value <;> exact hg
    | _ => exact hg
  · cases value with
    | bool value => cases value <;> exact htext
    | _ => exact htext

theorem inline_comparison (op : Comparison) : Inline (comparison op) := by
  have hops : ∀ l ∈ comparison op, Unbroken l.gap.text ∧ Unbroken l.text.toList := by
    cases op <;> decide
  exact fun l hl => unbroken_append.mpr (hops l hl)

theorem level_keyword {keyword : Keyword Tree} (hname : Text.IsName keyword.name)
    (hvalue : Level (phrase keyword.value)) : Level (keywordPhrase keyword) :=
  fun _ hg => inline_cons.mpr ⟨inline_word hg (unbroken_name hname),
    inline_cons.mpr ⟨by decide, hvalue {} unbroken_empty⟩⟩

theorem level_slice {span : Span} {lower upper step : Option Tree}
    (h : ∀ e ∈ lower.toList ++ upper.toList ++ step.toList, Level (phrase e)) :
    Level (phrase (.mk span (.slice lower upper step))) := by
  simp only [List.mem_append, Option.mem_toList] at h
  rw [phrase_slice]
  intro g hg
  refine inline_append.mpr ⟨inline_append.mpr ⟨?_, ?_⟩, ?_⟩
  · rcases lower with _ | lower
    · exact inline_cons.mpr ⟨inline_mark hg (by decide), inline_nil⟩
    · exact inline_append.mpr ⟨h lower (.inl (.inl rfl)) g hg,
        inline_cons.mpr ⟨by decide, inline_nil⟩⟩
  · rcases upper with _ | upper
    · exact inline_nil
    · exact h upper (.inl (.inr rfl)) {} unbroken_empty
  · rcases step with _ | step
    · exact inline_nil
    · exact inline_cons.mpr ⟨by decide, h step (.inr rfl) {} unbroken_empty⟩

theorem level_index {t : Tree} (h : ∀ e ∈ t.bounds, Level (phrase e)) : Level (phrase t) := by
  rcases t with ⟨span, node⟩
  cases node with
  | slice lower upper step => exact level_slice h
  | _ => exact h _ (List.mem_singleton.mpr rfl)

/-- The phrases of faithful expressions stay on their line. -/
theorem level_phrase {t : Tree} (h : t.IsExpression Faithful) : Level (phrase t) := by
  induction h with
  | @ident span id hok hname hvariable =>
    rw [phrase_ident]
    exact fun g hg => inline_cons.mpr ⟨inline_word hg (unbroken_name hname), inline_nil⟩
  | @constant span value hok hint =>
    rw [phrase_constant]
    exact level_constant hok hint
  | @binOp span left right op hok hleft hright ihleft ihright =>
    rw [phrase_binOp]
    have hop : Unbroken op.symbol.toList := by cases op <;> decide
    exact level_enclosed (inline_append.mpr ⟨ihleft {} unbroken_empty, inline_cons.mpr
      ⟨inline_mark unbroken_blank hop, ihright .blank unbroken_blank⟩⟩)
  | @unaryOp span op operand hok hoperand ih =>
    rw [phrase_unaryOp]
    refine level_enclosed ?_
    split
    · exact inline_cons.mpr ⟨by decide, ih .blank unbroken_blank⟩
    · have hop : Unbroken op.symbol.toList := by cases op <;> decide
      exact inline_cons.mpr ⟨inline_mark unbroken_empty hop, ih {} unbroken_empty⟩
  | @compare span left ops comparators hok hops hlength hleft hcomparators ihleft ih =>
    rw [phrase_compare]
    refine level_enclosed (inline_append.mpr ⟨ihleft {} unbroken_empty, inline_flatMap ?_⟩)
    intro link hlink
    exact inline_append.mpr ⟨inline_comparison link.1,
      ih link.2 (List.of_mem_zip hlink).2 .blank unbroken_blank⟩
  | @boolOp span op values hok hlength hvalues ih =>
    rcases values with _ | ⟨first, rest⟩
    · exact absurd hlength (by decide)
    rw [phrase_boolOp]
    have hop : Unbroken op.symbol.toList := by cases op <;> decide
    refine level_enclosed (inline_append.mpr ⟨ih first List.mem_cons_self {} unbroken_empty,
      inline_flatMap fun v hv => ?_⟩)
    exact inline_cons.mpr ⟨inline_word unbroken_blank hop,
      ih v (List.mem_cons_of_mem first hv) .blank unbroken_blank⟩
  | @call span func args keywords hok hfunc hargs hnames hkeywords ihfunc ihargs ih =>
    rw [phrase_call]
    have hrow : Level (row (args.map phrase ++ keywords.map keywordPhrase)) := by
      refine level_row fun p hp => ?_
      rcases List.mem_append.mp hp with hp | hp
      · obtain ⟨a, ha, rfl⟩ := List.mem_map.mp hp
        exact ihargs a ha
      · obtain ⟨k, hk, rfl⟩ := List.mem_map.mp hp
        exact level_keyword (hnames k hk).1 (ih k hk)
    exact fun g hg => inline_append.mpr ⟨ihfunc g hg,
      level_enclosed (hrow {} unbroken_empty) {} unbroken_empty⟩
  | @attr span value name hok hvalue hname ih =>
    rw [phrase_attr]
    exact fun g hg => inline_append.mpr ⟨ih g hg, inline_cons.mpr ⟨by decide, inline_cons.mpr
      ⟨inline_word unbroken_empty (unbroken_name hname.1), inline_nil⟩⟩⟩
  | @subscript span value index hok hvalue hindex ihvalue ih =>
    rw [phrase_subscript]
    have hrow := level_items fun i hi => level_index (ih i hi)
    refine fun g hg => inline_append.mpr ⟨ihvalue g hg, inline_cons.mpr ⟨by decide, ?_⟩⟩
    rw [indexPhrase_eq]
    exact inline_append.mpr ⟨hrow {} unbroken_empty, inline_cons.mpr ⟨by decide, inline_nil⟩⟩
  | @list span items hok hitems ih =>
    rw [phrase_list]
    exact fun g hg => inline_cons.mpr ⟨inline_mark hg (by decide), inline_append.mpr
      ⟨level_items ih {} unbroken_empty, inline_cons.mpr ⟨by decide, inline_nil⟩⟩⟩
  | @tuple span items hok hitems ih =>
    by_cases hsingle : items.length = 1
    · obtain ⟨single, rfl⟩ := List.length_eq_one_iff.mp hsingle
      rw [phrase_tuple_single]
      exact level_enclosed (inline_append.mpr ⟨ih single List.mem_cons_self {} unbroken_empty,
        inline_cons.mpr ⟨by decide, inline_nil⟩⟩)
    · rw [phrase_tuple span items hsingle]
      exact level_enclosed (level_items ih {} unbroken_empty)
  | @dict span entries hok hkeys hvalues ihkeys ihvalues =>
    rw [phrase_dict]
    have hrow : Level (row (entries.map entryPhrase)) := by
      refine level_row fun p hp => ?_
      obtain ⟨e, he, rfl⟩ := List.mem_map.mp hp
      exact fun g hg => inline_append.mpr ⟨ihkeys e he g hg, inline_cons.mpr ⟨by decide,
        ihvalues e he .blank unbroken_blank⟩⟩
    exact fun g hg => inline_cons.mpr ⟨inline_mark hg (by decide), inline_append.mpr
      ⟨hrow {} unbroken_empty, inline_cons.mpr ⟨by decide, inline_nil⟩⟩⟩
  | @ifExp span test body orelse hok htest hbody horelse ihtest ihbody ihorelse =>
    rw [phrase_ifExp]
    refine level_enclosed ?_
    simp only [inline_append, inline_cons]
    exact ⟨⟨ihbody {} unbroken_empty, by decide, ihtest .blank unbroken_blank⟩, by decide,
      ihorelse .blank unbroken_blank⟩
  | @lambda span params body hok hparams hbody ih =>
    rw [phrase_lambda]
    refine level_enclosed ?_
    simp only [inline_append, inline_cons]
    exact ⟨⟨by decide, level_names (fun p hp => (hparams p hp).1) .blank unbroken_blank⟩,
      by decide, ih .blank unbroken_blank⟩

/-! ## Whole phrases -/

/-- Phrases that are spelled out as the lexer needs it, and stay on their line. -/
structure Whole (stop : Char → Bool) (p : Phrase) : Prop extends Spelled stop p where
  level : Level p
  ne : spell (p {}) ≠ []

theorem Whole.weaken {stop stop' : Char → Bool} {p : Phrase} (h : Whole stop p)
    (hstop : ∀ c, stop' c = true → stop c = true) : Whole stop' p :=
  ⟨h.toSpelled.weaken hstop, h.level, h.ne⟩

theorem Whole.append {stop stop' : Char → Bool} {p : Phrase} {ls : List Lexeme} {d : Char}
    (h : Whole stop p) (hd : stop d = true) (hhead : ∀ c, Heads ls c d)
    (hls : ∀ c, stop' c = true → Fits ls c) (hlevel : Inline ls) :
    Whole stop' fun g => p g ++ ls := by
  refine ⟨⟨fun g => ?_, fun g hg c hc => ?_⟩, fun g hg => ?_, ?_⟩
  · rw [spell_append, spell_append, h.moves g, List.append_assoc]
  · exact fits_append (h.fits g hg d hd) (hhead c) (hls c hc)
  · exact inline_append.mpr ⟨h.level g hg, hlevel⟩
  · rw [spell_append]
    exact List.append_ne_nil_of_left_ne_nil h.ne _

theorem whole_word {stop : Char → Bool} {text : String} (h : IsName text) {ls : List Lexeme}
    (hls : ∀ c, stop c = true → Fits ls c ∧ ∃ d, Heads ls c d ∧ ends d = true)
    (hlevel : Inline ls) : Whole stop fun g => word text g :: ls := by
  refine ⟨⟨fun g => spell_cons_gap .., fun g hg c hc => ?_⟩, fun g hg => ?_, ?_⟩
  · obtain ⟨hfits, d, hhead, hd⟩ := hls c hc
    exact fits_cons (leads_word hg.plain h hd) hhead hfits
  · exact inline_cons.mpr ⟨inline_word hg (unbroken_name h), hlevel⟩
  · obtain ⟨d, ds, htext, -⟩ := h
    rw [spell_cons, chars_word, htext]
    exact List.cons_ne_nil _ _

/-- A word alone. -/
theorem whole_single {text : String} (h : IsName text) : Whole ends fun g => [word text g] :=
  whole_word h (fun c hc => ⟨fits_nil c, c, ⟨[], rfl⟩, hc⟩) inline_nil

/-- A word in front of a phrase. -/
theorem Whole.behind {stop : Char → Bool} {text : String} (h : IsName text) {p : Phrase}
    (hp : Whole stop p) : Whole stop fun g => word text g :: p .blank :=
  whole_word h (fun c hc => ⟨hp.fits .blank Gap.simple_blank c hc, ' ', hp.heads_blank c,
    by decide⟩) (hp.level .blank unbroken_blank)

theorem whole_phrase {t : Tree} (h : t.IsExpression Faithful) : Whole closes (phrase t) := by
  have hsound := (stands_phrase h).sound
  obtain ⟨d, more, hstart, -⟩ := hsound.starts
  exact ⟨hsound.toSpelled, level_phrase h, by rw [hstart]; exact List.cons_ne_nil d more⟩

theorem whole_row {stop : Char → Bool} {ps : List Phrase} (hne : ps ≠ [])
    (h : ∀ p ∈ ps, Whole stop p) (hcomma : stop ',' = true) : Whole stop (row ps) := by
  have hspelled : ∀ p ∈ ps, Spelled stop p := fun p hp => (h p hp).toSpelled
  obtain ⟨p, rest, rfl⟩ := List.exists_cons_of_ne_nil hne
  have hp := h p List.mem_cons_self
  refine ⟨⟨fun g => ?_, fun g hg c hc => fits_row hspelled hcomma hg hc⟩,
    level_row fun q hq => (h q hq).level, ?_⟩
  · simp only [row, spell_append, hp.moves g, List.append_assoc]
  · simp only [row, spell_append]
    exact List.append_ne_nil_of_left_ne_nil hp.ne _

end Python

end Rendition
