import Rendition.Proofs.Python.Faithful
import Rendition.Proofs.Python.Phrase
import Rendition.Proofs.Source.Numeral
import Rendition.Proofs.Source.Quoted

/-!
# The lexer finds the lexemes of a phrase

A phrase is spelled out behind its gap, starts like an operand, and is cut into its lexemes by the
lexer, whatever follows it, as long as it starts with a character that ends an operand. An integer
alone does not end in front of a point.

## Main definitions

* `Gap.Simple`: Gaps without comments and line continuations.
* `Lexeme.Fits`: The lexer finds lexemes in front of a character.
* `Phrase.Sound`: Phrases that are spelled out as the lexer needs it.

## Theorems

* `sound_phrase`: The phrases of faithful expressions are sound.
-/

namespace Rendition

namespace Source

/-- Gaps without comments and line continuations. -/
structure Gap.Simple (g : Gap) : Prop where
  plain : g.Plain
  continuations : g.continuations = []
  comment : g.commentIndent = none

theorem Gap.Simple.pending {g : Gap} (hg : g.Simple) : g.pending = [] :=
  (List.append_eq_nil_iff.mp hg.continuations).2

theorem Gap.simple_empty : Gap.Simple {} :=
  ⟨plain_empty, rfl, rfl⟩

theorem Gap.simple_blank : Gap.Simple .blank :=
  ⟨plain_blank, rfl, rfl⟩

theorem Gap.simple_line (n : Nat) : Gap.Simple (.line n) :=
  ⟨plain_line n, rfl, rfl⟩

namespace Lexeme

/-- The characters that end every operand. -/
def closes (c : Char) : Bool :=
  ends c && c != '.'

theorem closes_ends {c : Char} (h : closes c = true) : ends c = true :=
  (Bool.and_eq_true_iff.mp h).1

theorem closes_ne_point {c : Char} (h : closes c = true) : c ≠ '.' :=
  bne_iff_ne.mp (Bool.and_eq_true_iff.mp h).2

/-- No mark goes on with a character that an operand starts with. -/
theorem continuesMark_opens {c : Char} (h : opens c = true) : continuesMark c = false := by
  refine Bool.eq_false_iff.mpr fun hmark => ?_
  simp only [continuesMark, List.contains_iff_mem, List.mem_cons, List.not_mem_nil,
    or_false] at hmark
  rcases hmark with rfl | rfl | rfl | rfl | rfl | rfl <;> exact absurd h (by decide)

/-- The lexer finds lexemes in front of a character. -/
def Fits (ls : List Lexeme) (c : Char) : Prop :=
  ∀ rest, Apart ls (c :: rest)

/-- What is spelled in front of a character starts with a character. -/
def Heads (ls : List Lexeme) (c d : Char) : Prop :=
  ∃ more, spell ls ++ [c] = d :: more

theorem fits_nil (c : Char) : Fits [] c :=
  fun _ => trivial

theorem fits_cons {l : Lexeme} {ls : List Lexeme} {c d : Char} (hl : ∀ rest, l.Leads (d :: rest))
    (hhead : Heads ls c d) (hls : Fits ls c) : Fits (l :: ls) c := by
  intro rest
  obtain ⟨more, hmore⟩ := hhead
  refine ⟨?_, hls rest⟩
  rw [← List.singleton_append (l := rest), ← List.append_assoc, hmore]
  exact hl (more ++ rest)

theorem fits_append {as bs : List Lexeme} {c d : Char} (has : Fits as d) (hhead : Heads bs c d)
    (hbs : Fits bs c) : Fits (as ++ bs) c := by
  intro rest
  obtain ⟨more, hmore⟩ := hhead
  refine apart_append.mpr ⟨?_, hbs rest⟩
  rw [← List.singleton_append (l := rest), ← List.append_assoc, hmore]
  exact has (more ++ rest)

theorem fits_singleton {l : Lexeme} {c : Char} (hl : ∀ rest, l.Leads (c :: rest)) : Fits [l] c :=
  fits_cons hl ⟨[], rfl⟩ (fits_nil c)

theorem spell_append (as bs : List Lexeme) : spell (as ++ bs) = spell as ++ spell bs :=
  List.flatMap_append

theorem heads_append {as bs : List Lexeme} {d : Char} {more : List Char}
    (h : spell as = d :: more) (c : Char) : Heads (as ++ bs) c d :=
  ⟨more ++ spell bs ++ [c], by rw [spell_append, h]; rfl⟩

theorem exists_heads (ls : List Lexeme) (c : Char) : ∃ d, Heads ls c d := by
  obtain ⟨d, more, h⟩ := List.exists_cons_of_ne_nil
    (List.append_ne_nil_of_right_ne_nil (spell ls) (List.cons_ne_nil c []))
  exact ⟨d, more, h⟩

/-- A lexeme is spelled out behind its gap. -/
theorem spell_cons_gap (g : Gap) (kind : TokenKind) (text : String) (ls : List Lexeme) :
    spell (⟨g, kind, text⟩ :: ls) = g.text ++ spell (⟨{}, kind, text⟩ :: ls) := by
  simp only [spell, List.flatMap_cons, chars, List.append_assoc, List.nil_append]

theorem spell_singleton (kind : TokenKind) (text : String) :
    spell [⟨{}, kind, text⟩] = text.toList := by
  simp only [spell, List.flatMap_cons, List.flatMap_nil, chars, List.nil_append, List.append_nil]

end Lexeme

end Source

namespace Python

open Source Source.Lexeme

/-- Phrases that are spelled out behind their gap and end in front of the characters that `stop`
    accepts. -/
structure Spelled (stop : Char → Bool) (p : Phrase) : Prop where
  moves : ∀ g, spell (p g) = g.text ++ spell (p {})
  fits : ∀ g, g.Simple → ∀ c, stop c = true → Fits (p g) c

/-- Phrases that start like an operand besides. -/
structure Sound (stop : Char → Bool) (p : Phrase) : Prop extends Spelled stop p where
  starts : ∃ d more, spell (p {}) = d :: more ∧ opens d = true

variable {stop : Char → Bool} {p : Phrase}

theorem Spelled.headsBlank (h : Spelled stop p) (ls : List Lexeme) (c : Char) :
    Heads (p .blank ++ ls) c ' ' :=
  heads_append (h.moves .blank) c

theorem Spelled.heads_blank (h : Spelled stop p) (c : Char) : Heads (p .blank) c ' ' :=
  ⟨_, by rw [h.moves]; rfl⟩

theorem Spelled.weaken {stop' : Char → Bool} (h : Spelled stop p)
    (hstop : ∀ c, stop' c = true → stop c = true) : Spelled stop' p :=
  ⟨h.moves, fun g hg c hc => h.fits g hg c (hstop c hc)⟩

theorem Sound.weaken (h : Sound ends p) : Sound closes p :=
  ⟨h.toSpelled.weaken fun _ => closes_ends, h.starts⟩

theorem Sound.heads (h : Sound stop p) (ls : List Lexeme) (c : Char) :
    ∃ d, Heads (p {} ++ ls) c d ∧ opens d = true := by
  obtain ⟨d, more, hstart, hd⟩ := h.starts
  exact ⟨d, heads_append hstart c, hd⟩

/-- A bracket or a comma is found in front of every character. -/
theorem leads_bracket {g : Gap} (hg : g.Plain) {text : String}
    (h : text ∈ ["(", ")", "[", "]", "\x7b", "\x7d", ",", "~"]) (c : Char) (rest : List Char) :
    (mark text g).Leads (c :: rest) := by
  have hmark : ∀ t ∈ ["(", ")", "[", "]", "\x7b", "\x7d", ",", "~"], t ∈ marks := by decide
  exact leads_mark hg (hmark text h) (stands_bracket h c) rest

/-- A mark is found in front of a character that no mark goes on with. -/
theorem leads_operator {g : Gap} (hg : g.Plain) {text : String} (hmark : text ∈ marks)
    (hpoint : text ≠ ".") {c : Char} (hc : continuesMark c = false) (rest : List Char) :
    (mark text g).Leads (c :: rest) := by
  have hne : ∀ m ∈ marks, m.toList ≠ [] := by decide
  exact leads_mark hg hmark
    (stands_of_continuesMark (hne text hmark) hc fun h => absurd h hpoint) rest

theorem sound_word {text : String} (h : Text.IsName text) :
    Sound ends fun g => [word text g] := by
  refine ⟨⟨fun g => spell_cons_gap .., ?_⟩, ?_⟩
  · intro g hg c hc
    exact fits_singleton (leads_word hg.plain h hc)
  · obtain ⟨d, ds, htext, hd, -⟩ := h
    exact ⟨d, ds, (spell_singleton _ _).trans htext, by simp [opens, hd]⟩

/-- Lexemes between brackets end in front of every character. -/
theorem sound_between (stop : Char → Bool) {opening closing : String} {d : Char}
    (hopening : opening ∈ ["(", "[", "\x7b"]) (hclosing : closing ∈ [")", "]", "\x7d"])
    (hd : closing.toList = [d]) {inner : List Lexeme} (h : Fits inner d) :
    Sound stop fun g => mark opening g :: (inner ++ [mark closing {}]) := by
  have hsubset : ∀ t ∈ ["(", "[", "\x7b"],
      t ∈ ["(", ")", "[", "]", "\x7b", "\x7d", ",", "~"] ∧ t.toList.head?.any opens = true := by
    decide
  have hsubset' : ∀ t ∈ [")", "]", "\x7d"],
      t ∈ ["(", ")", "[", "]", "\x7b", "\x7d", ",", "~"] := by decide
  refine ⟨⟨fun g => spell_cons_gap .., ?_⟩, ?_⟩
  · intro g hg c _
    obtain ⟨e, he⟩ := exists_heads (inner ++ [mark closing {}]) c
    refine fits_cons (leads_bracket hg.plain (hsubset opening hopening).1 e) he ?_
    refine fits_append h ⟨[c], ?_⟩ (fits_singleton ?_)
    · simp only [spell, List.flatMap_cons, List.flatMap_nil, mark, chars, hd, List.nil_append,
        List.append_nil, List.singleton_append]
    · exact leads_bracket Gap.plain_empty (hsubset' closing hclosing) c
  · have hopens := (hsubset opening hopening).2
    rcases htext : opening.toList with _ | ⟨e, more⟩
    · rw [htext] at hopens
      cases hopens
    · rw [htext] at hopens
      exact ⟨e, _, by simp only [spell, List.flatMap_cons, mark, chars, htext]; rfl, hopens⟩

theorem sound_enclosed (stop : Char → Bool) {inner : List Lexeme} (h : Fits inner ')') :
    Sound stop (enclosed inner) :=
  sound_between stop (by decide) (by decide) rfl h

/-- Phrases with commas between them. -/
theorem fits_row {ps : List Phrase} (h : ∀ p ∈ ps, Spelled stop p) (hcomma : stop ',' = true)
    {g : Gap} (hg : g.Simple) {c : Char} (hc : stop c = true) : Fits (row ps g) c := by
  rcases ps with _ | ⟨p, rest⟩
  · exact fits_nil c
  have hp := h p List.mem_cons_self
  have hrest : ∀ q ∈ rest, Spelled stop q := fun q hq => h q (List.mem_cons_of_mem p hq)
  clear h
  have htail : Fits (rest.flatMap fun q => mark "," {} :: q .blank) c ∧
      ∃ d, Heads (rest.flatMap fun q => mark "," {} :: q .blank) c d ∧ stop d = true := by
    induction rest with
    | nil => exact ⟨fits_nil c, c, ⟨[], rfl⟩, hc⟩
    | cons q rest ih =>
      have hq := hrest q List.mem_cons_self
      obtain ⟨hfits, d, hhead, hd⟩ := ih fun q hq => hrest q (List.mem_cons_of_mem _ hq)
      rw [List.flatMap_cons, List.cons_append]
      refine ⟨?_, ',', ⟨_, rfl⟩, hcomma⟩
      refine fits_cons (leads_bracket Gap.plain_empty (by decide) ' ') (hq.headsBlank _ c) ?_
      exact fits_append (hq.fits .blank Gap.simple_blank d hd) hhead hfits
  obtain ⟨hfits, d, hhead, hd⟩ := htail
  exact fits_append (hp.fits g hg d hd) hhead hfits

theorem sound_constant {value : Literal} (hfaithful : Faithful (.constant value))
    (hint : ∀ n, value = .int n → 0 ≤ n ∧ n < Word.signedBound) :
    Sound closes (fun g => [constant value g]) ∧
      ((∀ n, value ≠ .int n) → Sound ends fun g => [constant value g]) := by
  cases value with
  | none =>
    have h := sound_word (Text.isName_reserved (show Source.isReserved "None" = true by decide))
    exact ⟨h.weaken, fun _ => h⟩
  | bool value =>
    have htrue := sound_word (Text.isName_reserved (show Source.isReserved "True" = true by decide))
    have hfalse := sound_word (Text.isName_reserved (show Source.isReserved "False" = true by decide))
    cases value with
    | false => exact ⟨hfalse.weaken, fun _ => hfalse⟩
    | true => exact ⟨htrue.weaken, fun _ => htrue⟩
  | int value =>
    refine ⟨?_, fun h => absurd rfl (h value)⟩
    obtain ⟨k, rfl⟩ := Int.eq_ofNat_of_zero_le (hint value rfl).1
    have htext : (toString (k : Int)).toList = Nat.toDigits 10 k := toList_toString_nat k
    have hne : (toString (k : Int)).toList ≠ [] := by
      rw [htext]
      exact Nat.toDigits_ne_nil
    have hdigits : ∀ d ∈ (toString (k : Int)).toList, d.isDigit = true := by
      rw [htext]
      exact digits_toDigits k
    refine ⟨⟨fun g => spell_cons_gap .., ?_⟩, ?_⟩
    · intro g hg c hc
      exact fits_singleton
        (leads_integer hg.plain hne hdigits (closes_ends hc) (closes_ne_point hc))
    · obtain ⟨d, ds, hd⟩ := List.exists_cons_of_ne_nil hne
      have hdigit := hdigits d (by rw [hd]; exact List.mem_cons_self)
      exact ⟨d, ds, (spell_singleton _ _).trans hd, by simp [opens, hdigit]⟩
  | float value =>
    obtain ⟨y, hy, -⟩ := hfaithful
    have hfloat := isFloat_text hy
    have hsound : Sound ends fun g => [constant (.float value) g] := by
      refine ⟨⟨fun g => spell_cons_gap .., ?_⟩, ?_⟩
      · intro g hg c hc
        exact fits_singleton (leads_float hg.plain hfloat hc)
      · obtain ⟨d, ds, hd, hdigit⟩ := head_isFloat hfloat
        exact ⟨d, ds, (spell_singleton _ _).trans hd, by simp [opens, hdigit]⟩
    exact ⟨hsound.weaken, fun _ => hsound⟩
  | str text =>
    have hsound : Sound ends fun g => [constant (.str text) g] := by
      refine ⟨⟨fun g => spell_cons_gap .., ?_⟩, ?_⟩
      · intro g hg c hc
        refine fits_singleton (leads_string hg.plain hg.pending hfaithful ?_)
        rintro rfl
        exact absurd hc (by decide)
      · exact ⟨'"', _, (spell_singleton _ _).trans (Text.toList_quote text), by decide⟩
    exact ⟨hsound.weaken, fun _ => hsound⟩

theorem symbol_mem_marks (op : Operator) :
    op.symbol ∈ marks ∧ op.symbol ≠ "." := by
  cases op <;> decide

theorem fits_comparison (op : Comparison) {ls : List Lexeme} {c : Char} (hls : Fits ls c)
    (hhead : Heads ls c ' ') : Fits (comparison op ++ ls) c ∧ Heads (comparison op ++ ls) c ' ' := by
  have hword {text : String} (h : Text.IsName text) {more : List Lexeme} (hmore : Fits more c)
      (hblank : Heads more c ' ') : Fits (word text .blank :: more) c :=
    fits_cons (leads_word Gap.plain_blank h (by decide)) hblank hmore
  have hmark {text : String} (h : text ∈ marks) (hpoint : text ≠ ".") :
      Fits (mark text .blank :: ls) c :=
    fits_cons (leads_operator Gap.plain_blank h hpoint (by decide)) hhead hls
  have hin : Text.IsName "in" := Text.isName_reserved (by decide)
  have his : Text.IsName "is" := Text.isName_reserved (by decide)
  have hnot : Text.IsName "not" := Text.isName_reserved (by decide)
  cases op with
  | is => exact ⟨hword his hls hhead, _, rfl⟩
  | isNot => exact ⟨hword his (hword hnot hls hhead) ⟨_, rfl⟩, _, rfl⟩
  | isIn => exact ⟨hword hin hls hhead, _, rfl⟩
  | notIn => exact ⟨hword hnot (hword hin hls hhead) ⟨_, rfl⟩, _, rfl⟩
  | eq => exact ⟨hmark (by decide) (by decide), _, rfl⟩
  | notEq => exact ⟨hmark (by decide) (by decide), _, rfl⟩
  | lt => exact ⟨hmark (by decide) (by decide), _, rfl⟩
  | ltE => exact ⟨hmark (by decide) (by decide), _, rfl⟩
  | gt => exact ⟨hmark (by decide) (by decide), _, rfl⟩
  | gtE => exact ⟨hmark (by decide) (by decide), _, rfl⟩

/-- A sound phrase stays one with further lexemes behind it. -/
theorem Sound.append {stop stop' : Char → Bool} {p : Phrase} {d : Char} (h : Sound stop p)
    (hd : stop d = true) {ls : List Lexeme} (hhead : ∀ c, Heads ls c d)
    (hls : ∀ c, stop' c = true → Fits ls c) : Sound stop' fun g => p g ++ ls := by
  refine ⟨⟨?_, ?_⟩, ?_⟩
  · intro g
    rw [spell_append, spell_append, h.moves g, List.append_assoc]
  · intro g hg c hc
    exact fits_append (h.fits g hg d hd) (hhead c) (hls c hc)
  · obtain ⟨d, more, hstart, hd⟩ := h.starts
    exact ⟨d, _, by rw [spell_append, hstart]; rfl, hd⟩

/-- A name behind a point. -/
theorem fits_point {name : String} (h : Text.IsName name) {ls : List Lexeme} {c d : Char}
    (hls : Fits ls c) (hhead : Heads ls c d) (hd : ends d = true) :
    Fits (mark "." {} :: word name {} :: ls) c ∧
      Heads (mark "." {} :: word name {} :: ls) c '.' := by
  obtain ⟨e, es, htext, he, -⟩ := id h
  have hstands : Lexeme.Stands "." e :=
    stands_of_continuesMark (by decide) (continuesMark_opens (by simp [opens, he])) fun _ =>
      Bool.eq_false_iff.mpr fun hdigit => by
        rw [startsName_of_isDigit hdigit] at he
        cases he
  refine ⟨fits_cons (d := e) (leads_mark Gap.plain_empty (by decide) hstands) ?_
    (fits_cons (leads_word Gap.plain_empty h hd) hhead hls), _, rfl⟩
  exact ⟨es ++ spell ls ++ [c], by
    simp only [spell, List.flatMap_cons, word, chars, htext, List.nil_append, List.cons_append]⟩

/-- The phrase of a tree is sound, and ends in front of a point unless the tree is an integer. -/
structure Stands (t : Tree) : Prop where
  sound : Sound closes (phrase t)
  point : (∀ n, t.node ≠ .constant (.int n)) → Sound ends (phrase t)

theorem Stands.of_sound {t : Tree} (h : Sound ends (phrase t)) : Stands t :=
  ⟨h.weaken, fun _ => h⟩

theorem Stands.of_enclosed {t : Tree} {inner : List Lexeme} (h : phrase t = enclosed inner)
    (hinner : Fits inner ')') : Stands t :=
  .of_sound (h ▸ sound_enclosed ends hinner)

/-- The characters that end a slice. -/
def closesSlice (c : Char) : Bool :=
  closes c && !continuesMark c

theorem leads_colon {g : Gap} (hg : g.Plain) {c : Char} (hc : continuesMark c = false)
    (rest : List Char) : (mark ":" g).Leads (c :: rest) :=
  leads_operator hg (by decide) (by decide) hc rest

theorem fits_stepPhrase {step : Option Tree} (h : ∀ e ∈ step, Stands e) {c : Char}
    (hc : closesSlice c = true) : Fits (stepPhrase step) c ∧
      ∃ d, Heads (stepPhrase step) c d ∧ closes d = true ∧ continuesMark d = false := by
  rw [closesSlice, Bool.and_eq_true, Bool.not_eq_true'] at hc
  rcases step with _ | step
  · exact ⟨fits_nil c, c, ⟨[], rfl⟩, hc⟩
  · have hsound := (h step rfl).sound
    obtain ⟨d, hhead, hd⟩ := hsound.heads [] c
    rw [List.append_nil] at hhead
    exact ⟨fits_cons (leads_colon Gap.plain_empty (continuesMark_opens hd)) hhead
      (hsound.fits {} Gap.simple_empty c hc.1), ':', ⟨_, rfl⟩, by decide, by decide⟩

/-- What follows the first colon of a slice. -/
theorem fits_upperPhrase {upper step : Option Tree} (hupper : ∀ e ∈ upper, Stands e)
    (hstep : ∀ e ∈ step, Stands e) {c : Char} (hc : closesSlice c = true) :
    Fits (optionalPhrase upper {} ++ stepPhrase step) c ∧
      ∃ d, Heads (optionalPhrase upper {} ++ stepPhrase step) c d ∧ continuesMark d = false := by
  obtain ⟨hfits, d, hhead, hd, hmark⟩ := fits_stepPhrase hstep hc
  rcases upper with _ | upper
  · exact ⟨hfits, d, hhead, hmark⟩
  · have hsound := (hupper upper rfl).sound
    obtain ⟨e, hstart, he⟩ := hsound.heads (stepPhrase step) c
    exact ⟨fits_append (hsound.fits {} Gap.simple_empty d hd) hhead hfits, e, hstart,
      continuesMark_opens he⟩

/-- The phrase of a slice, from those of its bounds. -/
theorem spelled_slice {span : Span} {lower upper step : Option Tree}
    (h : ∀ e ∈ lower.toList ++ upper.toList ++ step.toList, Stands e) :
    Spelled closesSlice (phrase (.mk span (.slice lower upper step))) := by
  simp only [List.mem_append, Option.mem_toList] at h
  rw [phrase_slice]
  constructor
  · intro g
    rcases lower with _ | lower
    · exact spell_cons_gap ..
    · simp only [lowerPhrase, List.append_assoc]
      rw [spell_append, spell_append (phrase lower {}),
        (h lower (.inl (.inl rfl))).sound.moves g, List.append_assoc]
  · intro g hg c hc
    obtain ⟨hfits, d, hhead, hmark⟩ := fits_upperPhrase (fun e he => h e (.inl (.inr he)))
      (fun e he => h e (.inr he)) hc
    have hcolon {g : Gap} (hg : g.Simple) := fits_cons (leads_colon hg.plain hmark) hhead hfits
    rcases lower with _ | lower
    · exact hcolon hg
    · have hlow := (h lower (.inl (.inl rfl))).sound.fits g hg ':' (by decide)
      simpa only [lowerPhrase, List.append_assoc, List.cons_append, List.nil_append] using
        fits_append hlow ⟨_, rfl⟩ (hcolon Gap.simple_empty)

/-- The indices of a subscript, from the expressions in them. -/
theorem spelled_index {t : Tree} (h : ∀ e ∈ t.bounds, Stands e) :
    Spelled closesSlice (phrase t) := by
  rcases t with ⟨span, node⟩
  have hsingle (ht : Stands (.mk span node)) : Spelled closesSlice (phrase (.mk span node)) :=
    ht.sound.toSpelled.weaken fun c hc => (Bool.and_eq_true_iff.mp hc).1
  cases node with
  | slice lower upper step => exact spelled_slice h
  | _ => exact hsingle (h _ (List.mem_singleton.mpr rfl))

/-- A keyword argument, from its value. -/
theorem spelled_keyword {keyword : Keyword Tree} (hname : Text.IsName keyword.name)
    (hvalue : Sound closes (phrase keyword.value)) : Spelled closes (keywordPhrase keyword) := by
  refine ⟨fun g => spell_cons_gap .., fun g hg c hc => ?_⟩
  obtain ⟨d, hhead, hd⟩ := hvalue.heads [] c
  rw [List.append_nil] at hhead
  refine fits_cons (leads_word hg.plain hname (c := '=') (by decide)) ⟨_, rfl⟩ (fits_cons ?_ hhead
    (hvalue.fits {} Gap.simple_empty c hc))
  exact leads_operator Gap.plain_empty (by decide) (by decide) (continuesMark_opens hd)

/-- An entry of a dictionary, from its key and its value. -/
theorem spelled_entry {entry : Tree × Tree} (hkey : Sound closes (phrase entry.1))
    (hvalue : Sound closes (phrase entry.2)) : Spelled closes (entryPhrase entry) := by
  refine (Sound.append hkey (d := ':') (by decide) (fun c => ⟨_, rfl⟩)
    fun c hc => ?_).toSpelled
  exact fits_cons (leads_colon Gap.plain_empty (by decide)) (hvalue.heads_blank c)
    (hvalue.fits .blank Gap.simple_blank c hc)

/-- Links of a chain, each behind a blank. -/
theorem fits_links {α : Type} {link : α → List Lexeme} {links : List α}
    (h : ∀ a ∈ links, ∀ ls c, Fits ls c → (∃ d, Heads ls c d ∧ closes d = true) →
      Fits (link a ++ ls) c ∧ Heads (link a ++ ls) c ' ') :
    Fits (links.flatMap link) ')' ∧
      ∃ d, Heads (links.flatMap link) ')' d ∧ closes d = true := by
  induction links with
  | nil => exact ⟨fits_nil _, ')', ⟨[], rfl⟩, by decide⟩
  | cons a rest ih =>
    obtain ⟨hfits, hhead⟩ := ih fun b hb => h b (List.mem_cons_of_mem a hb)
    obtain ⟨hfits', hhead'⟩ := h a List.mem_cons_self _ _ hfits hhead
    exact ⟨hfits', ' ', hhead', by decide⟩

theorem leads_blankWord {text : String} (h : Text.IsName text) (rest : List Char) :
    (word text .blank).Leads (' ' :: rest) :=
  leads_word Gap.plain_blank h (by decide) rest

/-- The phrases of faithful expressions are sound. -/
theorem stands_phrase {t : Tree} (h : t.IsExpression Faithful) : Stands t := by
  induction h with
  | @ident span id hok hname hvariable =>
    refine .of_sound ?_
    rw [phrase_ident]
    exact sound_word hname
  | @constant span value hok hint =>
    have hsound := sound_constant hok hint
    rw [← phrase_constant span] at hsound
    refine ⟨hsound.1, fun h => hsound.2 fun n hn => h n ?_⟩
    rw [Tree.node_mk, hn]
  | @binOp span left right op hok hleft hright ihleft ihright =>
    have hop := symbol_mem_marks op
    refine .of_enclosed (phrase_binOp span left right op) ?_
    refine fits_append (ihleft.sound.fits {} Gap.simple_empty ' ' (by decide)) ⟨_, rfl⟩ ?_
    refine fits_cons (leads_operator Gap.plain_blank hop.1 hop.2 (by decide))
      (ihright.sound.heads_blank ')') ?_
    exact ihright.sound.fits .blank Gap.simple_blank ')' (by decide)
  | @unaryOp span op operand hok hoperand ih =>
    refine .of_enclosed (phrase_unaryOp span op operand) ?_
    split
    · exact fits_cons (leads_word Gap.plain_empty (Text.isName_reserved (by decide)) (by decide)) (ih.sound.heads_blank ')')
        (ih.sound.fits .blank Gap.simple_blank ')' (by decide))
    · rename_i hne
      have hop : op.symbol ∈ marks ∧ op.symbol ≠ "." := by
        cases op with
        | not => exact absurd rfl hne
        | _ => decide
      obtain ⟨d, hhead, hd⟩ := ih.sound.heads [] ')'
      rw [List.append_nil] at hhead
      exact fits_cons (leads_operator Gap.plain_empty hop.1 hop.2 (continuesMark_opens hd)) hhead
        (ih.sound.fits {} Gap.simple_empty ')' (by decide))
  | @compare span left ops comparators hok hops hlength hleft hcomparators ihleft ih =>
    refine .of_enclosed (phrase_compare span left ops comparators) ?_
    obtain ⟨hfits, d, hhead, hd⟩ := @fits_links _
      (fun link : Comparison × Tree => comparison link.1 ++ phrase link.2 .blank)
      (ops.zip comparators) (by
        intro link hlink ls c hls hhead
        obtain ⟨d, hhead, hd⟩ := hhead
        have hoperand := (ih link.2 (List.of_mem_zip hlink).2).sound
        rw [List.append_assoc]
        exact fits_comparison link.1
          (fits_append (hoperand.fits .blank Gap.simple_blank d hd) hhead hls)
          (hoperand.headsBlank ls c))
    exact fits_append (ihleft.sound.fits {} Gap.simple_empty d hd) hhead hfits
  | @boolOp span op values hok hlength hvalues ih =>
    rcases values with _ | ⟨first, rest⟩
    · exact absurd hlength (by decide)
    refine .of_enclosed (phrase_boolOp span op first rest) ?_
    obtain ⟨hfits, d, hhead, hd⟩ := @fits_links _
      (fun value : Tree => word op.symbol .blank :: phrase value .blank) rest (by
        intro value hvalue ls c hls hhead
        obtain ⟨d, hhead, hd⟩ := hhead
        have hsound := (ih value (List.mem_cons_of_mem first hvalue)).sound
        have hword : Text.IsName op.symbol := by cases op <;> exact Text.isName_reserved (by decide)
        exact ⟨fits_cons (leads_blankWord hword) (hsound.headsBlank ls c)
          (fits_append (hsound.fits .blank Gap.simple_blank d hd) hhead hls), _, rfl⟩)
    exact fits_append ((ih first List.mem_cons_self).sound.fits {} Gap.simple_empty d hd) hhead
      hfits
  | @call span func args keywords hok hfunc hargs hnames hkeywords ihfunc ihargs ih =>
    refine .of_sound ?_
    rw [phrase_call]
    have hrow : Fits (row (args.map phrase ++ keywords.map keywordPhrase) {}) ')' := by
      refine @fits_row closes _ (fun p hp => ?_) (by decide) _ Gap.simple_empty _ (by decide)
      rcases List.mem_append.mp hp with hp | hp
      · obtain ⟨a, ha, rfl⟩ := List.mem_map.mp hp
        exact (ihargs a ha).sound.toSpelled
      · obtain ⟨k, hk, rfl⟩ := List.mem_map.mp hp
        exact spelled_keyword (hnames k hk).1 (ih k hk).sound
    exact ihfunc.sound.append (d := '(') (by decide) (fun c => ⟨_, rfl⟩)
      fun c hc => (sound_enclosed ends hrow).fits {} Gap.simple_empty c hc
  | @attr span value name hok hvalue hname ih =>
    refine .of_sound ?_
    rw [phrase_attr]
    refine (ih.point hok).append (d := '.') (by decide) (fun c => ⟨_, rfl⟩) fun c hc => ?_
    exact (fits_point hname.1 (fits_nil c) ⟨[], rfl⟩ hc).1
  | @subscript span value index hok hvalue hindex ihvalue ih =>
    refine .of_sound ?_
    rw [phrase_subscript]
    have hrow : Fits (indexPhrase index) ']' := by
      rw [indexPhrase_eq]
      refine @fits_row closesSlice _ (fun p hp => ?_) (by decide) _ Gap.simple_empty _
        (by decide)
      obtain ⟨i, hi, rfl⟩ := List.mem_map.mp hp
      exact spelled_index (ih i hi)
    refine ihvalue.sound.append (d := '[') (by decide) (fun c => ⟨_, rfl⟩) fun c hc => ?_
    exact (@sound_between ends "[" "]" ']' (by decide) (by decide) rfl _ hrow).fits {} Gap.simple_empty c hc
  | @list span items hok hitems ih =>
    refine .of_sound ?_
    rw [phrase_list]
    refine sound_between ends (by decide) (by decide) rfl (d := ']') ?_
    refine @fits_row closes _ (fun p hp => ?_) (by decide) _ Gap.simple_empty _ (by decide)
    obtain ⟨i, hi, rfl⟩ := List.mem_map.mp hp
    exact (ih i hi).sound.toSpelled
  | @tuple span items hok hitems ih =>
    by_cases hsingle : items.length = 1
    · obtain ⟨single, rfl⟩ := List.length_eq_one_iff.mp hsingle
      refine .of_enclosed (phrase_tuple_single span single) ?_
      exact fits_append ((ih single List.mem_cons_self).sound.fits {} Gap.simple_empty ','
        (by decide)) ⟨_, rfl⟩ (fits_singleton (leads_bracket Gap.plain_empty (by decide) ')'))
    · refine .of_enclosed (phrase_tuple span items hsingle) ?_
      refine @fits_row closes _ (fun p hp => ?_) (by decide) _ Gap.simple_empty _ (by decide)
      obtain ⟨i, hi, rfl⟩ := List.mem_map.mp hp
      exact (ih i hi).sound.toSpelled
  | @dict span entries hok hkeys hvalues ihkeys ihvalues =>
    refine .of_sound ?_
    rw [phrase_dict]
    refine sound_between ends (by decide) (by decide) rfl (d := '\x7d') ?_
    refine @fits_row closes _ (fun p hp => ?_) (by decide) _ Gap.simple_empty _ (by decide)
    obtain ⟨e, he, rfl⟩ := List.mem_map.mp hp
    exact spelled_entry (ihkeys e he).sound (ihvalues e he).sound
  | @ifExp span test body orelse hok htest hbody horelse ihtest ihbody ihorelse =>
    refine .of_enclosed (phrase_ifExp span test body orelse) ?_
    rw [List.append_assoc, List.cons_append]
    refine fits_append (ihbody.sound.fits {} Gap.simple_empty ' ' (by decide)) ⟨_, rfl⟩ ?_
    refine fits_cons (leads_blankWord (Text.isName_reserved (by decide))) (ihtest.sound.headsBlank _ _) ?_
    refine fits_append (ihtest.sound.fits .blank Gap.simple_blank ' ' (by decide)) ⟨_, rfl⟩ ?_
    exact fits_cons (leads_blankWord (Text.isName_reserved (by decide))) (ihorelse.sound.heads_blank _)
      (ihorelse.sound.fits .blank Gap.simple_blank ')' (by decide))
  | @lambda span params body hok hparams hbody ih =>
    refine .of_enclosed (phrase_lambda span params body) ?_
    have hrow : Fits (row (params.map fun param g => [word param g]) .blank) ':' := by
      refine @fits_row closes _ (fun p hp => ?_) (by decide) _ Gap.simple_blank _ (by decide)
      obtain ⟨param, hparam, rfl⟩ := List.mem_map.mp hp
      exact (sound_word (hparams param hparam).1).weaken.toSpelled
    have hlambda : Text.IsName "lambda" := Text.isName_reserved (by decide)
    have hbody := fits_cons (leads_colon Gap.plain_empty (c := ' ') (by decide))
      (ih.sound.heads_blank ')') (ih.sound.fits .blank Gap.simple_blank ')' (by decide))
    rw [List.cons_append]
    rcases params with _ | ⟨param, params⟩
    · exact fits_cons (leads_word Gap.plain_empty hlambda (c := ':') (by decide)) ⟨_, rfl⟩ hbody
    · exact fits_cons (leads_word Gap.plain_empty hlambda (c := ' ') (by decide)) ⟨_, rfl⟩
        (fits_append hrow ⟨_, rfl⟩ hbody)

end Python

end Rendition
