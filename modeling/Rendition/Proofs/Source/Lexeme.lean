import Rendition.Source.Lexer

/-!
# Lexemes

A token without its place: the gap before it, its kind and its text. A text that is the
concatenation of lexemes is cut into just these tokens by the lexer, provided that no lexeme runs
into the next one. Whether it does depends on the character that follows it.

## Main definitions

* `Lexeme`: A token without its place.
* `Lexeme.lay`: The tokens of a list of lexemes from a place on.
* `Lexeme.Leads`: The lexer finds the lexeme in front of a text.
* `Lexeme.Apart`: The lexer finds all lexemes of a list in front of a text.

## Theorems

* `tokensWithin_apart`: The lexer finds lexemes that are apart.
* `leads_code`: A lexeme is found where the lexer finds its text.
-/

namespace Rendition.Source

namespace Gap

/-- The gap of one blank. -/
def blank : Gap :=
  { text := [' '], indent := 1 }

/-- The gap before a line with the given indentation. -/
def line (indent : Nat) : Gap :=
  { text := '\n' :: List.replicate indent ' ', breaksLine := true, indent }

/-- Whether a gap goes on with a character. -/
def takes (c : Char) : Bool :=
  c = '\n' || c = ' ' || c = '\t' || c = '\r' || c.toNat = 0x0C || isSeparator c || c = '#'
    || c = '\\'

/-- The gap ends before a character that no gap takes. -/
theorem scanFrom_stop {s : Scan} (hs : s.inComment = false) {c : Char} (hc : takes c = false)
    (rest : List Char) : scanFrom s (c :: rest) = (s, c :: rest) := by
  simp only [takes, Bool.or_eq_false_iff, decide_eq_false_iff_not] at hc
  obtain ⟨⟨⟨⟨⟨⟨⟨hline, hblank⟩, htab⟩, hreturn⟩, hfeed⟩, hseparator⟩, hcomment⟩, hslash⟩ := hc
  rw [scanFrom.eq_def]
  simp only [hs, hline, hblank, htab, hreturn, hfeed, hseparator, hcomment, hslash, or_self,
    if_false, Bool.false_eq_true]

/-- A gap that is found in front of every text that no gap goes on with. -/
def Plain (g : Gap) : Prop :=
  ∀ span c rest, takes c = false →
    scan span (g.text ++ c :: rest) = (g, span.after g.text, c :: rest)

theorem plain_empty : Plain {} := by
  intro span c rest hc
  simp only [scan, List.nil_append, scanFrom_stop (s := { gap := {}, span := span }) rfl hc]
  rfl

theorem plain_blank : Plain blank := by
  intro span c rest hc
  simp only [scan, blank, List.cons_append, List.nil_append]
  rw [scanFrom.eq_def]
  simp only [Bool.false_eq_true, if_false, if_true, show ¬ ' ' = '\n' by decide]
  rw [scanFrom_stop rfl hc]
  rfl

/-- Blanks count towards the indentation. -/
theorem scanFrom_blanks (n : Nat) : ∀ (s : Scan), s.inComment = false → s.blind = false →
    ∀ rest, scanFrom s (List.replicate n ' ' ++ rest) = scanFrom { s with
      gap := { s.gap with
        text := s.gap.text ++ List.replicate n ' ', indent := s.gap.indent + n }
      span := s.span.after (List.replicate n ' ') } rest := by
  induction n with
  | zero =>
    intro s hs hblind rest
    simp only [List.replicate_zero, List.nil_append, List.append_nil, Nat.add_zero]
    rfl
  | succ n ih =>
    intro s hs hblind rest
    rw [List.replicate_succ, List.cons_append, scanFrom.eq_def]
    simp only [hs, Bool.false_eq_true, if_false, if_true, show ¬ ' ' = '\n' by decide]
    rw [ih _ (by simp [Scan.blank, Scan.take, hs, hblind]) (by simp [Scan.blank, Scan.take, hblind])]
    simp only [Scan.blank, Scan.take, hs, hblind, Bool.false_eq_true, if_false, List.append_assoc,
      List.singleton_append, Span.after, List.foldl_cons, List.foldl_nil, Nat.add_assoc,
      Nat.add_comm 1 n]

theorem plain_line (n : Nat) : Plain (line n) := by
  intro span c rest hc
  simp only [scan, line, List.cons_append]
  rw [scanFrom.eq_def]
  simp only [Bool.false_eq_true, if_false, if_true]
  rw [scanFrom_blanks n _ rfl rfl, scanFrom_stop rfl hc]
  simp only [Scan.lineEnd, Scan.take, Bool.false_eq_true, if_false, List.nil_append,
    Nat.zero_add, Span.after, List.foldl_cons, List.foldl_nil, List.singleton_append]

end Gap

/-- A token without its place. -/
structure Lexeme where
  gap : Gap
  kind : TokenKind
  text : String

namespace Lexeme

/-- The characters of the lexeme with the gap before it. -/
def chars (l : Lexeme) : List Char :=
  l.gap.text ++ l.text.toList

/-- The token of the lexeme where the gap before it starts at a place. -/
def token (s : Span) (l : Lexeme) : Token :=
  ⟨l.gap, s.after l.gap.text, l.kind, l.text⟩

/-- The characters of lexemes one after another. -/
def spell (ls : List Lexeme) : List Char :=
  ls.flatMap chars

/-- The tokens of lexemes one after another from a place on. -/
def lay : Span → List Lexeme → List Token
  | _, [] => []
  | s, l :: rest => l.token s :: lay (s.after l.chars) rest

theorem lay_append (s : Span) (as bs : List Lexeme) :
    lay s (as ++ bs) = lay s as ++ lay (s.after (spell as)) bs := by
  induction as generalizing s with
  | nil => rfl
  | cons a rest ih =>
    simp only [List.cons_append, lay, ih, spell, List.flatMap_cons, Span.after, List.foldl_append]

/-- The lexer finds the lexeme in front of a text. -/
structure Leads (l : Lexeme) (rest : List Char) : Prop where
  ne : l.chars ≠ []
  found : ∀ fuel span, tokensWithin (fuel + 1) [] span (l.chars ++ rest) =
    l.token span :: tokensWithin fuel [] (span.after l.chars) rest

/-- The lexer finds all lexemes of a list in front of a text. -/
def Apart : List Lexeme → List Char → Prop
  | [], _ => True
  | l :: ls, rest => l.Leads (spell ls ++ rest) ∧ Apart ls rest

theorem apart_append {as bs : List Lexeme} {rest : List Char} :
    Apart (as ++ bs) rest ↔ Apart as (spell bs ++ rest) ∧ Apart bs rest := by
  induction as with
  | nil => simp only [List.nil_append, Apart, true_and]
  | cons a as ih =>
    simp only [List.cons_append, Apart, ih, spell, List.flatMap_append, List.append_assoc,
      and_assoc]

/-- Lexemes that are apart are no more than their characters. -/
theorem length_le_spell {ls : List Lexeme} {rest : List Char} (h : Apart ls rest) :
    ls.length ≤ (spell ls).length := by
  induction ls with
  | nil => exact Nat.le_refl 0
  | cons l ls ih =>
    have hl := List.length_pos_iff.mpr h.1.ne
    have hls := ih h.2
    simp only [spell, List.flatMap_cons, List.length_append, List.length_cons] at hls ⊢
    omega

/-- The lexer finds lexemes that are apart. -/
theorem tokensWithin_apart {ls : List Lexeme} {rest : List Char} (h : Apart ls rest) :
    ∀ fuel span, tokensWithin (fuel + ls.length) [] span (spell ls ++ rest) =
      lay span ls ++ tokensWithin fuel [] (span.after (spell ls)) rest := by
  induction ls with
  | nil => intro fuel span; rfl
  | cons l ls ih =>
    intro fuel span
    have hspell : spell (l :: ls) = l.chars ++ spell ls := rfl
    rw [hspell, List.append_assoc, List.length_cons, ← Nat.add_assoc, h.1.found, ih h.2]
    simp only [lay, List.cons_append, Span.after, List.foldl_append]

/-- A lexeme is found where the lexer finds its text. -/
theorem leads_code {l : Lexeme} {rest : List Char} (hgap : l.gap.Plain)
    (hfirst : ∀ c ∈ l.text.toList.head?, Gap.takes c = false) (htext : l.text.toList ≠ [])
    (hopen : Delimiter.open? (l.text.toList ++ rest) = none)
    (hcode : codeToken false (l.text.toList ++ rest) = (l.kind, l.text.toList))
    (hkind : l.kind ≠ .sourceEnd ∧ l.kind ≠ .unknown) : l.Leads rest := by
  refine ⟨List.append_ne_nil_of_right_ne_nil _ htext, fun fuel span => ?_⟩
  have hscan : Gap.scan span (l.chars ++ rest) =
      (l.gap, span.after l.gap.text, l.text.toList ++ rest) := by
    rcases hchars : l.text.toList with _ | ⟨c, cs⟩
    · exact absurd hchars htext
    · simp only [chars, hchars, List.append_assoc, List.cons_append]
      exact hgap span c (cs ++ rest) (hfirst c (by rw [hchars]; rfl))
  rw [tokensWithin.eq_def]
  simp only [hscan, hopen, List.isEmpty_nil, Bool.not_true, hcode, hkind.1, hkind.2, or_self,
    if_false, List.drop_left, String.ofList_toList]
  simp only [token, chars, Span.after, List.foldl_append]

end Lexeme

end Rendition.Source
