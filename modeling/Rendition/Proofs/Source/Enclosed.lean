import Mathlib.Algebra.Ring.Parity
import Rendition.Proofs.Physl.Lockstep
import Rendition.Proofs.Python.Wording
import Rendition.Proofs.Source.Quoted

/-!
# Texts between marks

A literal is a text between two equal marks, with letters in front that say how it is read. Inside
it a backslash protects the character after it, so the literal goes on up to the first mark that is
not protected. The characters inside are read in pieces, a backslash with the character after it or
a character alone, and a text may be cut between two pieces: wherever what stands before the cut
does not end in an odd run of backslashes.

Both renditions write a text in one form. Nothing in it ends a line or the literal, and reading it
gives the text back.

## Main definitions

* `Text.slashes`: How many backslashes a text ends in.
* `Text.literalMarks`: The marks of literals.
* `Text.Enclosed`: Texts that stand between two marks.
* `Text.Survives`: A text is written by both renditions so that it can be read back.

## Theorems

* `unescape_append`: A text is read in pieces.
* `Enclosed.odd_slashes`: A mark inside stands behind an odd run of backslashes.
* `stringValue_raw`, `stringValue_cooked`: What a literal denotes.
* `quoted_survives`: Every text survives, and every literal denotes its inside.
-/

namespace Rendition

namespace Text

/-- How many backslashes a text ends in. -/
def slashes (text : List Char) : Nat :=
  (text.reverse.takeWhile (· = '\\')).length

theorem slashes_cons (c : Char) (text : List Char) : slashes (c :: text) =
    if slashes text = text.length ∧ c = '\\' then text.length + 1 else slashes text := by
  rw [slashes, slashes, List.reverse_cons, List.takeWhile_append, List.length_reverse]
  by_cases hall : (text.reverse.takeWhile (· = '\\')).length = text.length
  · by_cases hc : c = '\\'
    · simp [hall, hc]
    · simp [hall, hc]
  · simp [hall]

theorem slashes_le (text : List Char) : slashes text ≤ text.length := by
  have hlength := (List.takeWhile_sublist (l := text.reverse) (· = '\\')).length_le
  rwa [List.length_reverse] at hlength

/-- A character alone is no part of the backslashes at the end. -/
theorem slashes_plain {c : Char} (hc : c ≠ '\\') (text : List Char) :
    slashes (c :: text) = slashes text := by
  rw [slashes_cons, if_neg fun h => hc h.2]

/-- A backslash and the character after it add to the backslashes at the end together or not at
    all. -/
theorem odd_slashes_escape (c : Char) (text : List Char) :
    Odd (slashes ('\\' :: c :: text)) ↔ Odd (slashes text) := by
  have hle := slashes_le text
  simp only [slashes_cons, List.length_cons]
  split_ifs <;> grind

theorem unescape_plain {c : Char} (hc : c ≠ '\\') (rest : List Char) :
    unescape (c :: rest) = c :: unescape rest :=
  unescape.eq_4 c rest (fun h => absurd h hc) fun _ _ h => absurd h hc

theorem unescape_escape (c : Char) (rest : List Char) :
    unescape ('\\' :: c :: rest) = unescapePair c ++ unescape rest := by
  rw [unescape]

/-- A text is read in pieces: it can be cut wherever what stands before the cut does not end in an
    odd run of backslashes. -/
theorem unescape_append (a b : List Char) (h : ¬Odd (slashes a)) :
    unescape (a ++ b) = unescape a ++ unescape b := by
  induction a using unescape.induct with
  | case1 => rfl
  | case2 => exact absurd (by decide) h
  | case3 c rest ih =>
    rw [odd_slashes_escape] at h
    rw [List.cons_append, List.cons_append, unescape_escape, unescape_escape, ih h,
      List.append_assoc]
  | case4 c rest hlone hpair ih =>
    have hc : c ≠ '\\' := by
      rintro rfl
      rcases rest with _ | ⟨d, rest⟩
      · exact hlone rfl rfl
      · exact hpair d rest rfl rfl
    rw [slashes_plain hc] at h
    rw [List.cons_append, unescape_plain hc, unescape_plain hc, ih h, List.cons_append]

/-- The marks of literals. -/
def literalMarks : List (List Char) :=
  [['\''], ['"'], ['\'', '\'', '\''], ['"', '"', '"']]

/-- Texts that stand between two marks: the mark does not begin at a character that no backslash
    protects, also not if it would end in the closing mark, and a line goes on up to a mark of one
    character. -/
inductive Enclosed (mark : List Char) : List Char → Prop where
  | nil : Enclosed mark []
  | plain {c : Char} {rest : List Char} (hslash : c ≠ '\\') (hmark : ¬mark <+: c :: (rest ++ mark))
      (hline : mark.length = 1 → c ≠ '\n') (hrest : Enclosed mark rest) : Enclosed mark (c :: rest)
  | escape (c : Char) {rest : List Char} (hrest : Enclosed mark rest) :
      Enclosed mark ('\\' :: c :: rest)

/-- A mark of one character stands inside only behind an odd run of backslashes. -/
theorem Enclosed.odd_slashes {q : Char} (hq : q ≠ '\\') {body : List Char}
    (h : Enclosed [q] body) : ∀ {before after : List Char}, body = before ++ q :: after →
      Odd (slashes before) := by
  induction h with
  | nil => intro before after heq; cases before <;> cases heq
  | @plain c rest hslash hmark _ _ ih =>
    intro before after heq
    rcases before with _ | ⟨d, before⟩
    · obtain ⟨rfl, -⟩ := List.cons.inj heq
      exact absurd (List.prefix_append [c] _) hmark
    · rw [List.cons_append] at heq
      obtain ⟨rfl, hrest⟩ := List.cons.inj heq
      rw [slashes_plain hslash]
      exact ih hrest
  | @escape c rest _ ih =>
    intro before after heq
    rcases before with _ | ⟨d, _ | ⟨e, before⟩⟩
    · exact absurd (List.cons.inj heq).1.symm hq
    · obtain ⟨rfl, -⟩ := List.cons.inj heq
      decide
    · rw [List.cons_append, List.cons_append] at heq
      obtain ⟨rfl, htail⟩ := List.cons.inj heq
      obtain ⟨rfl, hrest⟩ := List.cons.inj htail
      rw [odd_slashes_escape]
      exact ih hrest

/-- The written form of a text stands between two quotes. -/
theorem enclosed_quoted (text : List Char) : Enclosed ['"'] (text.flatMap quoteChar) := by
  induction text with
  | nil => exact .nil
  | cons c rest ih =>
    rw [List.flatMap_cons]
    rcases quoteChar_cases c with ⟨d, -, hc, -⟩ | ⟨hc, hquote, hslash, hline, -⟩
    · rw [hc]
      exact .escape d ih
    · rw [hc]
      refine .plain hslash (fun hprefix => ?_) (fun _ => hline) ih
      exact hquote (List.cons_prefix_cons.mp hprefix).1.symm

/-- No character is written as one that would break the line or be taken for another blank. -/
theorem visible_quoteChar {c d : Char} (h : d ∈ quoteChar c) : d ≠ '\n' ∧ d ≠ '\r' ∧ d ≠ '\t' := by
  unfold quoteChar at h
  split_ifs at h <;> grind

/-- A text is written by both renditions so that it can be read back. -/
structure Survives (text : String) : Prop where
  /-- The one rendition writes it in this form. -/
  python (function : SourceFunction) (span : Span) (config : Config) :
    Python.renderer.render ⟨function, .mk span (.constant (.str text))⟩ config = .ok (quote text)
  /-- The other rendition writes it in the same form. -/
  physl (function : SourceFunction) (span : Span) (config : Config) :
    Physl.renderer.render ⟨function, .mk span (.constant (.str text))⟩ config = .ok (quote text)
  delimited : ∃ inner, (quote text).toList = '"' :: (inner ++ ['"'])
  /-- A quote that is neither the first nor the last character is protected. -/
  guarded {before after : List Char} (hbefore : before ≠ []) (hafter : after ≠ [])
    (h : (quote text).toList = before ++ '"' :: after) : Odd (slashes before)
  visible {c : Char} (h : c ∈ (quote text).toList) : c ≠ '\n' ∧ c ≠ '\r' ∧ c ≠ '\t'
  denoted (span : Span) : Source.stringValue span (quote text) = .ok text

end Text

namespace Source

open Text

/-- The mark in front of a literal is known from the first characters. -/
theorem mark_enclosed {mark : List Char} (hmark : mark ∈ literalMarks) {body : List Char}
    (h : Enclosed mark body) : ∃ q more, mark = q :: more ∧ (q = '"' ∨ q = '\'') ∧
      (if (more ++ (body ++ mark)).take 2 = [q, q] then [q, q, q] else [q]) = mark := by
  have hsingle : ∀ q, q ≠ '\\' → Enclosed [q] body → (body ++ [q]).take 2 ≠ [q, q] := by
    intro q hq henclosed heq
    cases henclosed with
    | nil => cases heq
    | @plain c rest hslash hmark =>
      rw [List.cons_append] at heq
      obtain ⟨rfl, -⟩ := List.cons.inj heq
      exact hmark (List.prefix_append [c] _)
    | escape c hrest => exact hq (List.cons.inj heq).1.symm
  simp only [literalMarks, List.mem_cons, List.not_mem_nil, or_false] at hmark
  rcases hmark with rfl | rfl | rfl | rfl
  · exact ⟨'\'', [], rfl, .inr rfl, if_neg (hsingle '\'' (by decide) h)⟩
  · exact ⟨'"', [], rfl, .inl rfl, if_neg (hsingle '"' (by decide) h)⟩
  · exact ⟨'\'', ['\'', '\''], rfl, .inr rfl, rfl⟩
  · exact ⟨'"', ['"', '"'], rfl, .inl rfl, rfl⟩

/-- What a literal denotes: its inside as it stands behind the letter of raw literals, else what
    the escapes in it stand for. -/
theorem stringValue_enclosed {mark : List Char} (hmark : mark ∈ literalMarks) {body : List Char}
    (h : Enclosed mark body) (span : Span) {letters : List Char}
    (hdouble : '"' ∉ letters) (hsingle : '\'' ∉ letters) (hformat : 'f' ∉ letters.map Char.toLower)
    (hbytes : 'b' ∉ letters.map Char.toLower) :
    stringValue span (String.ofList (letters ++ (mark ++ (body ++ mark)))) =
      .ok (String.ofList (if 'r' ∈ letters.map Char.toLower then body else unescape body)) := by
  obtain ⟨q, more, hq, hquote, hfound⟩ := mark_enclosed hmark h
  have hletters : ∀ c ∈ letters, c ≠ '"' ∧ c ≠ '\'' := fun c hc =>
    ⟨fun heq => hdouble (heq ▸ hc), fun heq => hsingle (heq ▸ hc)⟩
  have htake : (letters ++ (mark ++ (body ++ mark))).takeWhile
      (fun c => !(decide (c = '"') || decide (c = '\''))) = letters := by
    rw [List.takeWhile_append_of_pos fun c hc => by simp [hletters c hc], hq, List.cons_append,
      List.takeWhile_cons_of_neg (by rcases hquote with rfl | rfl <;> decide), List.append_nil]
  have hdrop : (letters ++ (mark ++ (body ++ mark))).drop letters.length =
      q :: (more ++ (body ++ mark)) := by
    rw [List.drop_left, hq, List.cons_append]
  have hstrip : stripEnds? mark (q :: (more ++ (body ++ mark))) = some body := by
    have hends := stripEnds?_append mark body
    rwa [hq, List.cons_append, ← hq] at hends
  simp only [stringValue, String.toList_ofList, htake, List.length_map, hdrop, hfound, hstrip,
    List.contains_iff_mem, hformat, hbytes, or_self, if_false]

/-- A raw literal denotes its inside. -/
theorem stringValue_raw {mark body letters : List Char} (hmark : mark ∈ literalMarks)
    (h : Enclosed mark body) (hletters : letters ∈ [['r'], ['R']]) (span : Span) :
    stringValue span (String.ofList (letters ++ (mark ++ (body ++ mark)))) =
      .ok (String.ofList body) := by
  have hall : ∀ letters ∈ [['r'], ['R']], '"' ∉ letters ∧ '\'' ∉ letters ∧
      'f' ∉ letters.map Char.toLower ∧ 'b' ∉ letters.map Char.toLower ∧
        'r' ∈ letters.map Char.toLower := by decide
  obtain ⟨hdouble, hsingle, hformat, hbytes, hraw⟩ := hall letters hletters
  rw [stringValue_enclosed hmark h span hdouble hsingle hformat hbytes, if_pos hraw]

/-- Any other literal denotes what its inside stands for. -/
theorem stringValue_cooked {mark body letters : List Char} (hmark : mark ∈ literalMarks)
    (h : Enclosed mark body) (hletters : letters ∈ [[], ['u'], ['U']]) (span : Span) :
    stringValue span (String.ofList (letters ++ (mark ++ (body ++ mark)))) =
      .ok (String.ofList (unescape body)) := by
  have hall : ∀ letters ∈ [[], ['u'], ['U']], '"' ∉ letters ∧ '\'' ∉ letters ∧
      'f' ∉ letters.map Char.toLower ∧ 'b' ∉ letters.map Char.toLower ∧
        'r' ∉ letters.map Char.toLower := by decide
  obtain ⟨hdouble, hsingle, hformat, hbytes, hraw⟩ := hall letters hletters
  rw [stringValue_enclosed hmark h span hdouble hsingle hformat hbytes, if_neg hraw]

end Source

namespace Text

open Source

theorem survives (text : String) : Survives text where
  python function span config := Python.render_text ⟨function, _⟩ config
  physl function span config := Physl.render_eq ⟨function, _⟩ config
  delimited := ⟨_, toList_quote text⟩
  guarded {before after} hbefore hafter h := by
    obtain ⟨q, before, rfl⟩ := List.exists_cons_of_ne_nil hbefore
    -- What follows the quote ends in the closing one.
    obtain ⟨after, last, rfl⟩ : ∃ more last, after = more ++ [last] :=
      ⟨_, _, (List.dropLast_append_getLast hafter).symm⟩
    rw [toList_quote, List.cons_append] at h
    obtain ⟨rfl, hinner⟩ := List.cons.inj h
    rw [← List.cons_append, ← List.append_assoc] at hinner
    rw [slashes_plain (by decide)]
    exact (enclosed_quoted text.toList).odd_slashes (by decide) (List.append_inj_left' hinner rfl)
  visible {c} h := by
    simp only [toList_quote, List.mem_cons, List.mem_append, List.mem_flatMap, List.not_mem_nil,
      or_false] at h
    rcases h with rfl | ⟨d, -, hd⟩ | rfl
    · decide
    · exact visible_quoteChar hd
    · decide
  denoted span := stringValue_quote span text

/-- Every text survives being written and read. A text can be read in pieces, and a literal with
    any marks denotes its inside: as it stands if it is raw, else what its escapes stand for. -/
theorem quoted_survives :
    (∀ text, Survives text) ∧
      (∀ a b, ¬Odd (slashes a) → unescape (a ++ b) = unescape a ++ unescape b) ∧
      ∀ mark ∈ literalMarks, ∀ body, Enclosed mark body → ∀ span,
        (∀ letters ∈ [['r'], ['R']],
          stringValue span (String.ofList (letters ++ (mark ++ (body ++ mark)))) =
            .ok (String.ofList body)) ∧
        ∀ letters ∈ [[], ['u'], ['U']],
          stringValue span (String.ofList (letters ++ (mark ++ (body ++ mark)))) =
            .ok (String.ofList (unescape body)) :=
  ⟨survives, unescape_append, fun _ hmark _ h span =>
    ⟨fun _ hletters => stringValue_raw hmark h hletters span,
      fun _ hletters => stringValue_cooked hmark h hletters span⟩⟩

theorem quoted_survives_apostrophe :
    unescape (['\\', '\\'] ++ ['n']) = ['\\', 'n'] ∧
      stringValue ⟨1, 0⟩ "R'a\\'\\n'" = .ok "a\\'\\n" ∧
      stringValue ⟨1, 0⟩ "u'a\\'\\n'" = .ok "a'\n" := by
  have henclosed : Enclosed ['\''] ['a', '\\', '\'', '\\', 'n'] :=
    .plain (by decide) (by decide) (fun _ => by decide) (.escape '\'' (.escape 'n' .nil))
  have hmark := quoted_survives.2.2 ['\''] (by decide) _ henclosed ⟨1, 0⟩
  exact ⟨quoted_survives.2.1 ['\\', '\\'] ['n'] (by decide), hmark.1 ['R'] (by decide),
    hmark.2 ['u'] (by decide)⟩

end Text

end Rendition
