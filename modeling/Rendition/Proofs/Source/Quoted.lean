import Rendition.Proofs.Source.Lexeme
import Rendition.Source.Constant

/-!
# Quoted texts in a source

A text that was put between quotes is found by the lexer as one string literal, unless it holds the
character with which no literal goes on, and the literal denotes the text that was put there.

## Main definitions

* `Text.Quotable`: Texts that a literal can hold.

## Theorems

* `unescape_quoted`: The inside of the written form denotes the text.
* `leads_string`: The lexer finds the literal.
* `stringValue_quote`: The literal denotes the text.
-/

namespace Rendition

namespace Text

/-- The characters after a backslash in the written form of a text. -/
def escaped : List Char :=
  ['"', '\\', 'n', 'r', 't']

/-- A character is written as an escape that stands for it, or as itself. -/
theorem quoteChar_cases (c : Char) :
    (∃ d ∈ escaped, quoteChar c = ['\\', d] ∧ unescapePair d = [c]) ∨
      (quoteChar c = [c] ∧ c ≠ '"' ∧ c ≠ '\\' ∧ c ≠ '\n' ∧ c ≠ '\r') := by
  by_cases hquote : c = '"'
  · subst hquote
    exact .inl ⟨'"', by decide, rfl, rfl⟩
  by_cases hslash : c = '\\'
  · subst hslash
    exact .inl ⟨'\\', by decide, rfl, rfl⟩
  by_cases hline : c = '\n'
  · subst hline
    exact .inl ⟨'n', by decide, rfl, rfl⟩
  by_cases hreturn : c = '\r'
  · subst hreturn
    exact .inl ⟨'r', by decide, rfl, rfl⟩
  by_cases htab : c = '\t'
  · subst htab
    exact .inl ⟨'t', by decide, rfl, rfl⟩
  refine .inr ⟨?_, hquote, hslash, hline, hreturn⟩
  simp only [quoteChar, hquote, hslash, hline, hreturn, htab, if_false]

theorem unescape_quoteChar (c : Char) (rest : List Char) :
    unescape (quoteChar c ++ rest) = c :: unescape rest := by
  rcases quoteChar_cases c with ⟨d, hd, hc, hpair⟩ | ⟨hc, hquote, hslash, -⟩
  · rw [hc]
    simp only [List.cons_append, List.nil_append, unescape, hpair]
  · rw [hc, List.singleton_append, unescape.eq_def]
    split
    · rename_i heq
      cases heq
    · rename_i heq
      injection heq with heq
      exact absurd heq hslash
    · rename_i heq
      injection heq with heq
      exact absurd heq hslash
    · rename_i heq
      injection heq with heq hrest
      rw [heq, hrest]

/-- The inside of the written form of a text denotes the text. -/
theorem unescape_quoted (text : List Char) : unescape (text.flatMap quoteChar) = text := by
  induction text with
  | nil => rfl
  | cons c rest ih => rw [List.flatMap_cons, unescape_quoteChar, ih]

/-- The written form of a character does not start with a quote. -/
theorem head_quoteChar (c : Char) : ∃ d ds, quoteChar c = d :: ds ∧ d ≠ '"' := by
  rcases quoteChar_cases c with ⟨d, hd, hc, hpair⟩ | ⟨hc, hquote, -⟩
  · exact ⟨'\\', [d], hc, by decide⟩
  · exact ⟨c, [], hc, hquote⟩

/-- A literal can hold every character but the first of all. -/
def Quotable (text : String) : Prop :=
  ∀ c ∈ text.toList, c.toNat ≠ 0

theorem toList_quote (text : String) :
    (quote text).toList = '"' :: (text.toList.flatMap quoteChar ++ ['"']) := by
  rw [quote, String.toList_ofList]

end Text

namespace Source

open Text

/-- The opening of a written form. -/
def Delimiter.double : Delimiter :=
  ⟨'"', false, false, false, false⟩

theorem Delimiter.open?_double {inner : List Char}
    (h : inner.take 2 ≠ ['"', '"']) : Delimiter.open? ('"' :: inner) = some (double, ['"']) := by
  have hletters : ('"' :: inner).takeWhile Delimiter.letters.contains = [] := rfl
  simp only [Delimiter.open?, hletters, List.length_nil, List.drop_zero, h, if_false, List.nil_append,
    true_or, if_true, show ¬ '"' = '\x60' by decide]
  rfl

theorem Delimiter.escapeLength_escaped {c : Char} (h : c ∈ escaped) (rest : List Char) :
    escapeLength (c :: rest) = 1 := by
  simp only [escaped, List.mem_cons, List.not_mem_nil, or_false] at h
  rcases h with rfl | rfl | rfl | rfl | rfl <;> rfl

/-- The scan of a written form goes on to its closing quote. -/
theorem Delimiter.scanWithin_quoted (rest : List Char) : ∀ (text : List Char) (fuel : Nat)
    (fresh : Bool), (∀ c ∈ text, c.toNat ≠ 0) → text.length < fuel →
      scanWithin double fuel fresh (text.flatMap quoteChar ++ '"' :: rest) =
        .closed (text.flatMap quoteChar ++ ['"'])
  | _, 0, _, _, hfuel => absurd hfuel (Nat.not_lt_zero _)
  | [], fuel + 1, fresh, _, _ => rfl
  | c :: text, fuel + 1, fresh, htext, hfuel => by
    have ih := fun fresh => scanWithin_quoted rest text fuel fresh
      (fun d hd => htext d (List.mem_cons_of_mem c hd)) (Nat.lt_of_succ_lt_succ hfuel)
    rw [List.flatMap_cons, List.append_assoc, List.append_assoc]
    rcases quoteChar_cases c with ⟨d, hd, hc, -⟩ | ⟨hc, hquote, hslash, hline, -⟩
    · rw [hc]
      simp only [List.cons_append, List.nil_append, scanWithin, double, Bool.false_eq_true,
        false_and, if_false, if_true, escapeLength_escaped hd, List.drop_succ_cons, List.drop_zero,
        List.take_succ_cons, List.take_zero, show ¬ '\\'.toNat = 0 by decide]
      rw [← double, ih]
      rfl
    · have hzero : c.toNat ≠ 0 := htext c List.mem_cons_self
      rw [hc]
      simp only [List.cons_append, List.nil_append, scanWithin, double, Bool.false_eq_true,
        false_and, if_false, hzero, hslash, hquote, hline]
      rw [← double, ih]
      rfl

/-- What follows the opening quote is no second and third one. -/
theorem take_quoted (text : List Char) (rest : List Char) (h : ∀ c ∈ rest.head?, c ≠ '"') :
    (text.flatMap quoteChar ++ '"' :: rest).take 2 ≠ ['"', '"'] := by
  intro heq
  rcases text with _ | ⟨c, text⟩
  · rcases rest with _ | ⟨d, rest⟩
    · cases heq
    · injection heq with _ heq
      injection heq with heq
      exact h d rfl heq
  · obtain ⟨d, ds, hc, hquote⟩ := head_quoteChar c
    rw [List.flatMap_cons, hc] at heq
    injection heq with heq
    exact hquote heq

/-- A quoted text is found in front of a character that is no quote. -/
theorem Lexeme.leads_string {g : Gap} (hg : g.Plain) (hpending : g.pending = []) {text : String}
    (htext : Quotable text) {c : Char} (hc : c ≠ '"') (rest : List Char) :
    Leads ⟨g, .string, quote text⟩ (c :: rest) := by
  have hne : chars ⟨g, .string, quote text⟩ ≠ [] := by
    rw [chars, toList_quote]
    exact List.append_ne_nil_of_right_ne_nil _ (List.cons_ne_nil _ _)
  refine ⟨hne, fun fuel span => ?_⟩
  have hscan : Gap.scan span (chars ⟨g, .string, quote text⟩ ++ c :: rest) =
      (g, span.after g.text, '"' :: (text.toList.flatMap quoteChar ++ '"' :: c :: rest)) := by
    simp only [chars, toList_quote, List.append_assoc, List.cons_append, List.nil_append]
    exact hg span '"' _ (by decide)
  have hopen := Delimiter.open?_double (take_quoted text.toList (c :: rest) fun d hd => by
    cases hd
    exact hc)
  have hclosed : Delimiter.double.scan (text.toList.flatMap quoteChar ++ '"' :: c :: rest) =
      .closed (text.toList.flatMap quoteChar ++ ['"']) := by
    refine Delimiter.scanWithin_quoted _ _ _ _ htext ?_
    rw [List.length_append]
    have hlength : text.toList.length ≤ (text.toList.flatMap quoteChar).length := by
      generalize text.toList = chars
      induction chars with
      | nil => exact Nat.le_refl 0
      | cons d more ih =>
        obtain ⟨e, es, hd, -⟩ := head_quoteChar d
        rw [List.flatMap_cons, List.length_append, hd, List.length_cons, List.length_cons]
        omega
    omega
  have habsorbed : g.absorbed = g := by rw [Gap.absorbed, ← hpending]
  rw [tokensWithin.eq_def]
  simp only [hscan, hopen, List.length_singleton, List.drop_succ_cons, List.drop_zero, hclosed,
    habsorbed]
  simp only [Delimiter.double, Bool.false_eq_true, if_false, token, chars, quote,
    String.toList_ofList, Span.after, List.foldl_append, List.foldl_cons, List.foldl_nil,
    List.cons_append, List.nil_append]
  rw [← List.singleton_append (l := c :: rest), ← List.append_assoc, List.drop_left]

/-- What stands between two equal marks is found again. -/
theorem stripEnds?_append (mark inner : List Char) :
    stripEnds? mark (mark ++ (inner ++ mark)) = some inner := by
  have hsuffix : mark.isSuffixOf (inner ++ mark) = true :=
    List.isSuffixOf_iff_suffix.mpr (List.suffix_append inner mark)
  have hprefix : mark.isPrefixOf (mark ++ (inner ++ mark)) = true :=
    List.isPrefixOf_iff_prefix.mpr (List.prefix_append mark _)
  simp only [stripEnds?, hprefix, if_true, List.drop_left, hsuffix, List.length_append,
    Nat.add_sub_cancel, List.take_left]

/-- The literal of a text denotes the text. -/
theorem stringValue_quote (span : Span) (text : String) :
    stringValue span (quote text) = .ok text := by
  have htake : (text.toList.flatMap quoteChar ++ ['"']).take 2 ≠ ['"', '"'] :=
    take_quoted text.toList [] fun c hc => by cases hc
  simp only [stringValue, toList_quote]
  rw [List.takeWhile_cons_of_neg (by decide)]
  have hstrip := stripEnds?_append ['"'] (text.toList.flatMap quoteChar)
  simp only [List.singleton_append] at hstrip
  simp only [List.map_nil, List.length_nil, List.drop_zero, htake, if_false, List.contains_nil,
    Bool.false_eq_true, or_self, hstrip, unescape_quoted, String.ofList_toList]

end Source

end Rendition
