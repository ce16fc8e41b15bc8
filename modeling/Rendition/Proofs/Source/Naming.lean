import Rendition.Proofs.Source.Lexeme

/-!
# Names and marks

The lexer finds a name in front of a character that ends it, and a mark in front of a character
with which it makes up no longer mark.

## Main definitions

* `Text.IsName`: Texts that are one name.
* `Lexeme.ends`: The characters that end names and numbers.
* `Lexeme.opens`: The characters that an operand starts with.
* `Lexeme.Stands`: A mark makes up no longer one with the character after it.

## Theorems

* `leads_word`, `leads_mark`: Names and marks are found.
-/

namespace Rendition

/-- Whether a text is one name. -/
def Text.IsName (text : String) : Prop :=
  ∃ c cs, text.toList = c :: cs ∧ startsName c = true ∧ ∀ d ∈ cs, continuesName d = true

namespace Source

namespace Lexeme

/-- Whether a character ends a name, or a number that has a point or an exponent. -/
def ends (c : Char) : Bool :=
  [' ', '\n', ')', ']', '\x7d', ',', ':', '(', '[', '.', '='].contains c

/-- Whether an operand can start with a character. -/
def opens (c : Char) : Bool :=
  Text.startsName c || c.isDigit || ['"', '(', '[', '\x7b'].contains c

/-! ## Names -/

theorem startsName_takes {c : Char} (h : Text.startsName c = true) : Gap.takes c = false := by
  refine Bool.eq_false_iff.mpr fun htakes => ?_
  have hchar : ∀ n, c.toNat = n → c = Char.ofNat n := fun n hn => by rw [← hn, Char.ofNat_toNat]
  simp only [Gap.takes, Gap.isSeparator, Bool.or_eq_true, decide_eq_true_eq] at htakes
  rcases htakes with ((((((rfl | rfl) | rfl) | rfl) | hn) | ((hn | hn) | hn) | hn) | rfl) | rfl
  all_goals first
    | exact absurd h (by decide)
    | (rw [hchar _ hn] at h; exact absurd h (by decide))

theorem continuesName_ends {c : Char} (h : ends c = true) : Text.continuesName c = false := by
  simp only [ends, List.contains_iff_mem, List.mem_cons, List.not_mem_nil, or_false] at h
  rcases h with rfl | rfl | rfl | rfl | rfl | rfl | rfl | rfl | rfl | rfl | rfl <;> decide

theorem continuesName_of_startsName {c : Char} (h : Text.startsName c = true) :
    Text.continuesName c = true := by
  simp only [Text.startsName, Text.isLetter, Bool.or_eq_true, decide_eq_true_eq] at h
  simp only [Text.continuesName]
  rcases h with rfl | h
  · decide
  · split at h
    · rename_i hsmall
      simp only [hsmall, if_true, Char.isAlphanum, h, Bool.true_or, Bool.or_true]
    · rename_i hlarge
      simp only [hlarge, if_false, Text.isLetter, h, Bool.true_or]

/-- The characters that can open a string literal. -/
def isQuote (c : Char) : Bool :=
  c = '\x60' || c = '"' || c = '\''

theorem isQuote_of_continuesName {c : Char} (h : Text.continuesName c = true) :
    isQuote c = false := by
  refine Bool.eq_false_iff.mpr fun hquote => ?_
  simp only [isQuote, Bool.or_eq_true, decide_eq_true_eq] at hquote
  rcases hquote with (rfl | rfl) | rfl <;> exact absurd h (by decide)

theorem isQuote_of_ends {c : Char} (h : ends c = true) : isQuote c = false := by
  simp only [ends, List.contains_iff_mem, List.mem_cons, List.not_mem_nil, or_false] at h
  rcases h with rfl | rfl | rfl | rfl | rfl | rfl | rfl | rfl | rfl | rfl | rfl <;> decide

theorem drop_length_takeWhile (p : Char → Bool) (text : List Char) :
    text.drop (text.takeWhile p).length = text.dropWhile p := by
  have h := congrArg (List.drop (text.takeWhile p).length)
    (List.takeWhile_append_dropWhile (p := p) (l := text))
  rwa [List.drop_left, eq_comm] at h

/-- No string literal starts where letters are not followed by a quote. -/
theorem open?_eq_none {text : List Char}
    (h : ∀ c ∈ (text.dropWhile Delimiter.letters.contains).head?, isQuote c = false) :
    Delimiter.open? text = none := by
  simp only [Delimiter.open?, drop_length_takeWhile]
  rcases htext : text.dropWhile Delimiter.letters.contains with _ | ⟨q, rest⟩
  · rfl
  · have hq := h q (by rw [htext]; rfl)
    simp only [isQuote, Bool.or_eq_false_iff, decide_eq_false_iff_not] at hq
    simp only [hq.1.1, hq.1.2, hq.2, or_self, if_false]

theorem head?_dropWhile_append {p q : Char → Bool} {text : List Char} {c : Char}
    {rest : List Char} (htext : ∀ d ∈ text, q d = false) (hc : p c = false) (hqc : q c = false) :
    ∀ d ∈ ((text ++ c :: rest).dropWhile p).head?, q d = false := by
  induction text with
  | nil =>
    intro d hd
    rw [List.nil_append, List.dropWhile_cons_of_neg (by rw [hc]; decide)] at hd
    cases hd
    exact hqc
  | cons a text ih =>
    intro d hd
    rw [List.cons_append, List.dropWhile_cons] at hd
    split at hd
    · exact ih (fun e he => htext e (List.mem_cons_of_mem a he)) d hd
    · cases hd
      exact htext a List.mem_cons_self

theorem letters_ends {c : Char} (h : ends c = true) : Delimiter.letters.contains c = false := by
  simp only [ends, List.contains_iff_mem, List.mem_cons, List.not_mem_nil, or_false] at h
  rcases h with rfl | rfl | rfl | rfl | rfl | rfl | rfl | rfl | rfl | rfl | rfl <;> decide

/-- A name is found in front of a character that ends it. -/
theorem leads_word {g : Gap} (hg : g.Plain) {text : String} (hname : Text.IsName text) {c : Char}
    (hc : ends c = true) (rest : List Char) :
    Leads ⟨g, .word, text⟩ (c :: rest) := by
  obtain ⟨d, ds, htext, hd, hds⟩ := hname
  refine leads_code hg ?_ ?_ ?_ ?_ ?_
  · intro e he
    rw [htext] at he
    cases he
    exact startsName_takes hd
  · rw [htext]
    exact List.cons_ne_nil d ds
  · refine open?_eq_none (head?_dropWhile_append ?_ (letters_ends hc) (isQuote_of_ends hc))
    intro e he
    rw [htext] at he
    rcases List.mem_cons.mp he with rfl | he
    · exact isQuote_of_continuesName (continuesName_of_startsName hd)
    · exact isQuote_of_continuesName (hds e he)
  · rw [htext, List.cons_append]
    simp only [codeToken, hd, if_true]
    rw [List.takeWhile_append_of_pos hds,
      List.takeWhile_cons_of_neg (by rw [continuesName_ends hc]; decide), List.append_nil]
  · exact ⟨TokenKind.noConfusion, TokenKind.noConfusion⟩

/-! ## Marks -/

/-- A mark makes up no longer one with the character after it, and no number. -/
def Stands (text : String) (c : Char) : Prop :=
  (∀ m ∈ marks, (text.toList ++ [c]).isPrefixOf m.toList = false) ∧
    (text = "." → c.isDigit = false)

theorem isPrefixOf_append_cons {m text : List Char} {c : Char}
    (h : (text ++ [c]).isPrefixOf m = false) (rest : List Char) :
    m.isPrefixOf (text ++ c :: rest) = m.isPrefixOf text := by
  rw [Bool.eq_iff_iff, List.isPrefixOf_iff_prefix, List.isPrefixOf_iff_prefix]
  constructor
  · intro hm
    have hc : text ++ [c] <+: text ++ c :: rest := ⟨rest, by simp⟩
    rcases List.prefix_or_prefix_of_prefix hm hc with hlong | hlong
    · rcases List.prefix_concat_iff.mp hlong with rfl | hshort
      · rw [List.isPrefixOf_iff_prefix.mpr (List.prefix_refl _)] at h
        cases h
      · exact hshort
    · rw [List.isPrefixOf_iff_prefix.mpr hlong] at h
      cases h
  · intro hm
    exact hm.trans (List.prefix_append ..)

theorem find?_congr {α : Type} {p q : α → Bool} {l : List α} (h : ∀ a ∈ l, p a = q a) :
    l.find? p = l.find? q := by
  induction l with
  | nil => rfl
  | cons a l ih =>
    rw [List.find?_cons, List.find?_cons, h a List.mem_cons_self,
      ih fun b hb => h b (List.mem_cons_of_mem a hb)]

/-- A mark is the longest one at its start. -/
theorem longestMark?_append {text : String} (hmark : text ∈ marks) {c : Char}
    (hc : Stands text c) (rest : List Char) :
    longestMark? (text.toList ++ c :: rest) = some text := by
  have hself : ∀ m ∈ marks, marks.find? (fun n => n.toList.isPrefixOf m.toList) = some m := by
    decide +kernel
  rw [longestMark?, ← hself text hmark]
  exact find?_congr fun m hm => isPrefixOf_append_cons (hc.1 m hm) rest

/-- The characters that marks start with. -/
def startsMark (c : Char) : Bool :=
  !Gap.takes c && !Text.startsName c && !c.isDigit && !isQuote c && !Delimiter.letters.contains c

theorem decimalRun_eq_nil {c : Char} (h : c.isDigit = false) (rest : List Char) :
    Number.decimalRun (c :: rest) = [] := by
  simp only [Number.decimalRun, Number.decimalRunFrom, h, Bool.false_eq_true, and_false, if_false]

/-- A mark is found in front of a character with which it makes up no longer one. -/
theorem leads_mark {g : Gap} (hg : g.Plain) {text : String} (hmark : text ∈ marks) {c : Char}
    (hc : Stands text c) (rest : List Char) : Leads ⟨g, .mark, text⟩ (c :: rest) := by
  have hstart : ∀ m ∈ marks, m.toList.head?.any startsMark = true ∧
      (m.toList.head? = some '.' → m = "." ∨ m.toList.tail.head? = some '.') := by decide +kernel
  obtain ⟨hhead, hpoint⟩ := hstart text hmark
  rcases hlist : text.toList with _ | ⟨d, ds⟩
  · rw [hlist] at hhead
    cases hhead
  rw [hlist] at hhead hpoint
  simp only [List.head?_cons, Option.any_some, startsMark, Bool.and_eq_true, Bool.not_eq_true',
    Option.some.injEq] at hhead hpoint
  obtain ⟨⟨⟨⟨htakes, hname⟩, hdigit⟩, hquote⟩, hletter⟩ := hhead
  have hrun := decimalRun_eq_nil hdigit (ds ++ c :: rest)
  refine leads_code hg ?_ ?_ ?_ ?_ ?_
  · intro e he
    rw [hlist] at he
    cases he
    exact htakes
  · rw [hlist]
    exact List.cons_ne_nil d ds
  · refine open?_eq_none fun e he => ?_
    rw [hlist, List.cons_append, List.dropWhile_cons_of_neg (by rw [hletter]; decide)] at he
    cases he
    exact hquote
  · have hlongest := longestMark?_append hmark hc rest
    have hinteger : Number.integer? (d :: (ds ++ c :: rest)) = none := by
      simp only [Number.integer?, hrun, if_true]
      split
      · rename_i heq
        injection heq with hd
        subst hd
        cases hdigit
      · rfl
    have hfloat : Number.float? (d :: (ds ++ c :: rest)) = none := by
      simp only [Number.float?, hrun, List.length_nil, List.drop_zero, true_and]
      split
      · rename_i more heq
        injection heq with hd hmore
        have hfraction : Number.decimalRun more = [] := by
          rcases hpoint hd with hsingle | hdots
          · subst hsingle
            injection hlist with _ hds
            rw [← hmore, ← hds, List.nil_append, decimalRun_eq_nil (hc.2 rfl)]
          · rcases ds with _ | ⟨e, ds⟩
            · cases hdots
            · obtain rfl : e = '.' := Option.some.inj hdots
              rw [← hmore, List.cons_append, decimalRun_eq_nil (by decide)]
        rw [hfraction]
        rfl
      · rfl
    rw [hlist] at hlongest ⊢
    rw [List.cons_append] at hlongest ⊢
    simp only [codeToken, hname, Bool.false_eq_true, if_false, hfloat, hinteger, hlongest, hlist]
  · exact ⟨TokenKind.noConfusion, TokenKind.noConfusion⟩

/-- The characters that marks go on with. -/
def continuesMark (c : Char) : Bool :=
  ['=', '*', '/', '>', '<', '.'].contains c

/-- A mark makes up no longer one with a character that no mark goes on with. -/
theorem stands_of_continuesMark {text : String} (hne : text.toList ≠ []) {c : Char}
    (hc : continuesMark c = false) (hdigit : text = "." → c.isDigit = false) : Stands text c := by
  have htails : (marks.all fun m => m.toList.tail.all continuesMark) = true := by decide +kernel
  have htail : ∀ m ∈ marks, ∀ d ∈ m.toList.tail, continuesMark d = true :=
    fun m hm => List.all_eq_true.mp (List.all_eq_true.mp htails m hm)
  refine ⟨fun m hm => Bool.eq_false_iff.mpr fun hprefix => ?_, hdigit⟩
  obtain ⟨d, ds, hlist⟩ := List.exists_cons_of_ne_nil hne
  obtain ⟨rest, hrest⟩ := List.isPrefixOf_iff_prefix.mp hprefix
  have hmem : c ∈ m.toList.tail := by
    rw [← hrest, hlist]
    simp only [List.cons_append, List.tail_cons, List.mem_append, List.mem_cons, true_or, or_true]
  rw [htail m hm c hmem] at hc
  cases hc

/-- No mark starts like a bracket or a comma and goes on. -/
theorem stands_bracket {text : String}
    (h : text ∈ ["(", ")", "[", "]", "\x7b", "\x7d", ",", "~"]) (c : Char) : Stands text c := by
  have hshort : ∀ t ∈ ["(", ")", "[", "]", "\x7b", "\x7d", ",", "~"], t ≠ "." ∧
      ∀ m ∈ marks, t.toList.isPrefixOf m.toList = true → m = t := by decide +kernel
  refine ⟨fun m hm => Bool.eq_false_iff.mpr fun hprefix => ?_, fun hdot => ?_⟩
  · have hlong := List.isPrefixOf_iff_prefix.mp hprefix
    have heq := (hshort text h).2 m hm
      (List.isPrefixOf_iff_prefix.mpr ((List.prefix_append _ _).trans hlong))
    have hlength := hlong.length_le
    rw [heq, List.length_append, List.length_singleton] at hlength
    exact Nat.not_succ_le_self _ hlength
  · exact absurd hdot (hshort text h).1

end Lexeme

end Source

end Rendition
