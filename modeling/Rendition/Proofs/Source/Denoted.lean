import Rendition.Proofs.Source.Enclosed
import Rendition.Source.Delimiter

/-!
# What escapes denote

The language that literals come from has more escapes than those that are read here: letters for
further control characters, character codes in base eight and sixteen, and names of characters. An
escape that is not known stays in the text as it is written, and a zero after a backslash is taken
for the whole code even if more digits follow. Where a literal has such an escape, its constant is
longer than the text that it denotes; every other literal gets the text that it denotes.

A code may be no character, so what a literal denotes is a list of codes. The names of characters
are a parameter.

## Main definitions

* `Text.Denotes`: What the inside of a literal denotes.
* `Text.understood`: Whether no escape is read differently.

## Theorems

* `Denotes.measured`: The reading is exact if all is understood, and longer otherwise.
* `stringValue_denoted`: The same for literals with any marks.
-/

namespace Rendition

namespace Text

/-- The letters and marks after a backslash that stand for one code. -/
def markCodes : List (Char × Nat) :=
  [('\\', 92), ('\'', 39), ('"', 34), ('a', 7), ('b', 8), ('f', 12), ('n', 10), ('r', 13),
    ('t', 9), ('v', 11)]

def octalDigits : List Char :=
  ['0', '1', '2', '3', '4', '5', '6', '7']

/-- The letters after a backslash that a code in base sixteen follows, with its width. -/
def hexWidths : List (Char × Nat) :=
  [('x', 2), ('u', 4), ('U', 8)]

/-- The number that digits stand for. -/
def codeOf (base : Nat) (digits : List Char) : Nat :=
  digits.foldl (fun n c => base * n + Source.digitValue c) 0

/-- What the inside of a literal denotes, where characters have the names that are given. A code in
    base eight takes as many digits as it can, up to three. -/
inductive Denotes (named : List Char → Option Nat) : List Char → List Nat → Prop where
  | nil : Denotes named [] []
  | plain {c : Char} {rest : List Char} {codes : List Nat} (hc : c ≠ '\\')
      (h : Denotes named rest codes) : Denotes named (c :: rest) (c.toNat :: codes)
  /-- A line goes on behind its end. -/
  | line {rest : List Char} {codes : List Nat} (h : Denotes named rest codes) :
      Denotes named ('\\' :: '\n' :: rest) codes
  | mark {c : Char} {n : Nat} {rest : List Char} {codes : List Nat} (hc : (c, n) ∈ markCodes)
      (h : Denotes named rest codes) : Denotes named ('\\' :: c :: rest) (n :: codes)
  | octal {d : Char} {digits rest : List Char} {codes : List Nat}
      (hdigits : ∀ c ∈ d :: digits, c ∈ octalDigits) (hlength : digits.length ≤ 2)
      (hstop : digits.length = 2 ∨ ∀ c ∈ rest.head?, c ∉ octalDigits)
      (h : Denotes named rest codes) :
      Denotes named ('\\' :: d :: (digits ++ rest)) (codeOf 8 (d :: digits) :: codes)
  | hex {c : Char} {digits rest : List Char} {codes : List Nat}
      (hc : (c, digits.length) ∈ hexWidths)
      (hdigits : ∀ d ∈ digits, Source.Delimiter.isHex d) (hbound : codeOf 16 digits < 0x110000)
      (h : Denotes named rest codes) :
      Denotes named ('\\' :: c :: (digits ++ rest)) (codeOf 16 digits :: codes)
  /-- No name has a backslash or a brace in it. -/
  | name {n : Nat} {name rest : List Char} {codes : List Nat} (hname : named name = some n)
      (hplain : ∀ c ∈ name, c ≠ '\\' ∧ c ≠ '\x7d') (h : Denotes named rest codes) :
      Denotes named ('\\' :: 'N' :: '\x7b' :: (name ++ '\x7d' :: rest)) (n :: codes)
  /-- A backslash in front of any other character stands for itself. -/
  | other {c : Char} {rest : List Char} {codes : List Nat} (hline : c ≠ '\n')
      (hmark : c ∉ markCodes.map Prod.fst) (hoctal : c ∉ octalDigits)
      (hhex : c ∉ hexWidths.map Prod.fst) (hname : c ≠ 'N') (h : Denotes named rest codes) :
      Denotes named ('\\' :: c :: rest) ('\\'.toNat :: c.toNat :: codes)

/-- The characters after a backslash that have a meaning but not here. -/
def unknownMarks : List Char :=
  ['a', 'b', 'f', 'v', '1', '2', '3', '4', '5', '6', '7', 'x', 'u', 'U', 'N']

/-- Whether no escape is read differently. -/
def understood : List Char → Bool
  | [] => true
  | ['\\'] => true
  | '\\' :: c :: rest =>
    !unknownMarks.contains c && !(c = '0' && rest.head?.any octalDigits.contains) && understood rest
  | _ :: rest => understood rest

theorem understood_plain {c : Char} (hc : c ≠ '\\') (rest : List Char) :
    understood (c :: rest) = understood rest :=
  understood.eq_4 c rest (fun h => absurd h hc) fun _ _ h => absurd h hc

theorem understood_escape (c : Char) (rest : List Char) : understood ('\\' :: c :: rest) =
    (!unknownMarks.contains c && !(c = '0' && rest.head?.any octalDigits.contains) &&
      understood rest) := by
  rw [understood]

/-- A character after a backslash with no meaning that is not known. -/
theorem understood_known {c : Char} {rest : List Char} (hc : c ∉ unknownMarks)
    (hzero : c = '0' → ∀ d ∈ rest.head?, d ∉ octalDigits) :
    understood ('\\' :: c :: rest) = understood rest := by
  have hdigit : (decide (c = '0') && rest.head?.any octalDigits.contains) = false := by
    rw [Bool.and_eq_false_imp, decide_eq_true_iff]
    intro hc
    rcases rest with _ | ⟨d, rest⟩
    · rfl
    · rw [List.head?_cons, Option.any_some, List.contains_eq_mem]
      exact decide_eq_false (hzero hc d rfl)
  rw [understood_escape, hdigit, List.contains_eq_mem, decide_eq_false hc]
  rfl

/-- A run of characters that are no backslashes is read as it stands. -/
theorem unescape_run {run : List Char} (h : ∀ c ∈ run, c ≠ '\\') (rest : List Char) :
    unescape (run ++ rest) = run ++ unescape rest := by
  induction run with
  | nil => rfl
  | cons c run ih =>
    rw [List.cons_append, unescape_plain (h c List.mem_cons_self),
      ih fun d hd => h d (List.mem_cons_of_mem c hd), List.cons_append]

/-- The reading of a text compared to what it denotes: it is never shorter, and the same exactly if
    all is understood. -/
structure Measured (text : List Char) (codes : List Nat) : Prop where
  length_le : codes.length ≤ (unescape text).length
  eq_iff : (unescape text).map Char.toNat = codes ↔ understood text = true

/-- A piece that is read as what it denotes. -/
theorem Measured.same {text rest : List Char} {codes : List Nat} (h : Measured rest codes)
    (out : List Char) (hread : unescape text = out ++ unescape rest)
    (hknown : understood text = understood rest) :
    Measured text (out.map Char.toNat ++ codes) := by
  constructor
  · rw [hread, List.length_append, List.length_append, List.length_map]
    exact Nat.add_le_add_left h.length_le _
  · rw [hread, List.map_append, List.append_cancel_left_eq, hknown, h.eq_iff]

/-- A piece that denotes one code but is read as several characters. -/
theorem Measured.longer {text rest : List Char} {n : Nat} {codes : List Nat}
    (h : Measured rest codes) (hread : (unescape rest).length + 1 < (unescape text).length)
    (hknown : understood text = false) : Measured text (n :: codes) := by
  have hle := h.length_le
  constructor
  · rw [List.length_cons]
    omega
  · rw [hknown]
    refine iff_of_false (fun heq => ?_) Bool.false_ne_true
    have hlength := congrArg List.length heq
    rw [List.length_map, List.length_cons] at hlength
    omega

/-- An escape that is not known keeps its backslash. -/
theorem unescapePair_unknown {c : Char} (h : c ∈ unknownMarks) : unescapePair c = ['\\', c] := by
  have hall : unknownMarks.all (fun c => unescapePair c = ['\\', c]) := by decide
  exact of_decide_eq_true (List.all_eq_true.mp hall c h)

/-- An escape that is not known makes the reading longer. -/
theorem Measured.unknown {c : Char} {rest : List Char} {n : Nat} {codes : List Nat}
    (h : Measured rest codes) (hc : c ∈ unknownMarks) {run : List Char}
    (hrun : ∀ d ∈ run, d ≠ '\\') :
    Measured ('\\' :: c :: (run ++ rest)) (n :: codes) := by
  refine h.longer ?_ ?_
  · rw [unescape_escape, unescapePair_unknown hc, unescape_run hrun]
    simp only [List.length_append, List.length_cons, List.length_nil]
    omega
  · rw [understood_escape, List.contains_iff_mem.mpr hc]
    rfl

/-- Such an escape is not known, or it is read as the character with the code. -/
theorem mark_cases {c : Char} {n : Nat} (h : (c, n) ∈ markCodes) : c ∈ unknownMarks ∨
    ∃ d, unescapePair c = [d] ∧ d.toNat = n ∧ c ∉ unknownMarks ∧ c ≠ '0' := by
  simp only [markCodes, List.mem_cons, Prod.mk.injEq, List.not_mem_nil, or_false] at h
  rcases h with ⟨rfl, rfl⟩ | ⟨rfl, rfl⟩ | ⟨rfl, rfl⟩ | ⟨rfl, rfl⟩ | ⟨rfl, rfl⟩ | ⟨rfl, rfl⟩ |
    ⟨rfl, rfl⟩ | ⟨rfl, rfl⟩ | ⟨rfl, rfl⟩ | ⟨rfl, rfl⟩
  all_goals first
    | exact .inl (by decide)
    | exact .inr ⟨_, rfl, rfl, by decide, by decide⟩

theorem zero_or_unknown {c : Char} (h : c ∈ octalDigits) : c = '0' ∨ c ∈ unknownMarks := by
  have hall : octalDigits.all (fun c => c = '0' ∨ c ∈ unknownMarks) := by decide
  exact of_decide_eq_true (List.all_eq_true.mp hall c h)

/-- A backslash in front of a character without a meaning is kept. -/
theorem unescapePair_other {c : Char} (hline : c ≠ '\n') (hmark : c ∉ markCodes.map Prod.fst)
    (hoctal : c ∉ octalDigits) : unescapePair c = ['\\', c] := by
  simp only [markCodes, octalDigits, List.map_cons, List.map_nil, List.mem_cons, List.not_mem_nil,
    or_false, not_or] at hmark hoctal
  simp only [unescapePair, hmark, hoctal, hline, if_false]

/-- The reading of the inside of a literal is what it denotes if every escape is understood, and
    else it is different and no shorter. -/
theorem Denotes.measured {named : List Char → Option Nat} {text : List Char} {codes : List Nat}
    (h : Denotes named text codes) : Measured text codes := by
  induction h with
  | nil => exact ⟨Nat.le_refl 0, iff_of_true rfl rfl⟩
  | @plain c rest codes hc _ ih =>
    exact ih.same [c] (unescape_plain hc rest) (understood_plain hc rest)
  | @line rest codes _ ih =>
    exact ih.same [] (unescape_escape '\n' rest) (understood_escape '\n' rest)
  | @mark c n rest codes hc _ ih =>
    rcases mark_cases hc with hunknown | ⟨d, hread, rfl, hknown, hzero⟩
    · exact @ih.unknown _ _ _ _ hunknown [] fun d hd => absurd hd List.not_mem_nil
    · have hpair := unescape_escape c rest
      rw [hread] at hpair
      exact ih.same [d] hpair (understood_known hknown fun hc => absurd hc hzero)
  | @octal d digits rest codes hdigits hlength hstop _ ih =>
    have hplain : ∀ c ∈ digits, c ≠ '\\' := fun c hc => by
      rintro rfl
      exact absurd (hdigits _ (List.mem_cons_of_mem d hc)) (by decide)
    rcases zero_or_unknown (hdigits d List.mem_cons_self) with rfl | hunknown
    · rcases digits with _ | ⟨e, digits⟩
      · -- A zero alone is the only code that is known.
        have hnext : ∀ c ∈ rest.head?, c ∉ octalDigits := hstop.resolve_left (by decide)
        exact ih.same [Char.ofNat 0] (unescape_escape '0' rest)
          (understood_known (by decide) fun _ => hnext)
      · have he := hdigits e (List.mem_cons_of_mem _ List.mem_cons_self)
        refine ih.longer ?_ ?_
        · rw [unescape_escape, unescape_run hplain]
          simp only [List.length_append, List.length_cons]
          have hpair : (unescapePair '0').length = 1 := rfl
          omega
        · rw [understood_escape]
          simp [he]
    · exact ih.unknown hunknown hplain
  | @hex c digits rest codes hc hdigits _ _ ih =>
    have hwidths : ∀ width ∈ hexWidths, width.1 ∈ unknownMarks := by decide
    refine ih.unknown (hwidths _ hc) fun d hd => ?_
    rintro rfl
    exact absurd (hdigits _ hd) (by decide)
  | @name n name rest codes _ hplain _ ih =>
    have hrun : ∀ d ∈ '\x7b' :: (name ++ ['\x7d']), d ≠ '\\' := by
      simp only [List.mem_cons, List.mem_append, List.not_mem_nil, or_false]
      rintro d (rfl | hd | rfl)
      · decide
      · exact (hplain d hd).1
      · decide
    have hnamed := ih.unknown (n := n) (show 'N' ∈ unknownMarks by decide) hrun
    rwa [List.cons_append, List.append_assoc, List.singleton_append] at hnamed
  | @other c rest codes hline hmark hoctal hhex hname _ ih =>
    have hpair := unescape_escape c rest
    rw [unescapePair_other hline hmark hoctal] at hpair
    refine ih.same ['\\', c] hpair (understood_known ?_ ?_)
    · simp only [markCodes, octalDigits, hexWidths, unknownMarks, List.map_cons, List.map_nil,
        List.mem_cons, List.not_mem_nil, or_false, not_or] at hmark hoctal hhex ⊢
      simp only [hmark, hoctal, hhex, hname, not_false_eq_true, and_self]
    · rintro rfl
      exact absurd (by decide) hoctal

end Text

namespace Source

open Text

/-- The constant of a literal is the text that the literal denotes if every escape in it is
    understood, and a different and no shorter one otherwise. A raw literal denotes its inside, and
    that is its constant, by `stringValue_raw`. -/
theorem stringValue_denoted {named : List Char → Option Nat} {mark body letters : List Char}
    {codes : List Nat} (hmark : mark ∈ literalMarks) (h : Enclosed mark body)
    (hletters : letters ∈ [[], ['u'], ['U']]) (hcodes : Denotes named body codes) (span : Span) :
    ∃ text, stringValue span (String.ofList (letters ++ (mark ++ (body ++ mark)))) = .ok text ∧
      codes.length ≤ text.toList.length ∧
      (text.toList.map Char.toNat = codes ↔ understood body = true) := by
  refine ⟨_, stringValue_cooked hmark h hletters span, ?_⟩
  rw [String.toList_ofList]
  exact ⟨hcodes.measured.length_le, hcodes.measured.eq_iff⟩

/-- A code in base sixteen is kept as it is written. -/
example : stringValue ⟨1, 0⟩ "'\\x41'" = .ok "\\x41" := by
  rfl

end Source

end Rendition
