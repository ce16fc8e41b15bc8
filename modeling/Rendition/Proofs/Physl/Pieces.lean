import Rendition.Proofs.Source.Numeral
import Rendition.Proofs.Source.Quoted
import Rendition.Rendering.Physl

/-!
# The pieces of a PhySL text

A PhySL text is read from left to right as literals between double quotes, places of the form
`$line$column`, and single characters. A dollar sign inside a literal is no place, and neither is
one that no two numbers follow. Nothing else is needed to speak about the places in a text, and to
take them away.

## Main definitions

* `Physl.Piece`: A literal, a place or a character.
* `Physl.pieces`: The pieces of a text.
* `Physl.strip`: The text without its places.
* `Physl.IsWord`: Texts that are one word wherever they stand.

## Theorems

* `spell_pieces`: The pieces spell the text.
* `pieces_word`, `pieces_place`, `pieces_quote`: The pieces of what texts are made of.
-/

namespace Rendition.Physl

/-- A piece of a text. -/
inductive Piece where
  | char (c : Char)
  /-- A literal, of which the first quote is left out. -/
  | literal (inside : List Char)
  | place (line column : List Char)
  deriving DecidableEq

namespace Piece

/-- The characters of a piece. -/
def spell : Piece → List Char
  | char c => [c]
  | literal inside => '"' :: inside
  | place line column => '$' :: (line ++ '$' :: column)

/-- The characters of a piece where places are left out. -/
def bare : Piece → List Char
  | place _ _ => []
  | piece => piece.spell

end Piece

/-- What is left of a literal after its first quote, and what follows the literal. A backslash
    keeps the character after it from being a quote. -/
def literal : List Char → List Char × List Char
  | [] => ([], [])
  | '"' :: rest => (['"'], rest)
  | '\\' :: c :: rest => ('\\' :: c :: (literal rest).1, (literal rest).2)
  | c :: rest => (c :: (literal rest).1, (literal rest).2)

/-- The line and the column that stand behind a dollar sign, and what follows them. -/
def place? (text : List Char) : Option (List Char × List Char × List Char) :=
  match text.dropWhile Char.isDigit with
  | '$' :: rest =>
    let line := text.takeWhile Char.isDigit
    let column := rest.takeWhile Char.isDigit
    if line.isEmpty || column.isEmpty then none
    else some (line, column, rest.dropWhile Char.isDigit)
  | _ => none

theorem literal_append (text : List Char) : (literal text).1 ++ (literal text).2 = text := by
  induction text using literal.induct with
  | case1 => rfl
  | case2 rest => rfl
  | case3 c rest ih => rw [literal, List.cons_append, List.cons_append, ih]
  | case4 c rest hquote hslash ih => rw [literal, List.cons_append, ih] <;> assumption

theorem place?_append {text line column rest : List Char}
    (h : place? text = some (line, column, rest)) : line ++ '$' :: (column ++ rest) = text := by
  rw [place?] at h
  split at h
  case h_2 => cases h
  case h_1 after hafter =>
    dsimp only at h
    split at h
    · cases h
    · obtain ⟨rfl, rfl, rfl⟩ : _ ∧ _ ∧ _ := by simpa using h
      rw [List.takeWhile_append_dropWhile, ← hafter, List.takeWhile_append_dropWhile]

/-- The pieces of a text. -/
def pieces (text : List Char) : List Piece :=
  match text with
  | [] => []
  | c :: rest =>
    if c = '"' then .literal (literal rest).1 :: pieces (literal rest).2
    else if c = '$' then
      match _hplace : place? rest with
      | some (line, column, after) => .place line column :: pieces after
      | none => .char c :: pieces rest
    else .char c :: pieces rest
termination_by text.length
decreasing_by
  all_goals simp only [List.length_cons]
  -- What is left of a literal, and of a place, is a part of what it was read from.
  · have hlength := congrArg List.length (literal_append rest)
    rw [List.length_append] at hlength
    omega
  · have hlength := congrArg List.length (place?_append _hplace)
    simp only [List.length_append, List.length_cons] at hlength
    omega
  all_goals omega

/-- The characters of pieces. -/
def spell (ps : List Piece) : List Char :=
  ps.flatMap Piece.spell

/-- The characters of pieces without places. -/
def bare (ps : List Piece) : List Char :=
  ps.flatMap Piece.bare

@[simp]
theorem spell_nil : spell [] = [] :=
  rfl

@[simp]
theorem spell_cons (p : Piece) (ps : List Piece) : spell (p :: ps) = p.spell ++ spell ps :=
  List.flatMap_cons

@[simp]
theorem spell_append (ps qs : List Piece) : spell (ps ++ qs) = spell ps ++ spell qs :=
  List.flatMap_append

@[simp]
theorem spell_chars (text : List Char) : spell (text.map Piece.char) = text := by
  rw [spell, List.flatMap_map]
  exact List.flatMap_singleton' text

@[simp]
theorem bare_nil : bare [] = [] :=
  rfl

@[simp]
theorem bare_cons (p : Piece) (ps : List Piece) : bare (p :: ps) = p.bare ++ bare ps :=
  List.flatMap_cons

@[simp]
theorem bare_append (ps qs : List Piece) : bare (ps ++ qs) = bare ps ++ bare qs :=
  List.flatMap_append

@[simp]
theorem bare_chars (text : List Char) : bare (text.map Piece.char) = text := by
  rw [bare, List.flatMap_map]
  exact List.flatMap_singleton' text

/-- A text without its places. -/
def strip (text : List Char) : List Char :=
  bare (pieces text)

theorem pieces_nil : pieces [] = [] := by
  rw [pieces]

/-- A character that begins neither a literal nor a place stands for itself. -/
theorem pieces_char {c : Char} (hquote : c ≠ '"') (hdollar : c ≠ '$') (rest : List Char) :
    pieces (c :: rest) = .char c :: pieces rest := by
  rw [pieces, if_neg hquote, if_neg hdollar]

theorem pieces_literal (rest : List Char) :
    pieces ('"' :: rest) = .literal (literal rest).1 :: pieces (literal rest).2 := by
  rw [pieces, if_pos rfl]

theorem pieces_dollar {text line column rest : List Char}
    (h : place? text = some (line, column, rest)) :
    pieces ('$' :: text) = .place line column :: pieces rest := by
  rw [pieces, if_neg (by decide), if_pos rfl]
  split
  case h_1 line' column' after h' =>
    obtain ⟨rfl, rfl, rfl⟩ : _ ∧ _ ∧ _ := by simpa [h] using h'
    rfl
  case h_2 h' => rw [h] at h'; cases h'

theorem pieces_of_place?_eq_none {text : List Char} (h : place? text = none) :
    pieces ('$' :: text) = .char '$' :: pieces text := by
  rw [pieces, if_neg (by decide), if_pos rfl]
  split
  case h_1 h' => rw [h] at h'; cases h'
  case h_2 => rfl

/-- The pieces of a text spell the text. -/
theorem spell_pieces (text : List Char) : spell (pieces text) = text := by
  induction text using pieces.induct with
  | case1 => rw [pieces_nil]; rfl
  | case2 rest ih =>
    rw [pieces_literal, spell_cons, ih, Piece.spell, List.cons_append, literal_append]
  | case3 rest line column after hplace _ ih =>
    rw [pieces_dollar hplace, spell_cons, ih, Piece.spell, ← place?_append hplace, List.cons_append,
      List.append_assoc, List.cons_append]
  | case4 rest hplace _ ih =>
    rw [pieces_of_place?_eq_none hplace, spell_cons, ih, Piece.spell, List.singleton_append]
  | case5 c rest hquote hdollar ih =>
    rw [pieces_char hquote hdollar, spell_cons, ih, Piece.spell, List.singleton_append]

/-! ## What texts are made of -/

/-- The characters between words. -/
def delimits (c : Char) : Bool :=
  c = '(' || c = ')' || c = ',' || c.isWhitespace

/-- A text that is one word wherever it stands: it is not empty and holds neither delimiters nor
    characters that begin a literal or a place. -/
def IsWord (text : List Char) : Prop :=
  text ≠ [] ∧ ∀ c ∈ text, c ≠ '$' ∧ c ≠ '"' ∧ delimits c = false

instance (text : List Char) : Decidable (IsWord text) :=
  decidable_of_iff (text ≠ [] ∧ (text.all fun c => c ≠ '$' && c ≠ '"' && !delimits c) = true)
    (by simp [IsWord, and_assoc])

theorem ne_of_delimits {c : Char} (h : delimits c = true) :
    c ≠ '"' ∧ c ≠ '$' ∧ c.isDigit = false := by
  simp only [delimits, Char.isWhitespace, Bool.or_eq_true, decide_eq_true_eq] at h
  rcases h with ((rfl | rfl) | rfl) | ((rfl | rfl) | rfl) | rfl <;> decide

theorem pieces_delimiter {c : Char} (h : delimits c = true) (rest : List Char) :
    pieces (c :: rest) = .char c :: pieces rest :=
  pieces_char (ne_of_delimits h).1 (ne_of_delimits h).2.1 rest

/-- Characters that begin neither literals nor places stand for themselves. -/
theorem pieces_chars {text : List Char} (h : ∀ c ∈ text, c ≠ '"' ∧ c ≠ '$') (rest : List Char) :
    pieces (text ++ rest) = text.map Piece.char ++ pieces rest := by
  induction text with
  | nil => rfl
  | cons c text ih =>
    have hc := h c List.mem_cons_self
    rw [List.cons_append, pieces_char hc.1 hc.2, ih fun d hd => h d (List.mem_cons_of_mem c hd),
      List.map_cons, List.cons_append]

theorem pieces_word {word : List Char} (h : IsWord word) (rest : List Char) :
    pieces (word ++ rest) = word.map Piece.char ++ pieces rest :=
  pieces_chars (fun c hc => ⟨(h.2 c hc).2.1, (h.2 c hc).1⟩) rest

/-- The digits of a number end where another character begins. -/
theorem takeWhile_digits {digits : List Char} (h : ∀ d ∈ digits, d.isDigit = true)
    {rest : List Char} (hrest : ∀ c ∈ rest.head?, c.isDigit = false) :
    (digits ++ rest).takeWhile Char.isDigit = digits ∧
      (digits ++ rest).dropWhile Char.isDigit = rest := by
  rw [List.takeWhile_append_of_pos h, List.dropWhile_append_of_pos h]
  rcases rest with _ | ⟨c, rest⟩
  · exact ⟨List.append_nil _, rfl⟩
  · have hc := hrest c rfl
    rw [List.takeWhile_cons, List.dropWhile_cons, hc]
    exact ⟨List.append_nil _, rfl⟩

/-- A place is read as one unless a digit follows. -/
theorem pieces_place {line column : List Char} (hline : line ≠ []) (hcolumn : column ≠ [])
    (hlines : ∀ d ∈ line, d.isDigit = true) (hcolumns : ∀ d ∈ column, d.isDigit = true)
    {rest : List Char} (hrest : ∀ c ∈ rest.head?, c.isDigit = false) :
    pieces ('$' :: (line ++ '$' :: (column ++ rest))) = .place line column :: pieces rest := by
  have hdollar : ∀ c ∈ ('$' :: (column ++ rest)).head?, c.isDigit = false := by
    rintro c ⟨⟩
    rfl
  -- The line ends at the second dollar sign, and the column where the rest begins.
  obtain ⟨htake, hdrop⟩ := takeWhile_digits hlines hdollar
  obtain ⟨htake', hdrop'⟩ := takeWhile_digits hcolumns hrest
  refine pieces_dollar ?_
  rw [place?, hdrop]
  simp only [htake, htake', hdrop', List.isEmpty_eq_false_iff.mpr hline,
    List.isEmpty_eq_false_iff.mpr hcolumn, Bool.or_self, Bool.false_eq_true, if_false]

/-- The inside of a written text ends at the quote behind it. -/
theorem literal_quoted (text rest : List Char) :
    literal (text.flatMap Text.quoteChar ++ '"' :: rest) =
      (text.flatMap Text.quoteChar ++ ['"'], rest) := by
  induction text with
  | nil => rfl
  | cons c text ih =>
    rw [List.flatMap_cons, List.append_assoc, List.append_assoc]
    rcases Text.quoteChar_cases c with ⟨d, -, hc, -⟩ | ⟨hc, hquote, hslash, -⟩
    · -- An escaped character is skipped together with its backslash.
      rw [hc]
      exact (congrArg (fun r : List Char × List Char => ('\\' :: d :: r.1, r.2)) ih)
    · rw [hc, List.singleton_append, List.singleton_append, literal, ih]
      · exact hquote
      · rintro d rest' rfl
        exact (hslash rfl).elim

/-- A quoted text is a literal, whatever it holds. -/
theorem pieces_quote (text : String) :
    ∃ inside, (Text.quote text).toList = '"' :: inside ∧
      ∀ rest, pieces ((Text.quote text).toList ++ rest) = .literal inside :: pieces rest := by
  have hquote : (Text.quote text).toList =
      '"' :: (text.toList.flatMap Text.quoteChar ++ ['"']) := by
    rw [Text.quote, String.toList_ofList]
  refine ⟨_, hquote, fun rest => ?_⟩
  rw [hquote, List.cons_append, List.append_assoc, List.singleton_append, pieces_literal,
    literal_quoted]

/-! ## Numbers and names -/

/-- The characters that numbers and the names of constants are made of. -/
def isPlain (c : Char) : Bool :=
  c.isAlphanum || c = '-' || c = '.'

/-- A text of such characters. -/
def Unadorned (text : List Char) : Prop :=
  ∀ c ∈ text, isPlain c = true

theorem ne_of_isPlain {c : Char} (h : isPlain c = true) : c ≠ '$' ∧ c ≠ '"' ∧ c ≠ '(' := by
  refine ⟨?_, ?_, ?_⟩ <;> rintro rfl <;> exact absurd h (by decide)

theorem unadorned_append {as bs : List Char} :
    Unadorned (as ++ bs) ↔ Unadorned as ∧ Unadorned bs :=
  List.forall_mem_append

theorem unadorned_digits {text : List Char} (h : ∀ c ∈ text, c.isDigit = true) :
    Unadorned text := by
  intro c hc
  simp only [isPlain, Char.isAlphanum, h c hc, Bool.or_true, Bool.true_or]

theorem unadorned_toString_nat (n : Nat) : Unadorned (toString n).toList := by
  rw [Source.Lexeme.toList_toString_nat]
  exact unadorned_digits (Source.Lexeme.digits_toDigits n)

theorem unadorned_of_all {text : List Char} (h : text.all isPlain = true) : Unadorned text :=
  List.all_eq_true.mp h

theorem unadorned_plain {digits : List Char} (h : ∀ c ∈ digits, c.isDigit = true) (point : Int) :
    Unadorned (Style.plain digits point).toList := by
  have hzeros (n : Nat) : Unadorned (Style.zeros n).toList :=
    unadorned_digits (Source.Lexeme.forall_isDigit_zeros n)
  have hwhole : Unadorned (digits.take point.toNat) :=
    unadorned_digits fun c hc => h c (List.mem_of_mem_take hc)
  have hfraction : Unadorned (digits.drop point.toNat) :=
    unadorned_digits fun c hc => h c (List.mem_of_mem_drop hc)
  unfold Style.plain
  dsimp only
  -- The point stands in front of all digits, or behind the first of them.
  split
  · simp only [String.toList_append, String.toList_ofList]
    exact unadorned_append.mpr ⟨unadorned_append.mpr ⟨unadorned_of_all (by decide), hzeros _⟩,
      unadorned_digits h⟩
  · rw [String.toList_append, String.toList_append, String.toList_append, String.toList_ofList]
    refine unadorned_append.mpr ⟨unadorned_append.mpr
      ⟨unadorned_append.mpr ⟨hwhole, hzeros _⟩, unadorned_of_all (by decide)⟩, ?_⟩
    split
    · exact unadorned_of_all (by decide)
    · rwa [String.toList_ofList]

theorem unadorned_scientific {digits : List Char} (h : ∀ c ∈ digits, c.isDigit = true)
    (point : Int) : Unadorned (Style.source.scientific digits point).toList := by
  have hfraction : Unadorned (digits.drop 1) :=
    unadorned_digits fun c hc => h c (List.mem_of_mem_drop hc)
  unfold Style.scientific
  dsimp only
  simp only [String.toList_append, String.toList_ofList, unadorned_append]
  refine ⟨⟨⟨⟨unadorned_digits fun c hc => h c (List.mem_of_mem_take hc), ?_⟩,
    unadorned_of_all (by decide)⟩, ?_⟩, unadorned_toString_nat _⟩
  · split
    · exact unadorned_of_all (by decide)
    · simp only [String.toList_append, String.toList_ofList]
      exact unadorned_append.mpr ⟨unadorned_of_all (by decide), hfraction⟩
  · split <;> exact unadorned_of_all (by decide)

/-- A number is written with digits, signs, points and letters. -/
theorem unadorned_float (value : Float) : Unadorned (Style.source.text value).toList := by
  unfold Style.text
  split
  · exact unadorned_of_all (by decide)
  rw [String.toList_append]
  refine unadorned_append.mpr ⟨?_, ?_⟩
  · split <;> exact unadorned_of_all (by decide)
  split
  · exact unadorned_of_all (by decide)
  -- Zero, a plain number or one with an exponent.
  unfold Style.decimalText
  dsimp only
  split
  · exact unadorned_of_all (by decide)
  split
  · exact unadorned_plain (Source.Lexeme.digits_toDigits _) _
  · exact unadorned_scientific (Source.Lexeme.digits_toDigits _) _

theorem unadorned_int (value : Int) : Unadorned (toString value).toList := by
  cases value with
  | ofNat n => exact unadorned_toString_nat n
  | negSucc n =>
    have htext : toString (Int.negSucc n) = "-" ++ toString (n + 1) := rfl
    rw [htext, String.toList_append]
    exact unadorned_append.mpr ⟨unadorned_of_all (by decide), unadorned_toString_nat _⟩

theorem text_int_ne_empty (value : Int) : toString value ≠ "" := by
  cases value with
  | ofNat n => exact Nat.repr_ne_empty
  | negSucc n =>
    have htext : toString (Int.negSucc n) = "-" ++ toString (n + 1) := rfl
    simp [htext]

theorem text_float_ne_empty (value : Float) : Style.source.text value ≠ "" := by
  unfold Style.text
  split
  · decide
  rw [ne_eq, String.append_eq_empty_iff]
  rintro ⟨-, h⟩
  split at h
  · simp at h
  -- Zero, a plain number or one with an exponent.
  unfold Style.decimalText Style.plain Style.scientific at h
  dsimp only at h
  split at h
  · simp at h
  split at h
  · split at h <;> simp at h
  · simp at h

/-- A constant that is no text is written with such characters. -/
theorem unadorned_constantText {value : Literal} (h : ∀ text, value ≠ .str text) :
    Unadorned (constantText value).toList := by
  cases value with
  | none => exact unadorned_of_all (by decide)
  | bool value => cases value <;> exact unadorned_of_all (by decide)
  | int value => exact unadorned_int value
  | float value => exact unadorned_float value
  | str text => exact absurd rfl (h text)

end Rendition.Physl
