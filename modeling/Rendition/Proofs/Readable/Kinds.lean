import Rendition.Proofs.Readable.Figure

/-!
# The kind of a figure

Which node an expression is can be read off its figure. The last glyph tells groups, literals and
names apart, and what stands inside of a pair of parentheses is told by its first two words: they
are separated by the first blank, because an operand has blanks inside of its brackets only.

## Main definitions

* `Readable.Operand`: Figures in which nothing outside of brackets separates parts.
* `Readable.groupKind`: The kind of what stands in parentheses.
* `Readable.kindOf`: The kind of a figure.

## Theorems

* `Legible.operand`: The figures of legible trees are operands.
* `kindOf_figure`: The kind of a legible tree is the kind of its figure.
-/

namespace Rendition.Python.Readable

/-! ## Words -/

/-- The character that a glyph is. -/
def Glyph.char? : Glyph → Option Char
  | .char c => some c
  | _ => none

theorem Glyph.literal_ne_char (inside : List Char) (c : Char) : literal inside ≠ char c := by
  intro h
  cases h

theorem Glyph.group_ne_char (bracket : Bracket) (inside : List Glyph) (c : Char) :
    group bracket inside ≠ char c := by
  intro h
  cases h

/-- The text of glyphs that are all characters. -/
def asWord? (gs : List Glyph) : Option String :=
  (gs.mapM Glyph.char?).map String.ofList

theorem mapM_char?_map (cs : List Char) : (cs.map Glyph.char).mapM Glyph.char? = some cs := by
  induction cs with
  | nil => rfl
  | cons c cs ih => rw [List.map_cons, List.mapM_cons, ih]; rfl

theorem asWord?_word (text : String) : asWord? (word text) = some text := by
  rw [asWord?, word, mapM_char?_map, Option.map_some, String.ofList_toList]

theorem word_inj {a b : String} (h : word a = word b) : a = b := by
  have := asWord?_word a
  rw [h, asWord?_word] at this
  exact (Option.some.inj this).symm

/-- Glyphs with a text are the characters of the text. -/
theorem eq_word_of_asWord? {gs : List Glyph} {text : String} (h : asWord? gs = some text) :
    gs = word text := by
  have hchars : ∀ {gs : List Glyph} {cs : List Char}, gs.mapM Glyph.char? = some cs →
      gs = cs.map .char := by
    intro gs
    induction gs with
    | nil => rintro cs ⟨⟩; rfl
    | cons g gs ih =>
      intro cs h
      rw [List.mapM_cons] at h
      obtain ⟨c, hc, h⟩ := Option.bind_eq_some_iff.mp h
      obtain ⟨cs', hcs', ⟨⟩⟩ := Option.bind_eq_some_iff.mp h
      cases g with
      | char d =>
        cases hc
        rw [List.map_cons, ih hcs']
      | _ => cases hc
  obtain ⟨cs, hcs, rfl⟩ := Option.map_eq_some_iff.mp h
  rw [word, String.toList_ofList]
  exact hchars hcs

theorem mem_word {g : Glyph} {text : String} : g ∈ word text ↔ ∃ c ∈ text.toList, .char c = g :=
  List.mem_map

/-! ## Operands -/

/-- Whether a character separates the parts of an expression. -/
def separates (c : Char) : Bool :=
  [' ', ',', ':', '='].contains c

/-- Figures in which nothing outside of brackets separates parts, and which are no keywords. -/
structure Operand (gs : List Glyph) : Prop where
  ne : gs ≠ []
  closed : ∀ c, .char c ∈ gs → separates c = false
  unreserved : ∀ text, gs = word text → text ≠ "lambda" ∧ text ≠ "not"

theorem Operand.not_mem {gs : List Glyph} (h : Operand gs) {c : Char} (hc : separates c = true) :
    .char c ∉ gs := by
  intro hmem
  rw [h.closed c hmem] at hc
  cases hc

theorem separates_of_continuesName {c : Char} (h : Text.continuesName c = true) :
    separates c = false := by
  refine Bool.eq_false_iff.mpr fun hseparates => ?_
  simp only [separates, List.contains_iff_mem, List.mem_cons, List.not_mem_nil, or_false]
    at hseparates
  rcases hseparates with rfl | rfl | rfl | rfl <;> exact absurd h (by decide)

theorem separates_of_isPlain {c : Char} (h : Physl.isPlain c = true) : separates c = false := by
  refine Bool.eq_false_iff.mpr fun hseparates => ?_
  simp only [separates, List.contains_iff_mem, List.mem_cons, List.not_mem_nil, or_false]
    at hseparates
  rcases hseparates with rfl | rfl | rfl | rfl <;> exact absurd h (by decide)

/-- Glyphs that end with a group or a literal. -/
theorem operand_append {gs : List Glyph} {g : Glyph} (h : ∀ c, .char c ∈ gs → separates c = false)
    (hg : ∀ c, g ≠ .char c) : Operand (gs ++ [g]) := by
  refine ⟨List.append_ne_nil_of_right_ne_nil _ (List.cons_ne_nil g []), fun c hc => ?_,
    fun text htext => ?_⟩
  · rcases List.mem_append.mp hc with hc | hc
    · exact h c hc
    · exact absurd (List.mem_singleton.mp hc).symm (hg c)
  · have hmem : g ∈ word text := htext ▸ List.mem_append_right gs List.mem_cons_self
    obtain ⟨c, -, hc⟩ := mem_word.mp hmem
    exact absurd hc.symm (hg c)

theorem operand_word {text : String} (hne : text.toList ≠ [])
    (hclosed : ∀ c ∈ text.toList, separates c = false)
    (hunreserved : text ≠ "lambda" ∧ text ≠ "not") : Operand (word text) := by
  refine ⟨fun h => hne (List.map_eq_nil_iff.mp h), fun c hc => ?_, fun text' h => ?_⟩
  · obtain ⟨d, hd, hdc⟩ := mem_word.mp hc
    cases hdc
    exact hclosed c hd
  · rwa [← word_inj h]

theorem operand_singleton {g : Glyph} (hg : ∀ c, g ≠ .char c) : Operand [g] :=
  @operand_append [] g (fun _ hc => absurd hc List.not_mem_nil) hg

/-- An integer is written with its digits, behind a sign if it is negative. -/
theorem toList_int (n : Int) : (constantText (.int n)).toList =
    if n < 0 then '-' :: Nat.toDigits 10 n.natAbs else Nat.toDigits 10 n.natAbs := by
  cases n with
  | ofNat n =>
    have hpos : ¬ Int.ofNat n < 0 := not_lt.mpr (Int.natCast_nonneg n)
    rw [if_neg hpos]
    exact Source.Lexeme.toList_toString_nat n
  | negSucc n =>
    have htext : constantText (.int (Int.negSucc n)) = "-" ++ toString (n + 1) := rfl
    rw [if_pos (Int.negSucc_lt_zero n), htext, String.toList_append,
      Source.Lexeme.toList_toString_nat]
    rfl

/-- A finite float is written as a number, behind a sign if it is negative. -/
theorem exists_numeral {x : Float} (hx : x.isFinite = true) :
    ∃ text d, Decimal.Numeral text d ∧ ((constantText (.float x)).toList = text ∨
      (constantText (.float x)).toList = '-' :: text) := by
  obtain ⟨d, hd, -⟩ := Decimal.numeral_decimalText (Decimal.shortest .up x)
  refine ⟨_, d, hd, ?_⟩
  rw [constantText, text_eq hx]
  split
  · right
    rw [String.toList_append]
    rfl
  · left
    rw [String.empty_append]

/-- Whether a text begins like a number, with a digit or a sign. -/
def startsNumber (text : String) : Bool :=
  text.toList.head?.any fun c => c.isDigit || c = '-'

/-- Whether a text is a number or the name of a constant. -/
def isConstant (text : String) : Bool :=
  ["None", "True", "False"].contains text || startsNumber text

theorem startsNumber_of_digit {text : String} {c : Char} {cs : List Char}
    (h : text.toList = c :: cs) (hc : c.isDigit = true ∨ c = '-') : startsNumber text = true := by
  rw [startsNumber, h, List.head?_cons, Option.any_some]
  rcases hc with hc | rfl
  · rw [hc, Bool.true_or]
  · rfl

theorem startsNumber_int (n : Int) : startsNumber (constantText (.int n)) = true := by
  obtain ⟨d, digits, hdigits⟩ := List.exists_cons_of_ne_nil (@Nat.toDigits_ne_nil n.natAbs 10)
  have hd := Source.Lexeme.digits_toDigits n.natAbs d (hdigits ▸ List.mem_cons_self)
  have htext := toList_int n
  split at htext
  · exact startsNumber_of_digit htext (.inr rfl)
  · exact startsNumber_of_digit (htext.trans hdigits) (.inl hd)

theorem startsNumber_float {x : Float} (hx : x.isFinite = true) :
    startsNumber (constantText (.float x)) = true := by
  obtain ⟨text, d, hd, htext⟩ := exists_numeral hx
  obtain ⟨c, cs, hcs, hc⟩ := hd.exists_digit
  rcases htext with htext | htext
  · exact startsNumber_of_digit (htext.trans hcs) (.inl hc)
  · exact startsNumber_of_digit htext (.inr rfl)

theorem isConstant_constantText {value : Literal} (h : ∀ text, value ≠ .str text)
    (hfinite : ∀ x, value = .float x → x.isFinite = true) :
    isConstant (constantText value) = true := by
  cases value with
  | none => rfl
  | bool value => cases value <;> rfl
  | int n => rw [isConstant, startsNumber_int, Bool.or_true]
  | float x => rw [isConstant, startsNumber_float (hfinite x rfl), Bool.or_true]
  | str text => exact absurd rfl (h text)

theorem constantText_ne_empty {value : Literal} (h : ∀ text, value ≠ .str text)
    (hfinite : ∀ x, value = .float x → x.isFinite = true) : (constantText value).toList ≠ [] := by
  intro hempty
  have hconstant := isConstant_constantText h hfinite
  rw [String.toList_eq_nil_iff.mp hempty] at hconstant
  exact absurd hconstant (by decide)

/-- The figures of legible trees are operands. -/
theorem Legible.operand {t : Tree} (h : Legible t) : Operand (figure t).text := by
  have hgroup : ∀ (bracket : Bracket) (inside : List Glyph), Operand [.group bracket inside] :=
    fun bracket inside => operand_singleton (Glyph.group_ne_char bracket inside)
  induction h with
  | @ident span id hid =>
    rw [figure_mk]
    refine operand_word ?_ (fun c hc => ?_) ?_
    · obtain ⟨⟨c, cs, hcs, -⟩, -⟩ := hid
      rw [hcs]
      exact List.cons_ne_nil c cs
    · exact separates_of_continuesName (continuesName_of_isName hid.1 c hc)
    · have hreserved := hid.2
      constructor <;> rintro rfl <;> exact absurd hreserved (by decide)
  | @constant span value hfinite =>
    rw [figure_mk]
    by_cases htext : ∃ text, value = .str text
    · obtain ⟨text, rfl⟩ := htext
      exact operand_singleton (Glyph.literal_ne_char _)
    · have hnot : ∀ text, value ≠ .str text := fun text heq => htext ⟨text, heq⟩
      have hconstant := isConstant_constantText hnot hfinite
      simp only [Node.map, depict_constant hnot]
      refine operand_word (constantText_ne_empty hnot hfinite) (fun c hc => ?_) ?_
      · exact separates_of_isPlain (unadorned_constantText hnot c hc)
      · constructor <;> intro heq <;> rw [heq] at hconstant <;> exact absurd hconstant (by decide)
  | @call span func args keywords hfunc hargs hnames hkeywords ihfunc ihargs ihkeywords =>
    rw [figure_mk]
    exact operand_append ihfunc.closed (Glyph.group_ne_char _ _)
  | @attr span value name hvalue hname ih =>
    rw [figure_mk]
    refine ⟨List.append_ne_nil_of_left_ne_nil ih.ne _, fun c hc => ?_, fun text htext => ?_⟩
    · rcases List.mem_append.mp hc with hc | hc
      · exact ih.closed c hc
      rcases List.mem_cons.mp hc with hc | hc
      · cases hc
        decide
      · obtain ⟨d, hd, hdc⟩ := mem_word.mp hc
        cases hdc
        exact separates_of_continuesName (continuesName_of_isName hname.1 c hd)
    · -- There is no point in a keyword.
      have hmem : .char '.' ∈ word text := htext ▸ List.mem_append_right _ List.mem_cons_self
      obtain ⟨c, hc, hpoint⟩ := mem_word.mp hmem
      cases hpoint
      constructor <;> rintro rfl <;> exact absurd hc (by decide)
  | @subscript span value index hvalue hsingle hindex ihvalue ihindex =>
    rw [figure_mk]
    exact operand_append ihvalue.closed (Glyph.group_ne_char _ _)
  | @tuple span items hitems ih =>
    rw [figure_mk]
    rcases items with _ | ⟨first, _ | ⟨second, rest⟩⟩ <;> exact hgroup _ _
  | _ =>
    rw [figure_mk]
    exact hgroup _ _

/-! ## Kinds -/

/-- Whether a glyph is a blank. -/
def isBlank : Glyph → Bool
  | .char ' ' => true
  | _ => false

/-- Glyphs up to the first blank. -/
def firstWord (gs : List Glyph) : List Glyph :=
  gs.takeWhile fun g => !isBlank g

/-- Glyphs behind the first blank. -/
def afterWord (gs : List Glyph) : List Glyph :=
  (gs.dropWhile fun g => !isBlank g).drop 1

/-- Whether the last glyph is a comma. -/
def endsList (gs : List Glyph) : Bool :=
  match gs.getLast? with
  | some (.char ',') => true
  | _ => false

/-- The kind of a node with an operator, or a condition, between its first two operands. -/
def symbolKind (symbol : Option String) : NodeKind :=
  if symbol = some "if" then .ifExp
  else if Connective.all.any fun op => symbol = some op.symbol then .boolOp
  else if Operator.all.any fun op => symbol = some op.symbol then .binOp
  else .compare

/-- The kind of what stands in parentheses. -/
def groupKind (inside : List Glyph) : NodeKind :=
  let first := firstWord inside
  if inside.isEmpty || endsList first then .tuple
  else if asWord? first = some "lambda" || asWord? first = some "lambda:" then .lambda
  else if asWord? first = some "not" || first.length = inside.length then .unaryOp
  else symbolKind (asWord? (firstWord (afterWord inside)))

/-- Whether a name follows a point. -/
def selects (gs : List Glyph) : Bool :=
  gs.tails.any fun
    | .char '.' :: .char c :: _ => Text.startsName c
    | _ => false

/-- The kind of a figure. -/
def kindOf (gs : List Glyph) : NodeKind :=
  match gs.getLast? with
  | some (.group .curly _) => .dict
  | some (.group .square _) => if gs.length = 1 then .list else .subscript
  | some (.group .round inside) => if gs.length = 1 then groupKind inside else .call
  | some (.char _) =>
    if selects gs then .attr
    else if (asWord? gs).any isConstant then .constant else .ident
  | _ => .constant

theorem isBlank_iff {g : Glyph} : isBlank g = true ↔ g = .char ' ' := by
  constructor
  · intro h
    unfold isBlank at h
    split at h
    · rfl
    · cases h
  · rintro rfl
    rfl

/-- Glyphs without a blank are the first word of what they stand before. -/
theorem firstWord_append {gs : List Glyph} (h : .char ' ' ∉ gs) (rest : List Glyph) :
    firstWord (gs ++ .char ' ' :: rest) = gs ∧ afterWord (gs ++ .char ' ' :: rest) = rest := by
  have hgs : ∀ g ∈ gs, (!isBlank g) = true := by
    intro g hg
    rw [Bool.not_eq_true', Bool.eq_false_iff, ne_eq, isBlank_iff]
    rintro rfl
    exact h hg
  rw [firstWord, afterWord, List.takeWhile_append_of_pos hgs, List.dropWhile_append_of_pos hgs]
  exact ⟨List.append_nil gs, rfl⟩

theorem firstWord_eq {gs : List Glyph} (h : .char ' ' ∉ gs) : firstWord gs = gs := by
  rw [firstWord, List.takeWhile_eq_self_iff]
  intro g hg
  rw [Bool.not_eq_true', Bool.eq_false_iff, ne_eq, isBlank_iff]
  rintro rfl
  exact h hg

theorem endsList_append_comma (gs : List Glyph) : endsList (gs ++ [.char ',']) = true := by
  rw [endsList, List.getLast?_concat]
  rfl

theorem endsList_append {gs hs : List Glyph} (hne : hs ≠ []) :
    endsList (gs ++ hs) = endsList hs := by
  obtain ⟨last, hlast⟩ := List.getLast?_isSome.mpr hne |> Option.isSome_iff_exists.mp
  rw [endsList, endsList, List.getLast?_append, hlast, Option.some_or]

theorem endsList_eq_false {gs : List Glyph} (h : .char ',' ∉ gs) : endsList gs = false := by
  unfold endsList
  split
  next hlast => exact absurd (List.mem_of_getLast? hlast) h
  next => rfl

theorem Operand.not_blank {gs : List Glyph} (h : Operand gs) : .char ' ' ∉ gs :=
  h.not_mem rfl

theorem Operand.asWord?_ne {gs : List Glyph} (h : Operand gs) :
    asWord? gs ≠ some "lambda" ∧ asWord? gs ≠ some "lambda:" ∧ asWord? gs ≠ some "not" := by
  refine ⟨fun heq => ?_, fun heq => ?_, fun heq => ?_⟩
  · exact (h.unreserved _ (eq_word_of_asWord? heq)).1 rfl
  · refine h.not_mem (rfl : separates ':' = true) ?_
    rw [eq_word_of_asWord? heq]
    exact mem_word.mpr ⟨':', by decide, rfl⟩
  · exact (h.unreserved _ (eq_word_of_asWord? heq)).2 rfl

/-- Behind an operand and a blank the next word says what kind it is. -/
theorem groupKind_operand {gs symbol : List Glyph} (h : Operand gs) (hsymbol : .char ' ' ∉ symbol)
    (rest : List Glyph) : groupKind (gs ++ .char ' ' :: (symbol ++ .char ' ' :: rest)) =
      symbolKind (asWord? symbol) := by
  obtain ⟨hfirst, hafter⟩ := firstWord_append h.not_blank (symbol ++ .char ' ' :: rest)
  obtain ⟨hne, hne', hne''⟩ := h.asWord?_ne
  have hempty : (gs ++ .char ' ' :: (symbol ++ .char ' ' :: rest)).isEmpty = false :=
    List.isEmpty_eq_false_iff.mpr (List.append_ne_nil_of_left_ne_nil h.ne _)
  have hlength : gs.length ≠ (gs ++ .char ' ' :: (symbol ++ .char ' ' :: rest)).length := by
    rw [List.length_append, List.length_cons]
    omega
  rw [groupKind]
  simp only [hfirst, hafter, hempty, endsList_eq_false (h.not_mem rfl), hne, hne', hne'',
    hlength, (firstWord_append hsymbol rest).1, decide_false, Bool.or_self, Bool.false_eq_true,
    if_false]

theorem spaced_cons (first next : List Glyph) (rest : List (List Glyph)) :
    spaced (first :: next :: rest) = first ++ .char ' ' :: spaced (next :: rest) := by
  rw [spaced, List.intercalate_cons_cons, List.append_assoc, List.singleton_append]
  rfl

theorem listed_cons (first next : List Glyph) (rest : List (List Glyph)) :
    listed (first :: next :: rest) = first ++ .char ',' :: .char ' ' :: listed (next :: rest) := by
  rw [listed, List.intercalate_cons_cons, List.append_assoc]
  rfl

theorem listed_singleton (part : List Glyph) : listed [part] = part :=
  List.intercalate_singleton

theorem blank_not_mem_word {text : String} (h : ' ' ∉ text.toList) : .char ' ' ∉ word text := by
  intro hmem
  obtain ⟨c, hc, hblank⟩ := mem_word.mp hmem
  cases hblank
  exact h hc

theorem groupKind_tuple {items : List (List Glyph)} (h : ∀ item ∈ items, Operand item)
    (hlength : items.length ≠ 1) : groupKind (listed items) = .tuple := by
  rcases items with _ | ⟨first, _ | ⟨second, rest⟩⟩
  · rfl
  · exact absurd rfl hlength
  · have hfirst := h first List.mem_cons_self
    -- The first word ends with the comma behind the first item.
    have hblank : .char ' ' ∉ first ++ [.char ','] := by
      rw [List.mem_append, not_or]
      exact ⟨hfirst.not_blank, by simp⟩
    have hinside : listed (first :: second :: rest) =
        (first ++ [.char ',']) ++ .char ' ' :: listed (second :: rest) := by
      rw [listed_cons, List.append_assoc, List.singleton_append]
    rw [hinside, groupKind]
    simp only [(firstWord_append hblank _).1, endsList_append_comma, Bool.or_true, if_true]

theorem groupKind_single {item : List Glyph} (h : Operand item) :
    groupKind (item ++ [.char ',']) = .tuple := by
  have hblank : .char ' ' ∉ item ++ [.char ','] := by
    rw [List.mem_append, not_or]
    exact ⟨h.not_blank, by simp⟩
  rw [groupKind]
  simp only [firstWord_eq hblank, endsList_append_comma, Bool.or_true, if_true]

theorem groupKind_lambda (params : List String) (body : List Glyph) :
    groupKind (word (lambdaHead params) ++ .char ':' :: .char ' ' :: body) = .lambda := by
  -- Without parameters the first word ends with the colon.
  rw [lambdaHead]
  split
  · have hblank : .char ' ' ∉ word "lambda:" := blank_not_mem_word (by decide)
    have hinside : word "lambda" ++ .char ':' :: .char ' ' :: body =
        word "lambda:" ++ .char ' ' :: body := rfl
    rw [hinside, groupKind]
    simp only [(firstWord_append hblank _).1, asWord?_word]
    rfl
  · have hblank : .char ' ' ∉ word "lambda" := blank_not_mem_word (by decide)
    have hinside : word ("lambda " ++ listing params) ++ .char ':' :: .char ' ' :: body =
        word "lambda" ++ .char ' ' ::
          (word (listing params) ++ .char ':' :: .char ' ' :: body) := by
      rw [word_append, List.append_assoc]
      rfl
    rw [hinside, groupKind]
    simp only [(firstWord_append hblank _).1, asWord?_word]
    rfl

theorem groupKind_unary (op : UnaryOperator) {operand : List Glyph} (h : Operand operand) :
    groupKind (word op.symbol ++ ((if op = .not then [.char ' '] else []) ++ operand)) =
      .unaryOp := by
  have hcomma : .char ',' ∉ operand := h.not_mem rfl
  -- A sign and its operand are one word, which is no keyword.
  have hsign : ∀ c, separates c = false → c ≠ 'l' →
      groupKind (.char c :: operand) = .unaryOp := by
    intro c hc hkeyword
    have hword : firstWord (.char c :: operand) = .char c :: operand := by
      refine firstWord_eq fun hblank => ?_
      rcases List.mem_cons.mp hblank with hblank | hblank
      · cases hblank
        cases hc
      · exact h.not_blank hblank
    have hlist : endsList (.char c :: operand) = false :=
      (@endsList_append [.char c] operand h.ne).trans (endsList_eq_false hcomma)
    have hlambda : ∀ text : String, text.toList.head? = some 'l' →
        asWord? (.char c :: operand) ≠ some text := by
      intro text htext heq
      have hhead := congrArg List.head? (eq_word_of_asWord? heq)
      rw [word, List.head?_map, htext] at hhead
      cases hhead
      exact hkeyword rfl
    rw [groupKind]
    simp only [hword, hlist, hlambda "lambda" rfl, hlambda "lambda:" rfl, List.isEmpty_cons,
      decide_false, decide_true, Bool.or_false, Bool.or_true, Bool.false_eq_true, if_false, if_true]
  cases op with
  | not =>
    have hblank : .char ' ' ∉ word "not" := blank_not_mem_word (by decide)
    change groupKind (word "not" ++ .char ' ' :: operand) = .unaryOp
    rw [groupKind]
    simp only [(firstWord_append hblank _).1, asWord?_word]
    rfl
  | invert => exact hsign '~' (by decide) (by decide)
  | uAdd => exact hsign '+' (by decide) (by decide)
  | uSub => exact hsign '-' (by decide) (by decide)

theorem getLast?_word {text : String} (h : text.toList ≠ []) :
    ∃ c, (word text).getLast? = some (.char c) := by
  refine ⟨text.toList.getLast h, ?_⟩
  rw [word, List.getLast?_map, List.getLast?_eq_some_getLast h]
  rfl

/-- A text in which no name follows a point is a name or a constant. -/
theorem kindOf_word {text : String} (hne : text.toList ≠ []) (h : selects (word text) = false) :
    kindOf (word text) = if isConstant text then .constant else .ident := by
  obtain ⟨c, hlast⟩ := getLast?_word hne
  rw [kindOf, hlast]
  simp only [h, asWord?_word, Option.any_some, Bool.false_eq_true, if_false]

theorem selects_eq_false {gs : List Glyph}
    (h : ∀ c rest, .char '.' :: .char c :: rest <:+ gs → Text.startsName c = false) :
    selects gs = false := by
  rw [selects, List.any_eq_false]
  intro tail htail
  rw [List.mem_tails] at htail
  split
  next c rest => rw [h c rest htail]; exact Bool.false_ne_true
  next => exact Bool.false_ne_true

theorem selects_append {gs : List Glyph} {c : Char} (rest : List Glyph)
    (hc : Text.startsName c = true) :
    selects (gs ++ .char '.' :: .char c :: rest) = true := by
  rw [selects, List.any_eq_true]
  exact ⟨_, (List.mem_tails _ _).mpr (List.suffix_append gs _), hc⟩

theorem selects_word {text : String}
    (h : ∀ c rest, '.' :: c :: rest <:+ text.toList → Text.startsName c = false) :
    selects (word text) = false := by
  refine selects_eq_false fun c rest hsuffix => ?_
  obtain ⟨cs, hcs, heq⟩ := List.suffix_map_iff.mp hsuffix
  rcases cs with _ | ⟨d, _ | ⟨e, cs⟩⟩
  · cases heq
  · cases heq
  · obtain ⟨⟨⟩, ⟨⟩, -⟩ : Glyph.char '.' = .char d ∧ Glyph.char c = .char e ∧ _ := by
      simpa only [List.map_cons, List.cons.injEq] using heq
    exact h c cs hcs

theorem selects_word_of_not_mem {text : String} (h : '.' ∉ text.toList) :
    selects (word text) = false :=
  selects_word fun _ _ hsuffix => absurd (hsuffix.subset List.mem_cons_self) h

/-- A number has a digit behind its point. -/
theorem isDigit_of_suffix {text : List Char} {d : Decimal} (h : Decimal.Numeral text d) {c : Char}
    {rest : List Char} (hsuffix : '.' :: c :: rest <:+ text) : c.isDigit = true := by
  have hpoint : ∀ {digits : List Char}, (∀ d ∈ digits, d.isDigit = true) → '.' ∉ digits :=
    fun h hmem => absurd (h '.' hmem) (by decide)
  have hpower : ∀ {power : List Char} {exponent : Int}, Decimal.Power power exponent →
      '.' ∉ power := by
    intro power exponent hpower
    cases hpower with
    | absent => exact List.not_mem_nil
    | positive hne h =>
      rw [List.mem_cons, not_or]
      exact ⟨by decide, hpoint h⟩
    | negative hne h =>
      rw [List.mem_cons, List.mem_cons, not_or, not_or]
      exact ⟨by decide, by decide, hpoint h⟩
  obtain ⟨before, hbefore⟩ := hsuffix
  cases h with
  | @pointed whole fraction power exponent hwhole h hne hfraction hpower' =>
    have hrest : '.' ∉ fraction ++ power := by
      rw [List.mem_append, not_or]
      exact ⟨hpoint hfraction, hpower hpower'⟩
    obtain ⟨-, -, hafter⟩ :=
      (List.append_cons_inj_of_notMem (hpoint h) hrest).mp hbefore.symm
    obtain ⟨first, more, rfl⟩ := List.exists_cons_of_ne_nil hne
    obtain ⟨rfl, -⟩ := List.cons.inj hafter
    exact hfraction first List.mem_cons_self
  | @scaled whole power exponent hwhole h hpower' hne =>
    have hmem : '.' ∈ whole ++ power := hbefore ▸ List.mem_append_right _ List.mem_cons_self
    rcases List.mem_append.mp hmem with hmem | hmem
    · exact absurd hmem (hpoint h)
    · exact absurd hmem (hpower hpower')

/-- No name follows the point of a number. -/
theorem selects_constantText {value : Literal} (h : ∀ text, value ≠ .str text)
    (hfinite : ∀ x, value = .float x → x.isFinite = true) :
    selects (word (constantText value)) = false := by
  cases value with
  | none => exact selects_word_of_not_mem (by decide)
  | bool value => cases value <;> exact selects_word_of_not_mem (by decide)
  | int n =>
    have hdigits : '.' ∉ Nat.toDigits 10 n.natAbs := fun hmem =>
      absurd (Source.Lexeme.digits_toDigits n.natAbs '.' hmem) (by decide)
    refine selects_word_of_not_mem ?_
    rw [toList_int]
    split
    · rw [List.mem_cons, not_or]
      exact ⟨by decide, hdigits⟩
    · exact hdigits
  | float x =>
    obtain ⟨text, d, hd, htext⟩ := exists_numeral (hfinite x rfl)
    refine selects_word fun c rest hsuffix => Source.Lexeme.startsName_of_isDigit ?_
    rcases htext with htext | htext <;> rw [htext] at hsuffix
    · exact isDigit_of_suffix hd hsuffix
    · rcases List.suffix_cons_iff.mp hsuffix with heq | hsuffix
      · cases (List.cons.inj heq).1
      · exact isDigit_of_suffix hd hsuffix
  | str text => exact absurd rfl (h text)

/-- A name is no constant. -/
theorem isConstant_name {id : String} (h : Text.IsIdentifier id) : isConstant id = false := by
  obtain ⟨⟨c, cs, hcs, hc, -⟩, hreserved⟩ := h
  -- A name begins with neither a digit nor a sign, and the names of constants are reserved.
  have hdigit : c.isDigit = false := by
    refine Bool.eq_false_iff.mpr fun hdigit => ?_
    rw [Source.Lexeme.startsName_of_isDigit hdigit] at hc
    cases hc
  have hminus : c ≠ '-' := by
    rintro rfl
    cases hc
  have hword : ["None", "True", "False"].contains id = false := by
    refine Bool.eq_false_iff.mpr fun hword => ?_
    simp only [List.contains_iff_mem, List.mem_cons, List.not_mem_nil, or_false] at hword
    rcases hword with rfl | rfl | rfl <;> exact absurd hreserved (by decide)
  rw [isConstant, hword, startsNumber, hcs, List.head?_cons, Option.any_some, hdigit]
  simp only [hminus, decide_false, Bool.or_self]

theorem kindOf_name {id : String} (h : Text.IsIdentifier id) : kindOf (word id) = .ident := by
  have hne : id.toList ≠ [] := by
    obtain ⟨⟨c, cs, hcs, -⟩, -⟩ := h
    rw [hcs]
    exact List.cons_ne_nil c cs
  have hpoint : '.' ∉ id.toList := fun hmem =>
    absurd (continuesName_of_isName h.1 '.' hmem) (by decide)
  rw [kindOf_word hne (selects_word_of_not_mem hpoint), isConstant_name h]
  rfl

theorem kindOf_attribute (value : List Glyph) {name : String} (h : Text.IsIdentifier name) :
    kindOf (value ++ .char '.' :: word name) = .attr := by
  obtain ⟨⟨c, cs, hcs, hc, -⟩, -⟩ := h
  have hword : word name = .char c :: cs.map .char := by rw [word, hcs, List.map_cons]
  obtain ⟨last, hlast⟩ := getLast?_word (hcs ▸ List.cons_ne_nil c cs : name.toList ≠ [])
  have hlast' : (value ++ .char '.' :: word name).getLast? = some (.char last) := by
    rw [List.getLast?_append, List.getLast?_cons, hlast]
    rfl
  have hselects : selects (value ++ .char '.' :: word name) = true := by
    rw [hword]
    exact selects_append _ hc
  rw [kindOf, hlast']
  simp only [hselects, if_true]

/-- A group behind something else belongs to it. -/
theorem kindOf_behind {gs : List Glyph} (hne : gs ≠ []) (inside : List Glyph) :
    kindOf (gs ++ [.group .round inside]) = .call ∧
      kindOf (gs ++ [.group .square inside]) = .subscript := by
  have hlength : ∀ g : Glyph, (gs ++ [g]).length ≠ 1 := by
    intro g
    have := List.length_pos_iff.mpr hne
    rw [List.length_append, List.length_singleton]
    omega
  simp only [kindOf, List.getLast?_concat, hlength, if_false, and_self]

/-- The kind of a legible tree is the kind of its figure. -/
theorem kindOf_figure {t : Tree} (h : Legible t) : kindOf (figure t).text = t.kind := by
  cases h with
  | ident hid =>
    rw [figure_mk]
    exact kindOf_name hid
  | @constant span value hfinite =>
    rw [figure_mk]
    by_cases htext : ∃ text, value = .str text
    · obtain ⟨text, rfl⟩ := htext
      rfl
    · have hnot : ∀ text, value ≠ .str text := fun text heq => htext ⟨text, heq⟩
      simp only [Node.map, depict_constant hnot, isConstant_constantText hnot hfinite, if_true,
        kindOf_word (constantText_ne_empty hnot hfinite) (selects_constantText hnot hfinite)]
      rfl
  | @binOp span left right op hleft hright =>
    -- The second word is the symbol, which is told from the symbols of other kinds.
    have hsymbol : ' ' ∉ op.symbol.toList := by cases op <;> decide
    rw [figure_mk]
    change groupKind (spaced [(figure left).text, word op.symbol, (figure right).text]) = .binOp
    rw [spaced_cons, spaced_cons, groupKind_operand hleft.operand (blank_not_mem_word hsymbol),
      asWord?_word]
    cases op <;> rfl
  | @unaryOp span op operand hoperand =>
    rw [figure_mk]
    exact groupKind_unary op hoperand.operand
  | @compare span left ops comparators hops hlength hleft hcomparators =>
    obtain ⟨op, ops, rfl⟩ := List.exists_cons_of_ne_nil hops
    obtain ⟨first, rest, rfl⟩ := List.exists_cons_of_length_eq_add_one hlength.symm
    have hsymbol : ∀ symbol ∈ op.words, ' ' ∉ symbol.toList := by cases op <;> decide
    rw [figure_mk]
    change groupKind (spaced ((figure left).text :: (op.words.map word ++
      (figure first).text :: chain ops ((rest.map figure).map Figure.text)))) = .compare
    cases op <;>
      simp only [Comparison.words, List.map_cons, List.map_nil, List.cons_append,
        List.nil_append] <;>
      rw [spaced_cons, spaced_cons, groupKind_operand hleft.operand
        (blank_not_mem_word (by decide)), asWord?_word] <;>
      rfl
  | @boolOp span op values hlength hvalues =>
    rcases values with _ | ⟨first, _ | ⟨second, rest⟩⟩
    · cases hlength
    · exact absurd hlength (by simp)
    have hsymbol : ' ' ∉ op.symbol.toList := by cases op <;> decide
    have hfirst := (hvalues first List.mem_cons_self).operand
    rw [figure_mk]
    change groupKind ((.char ' ' :: (word op.symbol ++ [.char ' '])).intercalate
      ((figure first).text :: (figure second).text :: (rest.map figure).map Figure.text)) = .boolOp
    rw [List.intercalate_cons_cons, List.append_assoc, List.cons_append, List.append_assoc,
      List.singleton_append, groupKind_operand hfirst (blank_not_mem_word hsymbol), asWord?_word]
    cases op <;> rfl
  | call hfunc =>
    rw [figure_mk]
    exact (kindOf_behind hfunc.operand.ne _).1
  | attr hvalue hname =>
    rw [figure_mk]
    exact kindOf_attribute _ hname
  | subscript hvalue =>
    rw [figure_mk]
    exact (kindOf_behind hvalue.operand.ne _).2
  | list => rw [figure_mk]; rfl
  | dict => rw [figure_mk]; rfl
  | @tuple span items hitems =>
    have hoperands : ∀ item ∈ (items.map figure).map Figure.text, Operand item := by
      simp only [List.map_map, List.forall_mem_map]
      exact fun item hitem => (hitems item hitem).operand
    rw [figure_mk]
    rcases items with _ | ⟨first, _ | ⟨second, rest⟩⟩
    · rfl
    · exact groupKind_single (hoperands _ List.mem_cons_self)
    · exact groupKind_tuple hoperands (by simp)
  | @ifExp span test body orelse htest hbody horelse =>
    have hblank : .char ' ' ∉ word "if" := blank_not_mem_word (by decide)
    rw [figure_mk]
    change groupKind (spaced [(figure body).text, word "if", (figure test).text, word "else",
      (figure orelse).text]) = .ifExp
    rw [spaced_cons, spaced_cons, groupKind_operand hbody.operand hblank, asWord?_word]
    rfl
  | @lambda span params body hparams hbody =>
    rw [figure_mk]
    exact groupKind_lambda params _

end Rendition.Python.Readable
