import Rendition.Proofs.Grammar.Sentences
import Rendition.Proofs.Python.Faithful
import Rendition.Proofs.Python.Front

/-!
# How lines start

A line that starts with an expression is not taken for another statement: the words `match` and
`type` start statements only in front of a type or an expression, and a faithful statement has no
bracket there.

## Main definitions

* `Python.StartsLine`: Phrases of lines that start with an expression.

## Theorems

* `beginning_phrase`: What follows a name at the start of an expression.
* `startsLine_alone`, `startsLine_append`: Faithful lines start with an expression.
* `statementLine_expression`: A line that starts with an expression is a statement with it.
-/

namespace Rendition.Python

open Source Source.Lexeme

section Opening

variable (span : Span)

theorem opening_ident (id : String) : (Tree.mk span (.ident id)).opening = .name id := by
  rw [Tree.opening, Tree.fold_mk]
  rfl

theorem opening_attr (value : Tree) (name : String) :
    (Tree.mk span (.attr value name)).opening = value.opening.point := by
  rw [Tree.opening, Tree.fold_mk]
  rfl

theorem opening_call (func : Tree) (args : List Tree) (keywords : List (Keyword Tree)) :
    (Tree.mk span (.call func args keywords)).opening = func.opening.bracket := by
  rw [Tree.opening, Tree.fold_mk]
  rfl

theorem opening_subscript (value index : Tree) :
    (Tree.mk span (.subscript value index)).opening = value.opening.bracket := by
  rw [Tree.opening, Tree.fold_mk]
  rfl

end Opening

/-- What follows a name at the start of an expression: nothing, a bracket or a point. -/
inductive Beginning (t : Tree) (id : String) (rest : List Lexeme) : Prop
  | alone (hnode : t.node = .ident id) (hopening : t.opening = .name id) (hrest : rest = [])
  | bracket (hopening : t.opening = .bracketed id)
  | point (hrest : rest.head? = some (mark "." {}))

/-- A bracket behind an expression that starts with a name. -/
theorem Beginning.bracketed {t t' : Tree} {id : String} {rest more : List Lexeme}
    (h : Beginning t id rest) (hopening : t'.opening = t.opening.bracket) :
    Beginning t' id (rest ++ more) := by
  cases h with
  | alone hnode hname hrest => exact .bracket (by rw [hopening, hname]; rfl)
  | bracket hbracket => exact .bracket (by rw [hopening, hbracket]; rfl)
  | point hrest => exact .point (by rw [List.head?_append, hrest]; rfl)

/-- What follows a name at the start of an expression. -/
theorem beginning_phrase {ok : Node Tree → Prop} {t : Tree} (h : t.IsExpression ok) :
    ∀ {id : String} {rest : List Lexeme}, isVariable id = true → phrase t {} = word id {} :: rest →
      Beginning t id rest := by
  -- What starts with a mark does not start with a name.
  have hmark {t : Tree} {id text : String} {rest more : List Lexeme}
      (hphrase : phrase t {} = mark text {} :: more) (heq : phrase t {} = word id {} :: rest) :
      Beginning t id rest := by
    injection hphrase.symm.trans heq with hl
    cases congrArg Lexeme.kind hl
  -- What follows an operand stands behind what follows its first name.
  have hinner {value : Tree} {more : List Lexeme} {id : String} {rest : List Lexeme}
      (hstarts : StartsWith Token.isOpening (phrase value))
      (heq : phrase value {} ++ more = word id {} :: rest) :
      ∃ inner, phrase value {} = word id {} :: inner ∧ rest = inner ++ more := by
    obtain ⟨kind, text, inner, hfirst, -⟩ := hstarts
    rw [hfirst, List.cons_append] at heq
    injection heq with hl hrest
    exact ⟨inner, by rw [hfirst, hl], hrest.symm⟩
  induction h with
  | @ident span name hok hname hvariable =>
    intro id rest hid heq
    rw [phrase_ident] at heq
    injection heq with hl hrest
    obtain rfl : name = id := congrArg Lexeme.text hl
    exact .alone rfl (opening_ident span name) hrest.symm
  | @constant span value hok hint =>
    intro id rest hid heq
    rw [phrase_constant] at heq
    injection heq with hl hrest
    have hconstant (hname : isVariable (constant value {}).text = false) :
        Beginning (.mk span (.constant value)) id rest := by
      rw [hl] at hname
      exact absurd hid (Bool.eq_false_iff.mp hname)
    rcases value with _ | (_ | _) | n | x | text
    · exact hconstant (by decide)
    · exact hconstant (by decide)
    · exact hconstant (by decide)
    · cases congrArg Lexeme.kind hl
    · cases congrArg Lexeme.kind hl
    · cases congrArg Lexeme.kind hl
  | @call span func args keywords hok hfunc hargs hnames hkeywords ihfunc ihargs ih =>
    intro id rest hid heq
    rw [phrase_call] at heq
    obtain ⟨inner, hphrase, rfl⟩ := hinner (starts_phrase hfunc) heq
    exact (ihfunc hid hphrase).bracketed (opening_call span func args keywords)
  | @attr span value name hok hvalue hname ih =>
    intro id rest hid heq
    rw [phrase_attr] at heq
    obtain ⟨inner, hphrase, rfl⟩ := hinner (starts_phrase hvalue) heq
    cases ih hid hphrase with
    | alone hnode hopening hrest =>
      subst hrest
      exact .point rfl
    | bracket hbracket => exact .bracket (by rw [opening_attr, hbracket]; rfl)
    | point hrest => exact .point (by rw [List.head?_append, hrest]; rfl)
  | @subscript span value index hok hvalue hindex ihvalue ih =>
    intro id rest hid heq
    rw [phrase_subscript] at heq
    obtain ⟨inner, hphrase, rfl⟩ := hinner (starts_phrase hvalue) heq
    exact (ihvalue hid hphrase).bracketed (opening_subscript span value index)
  | @binOp span left right op =>
    exact fun _ => hmark (congrFun (phrase_binOp span left right op) {})
  | @unaryOp span op operand => exact fun _ => hmark (congrFun (phrase_unaryOp span op operand) {})
  | @compare span left ops comparators =>
    exact fun _ => hmark (congrFun (phrase_compare span left ops comparators) {})
  | @boolOp span op values hok hlength =>
    intro id more hid
    rcases values with _ | ⟨first, rest⟩
    · exact absurd hlength (by decide)
    · exact hmark (congrFun (phrase_boolOp span op first rest) {})
  | @list span items => exact fun _ => hmark (congrFun (phrase_list span items) {})
  | @tuple span items =>
    intro id more hid
    by_cases hsingle : items.length = 1
    · obtain ⟨single, rfl⟩ := List.length_eq_one_iff.mp hsingle
      exact hmark (congrFun (phrase_tuple_single span single) {})
    · exact hmark (congrFun (phrase_tuple span items hsingle) {})
  | @dict span entries => exact fun _ => hmark (congrFun (phrase_dict span entries) {})
  | @ifExp span test body orelse =>
    exact fun _ => hmark (congrFun (phrase_ifExp span test body orelse) {})
  | @lambda span params body => exact fun _ => hmark (congrFun (phrase_lambda span params body) {})

/-! ## Lines -/

/-- Whether neither an expression nor a type starts with a token, and it is no arrow. -/
def startsNothing (t : Token) : Bool :=
  !t.startsExpression && t.unary?.isNone && !t.isMark "**" && !t.isMark ">>"

theorem startsNothing_iff {t : Token} : startsNothing t = true ↔ t.startsExpression = false ∧
    t.unary? = none ∧ t.isMark "**" = false ∧ t.isMark ">>" = false := by
  simp only [startsNothing, Bool.and_eq_true, Bool.not_eq_true', Option.isNone_iff_eq_none,
    and_assoc]

/-- The phrase of a line that starts with an expression and is not taken for another statement. -/
structure StartsLine (p : Phrase) (kind : TokenKind) (text : String) (rest : List Lexeme) :
    Prop where
  eq : ∀ g, p g = ⟨g, kind, text⟩ :: rest
  opening : (Token.bare kind text).isOpening = true
  second : kind = .word → ∀ l ∈ rest.head?, l.kind = .mark ∧ l.gap.Flat ∧ l.text ≠ ">>"
  plain : kind = .word → text = "match" ∨ text = "type" → ∀ l ∈ rest.head?,
    startsNothing (.bare l.kind l.text) = true
  alone : kind = .word → text = "match" → rest ≠ []

/-- What starts a line with an expression that something follows. -/
theorem startsLine_append {ok : Node Tree → Prop} {t : Tree} (h : t.IsExpression ok)
    (hplain : startsPlainly t) {l : Lexeme} (hkind : l.kind = .mark) (hflat : l.gap.Flat)
    (hnothing : startsNothing (.bare l.kind l.text) = true) (more : List Lexeme) :
    ∃ kind text rest, StartsLine (fun g => phrase t g ++ l :: more) kind text rest := by
  obtain ⟨kind, text, rest, hopens⟩ := opens_phrase h
  have harrow : l.text ≠ ">>" := by
    intro htext
    have hmark := (startsNothing_iff.mp hnothing).2.2.2
    rw [hkind, htext] at hmark
    exact absurd hmark (by decide)
  refine ⟨kind, text, rest ++ l :: more, fun g => by rw [hopens.eq, List.cons_append],
    hopens.opening, fun hword c hc => ?_, fun hword htext c hc => ?_,
    fun _ _ => List.append_ne_nil_of_right_ne_nil _ (List.cons_ne_nil l more)⟩
  · rcases rest with _ | ⟨d, rest⟩
    · obtain rfl := Option.some.inj hc
      exact ⟨hkind, hflat, harrow⟩
    · obtain rfl := Option.some.inj hc
      obtain ⟨m, hm, rfl⟩ := hopens.second hword d rfl
      refine ⟨rfl, Gap.flat_empty, fun htext => ?_⟩
      rw [show m = ">>" from htext] at hm
      exact absurd hm (by decide)
  · subst hword
    have hvariable : isVariable text = true := by
      rcases htext with rfl | rfl <;> decide
    cases beginning_phrase h hvariable (hopens.eq {}) with
    | alone hnode hopening hrest =>
      subst hrest
      obtain rfl := Option.some.inj hc
      exact hnothing
    | bracket hbracket =>
      rcases htext with rfl | rfl
      · exact absurd hbracket hplain.1
      · exact absurd hbracket hplain.2
    | point hrest =>
      rw [List.head?_append, hrest] at hc
      obtain rfl := Option.some.inj hc
      decide

/-- What starts a line that is an expression. -/
theorem startsLine_alone {ok : Node Tree → Prop} {t : Tree} (h : t.IsExpression ok)
    (hplain : startsPlainly t) (hmatch : t.node ≠ .ident "match") :
    ∃ kind text rest, StartsLine (phrase t) kind text rest := by
  obtain ⟨kind, text, rest, hopens⟩ := opens_phrase h
  refine ⟨kind, text, rest, hopens.eq, hopens.opening, fun hword c hc => ?_,
    fun hword htext c hc => ?_, fun hword htext hrest => ?_⟩
  · obtain ⟨m, hm, rfl⟩ := hopens.second hword c hc
    refine ⟨rfl, Gap.flat_empty, fun htext => ?_⟩
    rw [show m = ">>" from htext] at hm
    exact absurd hm (by decide)
  · subst hword
    have hvariable : isVariable text = true := by
      rcases htext with rfl | rfl <;> decide
    cases beginning_phrase h hvariable (hopens.eq {}) with
    | alone hnode hopening hrest =>
      subst hrest
      cases hc
    | bracket hbracket =>
      rcases htext with rfl | rfl
      · exact absurd hbracket hplain.1
      · exact absurd hbracket hplain.2
    | point hrest =>
      rw [hrest] at hc
      obtain rfl := Option.some.inj hc
      decide
  · subst hword htext hrest
    cases beginning_phrase h (by decide) (hopens.eq {}) with
    | alone hnode => exact hmatch hnode
    | bracket hbracket => exact hplain.1 hbracket
    | point hrest => cases hrest

section Line

variable {P : Phrase} {kind : TokenKind} {text : String} {rest : List Lexeme} {suite : SuiteParser}
  {n margin : Nat} {ts : List Token} {v : Token} {stmt : Stmt}

/-- A line that starts with an expression is a statement with it. -/
theorem statementLine_expression (h : StartsLine P kind text rest)
    (hbreaks : v.gap.breaksLine = true)
    (harrow : v.isMark ">>" = false) (s : Span) (g : Gap)
    (hstatement : expressionStatement (phrases n) (.statement margin) (lay s (P g) ++ v :: ts) =
      some (stmt, v.lineEnd :: v :: ts)) :
    statementLine (phrases n) suite margin (lay s (P g) ++ v :: ts) = some ([stmt], v :: ts) := by
  rw [h.eq, lay, List.cons_append] at hstatement ⊢
  generalize s.after (Lexeme.mk g kind text).chars = s₁ at hstatement ⊢
  have hword {name : String} (hname : ((Lexeme.mk g kind text).token s).isWord name = true) :
      kind = .word ∧ text = name := Token.isWord_bare hname
  -- What follows the first token: the end of the line, or a mark on the same line.
  have hcases : rest = [] ∨ ∃ l more, rest = l :: more := by
    cases rest with
    | nil => exact .inl rfl
    | cons l more => exact .inr ⟨l, more, rfl⟩
  have hflat (hkind : kind = .word) (l : Lexeme) (hl : rest.head? = some l) (f : Frame)
      (more : List Token) : f.Sees (l.token s₁ :: more) (l.token s₁ :: more) := by
    obtain ⟨hmark, hflat, -⟩ := h.second hkind l hl
    refine .flat hflat fun hend => ?_
    rw [show l.kind = .lineEnd from hend] at hmark
    cases hmark
  refine statementLine_simple (compound?_opening h.opening (fun hasync => ?_) fun hmatch => ?_)
    (simple_plain h.opening hstatement rfl (fun hprint => ?_) fun htype => ?_)
  · refine secondAfterAsync_none fun c hc => ?_
    rcases hcases with rfl | ⟨l, more, rfl⟩
    · obtain rfl := Option.some.inj hc
      exact .inr hbreaks
    · obtain rfl := Option.some.inj hc
      exact .inl (h.second (hword hasync).1 l rfl).1
  · obtain ⟨hkind, htext⟩ := hword hmatch
    rcases hcases with rfl | ⟨l, more, rfl⟩
    · exact absurd rfl (h.alone hkind htext)
    · have hsees := hflat hkind l rfl (.head margin) (lay (s₁.after l.chars) more ++ v :: ts)
      obtain ⟨hexpression, hunary, -⟩ := startsNothing_iff.mp (h.plain hkind (.inl htext) l rfl)
      exact matchStatement_none hmatch hsees hexpression hunary n
  · rcases hcases with rfl | ⟨l, more, rfl⟩
    · rw [lay, List.nil_append, run_second, harrow]
    · obtain ⟨hmark, -, htext⟩ := h.second (hword hprint).1 l rfl
      have harrow : (l.token s₁).isMark ">>" = false := by
        rw [Token.isMark, show (l.token s₁).text = l.text from rfl, beq_eq_false_iff_ne.mpr htext,
          Bool.and_false]
      rw [lay, List.cons_append, run_second, harrow]
  · obtain ⟨hkind, htext⟩ := hword htype
    rcases hcases with rfl | ⟨l, more, rfl⟩
    · exact typeAlias_none (.ended rfl hbreaks) rfl rfl rfl n _
    · have hsees := hflat hkind l rfl (.statement margin) (lay (s₁.after l.chars) more ++ v :: ts)
      obtain ⟨hexpression, hunary, hstars, -⟩ :=
        startsNothing_iff.mp (h.plain hkind (.inr htext) l rfl)
      exact typeAlias_none hsees hexpression hunary hstars n _

end Line

end Rendition.Python
