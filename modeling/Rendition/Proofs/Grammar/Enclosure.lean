import Rendition.Proofs.Grammar.Levels

/-!
# What stands between brackets

Tuples, lists, dictionaries, arguments and indices are read from their opening bracket on, where it
is known what their first item is read as and where the others are.

## Main definitions

* `sliceStep`: One step of the parser of slices.

## Theorems

* `parenthesized_single`, `parenthesized_tuple`, `bracketed_cons`, `braced_cons`: What an opening
  bracket starts.
* `trailer_attr`, `trailer_call`, `trailer_subscript`: What goes on with an operand.
* `index_alone`, `index_slice_bound`, `index_slice_open`: One index.
-/

namespace Rendition.Source

section Enclosure

variable {expr : ExprParser} {f : Frame} {e : Expr} {ts mid us rest : List Token}
  {t c u first : Token}

theorem atComprehension_none (hfor : u.isWord "for" = false) (hasync : u.isWord "async" = false) :
    atComprehension (u :: rest) = some (false, u :: rest) := by
  simp only [atComprehension, run_bind, run_atWord, Option.bind_some, hfor, hasync, Bool.or_self,
    run_pure]

theorem atComprehension_mark {text : String} (hu : u.isMark text = true) :
    atComprehension (u :: rest) = some (false, u :: rest) :=
  atComprehension_none (Token.isWord_of_isMark hu "for") (Token.isWord_of_isMark hu "async")

/-- An element of a collection that no star or keyword starts. -/
theorem element_plain (hyield : t.isWord "yield" = false) (hstar : t.isMark "*" = false)
    (hstars : t.isMark "**" = false) :
    element expr f (t :: ts) = expr f Level.any (t :: ts) := by
  simp only [element, run_bind, run_peek, Option.bind_some, run_ite, hyield, hstar, hstars,
    Bool.false_eq_true, if_false]

/-- What an opening bracket starts. -/
theorem atom_bracket (ht : t.kind = .mark) : atom expr f (t :: ts) =
    if t.text == "(" then parenthesized expr f (t :: ts)
    else if t.text == "[" then bracketed expr f (t :: ts)
    else if t.text == "\x7b" then braced expr f (t :: ts)
    else if t.text == "..." then
      (discard (shift f) >>= fun _ => pure (.other t.span "ellipsis")) (t :: ts)
    else none := by
  simp only [atom, run_bind, run_peek, Option.bind_some, ht, run_ite, run_failure]

/-! ## Parentheses -/

section Parenthesized

variable (ht : t.isMark "(" = true)

include ht

theorem parenthesized_nil (hc : c.isMark ")" = true) (hflat : f.inside.Sees (c :: ts) (c :: ts))
    (hsees : f.Sees ts us) : parenthesized expr f (t :: c :: ts) = some (.tuple t.span [], us) := by
  simp only [parenthesized, run_bind, hflat.mark ht, Option.bind_some, hflat.continuations,
    List.map_nil, run_atMark, hc, if_true, run_discard, hsees.shift, run_pure]

theorem parenthesized_single (hfirst : first.isMark ")" = false)
    (hflat : f.inside.Sees (first :: ts) (first :: ts))
    (helement : element expr f.inside (first :: ts) = some (e, c :: mid)) (hc : c.isMark ")" = true)
    (hgap : c.gap.continuations = []) (hsees : f.Sees mid us) :
    parenthesized expr f (t :: first :: ts) = some (.parens t.span e [], us) := by
  simp only [parenthesized, run_bind, hflat.mark ht, Option.bind_some, hflat.continuations,
    List.map_nil, run_atMark, hfirst, Bool.false_eq_true, if_false, helement,
    atComprehension_mark hc, run_ite, hc, if_true, run_continuations, hgap, run_discard,
    hsees.shift,
    run_pure]

theorem parenthesized_tuple {es : List Expr} (hfirst : first.isMark ")" = false)
    (hflat : f.inside.Sees (first :: ts) (first :: ts))
    (helement : element expr f.inside (first :: ts) = some (e, c :: mid)) (hc : c.isMark "," = true)
    (hmore : moreItems f ")" Continuation.toExpr (element expr f.inside) [e] (c :: mid) =
      some (es, us)) :
    parenthesized expr f (t :: first :: ts) = some (.tuple t.span es, us) := by
  simp only [parenthesized, run_bind, hflat.mark ht, Option.bind_some, hflat.continuations,
    List.map_nil, run_atMark, hfirst, Bool.false_eq_true, if_false, helement,
    atComprehension_mark hc, run_ite, Token.isMark_of_isMark hc ")" (by decide),
    List.nil_append, hmore, run_pure]

end Parenthesized

/-! ## Other brackets -/

theorem bracketed_nil (ht : t.isMark "[" = true) (hc : c.isMark "]" = true)
    (hflat : f.inside.Sees (c :: ts) (c :: ts)) (hsees : f.Sees ts us) :
    bracketed expr f (t :: c :: ts) = some (.list t.span [], us) := by
  simp only [bracketed, run_bind, hflat.mark ht, Option.bind_some, hflat.continuations,
    List.map_nil, run_atMark, hc, if_true, run_discard, hsees.shift, run_pure]

theorem bracketed_cons {es : List Expr} (ht : t.isMark "[" = true)
    (hfirst : first.isMark "]" = false) (hflat : f.inside.Sees (first :: ts) (first :: ts))
    (helement : element expr f.inside (first :: ts) = some (e, c :: mid))
    (hc : c.isMark "," = true ∨ c.isMark "]" = true)
    (hmore : moreItems f "]" Continuation.toExpr (element expr f.inside) [e] (c :: mid) =
      some (es, us)) :
    bracketed expr f (t :: first :: ts) = some (.list t.span es, us) := by
  have hcomprehension : atComprehension (c :: mid) = some (false, c :: mid) :=
    hc.elim atComprehension_mark atComprehension_mark
  simp only [bracketed, run_bind, hflat.mark ht, Option.bind_some, hflat.continuations,
    List.map_nil, run_atMark, hfirst, Bool.false_eq_true, if_false, helement, hcomprehension,
    run_ite, List.nil_append, hmore, run_pure]

theorem braced_nil (ht : t.isMark "\x7b" = true) (hc : c.isMark "\x7d" = true)
    (hflat : f.inside.Sees (c :: ts) (c :: ts)) (hsees : f.Sees ts us) :
    braced expr f (t :: c :: ts) = some (.dict t.span [], us) := by
  simp only [braced, run_bind, hflat.mark ht, Option.bind_some, hflat.continuations,
    List.map_nil, run_atMark, hc, if_true, run_discard, hsees.shift, run_pure]

/-- The first entry of a dictionary starts with an element of a collection, its key. -/
theorem braced_cons {entry : Expr × Option Expr} {es : List (Expr × Option Expr)}
    (ht : t.isMark "\x7b" = true) (hopening : first.isOpening = true)
    (hflat : f.inside.Sees (first :: ts) (first :: ts))
    (helement : element expr f.inside (first :: ts) = some (e, c :: mid)) (hc : c.isMark ":" = true)
    (hbody : e.isBody = true)
    (hentry : entryValue expr f.inside e (c :: mid) = some (entry, u :: rest))
    (hu : u.isMark "," = true ∨ u.isMark "\x7d" = true)
    (hmore : moreItems f "\x7d" Continuation.toEntry (Source.entry expr f.inside) [entry]
      (u :: rest) =
      some (es, us)) :
    braced expr f (t :: first :: ts) = some (.dict t.span es, us) := by
  have hcomprehension : atComprehension (u :: rest) = some (false, u :: rest) :=
    hu.elim atComprehension_mark atComprehension_mark
  simp only [braced, run_bind, hflat.mark ht, Option.bind_some, hflat.continuations,
    List.map_nil, run_atMark, Token.isMark_opening hopening "\x7d" (by decide),
    Token.isMark_opening hopening "," (by decide), Token.isMark_opening hopening "**" (by decide),
    Bool.false_eq_true, if_false, helement, hc, if_true, run_ite, hbody, run_require, hentry,
    hcomprehension, List.nil_append, hmore, run_pure]

/-! ## Trailers -/

theorem trailer_attr (ht : t.isMark "." = true) {name : Token} (hname : name.isIdentifier = true)
    (hflat : f.middle.Sees (name :: ts) (name :: ts)) (hsees : f.Sees ts us) :
    trailer expr f e (t :: name :: ts) = some (some (.attr e.span e name.text), us) := by
  simp only [trailer, run_bind, hflat.mark? ht, Option.bind_some, if_true, identifier, run_peek,
    hname, run_require, hsees.shift, run_pure]

theorem trailer_call (ht : t.isMark "(" = true) {span : Span} {args : List (Option String × Expr)}
    (hargs : arguments expr f (t :: ts) = some ((span, some args), us)) :
    trailer expr f e (t :: ts) = some (some (.call e.span e args), us) := by
  simp only [trailer, run_bind, mark?_of_ne (Token.isMark_of_isMark ht "." (by decide)),
    Option.bind_some, Bool.false_eq_true, if_false, run_ite, run_atMark, ht, if_true, hargs,
    run_pure]

theorem trailer_subscript (ht : t.isMark "[" = true) {i : Expr} {es : List Expr}
    (hindices : indices expr f (t :: ts) = some ((i, es), us)) :
    trailer expr f e (t :: ts) = some (some (.subscript e.span e i es), us) := by
  simp only [trailer, run_bind, mark?_of_ne (Token.isMark_of_isMark ht "." (by decide)),
    Option.bind_some, Bool.false_eq_true, if_false, run_ite, run_atMark,
    Token.isMark_of_isMark ht "(" (by decide), ht, if_true, hindices, run_pure]

/-! ## Arguments -/

theorem arguments_nil (ht : t.isMark "(" = true) (hc : c.isMark ")" = true)
    (hflat : f.inside.Sees (c :: ts) (c :: ts)) (hsees : f.Sees ts us) :
    arguments expr f (t :: c :: ts) = some ((t.span, some []), us) := by
  simp only [arguments, run_bind, hflat.mark ht, Option.bind_some, hflat.continuations,
    List.map_nil, run_atMark, hc, if_true, run_discard, hsees.shift, run_pure]

theorem arguments_cons {arg : Option String × Expr} {args : List (Option String × Expr)}
    (ht : t.isMark "(" = true) (hopening : first.isOpening = true)
    (hflat : f.inside.Sees (first :: ts) (first :: ts))
    (hargument : argument expr f.inside (first :: ts) = some (arg, c :: mid))
    (hc : c.isMark "," = true ∨ c.isMark ")" = true)
    (hmore : moreItems f ")" Continuation.toArgument (argument expr f.inside) [arg] (c :: mid) =
      some (args, us)) :
    arguments expr f (t :: first :: ts) = some ((t.span, some args), us) := by
  have hcomprehension : atComprehension (c :: mid) = some (false, c :: mid) :=
    hc.elim atComprehension_mark atComprehension_mark
  simp only [arguments, run_bind, hflat.mark ht, Option.bind_some, hflat.continuations,
    List.map_nil, run_atMark, Token.isMark_opening hopening ")" (by decide),
    Token.isMark_opening hopening "," (by decide), Bool.false_eq_true, if_false, hargument,
    hcomprehension, run_ite, List.nil_append, hmore, run_pure]

/-- A name in front of an equals sign names an argument. -/
theorem argument_named (hword : t.kind = .word) (hname : isVariable t.text = true)
    (hc : c.isMark "=" = true) (hflat : f.Sees (c :: ts) (c :: ts)) (hsees : f.middle.Sees ts us)
    (hvalue : expr f Level.any us = some (e, rest)) :
    argument expr f (t :: c :: ts) = some ((some t.text, e), rest) := by
  have hmark (text : String) : t.isMark text = false := by
    rw [Token.isMark, hword]
    rfl
  simp only [argument, run_bind, run_peek, Option.bind_some, run_ite, hmark, Bool.false_eq_true,
    if_false, hword, hname, decide_true, Bool.and_self, run_second, hc, if_true, run_discard,
    hflat.shift, hsees.mark hc, hvalue, run_pure]

/-- Any other argument is an expression. -/
theorem argument_plain (ht : t.isOpening = true)
    (hequals : t.kind = .word → ∀ c ∈ ts.head?, c.isMark "=" = false)
    (hvalue : expr f Level.any (t :: ts) = some (e, rest)) :
    argument expr f (t :: ts) = some ((none, e), rest) := by
  obtain ⟨b, hsecond, hb⟩ : ∃ b, second (·.isMark "=") (t :: ts) = some (b, t :: ts) ∧
      (t.kind = .word → b = false) := by
    rcases ts with _ | ⟨c, ts⟩
    · exact ⟨false, rfl, fun _ => rfl⟩
    · exact ⟨c.isMark "=", rfl, fun hword => hequals hword c rfl⟩
  have hnamed : (decide (t.kind = .word) && isVariable t.text && b) = false := by
    by_cases hword : t.kind = .word
    · rw [hb hword, Bool.and_false]
    · rw [decide_eq_false hword, Bool.false_and, Bool.false_and]
  simp only [argument, run_bind, run_peek, Option.bind_some, run_ite,
    Token.isMark_opening ht "*" (by decide), Token.isMark_opening ht "**" (by decide),
    Bool.false_eq_true, if_false, hsecond, hnamed, hvalue, run_pure]

/-! ## Indices -/

theorem indices_cons {es : List (Option Expr)} (ht : t.isMark "[" = true)
    (hflat : f.middle.Sees ts ts) (hindex : index expr f.inside ts = some (e, mid))
    (hmore : moreItems f "]" (fun _ => none) (some <$> index expr f.inside) [] mid =
      some (es, us)) :
    indices expr f (t :: ts) = some ((e, es.filterMap id), us) := by
  simp only [indices, run_bind, run_discard, hflat.mark ht, Option.bind_some, hindex, hmore,
    run_pure]

/-- One more colon of a slice, and the bound behind it. -/
def sliceStep (expr : ExprParser) (f : Frame) (state : List (Option Expr) × Nat) :
    Parser (Option (List (Option Expr) × Nat)) := do
  let (parts, colons) := state
  if colons < 2 && (← atMark ":") then
    let before := (← continuations).map fun c => some c.toExpr
    let before := if parts.isEmpty then [] else before
    discard (shiftOperator f)
    let parts := parts ++ before ++ [none]
    if (← peek).startsExpression then
      let after := (← continuations).map fun c => some c.toExpr
      return some (parts ++ after ++ [some (← expr f Level.any)], colons + 1)
    else return some (parts, colons + 1)
  else return none

theorem index_eq : index expr f = do
    let span := (← peek).span
    let lower ← if ← atMark ":" then pure none else some <$> expr f Level.any
    let start : List (Option Expr) := match lower with
      | some e => [some e]
      | none => []
    let (parts, colons) ← extend (sliceStep expr f) (start, 0)
    match lower, colons with
    | some e, 0 => return e
    | _, _ => return .slice span parts := rfl

variable {parts : List (Option Expr)} {colons : Nat}

theorem sliceStep_done (h : colons < 2 → u.isMark ":" = false) :
    sliceStep expr f (parts, colons) (u :: rest) = some (none, u :: rest) := by
  have hcolon : (decide (colons < 2) && u.isMark ":") = false := by
    by_cases hcolons : colons < 2
    · rw [h hcolons, Bool.and_false]
    · rw [decide_eq_false hcolons, Bool.false_and]
  simp only [sliceStep, run_bind, run_atMark, Option.bind_some, hcolon, Bool.false_eq_true,
    if_false, run_pure]

/-- A line continuation in front of a slice is no part of it. -/
theorem before_colon (hgap : parts ≠ [] → c.gap.continuations = []) :
    (if parts.isEmpty then [] else c.gap.continuations.map fun c => some c.toExpr) = [] := by
  rcases parts with _ | ⟨part, parts⟩
  · rfl
  · rw [hgap (List.cons_ne_nil part parts)]
    rfl

/-- A colon that no bound follows. -/
theorem sliceStep_open (hcolons : colons < 2) (hc : c.isMark ":" = true)
    (hgap : parts ≠ [] → c.gap.continuations = []) (hsees : f.Sees ts (u :: rest))
    (hu : u.startsExpression = false) : sliceStep expr f (parts, colons) (c :: ts) =
      some (some (parts ++ [none], colons + 1), u :: rest) := by
  simp only [sliceStep, run_bind, run_atMark, Option.bind_some, hcolons, decide_true, hc,
    Bool.and_self, if_true, run_continuations, before_colon hgap, List.append_nil,
    run_discard, hsees.shiftOperator, run_peek, hu, Bool.false_eq_true, if_false, run_pure]

/-- A colon and a bound. -/
theorem sliceStep_bound (hcolons : colons < 2) (hc : c.isMark ":" = true)
    (hgap : parts ≠ [] → c.gap.continuations = []) (hflat : f.Sees (t :: ts) (t :: ts))
    (ht : t.isOpening = true) (hbound : expr f Level.any (t :: ts) = some (e, rest)) :
    sliceStep expr f (parts, colons) (c :: t :: ts) =
      some (some (parts ++ [none, some e], colons + 1), rest) := by
  simp only [sliceStep, run_bind, run_atMark, Option.bind_some, hcolons, decide_true, hc,
    Bool.and_self, if_true, run_continuations, before_colon hgap, List.map_nil,
    run_discard, hflat.shiftOperator, run_peek, Token.startsExpression_opening ht,
    hflat.continuations, hbound, run_pure, List.append_assoc, List.cons_append, List.nil_append]

/-- Without a colon an index is the expression itself. -/
theorem index_alone (ht : t.isOpening = true)
    (hvalue : expr f Level.any (t :: ts) = some (e, u :: rest)) (hu : u.isMark ":" = false) :
    index expr f (t :: ts) = some (e, u :: rest) := by
  have hdone : extend (sliceStep expr f) ([some e], 0) (u :: rest) =
      some (([some e], 0), u :: rest) := extend_done (sliceStep_done fun _ => hu)
  simp only [index_eq, run_bind, run_peek, Option.bind_some, run_atMark,
    Token.isMark_opening ht ":" (by decide), Bool.false_eq_true, if_false, run_map, hvalue, hdone,
    run_pure]

/-- A slice starts with its lower bound, or with a colon. -/
theorem index_slice_bound (ht : t.isOpening = true)
    (hvalue : expr f Level.any (t :: ts) = some (e, mid))
    (hmore : extend (sliceStep expr f) ([some e], 0) mid = some ((parts, colons + 1), us)) :
    index expr f (t :: ts) = some (.slice t.span parts, us) := by
  simp only [index_eq, run_bind, run_peek, Option.bind_some, run_atMark,
    Token.isMark_opening ht ":" (by decide), Bool.false_eq_true, if_false, run_map, hvalue, hmore,
    run_pure]

theorem index_slice_open (ht : t.isMark ":" = true)
    (hmore : extend (sliceStep expr f) ([], 0) (t :: ts) = some ((parts, colons + 1), us)) :
    index expr f (t :: ts) = some (.slice t.span parts, us) := by
  simp only [index_eq, run_bind, run_peek, Option.bind_some, run_atMark, ht, if_true, run_pure,
    hmore]

end Enclosure

end Rendition.Source
