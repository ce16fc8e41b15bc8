import Rendition.Proofs.Python.Parenthesized

/-!
# Chains, conditions and functions are read back

Comparisons and conditions are read as chains, one operator after another. What is joined by one
connective is flattened again; an operand of the same connective stands between parentheses, so it
does not join in.

## Theorems

* `between_compare`, `between_boolOp`, `between_ifExp`, `between_lambda`: What stands between the
  parentheses.
* `stable_phrase`: The phrase of an expression is read back wherever it stands.
-/

namespace Rendition.Python

open Source Source.Lexeme

/-! ## Comparisons -/

/-- A comparison operator in front of an operand. -/
theorem comparisonOperator?_read (op : Comparison) {f : Frame} {t : Token} {ts : List Token}
    (ht : t.isOpening = true) (hgap : t.gap.Flat) (s : Span) : ∃ text,
    comparisonOperator? f (lay s (comparison op) ++ t :: ts) = some (some text, t :: ts) ∧
      readComparison text = .ok op := by
  have hsees := sees_opening ht hgap ts (f := f.middle)
  have hmark (text : String) (htext : comparisonMarks.contains text = true) :
      comparisonOperator? f (lay s [⟨.blank, .mark, text⟩] ++ t :: ts) =
        some (some text, t :: ts) :=
    comparisonOperator?_mark (t := (Lexeme.mk .blank .mark text).token s) rfl htext hsees
  have hread : ∀ op : Comparison, readComparison op.symbol = .ok op := by
    intro op
    cases op <;> decide
  cases op with
  | eq => exact ⟨"==", hmark _ (by decide), hread .eq⟩
  | notEq => exact ⟨"!=", hmark _ (by decide), hread .notEq⟩
  | lt => exact ⟨"<", hmark _ (by decide), hread .lt⟩
  | ltE => exact ⟨"<=", hmark _ (by decide), hread .ltE⟩
  | gt => exact ⟨">", hmark _ (by decide), hread .gt⟩
  | gtE => exact ⟨">=", hmark _ (by decide), hread .gtE⟩
  | isIn => exact ⟨"in", comparisonOperator?_in rfl hsees, hread .isIn⟩
  | notIn =>
    exact ⟨"not in", comparisonOperator?_notIn rfl rfl (sees_word Gap.flat_blank) hsees,
      hread .notIn⟩
  | is =>
    exact ⟨"is", comparisonOperator?_is rfl hsees (Token.isWord_opening ht "not" (by decide)),
      hread .is⟩
  | isNot =>
    exact ⟨"is not", comparisonOperator?_isNot rfl rfl (sees_word Gap.flat_blank) hsees,
      hread .isNot⟩

/-- The lexemes of a comparison operator. -/
theorem exists_comparison (op : Comparison) : ∃ l ls, comparison op = l :: ls ∧ l.gap.Flat ∧
    (Token.bare l.kind l.text).endsOperand = true ∧ l.kind ≠ .lineEnd := by
  cases op <;> exact ⟨_, _, rfl, Gap.flat_blank, by decide, by decide⟩

/-- A chain of comparisons is read link by link. -/
theorem extend_links {n : Nat} {links : List (Comparison × Tree)}
    (h : ∀ l ∈ links, Stable l.2 ∧ size l.2 ≤ n) (f : Frame) (s' : Span) (ts : List Token) :
    ∀ s : Span, ∃ v vs,
      lay s (links.flatMap fun l => comparison l.1 ++ phrase l.2 .blank) ++
        (mark ")" {}).token s' :: ts = v :: vs ∧
      f.Sees (v :: vs) (v :: vs) ∧ v.endsOperand = true ∧
      ∀ es, ∃ bs, List.Forall₂ (fun l e => DenotesLink e l.1 l.2) links bs ∧
        extend (linkStep (expressionAt n) f) es (v :: vs) =
          some (es ++ bs, (mark ")" {}).token s' :: ts) := by
  induction links with
  | nil =>
    intro s
    refine ⟨_, _, rfl, sees_mark Gap.flat_empty, rfl, fun es => ⟨[], .nil, ?_⟩⟩
    rw [List.append_nil]
    exact extend_link_done es rfl
  | cons link links ih =>
    intro s
    obtain ⟨hstable, hsize⟩ := h link List.mem_cons_self
    obtain ⟨l, ls, hop, hgap, hends, hkind⟩ := exists_comparison link.1
    rw [List.flatMap_cons]
    simp only [lay_append, List.append_assoc]
    have hread (t : Token) (more : List Token) (ht : t.isOpening = true) (hgap : t.gap.Flat) :
        ∃ text, comparisonOperator? f (lay s (comparison link.1) ++ t :: more) =
          some (some text, t :: more) ∧ readComparison text = .ok link.1 :=
      comparisonOperator?_read link.1 ht hgap s
    generalize s.after (spell (comparison link.1)) = s₁
    generalize s₁.after (spell (phrase link.2 .blank)) = s₂
    obtain ⟨v, vs, hnext, hsees, hv, hmore⟩ :=
      ih (fun l hl => h l (List.mem_cons_of_mem link hl)) s₂
    obtain ⟨e, he, hparse⟩ := hstable.yields_operand hsize f Level.operand s₁ .blank _ _ v hsees hv
    obtain ⟨first, more, heq, hopening, hfirst⟩ := hstable.starts.exists_cons s₁ .blank (v :: vs)
    have hflat : first.gap.Flat := hfirst ▸ Gap.flat_blank
    obtain ⟨text, hoperator, hcomparison⟩ := hread first more hopening hflat
    have hlength := congrArg List.length heq
    rw [hnext, heq, hop, lay, List.cons_append]
    rw [hop, lay, List.cons_append] at hoperator
    rw [heq] at hparse
    refine ⟨_, _, rfl, .flat hgap hkind, hends, fun es => ?_⟩
    obtain ⟨bs, hbs, hrest⟩ := hmore (es ++ [⟨none, text, none, e⟩])
    refine ⟨⟨none, text, none, e⟩ :: bs, .cons ⟨rfl, rfl, hcomparison, he.read⟩ hbs, ?_⟩
    rw [← List.append_cons] at hrest
    refine extend_more (linkStep_of hgap.continuations hoperator hflat.continuations hparse) ?_
      hrest
    simp only [List.length_append, List.length_cons] at hlength ⊢
    omega

section Inner

variable (span : Span)

theorem between_compare {left : Tree} {ops : List Comparison} {comparators : List Tree}
    (hops : ops ≠ []) (hlength : ops.length = comparators.length) (hleft : Stable left)
    (hcomparators : ∀ c ∈ comparators, Stable c) :
    Between (phrase left {} ++
      (ops.zip comparators).flatMap fun link => comparison link.1 ++ phrase link.2 .blank)
      (.mk span (.compare left ops comparators)) := by
  refine ⟨hleft.startsBetween _, fun n f s s' ts hn => ?_⟩
  obtain ⟨n, rfl⟩ := Nat.exists_eq_succ_of_ne_zero (Nat.ne_zero_of_lt hn)
  have hlinks : ∀ l ∈ ops.zip comparators, Stable l.2 ∧ size l.2 ≤ n := by
    intro l hl
    have hstable := hcomparators l.2 (List.of_mem_zip hl).2
    refine ⟨hstable, ?_⟩
    have hle := (List.sublist_flatten_of_mem
      (List.mem_map_of_mem (f := fun l => comparison l.1 ++ phrase l.2 .blank) hl)).length_le
    rw [← List.flatMap_def, List.length_append, hstable.starts.length_eq .blank {}] at hle
    rw [List.length_append] at hn
    rw [size]
    omega
  have hsize : size left ≤ n := by
    rw [List.length_append] at hn
    rw [size]
    omega
  rw [lay_append, List.append_assoc]
  generalize s.after (spell (phrase left {})) = s₁
  obtain ⟨v, vs, hnext, hsees, hv, hmore⟩ := extend_links hlinks f s' ts s₁
  obtain ⟨bs, hbs, hextend⟩ := hmore []
  obtain ⟨e, he, hparse⟩ := hleft.yields_operand hsize f Level.operand s {} _ _ v hsees hv
  obtain ⟨first, more, heq, hopening, -⟩ := hleft.starts.exists_cons s {} (v :: vs)
  rw [hnext]
  rw [heq] at hparse ⊢
  rcases bs with _ | ⟨link, links⟩
  · have hzip : ops.zip comparators = [] := List.forall₂_nil_right_iff.mp hbs
    have hzero := congrArg List.length hzip
    rw [List.length_zip, ← hlength, Nat.min_self, List.length_nil, List.length_eq_zero_iff] at hzero
    exact absurd hzero hops
  · exact ⟨_, denotes_comparison span he.read hlength hbs, expressionAt_comparison
      (comparison_chain hparse hextend) (Token.isWord_opening hopening "lambda" (by decide))
      (Token.isWord_opening hopening "not" (by decide)) rfl (by decide) rfl⟩

/-! ## Connectives -/

/-- A connective and the operand behind it. -/
theorem looser_operand {n : Nat} {t : Tree} (h : Stable t) (hn : size t < n) (op : Connective)
    {f : Frame} {ts us : List Token} {u : Token} (hsees : f.Sees ts (u :: us))
    (hu : u.stops op.rightLevel = true) (s : Span) (e : Expr) : ∃ e', Denotes e' t ∧
    looser (expressionAt n) f Level.any e
      (lay s (word op.symbol .blank :: phrase t .blank) ++ ts) =
      some (some (.boolean e.span e op e'), u :: us) := by
  rw [lay, List.cons_append]
  generalize s.after (word op.symbol .blank).chars = s₁
  obtain ⟨e', he', hparse⟩ := h.yields hn f op.rightLevel s₁ .blank ts us u hsees hu
  obtain ⟨first, more, heq, hopening, hgap⟩ := h.starts.exists_cons s₁ .blank ts
  rw [heq] at hparse ⊢
  exact ⟨e', he'.read, looser_connective (beq_self_eq_true op.symbol)
    (sees_opening hopening (hgap ▸ Gap.flat_blank) more) hparse⟩

theorem stops_connective (op : Connective) (s : Span) :
    ((word op.symbol .blank).token s).stops op.rightLevel = true ∧
      endsClause ((word op.symbol .blank).token s) = true := by
  change (Token.bare .word op.symbol).stops op.rightLevel = true ∧
    endsClause (.bare .word op.symbol) = true
  cases op <;> decide

/-- A chain of one connective goes on operand by operand. -/
theorem extend_connectives {n : Nat} (op : Connective) (f : Frame) (s' : Span) (ts : List Token)
    {rest : List Tree} (h : ∀ t ∈ rest, Stable t ∧ size t < n) : ∀ s : Span, ∃ v vs,
    lay s (rest.flatMap fun t => word op.symbol .blank :: phrase t .blank) ++
      (mark ")" {}).token s' :: ts = v :: vs ∧
    f.Sees (v :: vs) (v :: vs) ∧ v.stops op.rightLevel = true ∧
    ∀ e done, DenotesChain op e done → ∃ e', DenotesChain op e' (done ++ rest) ∧
      extend (looser (expressionAt n) f Level.any) e (v :: vs) =
        some (e', (mark ")" {}).token s' :: ts) := by
  induction rest with
  | nil =>
    intro s
    refine ⟨_, _, rfl, sees_mark Gap.flat_empty, stops_close op.rightLevel s',
      fun e done hchain => ⟨e, ?_, extend_done (looser_none rfl)⟩⟩
    rw [List.append_nil]
    exact hchain
  | cons t rest ih =>
    intro s
    obtain ⟨hstable, hsize⟩ := h t List.mem_cons_self
    rw [List.flatMap_cons, lay_append, List.append_assoc]
    obtain ⟨v, vs, hnext, hsees, hv, hmore⟩ := ih (fun u hu => h u (List.mem_cons_of_mem t hu))
      (s.after (spell (word op.symbol .blank :: phrase t .blank)))
    rw [hnext]
    refine ⟨_, _, rfl, sees_word Gap.flat_blank, (stops_connective op s).1, fun e done hchain => ?_⟩
    obtain ⟨e₁, he₁, hstep⟩ := looser_operand hstable hsize op hsees hv s e
    obtain ⟨e', hchain', hrest⟩ := hmore _ _ (hchain.concat he₁)
    rw [List.append_assoc] at hchain'
    refine ⟨e', hchain', extend_more hstep ?_ hrest⟩
    simp only [List.length_append, List.length_cons, List.append_eq]
    omega

theorem between_boolOp {op : Connective} {first second : Tree} {rest : List Tree}
    (h : ∀ t ∈ first :: second :: rest, Stable t) :
    Between (phrase first {} ++
      (second :: rest).flatMap fun value => word op.symbol .blank :: phrase value .blank)
      (.mk span (.boolOp op (first :: second :: rest))) := by
  have hfirst := h first List.mem_cons_self
  refine ⟨hfirst.startsBetween _, fun n f s s' ts hn => ?_⟩
  obtain ⟨n, rfl⟩ := Nat.exists_eq_succ_of_ne_zero (Nat.ne_zero_of_lt hn)
  rw [List.length_append] at hn
  have hparts : ∀ t ∈ second :: rest, Stable t ∧ size t < n := by
    intro t ht
    have hstable := h t (List.mem_cons_of_mem first ht)
    refine ⟨hstable, ?_⟩
    have hle := (List.sublist_flatten_of_mem
      (List.mem_map_of_mem (f := fun t => word op.symbol .blank :: phrase t .blank) ht)).length_le
    rw [← List.flatMap_def, List.length_cons, hstable.starts.length_eq .blank {}] at hle
    obtain ⟨kind, text, more, heq, -⟩ := hfirst.starts
    rw [heq, List.length_cons] at hn
    rw [size]
    omega
  have hsize : size first ≤ n := by
    rw [size]
    omega
  obtain ⟨hsecond, hsecondSize⟩ := hparts second List.mem_cons_self
  simp only [List.flatMap_cons, lay_append, List.append_assoc]
  generalize s.after (spell (phrase first {})) = s₁
  obtain ⟨v, vs, hnext, hsees, hv, hmore⟩ := extend_connectives op f s' ts
    (fun t ht => hparts t (List.mem_cons_of_mem second ht))
    (s₁.after (spell (word op.symbol .blank :: phrase second .blank)))
  rw [hnext]
  obtain ⟨e, he, hclause⟩ := hfirst.yields_clause hsize f Level.any s {} _ _
    ((word op.symbol .blank).token s₁) (sees_word Gap.flat_blank) (stops_connective op s₁).2
  obtain ⟨e₁, he₁, hstep⟩ := looser_operand hsecond hsecondSize op hsees hv s₁ e
  obtain ⟨e', hchain, hrest⟩ := hmore _ _ (DenotesChain.pair he he₁ op)
  refine ⟨e', hchain.denotes span, ?_⟩
  rw [expressionAt_loose n (by decide), loose, run_bind, lay, List.cons_append, hclause]
  refine extend_more hstep ?_ hrest
  simp only [List.length_append, List.length_cons]
  omega

/-! ## Conditions -/

theorem between_ifExp {test body orelse : Tree} (htest : Stable test) (hbody : Stable body)
    (horelse : Stable orelse) :
    Between (phrase body {} ++ word "if" .blank :: phrase test .blank ++
      word "else" .blank :: phrase orelse .blank) (.mk span (.ifExp test body orelse)) := by
  rw [List.append_assoc]
  refine ⟨hbody.startsBetween _, fun n f s s' ts hn => ?_⟩
  obtain ⟨n, rfl⟩ := Nat.exists_eq_succ_of_ne_zero (Nat.ne_zero_of_lt hn)
  have hsize : size body ≤ n ∧ size test < n ∧ size orelse < n := by
    have htestLength := htest.starts.length_eq .blank {}
    have horelseLength := horelse.starts.length_eq .blank {}
    simp only [List.length_append, List.length_cons] at hn
    simp only [size]
    omega
  simp only [lay_append, lay, List.append_assoc, List.cons_append]
  generalize s.after (spell (phrase body {})) = s₁
  generalize s₁.after (word "if" .blank).chars = s₂
  generalize s₂.after (spell (phrase test .blank)) = s₃
  generalize s₃.after (word "else" .blank).chars = s₄
  obtain ⟨e'', he'', horelseParse⟩ := horelse.yields hsize.2.2 f Level.conditional s₄ .blank _ ts
    ((mark ")" {}).token s') (sees_mark Gap.flat_empty) (stops_close Level.conditional s')
  obtain ⟨first'', more'', heq'', hopening'', hgap''⟩ :=
    horelse.starts.exists_cons s₄ .blank ((mark ")" {}).token s' :: ts)
  have hlength'' := congrArg List.length heq''
  rw [heq''] at horelseParse ⊢
  obtain ⟨e', he', htestParse⟩ := htest.yields hsize.2.1 f.middle Level.any s₂ .blank _
    (first'' :: more'') ((word "else" .blank).token s₃) (sees_word Gap.flat_blank)
    (show (Token.bare .word "else").stops Level.any = true by decide)
  obtain ⟨first', more', heq', hopening', hgap'⟩ :=
    htest.starts.exists_cons s₂ .blank ((word "else" .blank).token s₃ :: first'' :: more'')
  have hlength' := congrArg List.length heq'
  rw [heq'] at htestParse ⊢
  obtain ⟨e, he, hclause⟩ := hbody.yields_clause hsize.1 f Level.any s {} _ (first' :: more')
    ((word "if" .blank).token s₁) (sees_word Gap.flat_blank)
    (show endsClause (.bare .word "if") = true by decide)
  refine ⟨.conditional e.span false e e' e'',
    denotes_conditional span he.read he'.read he''.read, ?_⟩
  rw [expressionAt_loose n (by decide), loose, run_bind, hclause]
  refine extend_more (looser_conditional rfl rfl
    (sees_opening hopening' (hgap' ▸ Gap.flat_blank) more') htestParse rfl rfl
    (sees_opening hopening'' (hgap'' ▸ Gap.flat_blank) more'') horelseParse) ?_
    (extend_done (looser_none rfl))
  simp only [List.length_append, List.length_cons] at hlength' hlength'' ⊢
  omega

/-! ## Functions -/

/-- A parameter is a name. -/
theorem parameter_named {expr : ExprParser} {type? : Option (Parser Unit)} {f : Frame} {t u : Token}
    {ts us : List Token} (ht : t.isIdentifier = true) (hsees : f.Sees ts (u :: us))
    (htype : type?.isSome → u.isMark ":" = false) (hequals : u.isMark "=" = false) :
    parameter expr type? f (t :: ts) = some (.named t.text, u :: us) := by
  have hannotated : annotated type? f (u :: us) = some (false, u :: us) := by
    rcases type? with _ | type
    · rfl
    · simp only [annotated, run_bind, mark?_of_ne (htype rfl), Option.bind_some, Bool.false_eq_true,
        if_false, run_pure]
  simp only [parameter, run_bind, run_peek, Option.bind_some, ht, if_true, run_discard, hsees.shift,
    hannotated, Bool.false_eq_true, if_false, defaulted, mark?_of_ne hequals, run_pure]

/-- A parameter is read back in a list that a mark ends. -/
theorem yields_parameter {name : String} (hname : isReserved name = false) {expr : ExprParser}
    {type? : Option (Parser Unit)} {closing : String} (hequals : (closing == "=") = false)
    (htype : type?.isSome → (closing == ":") = false) (f : Frame) :
    Yields f (separates closing) (parameter expr type? f) (fun g => [word name g])
      fun p => p = .named name := by
  intro s g ts us u hsees hu
  have hidentifier : ((word name g).token s).isIdentifier = true := by
    simp only [word, token, Token.isIdentifier, hname, decide_true, Bool.not_false, Bool.and_self]
  exact ⟨.named name, rfl, parameter_named hidentifier hsees
    (fun h => isMark_separates hu ":" (by decide) (htype h))
    (isMark_separates hu "=" (by decide) hequals)⟩

/-- The parameters of a function without a name, up to the colon. -/
theorem lambdaParameters_row (expr : ExprParser) (f : Frame) {params : List String}
    (h : ∀ p ∈ params, isReserved p = false) (s s' : Span) (ts : List Token) :
    f.middle.Sees (lay s (row (params.map fun param g => [word param g]) .blank) ++
        (mark ":" {}).token s' :: ts)
      (lay s (row (params.map fun param g => [word param g]) .blank) ++
        (mark ":" {}).token s' :: ts) ∧
    lambdaParameters expr f (lay s (row (params.map fun param g => [word param g]) .blank) ++
      (mark ":" {}).token s' :: ts) = some (params.map .named, (mark ":" {}).token s' :: ts) := by
  rcases params with _ | ⟨first, params⟩
  · exact ⟨sees_mark Gap.flat_empty, rfl⟩
  · have hitem : ∀ p ∈ first :: params, Yields f.middle (separates ":")
        (parameter expr none f.middle) (fun g => [word p g]) fun q => q = .named p :=
      fun p hp => yields_parameter (h p hp) (by decide) (fun h => by cases h) f.middle
    have hsees : f.middle.Sees ((mark ":" {}).token s' :: ts) ((mark ":" {}).token s' :: ts) :=
      sees_mark Gap.flat_empty
    have hstarts : ∀ p ∈ params,
        StartsWith (startsListed fun t => !t.isMark ":") fun g => [word p g] :=
      fun p _ => ⟨.word, p, [], fun _ => rfl, rfl⟩
    obtain ⟨ps, sep, hps, hlisted⟩ :=
      listed_row Continuation.toParam (separates_comma ":") hsees rfl
      (separates_closing ":" s') (fun _ => rfl) hstarts hitem s .blank
    obtain ⟨t, more, heq, hcolon⟩ : ∃ t more,
        lay s (row ((first :: params).map fun param g => [word param g]) .blank) ++
          (mark ":" {}).token s' :: ts = t :: more ∧ t.isMark ":" = false := ⟨_, _, rfl, rfl⟩
    refine ⟨sees_word Gap.flat_blank, ?_⟩
    rw [heq] at hlisted ⊢
    simp only [lambdaParameters, run_bind, run_atMark, hcolon, Option.bind_some, Bool.false_eq_true,
      if_false, hlisted, eq_map_of_forall₂ hps, run_pure]

theorem between_lambda {params : List String} {body : Tree}
    (hparams : ∀ p ∈ params, isReserved p = false) (h : Stable body) :
    Between (word "lambda" {} :: row (params.map fun param g => [word param g]) .blank ++
      mark ":" {} :: phrase body .blank) (.mk span (.lambda params body)) := by
  refine ⟨⟨_, _, _, rfl, by decide⟩, fun n f s s' ts hn => ?_⟩
  obtain ⟨n, rfl⟩ := Nat.exists_eq_succ_of_ne_zero (Nat.ne_zero_of_lt hn)
  have hsize : size body < n := by
    have hlength := h.starts.length_eq .blank {}
    simp only [List.length_append, List.length_cons] at hn
    rw [size]
    omega
  simp only [lay_append, lay, List.append_assoc, List.cons_append]
  generalize s.after (word "lambda" {}).chars = s₁
  generalize s₁.after (spell (row _ _)) = s₂
  generalize s₂.after (mark ":" {}).chars = s₃
  obtain ⟨e, he, hparse⟩ := h.yields hsize f Level.any s₃ .blank _ ts
    ((mark ")" {}).token s') (sees_mark Gap.flat_empty) (stops_close Level.any s')
  obtain ⟨first, more, heq, hopening, hgap⟩ :=
    h.starts.exists_cons s₃ .blank ((mark ")" {}).token s' :: ts)
  rw [heq] at hparse ⊢
  obtain ⟨hsees, hlambda⟩ :=
    lambdaParameters_row (expressionAt n) f hparams s₁ s₂ (first :: more)
  exact ⟨.lambda _ (params.map .named) e, denotes_lambda span he.read params,
    expressionAt_clause (clause_lambda (t := (word "lambda" {}).token s) rfl hsees hlambda rfl
      (sees_opening hopening (hgap ▸ Gap.flat_blank) more) hparse) rfl⟩

end Inner

/-- The phrase of an expression is read back wherever it stands. -/
theorem stable_phrase {t : Tree} (h : t.IsExpression Faithful) : Stable t := by
  refine ⟨?_, opens_phrase h⟩
  -- What is enclosed leaves no target of an assignment behind.
  have henclosed {span : Span} {node : Node Tree} {inner : List Lexeme}
      (hphrase : phrase (.mk span node) = enclosed inner) (hbetween : Between inner (.mk span node))
      (htarget : (Tree.mk span node).isTarget = false) : Recovered (.mk span node) :=
    recovered_enclosed hphrase hbetween htarget
  induction h with
  | @ident span id hok hname hvariable => exact recovered_ident span hvariable
  | @constant span value hok hint => exact recovered_constant span hok hint
  | @binOp span left right op hok hleft hright ihleft ihright =>
    exact henclosed (phrase_binOp span left right op)
      (between_binOp span ⟨ihleft, opens_phrase hleft⟩
      ⟨ihright, opens_phrase hright⟩ hok) (Tree.isTarget_mk span _)
  | @unaryOp span op operand hok hoperand ih =>
    exact henclosed (phrase_unaryOp span op operand)
      (between_unaryOp span ⟨ih, opens_phrase hoperand⟩) (Tree.isTarget_mk span _)
  | @compare span left ops comparators hok hops hlength hleft hcomparators ihleft ih =>
    exact henclosed (phrase_compare span left ops comparators) (between_compare span hops hlength
      ⟨ihleft, opens_phrase hleft⟩ fun c hc => ⟨ih c hc, opens_phrase (hcomparators c hc)⟩)
      (Tree.isTarget_mk span _)
  | @boolOp span op values hok hlength hvalues ih =>
    rcases values with _ | ⟨first, _ | ⟨second, rest⟩⟩
    · exact absurd hlength (by decide)
    · exact absurd hlength (Nat.not_succ_le_self 1)
    · exact henclosed (phrase_boolOp span op first (second :: rest))
        (between_boolOp span fun v hv => ⟨ih v hv, opens_phrase (hvalues v hv)⟩)
        (Tree.isTarget_mk span _)
  | @call span func args keywords hok hfunc hargs hnames hkeywords ihfunc ihargs ih =>
    exact recovered_call span ⟨ihfunc, opens_phrase hfunc⟩ hok
      (fun a ha => ⟨ihargs a ha, opens_phrase (hargs a ha)⟩) (fun k hk => (hnames k hk).2)
      fun k hk => ⟨ih k hk, opens_phrase (hkeywords k hk)⟩
  | @attr span value name hok hvalue hname ih => exact recovered_attr span ih hname.2
  | @subscript span value index hok hvalue hindex ihvalue ih =>
    exact recovered_subscript span ⟨ihvalue, opens_phrase hvalue⟩ hok.1 hok.2
      fun i hi e he => ⟨ih i hi e he, opens_phrase (hindex i hi e he)⟩
  | @list span items hok hitems ih =>
    exact recovered_list span fun i hi => ⟨ih i hi, opens_phrase (hitems i hi)⟩
  | @tuple span items hok hitems ih =>
    exact recovered_tuple span fun i hi => ⟨ih i hi, opens_phrase (hitems i hi)⟩
  | @dict span entries hok hkeys hvalues ihkeys ihvalues =>
    exact recovered_dict span (fun e he => ⟨ihkeys e he, opens_phrase (hkeys e he)⟩)
      fun e he => ⟨ihvalues e he, opens_phrase (hvalues e he)⟩
  | @ifExp span test body orelse hok htest hbody horelse ihtest ihbody ihorelse =>
    exact henclosed (phrase_ifExp span test body orelse) (between_ifExp span
      ⟨ihtest, opens_phrase htest⟩ ⟨ihbody, opens_phrase hbody⟩ ⟨ihorelse, opens_phrase horelse⟩)
      (Tree.isTarget_mk span _)
  | @lambda span params body hok hparams hbody ih =>
    exact henclosed (phrase_lambda span params body)
      (between_lambda span (fun p hp => (hparams p hp).2) ⟨ih, opens_phrase hbody⟩)
      (Tree.isTarget_mk span _)

end Rendition.Python
