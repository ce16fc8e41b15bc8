import Rendition.Proofs.Grammar.Expression
import Rendition.Proofs.Grammar.Finds
import Rendition.Proofs.Source.Proper

/-!
# Proper expressions along a course

Every definition of the grammar of expressions finds proper expressions, given that the expressions
inside are proper. The number of tokens bounds how deep expressions are nested, so all of them are.

## Main definitions

* `Course.FindsExprs`: A parser finds proper expressions.
* `ProperArgument`, `ProperEntry`: Arguments of calls and entries of dictionaries.

## Theorems

* `finds_sequence`, `finds_targets`, `finds_parameter`: Expressions without brackets around them.
* `finds_parenthesized`, `finds_bracketed`, `finds_braced`: What an opening bracket starts.
* `finds_operand`, `finds_loose`: Arithmetic and what binds more loosely.
* `findsExprs_expressionAt`: Expressions of all levels.
-/

namespace Rendition.Source

/-- An argument of a call is a proper expression, and its name one that is allowed. -/
structure ProperArgument (arg : Option String × Expr) : Prop where
  value : arg.2.Proper
  name : ∀ name ∈ arg.1, Text.IsName name ∧ isVariable name = true

/-- The expressions of an entry are proper. -/
structure ProperEntry (entry : Expr × Option Expr) : Prop where
  key : entry.1.Proper
  value : ∀ value ∈ entry.2, value.Proper

namespace Expr.Proper

/-- An expression without parts. -/
theorem leaf {e : Expr} (hallowed : e.Allowed) (h : e.operands = []) : e.Proper :=
  .mk hallowed fun p hp => by rw [h] at hp; cases hp

/-- An expression with one part. -/
theorem single {e p : Expr} (hallowed : e.Allowed) (h : e.operands = [p]) (hp : p.Proper) :
    e.Proper :=
  .mk hallowed fun q hq => by rw [h, List.mem_singleton] at hq; exact hq ▸ hp

theorem toExpr (x : Continuation) : x.toExpr.Proper :=
  .leaf trivial rfl

theorem call {span : Span} {func : Expr} {args : List (Option String × Expr)} (hfunc : func.Proper)
    (hargs : ∀ arg ∈ args, ProperArgument arg) : (Expr.call span func args).Proper := by
  refine .mk (fun arg harg => (hargs arg harg).name) (List.forall_mem_cons.mpr ⟨hfunc, ?_⟩)
  exact List.forall_mem_map.mpr fun arg harg => (hargs arg harg).value

theorem dict {span : Span} {entries : List (Expr × Option Expr)}
    (h : ∀ entry ∈ entries, ProperEntry entry) : (Expr.dict span entries).Proper := by
  refine .mk trivial fun p hp => ?_
  obtain ⟨entry, hentry, hp⟩ := List.mem_flatMap.mp hp
  rcases List.mem_cons.mp hp with rfl | hp
  · exact (h entry hentry).key
  · exact (h entry hentry).value p (Option.mem_toList.mp hp)

/-- A star goes to the first place in an expression and takes nothing from it. -/
theorem splatted {e e' : Expr} {span : Span} (h : e.Proper) (heq : e.splatted? span = some e') :
    e'.Proper := by
  induction h generalizing e' with
  | @mk e hallowed hoperands ih =>
    have hplace : e.isPlace = true → some (Expr.splat span e) = some e' → e'.Proper := by
      rintro - heq
      obtain rfl := Option.some.inj heq
      exact .single trivial rfl (.mk hallowed hoperands)
    cases e with
    | call span' func args =>
      rw [Expr.splatted?, Option.map_eq_some_iff] at heq
      obtain ⟨func', hfunc, rfl⟩ := heq
      refine .mk hallowed (List.forall_mem_cons.mpr ⟨ih func (.head _) hfunc, fun p hp => ?_⟩)
      exact hoperands p (.tail _ hp)
    | generatorCall span' argument =>
      obtain rfl := Option.some.inj heq
      exact .leaf trivial rfl
    | ident | attr | subscript => exact hplace rfl heq
    | _ => cases heq

end Expr.Proper

namespace Course

open Expr (Proper)

variable {c : Course}

/-- A parser finds proper expressions along a course, whose words are names. -/
structure FindsExprs (c : Course) (expr : ExprParser) : Prop where
  named : c.Named
  reads : c.ReadsExprs expr
  proper : ∀ f level, c.Finds Proper (expr f level)

theorem Follows.covered {α : Type} {p : Parser α} (h : c.Follows p) : c.Follows (covered p) :=
  fun k => (h k).covered.mono fun _ _ _ h => h.2

/-- The source text that a parser takes does not matter to what it finds. -/
theorem Finds.covered {α : Type} {p : Parser α} {P : α → Prop} (h : c.Finds P p) :
    c.Finds (fun r => P r.1) (covered p) := by
  intro ts hts a rest heq
  change (p ts).bind (fun r => some ((r.1, Token.excerpt _), r.2)) = some (a, rest) at heq
  obtain ⟨⟨b, ts'⟩, hp, heq⟩ := Option.bind_eq_some_iff.mp heq
  cases heq
  exact h ts hts b _ hp

variable {expr : ExprParser} (hexpr : c.FindsExprs expr)

/-! ## Expressions separated by commas -/

theorem finds_sequenceOf (f : Frame) (starts : Token → Bool) {item : Parser Expr}
    (h : c.Finds Proper item) : c.Finds Proper (sequenceOf f starts item) := by
  refine .front fun _ t _ => (finds_listed Proper.toExpr h f "," starts).bind ?_
  rintro ⟨_ | ⟨first, _ | ⟨second, rest⟩⟩, separated⟩ hitems
  · exact .pure (.mk trivial hitems)
  · cases separated with
    | false => exact .pure (hitems first (.head _))
    | true => exact .pure (.mk trivial hitems)
  · exact .pure (.mk trivial hitems)

include hexpr

theorem finds_sequence (f : Frame) : c.Finds Proper (sequence expr f) :=
  finds_sequenceOf f _ (hexpr.proper f Level.any)

theorem finds_targets (f : Frame) :
    c.Finds (fun e => e.Proper ∧ e.isPattern = true) (targets expr f) :=
  (finds_sequenceOf f _ (hexpr.proper f Level.primary)).bind fun _ he =>
    .require fun hpattern => .pure ⟨he, hpattern⟩

theorem finds_yielded (f : Frame) : c.Finds Proper (yielded expr f) := by
  have hother : ∀ span : Span, Proper (.other span "yield") := fun _ => .leaf trivial rfl
  refine .step (follows_word f "yield") fun t => .step (steady_atWord "from").follows fun _ =>
    .ite (fun _ => ?_) fun _ => .front fun _ u _ => .ite (fun _ => ?_) fun _ => .pure (hother _)
  · exact .pass (follows_shiftOperator f.middle)
      (.pass (follows_expr hexpr.reads f Level.any) (.pure (hother _)))
  · exact .pass (follows_sequence hexpr.reads f) (.pure (hother _))

/-! ## Parameters -/

omit hexpr in
/-- A parameter that is no name. -/
theorem allowed_other (span : Span) (construct : String) : (Param.other span construct).Allowed :=
  fun _ h => by cases h

omit hexpr in
theorem finds_starred {type? : Option (Parser Unit)} (htype : ∀ p ∈ type?, c.Steady p)
    (hreads : c.ReadsExprs expr) (f : Frame) (span : Span) (construct : String) :
    c.Finds Param.Allowed (starred expr type? f span construct) := by
  refine .step (follows_expr hreads f Level.primary) fun _ => .require fun _ =>
    .step (steady_annotated htype f).follows fun _ => .ite (fun _ => ?_) fun _ => ?_
  · exact .pure (allowed_other _ _)
  · exact .pure (allowed_other _ _)

theorem finds_parameter {type? : Option (Parser Unit)} (htype : ∀ p ∈ type?, c.Steady p)
    (f : Frame) : c.Finds Param.Allowed (parameter expr type? f) := by
  refine .front fun k t ht => .ite (fun hname => ?_) fun _ => .ite (fun _ => ?_) fun _ =>
    .ite (fun _ => ?_) fun _ => .ite (fun _ => ?_) fun _ => .ite (fun _ => ?_) fun _ => .failure
  · -- A name, perhaps with a type and a default.
    have hnamed : (Param.named t.text).Allowed := fun name hname' => by
      cases hname'
      exact hexpr.named.isIdentifier ht hname
    have hrest : ∀ construct, c.Finds Param.Allowed (do
        if ← defaulted expr f then return .other t.span construct
        else return .named t.text) := fun construct =>
      .step (steady_defaulted hexpr.reads f).follows fun _ =>
        .ite (fun _ => .pure (allowed_other _ _)) fun _ => .pure hnamed
    exact .pass (follows_shift f) (.step (steady_annotated htype f).follows fun _ =>
      .ite (fun _ => hrest _) fun _ => hrest _)
  · -- A pattern in parentheses is read as an expression.
    have hpattern : ∀ condition, c.Finds Param.Allowed (do
        require condition
        if ← defaulted expr f then return .other t.span "default_parameter"
        else return .other t.span "tuple_pattern") := fun condition =>
      .require fun _ => .step (steady_defaulted hexpr.reads f).follows fun _ =>
        .ite (fun _ => .pure (allowed_other _ _)) fun _ => .pure (allowed_other _ _)
    refine .step (follows_expr hexpr.reads f Level.primary) fun e => ?_
    cases e with
    | tuple span items => exact hpattern _
    | parens span item items => exact hpattern _
    | _ => exact .failure
  · refine .pass (follows_shift f) (.front fun _ u _ => .ite (fun _ => ?_) fun _ => ?_)
    · exact finds_starred htype hexpr.reads f _ _
    · exact .pure (allowed_other _ _)
  · exact .pass (follows_shift f.middle) (finds_starred htype hexpr.reads f _ _)
  · exact .pass (follows_shift f) (.pure (allowed_other _ _))

theorem finds_lambdaParameters (f : Frame) :
    c.Finds (fun params => ∀ param ∈ params, param.Allowed) (lambdaParameters expr f) := by
  refine .step (steady_atMark ":").follows fun _ => .ite
    (fun _ => .pure (List.forall_mem_nil _)) fun _ => ?_
  exact (finds_listed (fun x => allowed_other _ _) (@finds_parameter c expr hexpr none
    (fun p hp => by cases hp) f.middle) f.middle "," _).bind fun r hr => .pure hr

theorem finds_lambdaOf (f : Frame) (level : Nat) : c.Finds Proper (lambdaOf expr f level) := by
  refine .front fun _ t _ => .require fun _ => .pass (follows_shift f.middle)
    ((finds_lambdaParameters hexpr f).bind fun params hparams => ?_)
  exact .pass (follows_mark f.middle ":") ((hexpr.proper f level).bind fun body hbody =>
    .pure (.mk hparams (List.forall_mem_singleton.mpr hbody)))

/-! ## Collections -/

theorem finds_element (f : Frame) : c.Finds Proper (element expr f) := by
  refine .front fun _ t _ => .ite (fun _ => finds_yielded hexpr f) fun _ => .ite (fun _ => ?_)
    fun _ => .ite (fun _ => ?_) fun _ => hexpr.proper f Level.any
  · exact .pass (follows_shiftOperator f.middle) ((hexpr.proper f Level.any).bind fun e he =>
      .pure (.single trivial rfl he))
  · exact .pass (follows_shiftOperator f.middle) ((hexpr.proper f Level.any).bind fun e he =>
      .require fun _ => .pure (.single trivial rfl he))

theorem finds_parenthesized (f : Frame) : c.Finds Proper (parenthesized expr f) := by
  refine .step (follows_mark f.inside "(") fun t => .step follows_continuations fun before => ?_
  have hbefore := forall_mem_continued Proper.toExpr (List.forall_mem_nil _) before
  refine .step (steady_atMark ")").follows fun _ => .ite (fun _ => ?_) fun _ =>
    (finds_element hexpr f.inside).bind fun first hfirst => ?_
  · exact .pass (follows_shift f) (.pure (.mk trivial hbefore))
  have hall := forall_mem_concat hbefore hfirst
  refine .step steady_atComprehension.follows fun _ => .ite (fun _ => .require fun _ => ?_)
    fun _ => .step (steady_atMark ")").follows fun _ => .ite (fun _ => ?_) fun _ => ?_
  · exact .step (steady_comprehensionUntil hexpr.reads f ")").follows fun _ =>
      .pure (.leaf trivial rfl)
  · refine .step follows_continuations fun after => .pass (follows_shift f) ?_
    have hafter := forall_mem_continued Proper.toExpr hall after
    rcases before with _ | ⟨x, before⟩
    · exact .pure (.mk trivial hafter)
    · exact .pure (.mk trivial hafter)
  · exact (finds_moreItems Proper.toExpr (finds_element hexpr f.inside) f ")" hall).bind
      fun items hitems => .pure (.mk trivial hitems)

theorem finds_bracketed (f : Frame) : c.Finds Proper (bracketed expr f) := by
  refine .step (follows_mark f.inside "[") fun t => .step follows_continuations fun before => ?_
  have hbefore := forall_mem_continued Proper.toExpr (List.forall_mem_nil _) before
  refine .step (steady_atMark "]").follows fun _ => .ite (fun _ => ?_) fun _ =>
    (finds_element hexpr f.inside).bind fun first hfirst => ?_
  · exact .pass (follows_shift f) (.pure (.mk trivial hbefore))
  refine .step steady_atComprehension.follows fun _ => .ite (fun _ => .require fun _ => ?_)
    fun _ => ?_
  · exact .step (steady_comprehensionUntil hexpr.reads f "]").follows fun _ =>
      .pure (.leaf trivial rfl)
  · exact (finds_moreItems Proper.toExpr (finds_element hexpr f.inside) f "]"
      (forall_mem_concat hbefore hfirst)).bind fun items hitems => .pure (.mk trivial hitems)

omit hexpr in
theorem properEntry_toEntry (x : Continuation) : ProperEntry x.toEntry :=
  ⟨.toExpr x, fun value hvalue => by cases hvalue⟩

theorem finds_entryValue (f : Frame) {key : Expr} (hkey : key.Proper) :
    c.Finds ProperEntry (entryValue expr f key) :=
  .pass (follows_mark f.middle ":") ((hexpr.proper f Level.any).bind fun _ he =>
    .pure ⟨hkey, fun _ hvalue => Option.some.inj hvalue ▸ he⟩)

theorem finds_entry (f : Frame) : c.Finds ProperEntry (entry expr f) := by
  refine .front fun _ t _ => .ite (fun _ => ?_) fun _ =>
    (hexpr.proper f Level.any).bind fun key hkey => finds_entryValue hexpr f hkey
  exact .pass (follows_shiftOperator f.middle) (.pass (follows_expr hexpr.reads f Level.any)
    (.pure ⟨.leaf trivial rfl, fun value hvalue => by cases hvalue⟩))

theorem finds_braced (f : Frame) : c.Finds Proper (braced expr f) := by
  refine .step (follows_mark f.inside "\x7b") fun t => .step follows_continuations fun before => ?_
  have hbefore := forall_mem_continued properEntry_toEntry (List.forall_mem_nil _) before
  have hother : ∀ construct, Proper (.other t.span construct) := fun _ => .leaf trivial rfl
  have hdict : ∀ {first : Expr × Option Expr}, ProperEntry first → c.Finds Proper (do
      return .dict t.span (← moreItems f "\x7d" Continuation.toEntry (entry expr f.inside)
        (before.map Continuation.toEntry ++ [first]))) := fun hfirst =>
    (finds_moreItems properEntry_toEntry (finds_entry hexpr f.inside) f _
      (forall_mem_concat hbefore hfirst)).bind fun entries hentries => .pure (.dict hentries)
  have hcomprehension : ∀ construct, c.Finds Proper (do
      comprehensionUntil expr f "\x7d"
      return .other t.span construct) := fun construct =>
    .step (steady_comprehensionUntil hexpr.reads f _).follows fun _ => .pure (hother construct)
  refine .step (steady_atMark _).follows fun _ => .ite
    (fun _ => .pass (follows_shift f) (.pure (.dict hbefore))) fun _ => ?_
  refine .step (steady_atMark ",").follows fun _ => .ite (fun _ => ?_) fun _ => ?_
  · refine .pass (follows_shift f.inside) (.step follows_continuations fun after => ?_)
    exact .step (steady_atMark _).follows fun _ => .require fun _ => .pass (follows_shift f)
      (.pure (.dict (forall_mem_continued properEntry_toEntry hbefore after)))
  refine .step (steady_atMark "**").follows fun _ => .ite
    (fun _ => (finds_entry hexpr f.inside).bind fun first hfirst => hdict hfirst) fun _ =>
    (finds_element hexpr f.inside).bind fun first hfirst => ?_
  -- A colon behind the first expression makes it the key of a dictionary.
  refine .step (steady_atMark ":").follows fun _ => .ite (fun _ => .require fun _ => ?_) fun _ =>
    .step steady_atComprehension.follows fun _ => .ite
      (fun _ => .require fun _ => hcomprehension _) fun _ => ?_
  · refine (finds_entryValue hexpr f.inside hfirst).bind fun value hvalue => ?_
    exact .step steady_atComprehension.follows fun _ =>
      .ite (fun _ => hcomprehension _) fun _ => hdict hvalue
  · refine .pass (fun k => ?_) (.pure (hother _))
    exact (run_moreItems f _ (gives_element hexpr.reads f.inside) (.nil (Nat.le_refl k))).mono
      fun _ _ _ h => h.le

/-! ## Arguments -/

omit hexpr in
theorem properArgument_positional {e : Expr} (he : e.Proper) : ProperArgument (none, e) :=
  ⟨he, fun name hname => by cases hname⟩

theorem finds_argument (f : Frame) : c.Finds ProperArgument (argument expr f) := by
  have hplain : c.Finds ProperArgument (do return (none, ← expr f Level.any)) :=
    (hexpr.proper f Level.any).bind fun e he => .pure (properArgument_positional he)
  refine .front fun k t ht => .ite (fun _ => ?_) fun _ => .ite (fun _ => ?_) fun _ => ?_
  · exact .pass (follows_shiftOperator f.middle) ((hexpr.proper f Level.any).bind fun e he =>
      .pure (properArgument_positional (.single trivial rfl he)))
  · exact .pass (follows_shiftOperator f.middle) (.pass (follows_expr hexpr.reads f Level.any)
      (.pure (properArgument_positional (.leaf trivial rfl))))
  refine .step (steady_second fun _ => rfl).follows fun _ => .ite (fun hname => ?_) fun _ => hplain
  simp only [Bool.and_eq_true, decide_eq_true_eq] at hname
  refine .pass (follows_shift f) (.pass (follows_mark f.middle "=")
    ((hexpr.proper f Level.any).bind fun e he => .pure ⟨he, fun name h => ?_⟩))
  obtain rfl := Option.some.inj h
  exact ⟨hexpr.named.isName ht hname.1.1, hname.1.2⟩

/-- Arguments of a call, unless they are one comprehension. -/
theorem finds_arguments (f : Frame) :
    c.Finds (fun r => ∀ args ∈ r.2, ∀ arg ∈ args, ProperArgument arg) (arguments expr f) := by
  have hcontinuation : ∀ x : Continuation, ProperArgument x.toArgument := fun x =>
    properArgument_positional (.toExpr x)
  have hargs : ∀ {span : Span} {args : List (Option String × Expr)},
      (∀ arg ∈ args, ProperArgument arg) →
      c.Finds (fun r => ∀ args ∈ r.2, ∀ arg ∈ args, ProperArgument arg)
        (pure (span, some args)) := fun h => .pure fun args hargs => Option.some.inj hargs ▸ h
  refine .step (follows_mark f.inside "(") fun t => .step follows_continuations fun before => ?_
  have hbefore := forall_mem_continued hcontinuation (List.forall_mem_nil _) before
  refine .step (steady_atMark ")").follows fun _ => .ite
    (fun _ => .pass (follows_shift f) (hargs hbefore)) fun _ => ?_
  refine .step (steady_atMark ",").follows fun _ => .ite (fun _ => ?_) fun _ =>
    (finds_argument hexpr f.inside).bind fun first hfirst => ?_
  · refine .pass (follows_shift f.inside) (.step follows_continuations fun after => ?_)
    exact .step (steady_atMark _).follows fun _ => .require fun _ => .pass (follows_shift f)
      (hargs (forall_mem_continued hcontinuation hbefore after))
  refine .step steady_atComprehension.follows fun _ => .ite (fun _ => .require fun _ => ?_)
    fun _ => ?_
  · exact .step (steady_comprehensionUntil hexpr.reads f ")").follows fun _ =>
      .pure fun args hargs => by cases hargs
  · exact (finds_moreItems hcontinuation (finds_argument hexpr f.inside) f ")"
      (forall_mem_concat hbefore hfirst)).bind fun args h => hargs h

/-! ## Indices -/

theorem finds_index (f : Frame) :
    c.Finds (fun e => ∀ b ∈ e.limits, b.Proper) (index expr f) := by
  refine .front fun _ t _ => .step (steady_atMark ":").follows fun _ => ?_
  extract_lets rest
  have hrest : ∀ lower, (∀ e ∈ lower, Proper e) →
      c.Finds (fun e => ∀ b ∈ e.limits, b.Proper) (rest lower) := by
    intro lower hlower
    refine Finds.bind (P := fun r => ∀ part ∈ r.1, ∀ e ∈ part, Proper e) (.extend ?_ ?_) ?_
    · cases lower with
      | none => exact List.forall_mem_nil _
      | some e => exact List.forall_mem_singleton.mpr hlower
    · rintro ⟨parts, colons⟩ hparts
      refine .step (steady_atMark ":").follows fun _ => .ite (fun _ => ?_)
        fun _ => .pure fun r hr => by cases hr
      have hcontinuation : ∀ x : Continuation, ∀ e ∈ some x.toExpr, Proper e := fun x _ he =>
        Option.some.inj he ▸ .toExpr x
      refine .step follows_continuations fun before => .pass (follows_shiftOperator f) ?_
      have hbefore : ∀ part ∈ parts ++ if parts.isEmpty then [] else
          before.map fun x => some x.toExpr, ∀ e ∈ part, Proper e := by
        split
        · rw [List.append_nil]
          exact hparts
        · exact forall_mem_continued hcontinuation hparts before
      have hcolon := forall_mem_concat hbefore (b := none) fun e he => by cases he
      refine .front fun _ u _ => .ite (fun _ => .step follows_continuations fun after => ?_)
        fun _ => .pure fun r hr => Option.some.inj hr ▸ hcolon
      refine (hexpr.proper f Level.any).bind fun bound hbound => .pure fun r hr => ?_
      obtain rfl := Option.some.inj hr
      exact forall_mem_concat (forall_mem_continued hcontinuation hcolon after)
        fun e he => Option.some.inj he ▸ hbound
    · rintro ⟨parts, colons⟩ hparts
      have hslice : c.Finds (fun e => ∀ b ∈ Expr.limits e, Proper b)
          (pure (Expr.slice t.span parts)) := by
        refine .pure fun b hb => ?_
        obtain ⟨part, hpart, hb⟩ := List.mem_flatMap.mp hb
        exact hparts part hpart b (Option.mem_toList.mp hb)
      rcases lower with _ | e
      · exact hslice
      · rcases colons with _ | colons
        · have he := hlower e rfl
          exact .pure fun b hb => by rw [he.limits_eq, List.mem_singleton] at hb; exact hb ▸ he
        · exact hslice
  refine .ite (fun _ => hrest none fun e he => by cases he) fun _ => ?_
  exact ((hexpr.proper f Level.any).map fun e he _ heq => Option.some.inj heq ▸ he).bind hrest

theorem finds_indices (f : Frame) : c.Finds (fun r => ∀ b ∈ (r.1 :: r.2).flatMap Expr.limits,
    b.Proper) (indices expr f) := by
  refine .pass (follows_mark f.middle "[")
    ((finds_index hexpr f.inside).bind fun first hfirst => ?_)
  have hother : c.Finds (fun index => ∀ e ∈ index, ∀ b ∈ Expr.limits e, Proper b)
      (some <$> index expr f.inside) :=
    (finds_index hexpr f.inside).map fun e he _ heq => Option.some.inj heq ▸ he
  refine (finds_moreItems (fun x e he => by cases he) hother f "]" (List.forall_mem_nil _)).bind
    fun others hothers => .pure fun b hb => ?_
  obtain ⟨e, he, hb⟩ := List.mem_flatMap.mp hb
  rcases List.mem_cons.mp he with rfl | he
  · exact hfirst b ‹_›
  · obtain ⟨other, hmem, heq⟩ := List.mem_filterMap.mp he
    exact hothers other hmem e heq b hb

/-! ## Operands -/

theorem steady_literal (f : Frame) : c.Steady (literal expr f) := by
  have hclose : c.Steady (discard (shiftOperator f)) := (follows_shiftOperator f).discard
  refine .bind (steady_atKind _) fun _ => .ite (.bind follows_takeToken.discard fun _ => ?_) hclose
  exact .bind (Steady.extend (steady_formatPiece hexpr.reads) 0).follows.discard fun _ => hclose

theorem finds_literals (f : Frame) : c.Finds Proper (literals expr f) := by
  refine .front fun _ t _ => Finds.bind (P := fun _ => True) (.extend trivial ?_) ?_
  · refine fun literals _ => .front fun _ u _ => .ite (fun _ => ?_) fun _ =>
      .pure fun _ _ => trivial
    exact .step (steady_literal hexpr f).covered.follows fun _ => .pure fun _ _ => trivial
  · rintro (_ | ⟨⟨span, text⟩, _ | ⟨second, rest⟩⟩) -
    · exact .pure (.leaf trivial rfl)
    · exact .pure (.leaf trivial rfl)
    · exact .pure (.leaf trivial rfl)

theorem finds_atom (f : Frame) : c.Finds Proper (atom expr f) := by
  refine .front fun k t ht => ?_
  have hleaf : ∀ e : Expr, e.Allowed → e.operands = [] →
      c.Finds Proper (do discard (shift f); return e) := fun e hallowed h =>
    .pass (follows_shift f) (.pure (.leaf hallowed h))
  cases hkind : t.kind with
  | word =>
    refine .ite (fun _ => hleaf _ trivial rfl) fun _ => .ite (fun _ => hleaf _ trivial rfl)
      fun _ => .require fun hvariable => ?_
    exact hleaf _ ⟨hexpr.named.isName ht hkind, hvariable⟩ rfl
  | integer => exact hleaf _ trivial rfl
  | float => exact hleaf _ trivial rfl
  | string => exact finds_literals hexpr f
  | formatOpen => exact finds_literals hexpr f
  | mark =>
    exact .ite (fun _ => finds_parenthesized hexpr f) fun _ => .ite
      (fun _ => finds_bracketed hexpr f) fun _ => .ite (fun _ => finds_braced hexpr f) fun _ =>
      .ite (fun _ => hleaf _ trivial rfl) fun _ => .failure
  | _ => exact .failure

/-- What comes behind a proper expression makes up a proper one with it. -/
theorem finds_trailer (f : Frame) {e : Expr} (he : e.Proper) :
    c.Finds (fun r => ∀ b ∈ r, Proper b) (trailer expr f e) := by
  have hsome : ∀ {b : Expr}, b.Proper →
      c.Finds (fun r => ∀ b ∈ r, Proper b) (pure (some b)) := fun hb =>
    .pure fun _ h => Option.some.inj h ▸ hb
  refine .step (steady_mark? f.middle ".").follows fun _ => .ite
    (fun _ => (finds_identifier hexpr.named f).bind fun name hname =>
      hsome (.single hname rfl he)) fun _ => ?_
  refine .step (steady_atMark "(").follows fun _ => .ite
    (fun _ => (finds_arguments hexpr f).bind ?_) fun _ => ?_
  · rintro ⟨span, _ | args⟩ hargs
    · exact hsome (.leaf trivial rfl)
    · exact hsome (.call he (hargs args rfl))
  refine .step (steady_atMark "[").follows fun _ => .ite
    (fun _ => (finds_indices hexpr f).bind ?_) fun _ => .pure fun _ h => by cases h
  rintro ⟨index, others⟩ hindices
  exact hsome (.mk trivial (List.forall_mem_cons.mpr ⟨he, hindices⟩))

theorem finds_trailers (f : Frame) {e : Expr} (he : e.Proper) :
    c.Finds Proper (extend (trailer expr f) e) :=
  .extend he fun _ he => finds_trailer hexpr f he

theorem finds_signed (f : Frame) : c.Finds Proper (signed expr f) := by
  refine .front fun k t ht => ?_
  rcases t.unary? with _ | op
  · refine .ite (fun _ => ?_) fun _ => .ite (fun hword => ?_) fun _ => ?_
    · refine .pass (follows_shiftOperator f.middle)
        ((hexpr.proper f Level.primary).bind fun e he => ?_)
      rcases hsplat : e.splatted? t.span with _ | e'
      · exact .failure
      · exact .pure (he.splatted hsplat)
    · obtain ⟨hkind, htext⟩ := Bool.and_eq_true_iff.mp hword
      refine .pass (follows_shiftOperator f) (.front fun _ u _ => .ite (fun _ => ?_) fun _ => ?_)
      · exact .pass (follows_expr hexpr.reads f Level.power) (.pure (.leaf trivial rfl))
      · refine finds_trailers hexpr f (.leaf ⟨hexpr.named.isName ht (of_decide_eq_true hkind), ?_⟩
          rfl)
        rw [eq_of_beq htext]
        rfl
    · exact (finds_atom hexpr f).bind fun _ he => finds_trailers hexpr f he
  · exact .pass (follows_shiftOperator f.middle) ((hexpr.proper f Level.power).bind fun _ he =>
      .pure (.single trivial rfl he))

theorem finds_operand (f : Frame) (level : Nat) : c.Finds Proper (operand expr f level) := by
  refine (finds_signed hexpr f).bind fun first hfirst => .extend hfirst fun left hleft =>
    .front fun _ t _ => ?_
  rcases t.binary? with _ | op
  · exact .pure fun _ h => by cases h
  · refine .ite (fun _ => ?_) fun _ => .pure fun _ h => by cases h
    refine .pass (follows_shiftOperator f.middle)
      ((hexpr.proper f op.rightLevel).bind fun right hright => .pure fun _ h => ?_)
    obtain rfl := Option.some.inj h
    exact .mk trivial (List.forall_mem_cons.mpr ⟨hleft, List.forall_mem_singleton.mpr hright⟩)

/-! ## What binds more loosely -/

theorem finds_comparison (f : Frame) : c.Finds Proper (comparison expr f) := by
  refine (finds_operand hexpr f Level.operand).bind fun left hleft =>
    Finds.bind (P := fun links => ∀ link ∈ links, Proper link.operand)
      (.extend (List.forall_mem_nil _) fun links hlinks => ?_) ?_
  · refine .step follows_continued? fun before =>
      .step (steady_comparisonOperator? f).follows fun op => ?_
    rcases op with _ | op
    · exact .pure fun _ h => by cases h
    · refine .step follows_continued? fun after =>
        (finds_operand hexpr f Level.operand).bind fun right hright => .pure fun _ h => ?_
      obtain rfl := Option.some.inj h
      exact forall_mem_concat hlinks hright
  · rintro (_ | ⟨link, links⟩) hlinks
    · exact .pure hleft
    · exact .pure (.mk trivial (List.forall_mem_cons.mpr
        ⟨hleft, List.forall_mem_map.mpr hlinks⟩))

theorem finds_clause (f : Frame) (level : Nat) : c.Finds Proper (clause expr f level) := by
  refine .front fun _ t _ => .ite (fun _ => finds_lambdaOf hexpr f _) fun _ =>
    .ite (fun _ => ?_) fun _ => (finds_comparison hexpr f).bind fun e he => ?_
  · exact .pass (follows_shiftOperator f.middle) ((hexpr.proper f Level.negation).bind fun _ he =>
      .pure (.single trivial rfl he))
  · cases e with
    | ident span name =>
      refine .step (steady_mark? f.middle ":=").follows fun _ => .ite (fun _ => ?_) fun _ =>
        .pure he
      exact .pass (follows_expr hexpr.reads f Level.disjunction) (.pure (.leaf trivial rfl))
    | _ => exact .pure he

/-- What comes behind a proper expression and binds loosely makes up a proper one with it. -/
theorem finds_looser (f : Frame) (level : Nat) {e : Expr} (he : e.Proper) :
    c.Finds (fun r => ∀ b ∈ r, Proper b) (looser expr f level e) := by
  have hboolean : ∀ op level, c.Finds (fun r => ∀ b ∈ r, Proper b) (do
      discard (shiftOperator f.middle)
      return some (.boolean e.span e op (← expr f level))) := fun op level =>
    .pass (follows_shiftOperator f.middle) ((hexpr.proper f level).bind fun right hright =>
      .pure fun _ h => Option.some.inj h ▸ .mk trivial
        (List.forall_mem_cons.mpr ⟨he, List.forall_mem_singleton.mpr hright⟩))
  refine .step (steady_atWord "and").follows fun _ => .ite (fun _ => hboolean _ _) fun _ =>
    .step (steady_atWord "or").follows fun _ => .ite (fun _ => hboolean _ _) fun _ =>
    .step (steady_atWord "as").follows fun _ => .ite (fun _ => ?_) fun _ =>
    .step (steady_atWord "if").follows fun _ => .ite (fun _ => ?_) fun _ =>
    .pure fun _ h => by cases h
  · refine .pass (follows_shiftOperator f.middle)
      (.step (follows_expr hexpr.reads f Level.disjunction).covered fun name => .pure fun _ h => ?_)
    exact Option.some.inj h ▸ .single trivial rfl he
  · refine .step follows_continued? fun beforeIf => .pass (follows_shiftOperator f.middle)
      (.step follows_continued? fun beforeTest =>
        (hexpr.proper f.middle Level.any).bind fun test htest => ?_)
    refine .step follows_continued? fun beforeElse => .pass (follows_word f.middle "else")
      (.step follows_continued? fun afterElse =>
        (hexpr.proper f Level.conditional).bind fun orelse horelse => .pure fun _ h => ?_)
    obtain rfl := Option.some.inj h
    exact .mk trivial (List.forall_mem_cons.mpr ⟨he, List.forall_mem_cons.mpr
      ⟨htest, List.forall_mem_singleton.mpr horelse⟩⟩)

theorem finds_loose (f : Frame) (level : Nat) : c.Finds Proper (loose expr f level) :=
  (finds_clause hexpr f level).bind fun _ he =>
    .extend he fun _ he => finds_looser hexpr f level he

omit hexpr in
/-- Expressions of all levels are proper, however deep they are nested. -/
theorem findsExprs_expressionAt (hnamed : c.Named) (fuel : Nat) :
    c.FindsExprs (expressionAt fuel) := by
  refine ⟨hnamed, readsExprs_expressionAt fuel, ?_⟩
  induction fuel with
  | zero => exact fun _ _ => .failure
  | succ fuel ih =>
    have hexpr : c.FindsExprs (expressionAt fuel) := ⟨hnamed, readsExprs_expressionAt fuel, ih⟩
    exact fun f level => .ite (fun _ => finds_loose hexpr f level) fun _ =>
      finds_operand hexpr f level

end Course

end Rendition.Source
