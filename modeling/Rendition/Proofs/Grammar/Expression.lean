import Rendition.Proofs.Grammar.Bracket
import Rendition.Source.Grammar.Expression

/-!
# Expressions along two courses

Every definition of the grammar of expressions is followed, given that the expressions inside are.
The number of tokens bounds how deep expressions are nested, so all of them are.

## Theorems

* `run_literals`, `run_atom`, `run_signed`, `run_operand`: Operands and arithmetic.
* `run_comparison`, `run_loose`: What binds more loosely.
* `readsExprs_expressionAt`: Expressions of all levels.
-/

namespace Rendition.Source.Course

variable {c : Course} {k : Nat}

@[simp] theorem unary?_twin (k : Nat) (t : Token) : (c.twin k t).unary? = t.unary? := rfl

@[simp] theorem binary?_twin (k : Nat) (t : Token) : (c.twin k t).binary? = t.binary? := rfl

/-- A star in front of an operand goes to the first place in it. -/
theorem laid_splatted {e e' : Expr} {span : Span} (h : e.splatted? span = some e')
    (hspan : c.Stands k span) {i j : Nat} (hk : k < i) (he : c.Laid i [.expr e] j) :
    e'.span = span ∧ c.Laid k (e'.parts.map .expr) j := by
  induction e using Expr.inductionOn generalizing e' i j with
  | step e ih =>
    have hplace : e.isPlace = true → some (.splat span e) = some e' →
        e'.span = span ∧ c.Laid k (e'.parts.map .expr) j := by
      rintro - heq
      obtain rfl := Option.some.inj heq
      exact ⟨rfl, he.mono (Nat.le_of_lt hk) (Nat.le_refl j)⟩
    cases e with
    | call span' func args =>
      rw [Expr.splatted?, Option.map_eq_some_iff] at h
      obtain ⟨func', hfunc, rfl⟩ := h
      refine ⟨rfl, ?_⟩
      cases he with
      | aside hx => cases hx
      | cons hi _ hparts _ _ hrest =>
        obtain ⟨m, hm, hargs⟩ := hparts.split [.expr func]
        obtain ⟨hspan', hlaid⟩ := ih func (.head _) hfunc (by omega) hm
        have hle := hm.le
        refine .cons (Nat.le_refl k) (by rwa [Construct.span, hspan']) hlaid (by omega)
          (absurd · Bool.false_ne_true) ?_
        exact hargs.mono (Nat.le_refl m) hrest.le
    | generatorCall span' argument =>
      obtain rfl := Option.some.inj h
      exact ⟨rfl, .nil (by have := he.le; omega)⟩
    | ident | attr | subscript => exact hplace rfl h
    | _ => cases h

variable {expr : ExprParser} (hexpr : c.ReadsExprs expr)

include hexpr

/-! ## String literals -/

theorem steady_yieldedOrSequence (f : Frame) : c.Steady (discard (yieldedOrSequence expr f)) :=
  (follows_of_parsed fun _ => run_yieldedOrSequence hexpr f).discard

theorem steady_replacement : c.Steady (replacement expr) := by
  refine .bind (steady_yieldedOrSequence hexpr .field) fun _ =>
    .bind (steady_mark? .field "=").follows.discard fun _ =>
      .bind (steady_atKind .conversion) fun _ => ?_
  have hrest : c.Steady (do
      if ← mark? .field ":" then return true
      else
        require (← atMark "\x7d")
        discard takeToken
        return false : Parser Bool) := by
    refine .bind (steady_mark? .field ":") fun _ => .ite (.pure _) ?_
    refine .bind (steady_atMark _) fun _ => .bind (steady_require _) fun _ => ?_
    exact .bind follows_takeToken.discard fun _ => .pure _
  exact .ite (.bind follows_takeToken.discard fun _ => hrest) hrest

theorem steady_formatPiece (depth : Nat) : c.Steady (formatPiece expr depth) := by
  refine .peek (fun _ _ => rfl) fun t => .ite ?_ (.ite ?_ (.ite ?_ (.ite ?_ ?_)))
  · exact .bind follows_takeToken.discard fun _ => .bind (steady_replacement hexpr) fun _ => .pure _
  · exact .bind follows_takeToken.discard fun _ => .pure _
  · exact .bind follows_takeToken.discard fun _ => .pure _
  · exact .bind follows_takeToken.discard fun _ => .pure _
  · exact .bind (steady_require _) fun _ => .pure _

/-- A literal takes at least the token that it starts with. -/
theorem run_literal {t : Token} (ht : c.front k = some t) (hsolid : t.kind.isSolid) (f : Frame) :
    c.Run k (literal expr f) (literal expr f) fun j a b => b = a ∧ k < j := by
  refine (run_atKind _).bind ?_
  rintro _ _ found ⟨rfl, rfl, -⟩
  refine .ite (fun _ => ?_) fun _ => ?_
  · refine run_takeToken.discard.bind ?_
    rintro j _ _ ⟨-, -, -, -, rfl⟩
    have hk : k < next k := by rw [next]; omega
    refine .pass (Steady.extend (steady_formatPiece hexpr) 0).follows fun l hl => ?_
    refine ((follows_shiftOperator f).discard l).mono ?_
    rintro m _ _ ⟨hab, hm⟩
    exact ⟨hab, by omega⟩
  · refine (run_shiftOperator f).discard.mono ?_
    rintro j _ _ ⟨u, v, htook⟩
    obtain rfl := htook.eq_of_front ht
    exact ⟨rfl, htook.lt_of_isSolid hsolid⟩

/-- What was read of the string literals that start at a point. -/
inductive Quoted (c : Course) (k : Nat) (span : Span) :
    Nat → List (Span × String) → List (Span × String) → Prop
  | nil : Quoted c k span k [] []
  | cons {j : Nat} {text : String} {rest : List (Span × String)} (h : k < j) :
    Quoted c k span j ((span, text) :: rest)
      ((c.move span, text) :: rest.map fun literal => (c.move literal.1, literal.2))

theorem run_literals {t : Token} (ht : c.front k = some t)
    (hkind : t.kind = .string ∨ t.kind = .formatOpen) (f : Frame) :
    c.Run k (literals expr f) (literals expr f) (c.Parsed k) := by
  have hstands : c.Stands k t.span := ⟨t, ht, by rcases hkind with h | h <;> rw [h] <;> rfl, rfl⟩
  refine .front fun u hu => ?_
  obtain rfl := Option.some.inj (ht.symm.trans hu)
  -- The first literal is read because of its kind, so what was read is not empty in the end.
  refine Run.bind (M := fun j r s => c.Quoted k t.span j r s ∧ k < j)
    (.extend_until (I := c.Quoted k t.span) .nil ?_) ?_
  · intro j r s hquoted
    refine .front fun v hv => ?_
    simp only [kind_twin]
    refine .ite (fun hliteral => ?_) fun hliteral => ?_
    · have hsolid : v.kind.isSolid := by
        rcases Bool.or_eq_true_iff.mp hliteral with h | h <;> rw [of_decide_eq_true h] <;> rfl
      refine (run_literal hexpr hv hsolid f).covered.bind ?_
      rintro l ⟨_, _⟩ ⟨_, text⟩ ⟨rfl, -, hl⟩
      cases hquoted with
      | nil =>
        obtain rfl := Option.some.inj (ht.symm.trans hv)
        exact .pure (@Quoted.cons c k t.span _ text [] hl)
      | @cons _ text' rest h =>
        have hquoted := @Quoted.cons c k t.span _ text' (rest ++ [(v.span, text)])
          (Nat.lt_trans h hl)
        rw [List.map_append] at hquoted
        exact .pure hquoted
    · cases hquoted with
      | nil =>
        obtain rfl := Option.some.inj (ht.symm.trans hv)
        exact absurd (by rcases hkind with h | h <;> rw [h] <;> rfl) hliteral
      | cons h => exact .pure ⟨.cons h, h⟩
  · rintro j _ _ ⟨_ | @⟨_, text, rest, -⟩, hj⟩
    · exact absurd hj (Nat.lt_irrefl k)
    · rcases rest with _ | ⟨second, rest⟩
      · exact .pure (.leaf hstands hj rfl)
      · exact .pure (.leaf (e := .strings t.span _) hstands hj rfl)

/-! ## Operands -/

theorem run_atom (f : Frame) : c.Run k (atom expr f) (atom expr f) (c.Parsed k) := by
  refine .front fun t ht => ?_
  simp only [kind_twin, text_twin, span_twin]
  -- What is no bracket and no string is a token of its own.
  have hleaf : ∀ e : Expr, t.kind.isSolid → e.span = t.span → e.parts = [] →
      c.Run k (do discard (shift f); return e) (do discard (shift f); return e.mapSpans c.move)
        (c.Parsed k) := fun e hsolid hspan hparts =>
    .past ht hsolid (run_shift f) fun j hj => .pure (.leaf ⟨t, ht, hsolid, hspan.symm⟩ hj hparts)
  cases hkind : t.kind with
  | word =>
    refine .ite (fun _ => ?_) fun _ => .ite (fun _ => ?_) fun _ => ?_
    · exact hleaf (.truth t.span _) (by rw [hkind]; rfl) rfl rfl
    · exact hleaf (.nothing t.span) (by rw [hkind]; rfl) rfl rfl
    · refine .require rfl fun _ => ?_
      exact hleaf (.ident t.span t.text) (by rw [hkind]; rfl) rfl rfl
  | integer => exact hleaf (.integer t.span t.text) (by rw [hkind]; rfl) rfl rfl
  | float => exact hleaf (.float t.span t.text) (by rw [hkind]; rfl) rfl rfl
  | string => exact run_literals hexpr ht (.inl hkind) f
  | formatOpen => exact run_literals hexpr ht (.inr hkind) f
  | mark =>
    refine .ite (fun _ => run_parenthesized hexpr f) fun _ => .ite
      (fun _ => run_bracketed hexpr f) fun _ => .ite (fun _ => run_braced hexpr f) fun _ =>
      .ite (fun _ => ?_) fun _ => .failure
    exact hleaf (.other t.span "ellipsis") (by rw [hkind]; rfl) rfl rfl
  | _ => exact .failure

/-- What comes behind an expression, if something does, makes up an expression with it. -/
theorem run_trailer {i : Nat} {e e' : Expr} (he : c.Parsed k i e e') (f : Frame) :
    c.Run i (trailer expr f e) (trailer expr f e') fun j r s =>
      r.isSome = s.isSome ∧ c.Parsed k j (r.getD e) (s.getD e') := by
  obtain rfl := he.moved
  simp only [trailer, Expr.span_mapSpans]
  refine .step (steady_mark? f.middle ".") fun j _ hj => .ite (fun _ => ?_) fun _ => ?_
  · refine (run_identifier f).bind ?_
    rintro l t _ htook
    obtain rfl := htook.twin
    exact .pure ⟨rfl, he.around (e := .attr e.span e t.text) rfl rfl
      (.nil (Nat.le_trans hj htook.le))⟩
  refine .step (steady_atMark "(") fun l _ hl => .ite (fun _ => ?_) fun _ => ?_
  · refine (run_arguments hexpr f).bind ?_
    rintro m _ _ (@⟨span, args, _, ⟨rfl, hlaid⟩⟩ | ⟨hm⟩)
    · have hcall := he.around (e := .call e.span e args) rfl rfl (l := m) (by
        rw [List.map_map, List.map_eq_flatMap]
        exact hlaid.mono (by omega) (Nat.le_refl m))
      rw [Expr.mapSpans, Expr.mapArguments_eq] at hcall
      exact .pure ⟨rfl, hcall⟩
    · exact .pure ⟨rfl, he.alone (e := .generatorCall e.span _) rfl rfl (by omega)⟩
  refine .step (steady_atMark "[") fun m _ hm => .ite (fun _ => ?_) fun _ =>
    .pure ⟨rfl, he.mono (by omega)⟩
  refine (run_indices hexpr f).bind ?_
  rintro n ⟨index, others⟩ ⟨_, _⟩ ⟨rfl, rfl, hlaid⟩
  have hsubscript := he.around (e := .subscript e.span e index others) rfl rfl
    (hlaid.mono (by omega) (Nat.le_refl n))
  rw [Expr.mapSpans, Expr.mapAll_eq] at hsubscript
  exact .pure ⟨rfl, hsubscript⟩

/-- All that comes behind an expression. -/
theorem run_trailers {i : Nat} {e e' : Expr} (he : c.Parsed k i e e') (f : Frame) :
    c.Run i (extend (trailer expr f) e) (extend (trailer expr f) e') (c.Parsed k) :=
  .extend he fun _ _ _ he => run_trailer hexpr he f

theorem run_signed (f : Frame) : c.Run k (signed expr f) (signed expr f) (c.Parsed k) := by
  refine .front fun t ht => ?_
  have hstands : t.kind.isSolid → c.Stands k t.span := fun hsolid => ⟨t, ht, hsolid, rfl⟩
  simp only [unary?_twin, span_twin]
  rcases hunary : t.unary? with _ | op
  · refine .ite (fun hmark => ?_) fun _ => .ite (fun hword => ?_) fun _ => ?_
    · have hsolid := isSolid_of_isMark hmark
      refine .past ht hsolid (run_shiftOperator f.middle) fun j hj =>
        (hexpr f Level.primary j).read fun l e he => ?_
      simp only [Expr.splatted?_mapSpans]
      rcases hsplat : e.splatted? t.span with _ | e'
      · exact .failure
      · obtain ⟨hspan, hlaid⟩ := laid_splatted hsplat (hstands hsolid) hj he.single
        have hlt := he.lt
        exact .pure ⟨rfl, hspan ▸ hstands hsolid, hlaid, by omega⟩
    · have hsolid := isSolid_of_isWord hword
      refine .past ht hsolid (run_shiftOperator f) fun j hj => .front fun u _ => ?_
      refine .ite (fun _ => ?_) fun _ => ?_
      · exact .pass (follows_expr hexpr f Level.power) fun l hl =>
          .pure (.leaf (hstands hsolid) (by omega) rfl)
      · exact run_trailers hexpr (.leaf (e := .ident t.span t.text) (hstands hsolid) hj rfl) f
    · exact (run_atom hexpr f).bind fun j e e' he => run_trailers hexpr he f
  · have hsolid : t.kind.isSolid := by
      rw [Token.unary?] at hunary
      split at hunary
      · next hkind => rw [hkind]; rfl
      · cases hunary
    refine .past ht hsolid (run_shiftOperator f.middle) fun j hj =>
      (hexpr f Level.power j).read fun l e he => ?_
    exact .pure (he.headed (hstands hsolid) hj rfl)

theorem run_operand (f : Frame) (level : Nat) :
    c.Run k (operand expr f level) (operand expr f level) (c.Parsed k) := by
  refine (run_signed hexpr f).bind fun i first first' hfirst => .extend hfirst ?_
  rintro j left _ hleft
  obtain rfl := hleft.moved
  refine .front fun t _ => ?_
  simp only [binary?_twin, Expr.span_mapSpans]
  rcases t.binary? with _ | op
  · exact .pure ⟨rfl, hleft⟩
  · refine .ite (fun _ => ?_) fun _ => .pure ⟨rfl, hleft⟩
    refine .pass (follows_shiftOperator f.middle) fun l hl =>
      (hexpr f op.rightLevel l).read fun m right hright => ?_
    exact .pure ⟨rfl, hleft.around (e := .binary left.span left op right) rfl rfl
      (hright.behind hl)⟩

/-! ## What binds more loosely -/

theorem run_comparison (f : Frame) :
    c.Run k (comparison expr f) (comparison expr f) (c.Parsed k) := by
  refine (run_operand hexpr f Level.operand).bind fun i left left' hleft => ?_
  obtain rfl := hleft.moved
  refine Run.bind (M := fun j r s => s = r.map (Link.map c.move (Expr.mapSpans c.move)) ∧
    c.Laid i ((r.map Link.operand).map .expr) j)
    (.extend ⟨rfl, .nil (Nat.le_refl i)⟩ ?_) ?_
  · rintro j links _ ⟨rfl, hlinks⟩
    refine run_continued?.bind ?_
    rintro _ before _ ⟨rfl, rfl⟩
    refine .step (steady_comparisonOperator? f) fun l op hl => ?_
    rcases op with _ | op
    · exact .pure ⟨rfl, rfl, hlinks.mono (Nat.le_refl i) hl⟩
    · refine run_continued?.bind ?_
      rintro _ after _ ⟨rfl, rfl⟩
      refine (run_operand hexpr f Level.operand).read fun m right hright => ?_
      refine .pure ⟨rfl, ?_, ?_⟩
      · rw [Option.getD_some, Option.getD_some, List.map_append]
        rfl
      · rw [Option.getD_some, List.map_append, List.map_append]
        exact hlinks.append (hright.behind hl)
  · rintro j links _ ⟨rfl, hlinks⟩
    rcases links with _ | ⟨link, links⟩
    · exact .pure (hleft.mono hlinks.le)
    · have hchain := hleft.around (e := .comparison left.span left link links) rfl rfl hlinks
      rw [Expr.mapSpans, Expr.mapLink_eq, Expr.mapLinks_eq] at hchain
      simp only [List.map_cons, Expr.span_mapSpans]
      exact .pure hchain

theorem run_clause (f : Frame) (level : Nat) :
    c.Run k (clause expr f level) (clause expr f level) (c.Parsed k) := by
  refine .front fun t ht => ?_
  refine .ite (fun _ => run_lambdaOf hexpr f _) fun _ => .ite (fun hword => ?_) fun _ => ?_
  · have hsolid := isSolid_of_isWord hword
    refine .past ht hsolid (run_shiftOperator f.middle) fun j hj =>
      (hexpr f Level.negation j).read fun l e he => ?_
    exact .pure (he.headed ⟨t, ht, hsolid, rfl⟩ hj rfl)
  · refine (run_comparison hexpr f).read fun j e he => ?_
    cases e with
    | ident span name =>
      have hlt := he.lt
      refine .step (steady_mark? f.middle ":=") fun l _ hl => .ite (fun _ => ?_) fun _ => ?_
      · exact .pass (follows_expr hexpr f Level.disjunction) fun m hm =>
          .pure (.leaf he.stands (by omega) rfl)
      · exact .pure (he.mono hl)
    | _ => exact .pure he

/-- What comes behind an expression and binds loosely, if something does, makes up an expression
    with it. -/
theorem run_looser {i : Nat} {e e' : Expr} (he : c.Parsed k i e e') (f : Frame) (level : Nat) :
    c.Run i (looser expr f level e) (looser expr f level e') fun j r s =>
      r.isSome = s.isSome ∧ c.Parsed k j (r.getD e) (s.getD e') := by
  obtain rfl := he.moved
  simp only [looser, Expr.span_mapSpans]
  refine .step (steady_atWord "and") fun i hand hi => .ite (fun _ => ?_) fun _ => ?_
  · refine .pass (follows_shiftOperator f.middle) fun j hj =>
      (hexpr f Level.negation j).read fun l right hright => ?_
    exact .pure ⟨rfl, he.around (e := .boolean e.span e .and right) rfl rfl
      (hright.behind (by omega))⟩
  refine .step (steady_atWord "or") fun j hor hj => .ite (fun _ => ?_) fun _ => ?_
  · refine .pass (follows_shiftOperator f.middle) fun l hl =>
      (hexpr f Level.conjunction l).read fun m right hright => ?_
    exact .pure ⟨rfl, he.around (e := .boolean e.span e .or right) rfl rfl
      (hright.behind (by omega))⟩
  refine .step (steady_atWord "as") fun l has hl => .ite (fun _ => ?_) fun _ => ?_
  · refine .pass (follows_shiftOperator f.middle) fun m hm =>
      (hexpr f Level.disjunction m).covered.bind ?_
    rintro n ⟨_, _⟩ ⟨_, text⟩ ⟨rfl, hname⟩
    have hlt := hname.lt
    exact .pure ⟨rfl, he.around (e := .aliased e.span e text) rfl rfl (.nil (by omega))⟩
  refine .step (steady_atWord "if") fun m hif hm => .ite (fun _ => ?_) fun _ =>
    .pure ⟨rfl, he.mono (by omega)⟩
  refine run_continued?.bind ?_
  rintro _ beforeIf _ ⟨rfl, rfl⟩
  refine .pass (follows_shiftOperator f.middle) fun m' hm' => run_continued?.bind ?_
  rintro _ beforeTest _ ⟨rfl, rfl⟩
  refine (hexpr f.middle Level.any m').read fun n test htest => ?_
  refine run_continued?.bind ?_
  rintro _ beforeElse _ ⟨rfl, rfl⟩
  refine .pass (follows_word f.middle "else") fun n' hn' => run_continued?.bind ?_
  rintro _ afterElse _ ⟨rfl, rfl⟩
  refine (hexpr f Level.conditional n').read fun o orelse horelse => ?_
  have hsome : [beforeIf.map c.move, beforeTest.map c.move, beforeElse.map c.move,
      afterElse.map c.move].any Option.isSome =
        [beforeIf, beforeTest, beforeElse, afterElse].any Option.isSome := by
    simp only [List.any_cons, List.any_nil, Option.isSome_map]
  rw [hsome]
  exact .pure ⟨rfl, he.around (e := .conditional e.span _ e test orelse) rfl rfl
    ((htest.behind (by omega)).append (horelse.behind hn'))⟩

theorem run_loose (f : Frame) (level : Nat) :
    c.Run k (loose expr f level) (loose expr f level) (c.Parsed k) :=
  (run_clause hexpr f level).bind fun _ _ _ he =>
    .extend he fun _ _ _ he => run_looser hexpr he f level

omit hexpr in
/-- Expressions of all levels are followed, however deep they are nested. -/
theorem readsExprs_expressionAt (fuel : Nat) : c.ReadsExprs (expressionAt fuel) := by
  induction fuel with
  | zero => exact fun _ _ _ => .failure
  | succ fuel ih =>
    exact fun f level k => .ite (fun _ => run_loose ih f level) fun _ => run_operand ih f level

end Rendition.Source.Course
