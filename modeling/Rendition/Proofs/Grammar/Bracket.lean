import Rendition.Proofs.Grammar.Sequence
import Rendition.Source.Grammar.Bracket

/-!
# Brackets along two courses

What stands between brackets, given that single expressions are followed.

## Theorems

* `steady_comprehension`: The clauses of a comprehension leave nothing behind.
* `run_parenthesized`, `run_bracketed`, `run_braced`: What an opening bracket starts.
* `run_arguments`, `run_indices`: The arguments of a call and the indices of a subscript.
-/

namespace Rendition.Source.Course

variable {c : Course} {k : Nat} {expr : ExprParser} (hexpr : c.ReadsExprs expr)

include hexpr

theorem run_lambdaOf (f : Frame) (level : Nat) :
    c.Run k (lambdaOf expr f level) (lambdaOf expr f level) (c.Parsed k) := by
  refine .front fun t ht => ?_
  refine .require rfl fun hword => ?_
  have hsolid := isSolid_of_isWord hword
  refine .past ht hsolid (run_shift f.middle) fun j hj => ?_
  refine (run_lambdaParameters hexpr f).bind ?_
  rintro l params _ ⟨rfl, hl⟩
  refine .pass (follows_mark f.middle ":") fun m hm => (hexpr f level m).read fun n e he => ?_
  exact .pure (he.headed ⟨t, ht, hsolid, rfl⟩ (by omega) rfl)

/-! ## Comprehensions -/

omit hexpr in
theorem steady_atComprehension : c.Steady atComprehension :=
  .bind (steady_atWord "for") fun a => by
    cases a
    · exact .bind (steady_atWord "async") fun _ => .pure _
    · exact .pure _

theorem steady_forClause (f : Frame) : c.Steady (forClause expr f) := by
  have hrest : c.Steady (do
      discard (word f.middle "for")
      discard (targets expr f.middle)
      discard (word f.middle "in")
      discard (listed f.inside "," Continuation.toExpr Token.startsExpression
        (expr f.inside Level.iterable)) : Parser Unit) := by
    refine .bind (follows_word f.middle "for").discard fun _ => ?_
    refine .bind (follows_of_parsed fun _ => run_targets hexpr f.middle).discard fun _ => ?_
    refine .bind (follows_word f.middle "in").discard fun _ => Follows.discard ?_
    refine follows_of_run (fun _ => run_listed_row (s := Items.exprs c) f.inside ","
      (fun _ _ => rfl) (gives_of_parsed fun k => hexpr f.inside Level.iterable k)) fun h => h.2.le
  refine .bind (steady_atWord "async") fun _ => .ite ?_ hrest
  exact .bind (follows_shift f.middle).discard fun _ => hrest

theorem steady_comprehension (f : Frame) : c.Steady (comprehension expr f) := by
  refine .bind (steady_forClause hexpr f) fun _ => .extend (fun _ => ?_) ()
  refine .bind steady_atComprehension fun _ => .ite ?_ ?_
  · exact .bind (steady_forClause hexpr f) fun _ => .pure _
  · refine .bind (steady_atWord "if") fun _ => .ite ?_ (.pure _)
    refine .bind (follows_shiftOperator f.middle).discard fun _ => ?_
    exact .bind (follows_expr hexpr f.inside Level.aliased).discard fun _ => .pure _

theorem steady_comprehensionUntil (f : Frame) (closing : String) :
    c.Steady (comprehensionUntil expr f closing) := by
  refine .bind (steady_comprehension hexpr f) fun _ => .bind (steady_atMark closing) fun _ => ?_
  exact .bind (steady_require _) fun _ => (follows_shift f).discard

/-! ## Collections -/

theorem run_element (f : Frame) : c.Run k (element expr f) (element expr f) (c.Parsed k) := by
  refine .front fun t ht => ?_
  refine .ite (fun _ => run_yielded hexpr f) fun _ => .ite (fun hmark => ?_) fun _ =>
    .ite (fun hmark => ?_) fun _ => hexpr f Level.any k
  · have hsolid := isSolid_of_isMark hmark
    refine .past ht hsolid (run_shiftOperator f.middle) fun j hj =>
      (hexpr f Level.any j).read fun l e he => ?_
    exact .pure (he.headed ⟨t, ht, hsolid, rfl⟩ hj rfl)
  · have hsolid := isSolid_of_isMark hmark
    refine .past ht hsolid (run_shiftOperator f.middle) fun j hj =>
      (hexpr f Level.any j).read fun l e he => ?_
    refine .require (Expr.leadsWithPlace_mapSpans c.move e) fun _ => ?_
    exact .pure (he.headed ⟨t, ht, hsolid, rfl⟩ hj rfl)

theorem gives_element (f : Frame) : c.Gives (Items.exprs c) (element expr f) :=
  gives_of_parsed fun _ => run_element hexpr f

theorem run_parenthesized (f : Frame) :
    c.Run k (parenthesized expr f) (parenthesized expr f) (c.Parsed k) := by
  refine (run_mark f.inside "(").bind ?_
  rintro j t _ ⟨htook, hmark⟩
  have hlt := htook.lt_of_isSolid (isSolid_of_isMark hmark)
  have hstands := htook.stands (isSolid_of_isMark hmark)
  obtain rfl := htook.twin
  have htuple : ∀ {l as bs}, (Items.exprs c).Row j l as bs →
      c.Parsed k l (.tuple t.span as) (.tuple (c.twin k t).span bs) := fun h =>
    .row hstands hlt h rfl fun hbs => by rw [hbs, Expr.mapSpans, Expr.mapAll_eq]; rfl
  have hparens : ∀ {l a as b bs}, (Items.exprs c).Row j l (a :: as) (b :: bs) →
      c.Parsed k l (.parens t.span a as) (.parens (c.twin k t).span b bs) := fun h =>
    .row hstands hlt h rfl fun hbs => by
      rw [List.map_cons, List.cons.injEq] at hbs
      rw [hbs.1, hbs.2, Expr.mapSpans, Expr.mapAll_eq]
      rfl
  refine .continued fun before => ?_
  have hbefore := (Items.Row.nil (s := Items.exprs c) (Nat.le_refl j)).resume before
  refine .step (steady_atMark ")") fun l _ hl => .ite (fun _ => ?_) fun _ => ?_
  · exact .pass (follows_shift f) fun m hm => .pure (htuple (hbefore.mono (Nat.le_trans hl hm)))
  · refine (gives_element hexpr f.inside l).bind ?_
    rintro m first _ ⟨rfl, hfirst⟩
    have hall := (hbefore.mono hl).concat hfirst
    refine .step steady_atComprehension fun n _ hn => .ite (fun _ => ?_) fun _ => ?_
    · refine .require (Expr.isBody_mapSpans c.move first) fun _ => ?_
      have hle := hfirst.le
      exact .step (steady_comprehensionUntil hexpr f ")") fun o _ ho =>
        .pure (.leaf hstands (by omega) rfl)
    refine .step (steady_atMark ")") fun o _ ho => .ite (fun _ => ?_) fun _ => ?_
    · refine .continued fun after => ?_
      refine .pass (follows_shift f) fun p hp => ?_
      have hafter := ((hall.mono hn).mono (Nat.le_trans ho hp)).resume after
      rcases before with _ | ⟨x, before⟩
      · exact .pure (hparens hafter)
      · exact .pure (hparens hafter)
    · exact (run_moreItems f ")" (gives_element hexpr f.inside)
        (hall.mono (Nat.le_trans hn ho))).bind fun p as bs hrow => .pure (htuple hrow)

theorem run_bracketed (f : Frame) : c.Run k (bracketed expr f) (bracketed expr f) (c.Parsed k) := by
  refine (run_mark f.inside "[").bind ?_
  rintro j t _ ⟨htook, hmark⟩
  have hlt := htook.lt_of_isSolid (isSolid_of_isMark hmark)
  have hstands := htook.stands (isSolid_of_isMark hmark)
  obtain rfl := htook.twin
  have hlist : ∀ {l as bs}, (Items.exprs c).Row j l as bs →
      c.Parsed k l (.list t.span as) (.list (c.twin k t).span bs) := fun h =>
    .row hstands hlt h rfl fun hbs => by rw [hbs, Expr.mapSpans, Expr.mapAll_eq]; rfl
  refine .continued fun before => ?_
  have hbefore := (Items.Row.nil (s := Items.exprs c) (Nat.le_refl j)).resume before
  refine .step (steady_atMark "]") fun l _ hl => .ite (fun _ => ?_) fun _ => ?_
  · exact .pass (follows_shift f) fun m hm => .pure (hlist (hbefore.mono (Nat.le_trans hl hm)))
  · refine (gives_element hexpr f.inside l).bind ?_
    rintro m first _ ⟨rfl, hfirst⟩
    refine .step steady_atComprehension fun n _ hn => .ite (fun _ => ?_) fun _ => ?_
    · refine .require (Expr.isBody_mapSpans c.move first) fun _ => ?_
      have hle := hfirst.le
      exact .step (steady_comprehensionUntil hexpr f "]") fun o _ ho =>
        .pure (.leaf hstands (by omega) rfl)
    · refine (run_moreItems f "]" (gives_element hexpr f.inside)
        (((hbefore.mono hl).concat hfirst).mono hn)).bind ?_
      exact fun o as bs hrow => .pure (hlist hrow)

theorem gives_entryValue {f : Frame} {key : Expr} {i j : Nat} (hkey : c.Laid i [.expr key] j) :
    c.Run j (entryValue expr f key) (entryValue expr f (key.mapSpans c.move)) fun l a b =>
      b = (Items.entries c).move a ∧ c.Laid i ((Items.entries c).view a) l := by
  refine .pass (follows_mark f.middle ":") fun l hl => (hexpr f Level.any l).read fun m e he => ?_
  exact .pure ⟨rfl, hkey.append (he.behind hl)⟩

theorem gives_entry (f : Frame) : c.Gives (Items.entries c) (entry expr f) := by
  intro k
  refine .front fun t ht => ?_
  refine .ite (fun hmark => ?_) fun _ => ?_
  · refine .past ht (isSolid_of_isMark hmark) (run_shiftOperator f.middle) fun j hj =>
      .pass (follows_expr hexpr f Level.any) fun l hl => .pure ⟨rfl, ?_⟩
    exact (Parsed.leaf ⟨t, ht, isSolid_of_isMark hmark, rfl⟩ (by omega) rfl).single
  · refine (hexpr f Level.any k).read fun j e he => ?_
    exact gives_entryValue hexpr he.single

theorem run_braced (f : Frame) : c.Run k (braced expr f) (braced expr f) (c.Parsed k) := by
  refine (run_mark f.inside "\x7b").bind ?_
  rintro j t _ ⟨htook, hmark⟩
  have hlt := htook.lt_of_isSolid (isSolid_of_isMark hmark)
  have hstands := htook.stands (isSolid_of_isMark hmark)
  obtain rfl := htook.twin
  have hother : ∀ {l construct}, j ≤ l → c.Parsed k l (.other t.span construct)
      (.other (c.twin k t).span construct) := fun hl =>
    .leaf hstands (Nat.lt_of_lt_of_le hlt hl) rfl
  have hdict : ∀ {l as bs}, (Items.entries c).Row j l as bs →
      c.Parsed k l (.dict t.span as) (.dict (c.twin k t).span bs) := by
    rintro l as _ ⟨rfl, hlaid⟩
    refine ⟨by rw [Expr.mapSpans, Expr.mapEntries_eq]; rfl, hstands, ?_,
      Nat.lt_of_lt_of_le hlt hlaid.le⟩
    rw [Expr.parts, List.map_flatMap]
    exact hlaid.mono (Nat.le_of_lt hlt) (Nat.le_refl l)
  refine .continued fun before => ?_
  have hbefore := (Items.Row.nil (s := Items.entries c) (Nat.le_refl j)).resume before
  refine .step (steady_atMark _) fun l _ hl => .ite (fun _ => ?_) fun _ => ?_
  · exact .pass (follows_shift f) fun m hm => .pure (hdict (hbefore.mono (Nat.le_trans hl hm)))
  -- A comma may stand there alone.
  refine .step (steady_atMark ",") fun l' _ hl' => .ite (fun _ => ?_) fun _ => ?_
  · refine .pass (follows_shift f.inside) fun m hm => .continued fun after => ?_
    refine .step (steady_atMark _) fun n _ hn => .require rfl fun _ => ?_
    exact .pass (follows_shift f) fun o ho =>
      .pure (hdict (((hbefore.mono hl).resume after).mono (by omega)))
  refine .step (steady_atMark "**") fun m _ hm => .ite (fun _ => ?_) fun _ => ?_
  · refine (gives_entry hexpr f.inside m).bind ?_
    rintro n first _ ⟨rfl, hfirst⟩
    exact (run_moreItems f _ (gives_entry hexpr f.inside)
      ((hbefore.mono (by omega)).concat hfirst)).bind fun o as bs hrow => .pure (hdict hrow)
  refine (run_element hexpr f.inside).read fun n first hfirst => ?_
  have hfirst := hfirst.single
  have hle := hfirst.le
  -- A colon behind the first expression makes it the key of a dictionary.
  refine .step (steady_atMark ":") fun n' _ hn' => .ite (fun _ => ?_) fun _ => ?_
  · refine .require (Expr.isBody_mapSpans c.move first) fun _ => ?_
    refine (gives_entryValue hexpr (hfirst.mono (Nat.le_refl m) hn')).bind ?_
    rintro o value _ ⟨rfl, hvalue⟩
    have hle' := hvalue.le
    refine .step steady_atComprehension fun p _ hp => .ite (fun _ => ?_) fun _ => ?_
    · exact .step (steady_comprehensionUntil hexpr f _) fun q _ hq => .pure (hother (by omega))
    · exact (run_moreItems f _ (gives_entry hexpr f.inside)
        (((hbefore.mono (by omega)).concat hvalue).mono hp)).bind fun q as bs hrow =>
          .pure (hdict hrow)
  -- Of a set only its place is kept.
  refine .step steady_atComprehension fun p _ hp => .ite (fun _ => ?_) fun _ => ?_
  · refine .require (Expr.isBody_mapSpans c.move first) fun _ => ?_
    exact .step (steady_comprehensionUntil hexpr f _) fun q _ hq => .pure (hother (by omega))
  · refine (run_moreItems f _ (gives_element hexpr f.inside) (.nil (Nat.le_refl p))).discard.bind ?_
    rintro q _ _ ⟨as, bs, hrow⟩
    have hle' := hrow.le
    exact .pure (hother (by omega))

/-! ## Arguments -/

theorem gives_argument (f : Frame) : c.Gives (Items.args c) (argument expr f) := by
  intro k
  refine .front fun t ht => ?_
  refine .ite (fun hmark => ?_) fun _ => .ite (fun hmark => ?_) fun _ => ?_
  · have hsolid := isSolid_of_isMark hmark
    refine .past ht hsolid (run_shiftOperator f.middle) fun j hj =>
      (hexpr f Level.any j).read fun l e he => ?_
    have hlt := he.lt
    refine .pure ⟨rfl, Parsed.single (e := .splat t.span e) ⟨rfl, ⟨t, ht, hsolid, rfl⟩, ?_, ?_⟩⟩
    · exact he.behind (by omega)
    · omega
  · have hsolid := isSolid_of_isMark hmark
    refine .past ht hsolid (run_shiftOperator f.middle) fun j hj =>
      .pass (follows_expr hexpr f Level.any) fun l hl => .pure ⟨rfl, ?_⟩
    exact (Parsed.leaf ⟨t, ht, hsolid, rfl⟩ (by omega) rfl).single
  refine .step (steady_second fun _ => rfl) fun j _ hj => .ite (fun _ => ?_) fun _ => ?_
  · refine .pass (follows_shift f) fun l hl => .pass (follows_mark f.middle "=") fun m hm =>
      (hexpr f Level.any m).read fun n e he => ?_
    exact .pure ⟨rfl, he.behind (by omega)⟩
  · refine (hexpr f Level.any j).read fun l e he => ?_
    exact .pure ⟨rfl, he.behind hj⟩

/-- What the arguments of a call are, from a point to another one. -/
inductive Listed (c : Course) (k j : Nat) :
    Span × Option (List (Option String × Expr)) →
    Span × Option (List (Option String × Expr)) → Prop
  | args {span : Span} {as bs : List (Option String × Expr)} (h : (Items.args c).Row k j as bs) :
    Listed c k j (span, some as) (c.move span, some bs)
  | generator {span : Span} (h : k ≤ j) : Listed c k j (span, none) (c.move span, none)

theorem run_arguments (f : Frame) :
    c.Run k (arguments expr f) (arguments expr f) (c.Listed k) := by
  refine (run_mark f.inside "(").bind ?_
  rintro j t _ ⟨htook, -⟩
  have hle := htook.le
  obtain rfl := htook.twin
  have hrow : ∀ {l as bs}, (Items.args c).Row j l as bs →
      c.Listed k l (t.span, some as) ((c.twin k t).span, some bs) := fun h =>
    .args ⟨h.1, h.2.mono hle (Nat.le_refl _)⟩
  refine .continued fun before => ?_
  have hbefore := (Items.Row.nil (s := Items.args c) (Nat.le_refl j)).resume before
  refine .step (steady_atMark ")") fun l _ hl => .ite (fun _ => ?_) fun _ => ?_
  · exact .pass (follows_shift f) fun m hm => .pure (hrow (hbefore.mono (Nat.le_trans hl hm)))
  refine .step (steady_atMark ",") fun l' _ hl' => .ite (fun _ => ?_) fun _ => ?_
  · refine .pass (follows_shift f.inside) fun m hm => .continued fun after => ?_
    refine .step (steady_atMark _) fun n _ hn => .require rfl fun _ => ?_
    exact .pass (follows_shift f) fun o ho =>
      .pure (hrow (((hbefore.mono hl).resume after).mono (by omega)))
  refine (gives_argument hexpr f.inside l').bind ?_
  rintro m first _ ⟨rfl, hfirst⟩
  have hle' := hfirst.le
  refine .step steady_atComprehension fun n _ hn => .ite (fun _ => ?_) fun _ => ?_
  · have hbody := congrArg (first.1.isNone && ·) (Expr.isBody_mapSpans c.move first.2)
    refine .require hbody fun _ => ?_
    exact .step (steady_comprehensionUntil hexpr f ")") fun o _ ho =>
      .pure (.generator (by omega))
  · exact (run_moreItems f ")" (gives_argument hexpr f.inside)
      (((hbefore.mono (by omega)).concat hfirst).mono hn)).bind fun o as bs h => .pure (hrow h)

/-! ## Indices -/

/-- What comes before the first colon of an index: nothing, or an expression. -/
inductive Lower (c : Course) (k : Nat) : Nat → Option Expr → Option Expr → Prop
  | colon {t : Token} (ht : c.front k = some t) (hmark : t.isMark ":") : Lower c k k none none
  | bound {j : Nat} {e e' : Expr} (he : c.Parsed k j e e') : Lower c k j (some e) (some e')

/-- The parts of a slice and how many of them are colons, after what comes before the first. -/
inductive Sliced (c : Course) (k i j : Nat) :
    List (Option Expr) × Nat → List (Option Expr) × Nat → Prop
  | mk {parts parts' : List (Option Expr)} {colons : Nat}
    (hrow : (Items.bounds c).Row k j parts parts') (hij : i ≤ j) :
    Sliced c k i j (parts, colons) (parts', colons)

theorem run_index (f : Frame) : c.Run k (index expr f) (index expr f) (c.Parsed k) := by
  refine .front fun t ht => ?_
  refine (run_atMark ":").bind ?_
  rintro _ _ found ⟨rfl, rfl, hfound⟩
  extract_lets rest rest'
  have hrest : ∀ i lower lower', c.Lower k i lower lower' →
      c.Run i (rest lower) (rest' lower') (c.Parsed k) := by
    intro i lower lower' hlower
    -- A slice that starts with a colon goes on at least behind it.
    refine Run.bind (M := fun j r s => c.Sliced k i j r s ∧ k < j) (.extend_until
      (I := fun j r s => c.Sliced k i j r s ∧
        (k < j ∨ j = k ∧ r.2 = 0 ∧ (c.front k).any (·.isMark ":"))) ?_ ?_) ?_
    · cases hlower with
      | colon ht hmark =>
        exact ⟨.mk (.nil (Nat.le_refl k)) (Nat.le_refl k), .inr ⟨rfl, rfl, by rw [ht]; exact hmark⟩⟩
      | bound he =>
        obtain rfl := he.moved
        exact ⟨.mk ⟨rfl, he.single⟩ (Nat.le_refl i), .inl he.lt⟩
    · rintro j _ _ ⟨@⟨parts, parts', colons, hrow, hij⟩, hk⟩
      refine (run_atMark ":").bind ?_
      rintro _ _ more ⟨rfl, rfl, hmore⟩
      refine .ite (fun hcolon => ?_) fun hcolon => ?_
      · obtain ⟨u, hu, hmark⟩ := exists_of_any (hmore.symm.trans (Bool.and_eq_true_iff.mp hcolon).2)
        refine .continued fun before => ?_
        -- What is continued before the first colon is no part of the slice.
        have hbefore : (Items.bounds c).Row k j
            (parts ++ if parts.isEmpty then [] else before.map fun x => some x.toExpr)
            (parts' ++ if parts'.isEmpty then [] else
              (before.map (Continuation.mapSpans c.move)).map fun x => some x.toExpr) := by
          obtain rfl := hrow.1
          rcases parts with _ | ⟨part, parts⟩
          · exact .nil hrow.le
          · exact hrow.resume before
        refine .past hu (isSolid_of_isMark hmark) (run_shiftOperator f) fun l hl => ?_
        have hparts := (hbefore.mono (Nat.le_of_lt hl)).concat (a := none)
          (.nil (Nat.le_refl l))
        have hkl : k < l := by have := hrow.le; omega
        refine .front fun v _ => ?_
        refine .ite (fun _ => ?_) fun _ => .pure ⟨.mk hparts (by omega), .inl hkl⟩
        refine .continued fun after => ?_
        refine (hexpr f Level.any l).read fun m e he => ?_
        have hlm := he.lt
        exact .pure ⟨.mk ((hparts.resume after).concat (a := some e) he.single) (by omega),
          .inl (by omega)⟩
      · refine .pure ⟨.mk hrow hij, ?_⟩
        rcases hk with hk | ⟨rfl, rfl, hmark⟩
        · exact hk
        · exact absurd (by rw [hmore, hmark]; rfl) hcolon
    · rintro j _ _ ⟨@⟨parts, _, colons, ⟨rfl, hlaid⟩, hij⟩, hk⟩
      have hslice : c.Stands k t.span → c.Parsed k j (.slice t.span parts)
          (.slice (c.twin k t).span (parts.map (Items.bounds c).move)) := fun hstands =>
        ⟨by rw [Expr.mapSpans, Expr.mapParts_eq]; rfl, hstands, by
          rw [Expr.parts, List.map_flatMap]; exact hlaid, hk⟩
      cases hlower with
      | colon hu hmark =>
        obtain rfl := Option.some.inj (ht.symm.trans hu)
        exact .pure (hslice ⟨t, ht, isSolid_of_isMark hmark, rfl⟩)
      | bound he =>
        obtain ⟨u, hu, hsolid, -⟩ := he.stands
        obtain rfl := Option.some.inj (ht.symm.trans hu)
        rcases colons with _ | colons
        · exact .pure (he.mono hij)
        · exact .pure (hslice ⟨t, ht, hsolid, rfl⟩)
  refine .ite (fun hmark => ?_) fun _ => ?_
  · obtain ⟨u, hu, hmark⟩ := exists_of_any (hfound.symm.trans hmark)
    exact hrest k none none (.colon hu hmark)
  · exact Run.bind (M := c.Lower k)
      (.map ((hexpr f Level.any k).mono fun j e e' he => Lower.bound he)) hrest

/-- The indices of a subscript: an index and others behind it. -/
theorem run_indices (f : Frame) : c.Run k (indices expr f) (indices expr f) fun j r s =>
    s.1 = r.1.mapSpans c.move ∧ s.2 = r.2.map (Expr.mapSpans c.move) ∧
      c.Laid k ((r.1 :: r.2).map .expr) j := by
  refine .pass (follows_mark f.middle "[") fun j hj =>
    (run_index hexpr f.inside).read fun l first hfirst => ?_
  have hothers : c.Gives (Items.optional c) (some <$> index expr f.inside) := fun m =>
    .map ((run_index hexpr f.inside).mono fun n e e' he => ⟨congrArg some he.moved, he.single⟩)
  refine (run_moreItems f "]" hothers (.nil (Nat.le_refl l))).bind fun m others _ hrow => ?_
  obtain ⟨hmoved, hlaid⟩ := present_of_row hrow
  exact .pure ⟨rfl, hmoved, (hfirst.behind hj).append hlaid⟩

end Rendition.Source.Course
