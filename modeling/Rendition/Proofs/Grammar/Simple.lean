import Rendition.Proofs.Grammar.Pattern
import Rendition.Source.Grammar.Simple

/-!
# Simple statements along two courses

Simple statements, given that expressions and types are followed.

## Main definitions

* `Course.ReadsPhrases`: Expressions and types are followed.
* `Course.Stated`: A statement was read.

## Theorems

* `run_expressionStatement`: Expressions and assignments.
* `run_simple`: Simple statements.
* `run_simpleLine`: The simple statements of a line, behind which a line ends.
-/

namespace Rendition.Source

namespace Assigned

/-- The expressions that follow the left side of an assignment. -/
def exprs : Assigned → List Expr
  | plain value => value.toList
  | augmented _ value => [value]

/-- What follows the left side of an assignment, at other places. -/
def mapSpans (m : Span → Span) : Assigned → Assigned
  | plain value => plain (value.map (Expr.mapSpans m))
  | augmented op value => augmented op (value.mapSpans m)

end Assigned

namespace Course

variable {c : Course} {k : Nat}

/-- Expressions and types are followed. -/
structure ReadsPhrases (c : Course) (p : Phrases) : Prop where
  expr : c.ReadsExprs p.expr
  type : ∀ f bounded, c.Steady (p.type f bounded)

/-- A statement was read from a point to another one, and the same at other places. -/
structure Stated (c : Course) (k j : Nat) (s s' : Stmt) : Prop where
  moved : s' = s.mapSpans c.move
  laid : c.Laid k [.stmt s] j

namespace Stated

variable {j : Nat} {s : Stmt}

/-- A statement without counterpart. -/
theorem other {span : Span} {construct : String} (h : k ≤ j) :
    c.Stated k j (.other span construct) (.other (c.move span) construct) :=
  ⟨rfl, .aside rfl (.nil h)⟩

theorem mono {s' : Stmt} (h : c.Stated k j s s') {i : Nat} (hi : i ≤ k) : c.Stated i j s s' :=
  ⟨h.moved, h.laid.mono hi (Nat.le_refl j)⟩

/-- A statement that is no definition of a function. -/
theorem plain (hspan : c.Stands k s.span) (hlaid : c.Laid k s.pieces j) (hlt : k < j)
    (hplain : (Construct.stmt s).isDefinition = false) : c.Stated k j s (s.mapSpans c.move) :=
  ⟨rfl, .cons (Nat.le_refl k) hspan hlaid hlt (fun h => by rw [hplain] at h; cases h)
    (.nil (Nat.le_refl j))⟩

end Stated

theorem gives_of_stated {q : Parser Stmt} (h : ∀ k, c.Run k q q (c.Stated k)) :
    c.Gives (Items.stmts c) q :=
  fun k => (h k).mono fun _ _ _ h => ⟨h.moved, h.laid⟩

/-! ## Assignments -/

section Assignments

variable {p : Phrases} (hp : c.ReadsPhrases p)

include hp

theorem run_assignment? (f : Frame) {value : Parser Expr}
    (hvalue : ∀ k, c.Run k value value (c.Parsed k)) (left : Expr) :
    c.Run k (assignment? p f value left) (assignment? p f value (left.mapSpans c.move))
      fun j r s => s = r.map (Assigned.mapSpans c.move) ∧
        c.Laid k ((r.elim [] Assigned.exprs).map .expr) j := by
  have hright : ∀ i, k ≤ i → c.Run i (do return some (.plain (some (← value))))
      (do return some (.plain (some (← value)))) fun j r s =>
        s = r.map (Assigned.mapSpans c.move) ∧
          c.Laid k ((r.elim [] Assigned.exprs).map .expr) j := by
    refine fun i hi => (hvalue i).read fun j e he => ?_
    exact .pure ⟨rfl, he.behind hi⟩
  refine .front fun t _ => ?_
  refine .ite (fun _ => ?_) fun _ => .ite (fun _ => ?_) fun _ => ?_
  · refine .require (Expr.isPattern_mapSpans c.move left) fun _ => ?_
    exact .pass (follows_shiftOperator f.middle) fun j hj => hright j hj
  · refine .require (Expr.isPattern_mapSpans c.move left) fun _ => ?_
    refine .pass (follows_shiftOperator f.middle) fun j hj => .step (hp.type f true) fun l _ hl =>
      .step (steady_mark? f.middle "=") fun m _ hm => ?_
    exact .ite (fun _ => hright m (by omega)) fun _ => .pure ⟨rfl, .nil (by omega)⟩
  · have haugmented : (c.twin k t).augmented? = t.augmented? := rfl
    rw [haugmented]
    rcases t.augmented? with _ | op
    · exact .pure ⟨rfl, .nil (Nat.le_refl k)⟩
    · refine .require (Expr.isPattern_mapSpans c.move left) fun _ => ?_
      refine .pass (follows_shiftOperator f.middle) fun j hj => (hvalue j).read fun l e he => ?_
      exact .pure ⟨rfl, he.behind hj⟩

theorem run_assigned (f : Frame) : c.Run k (assigned p f) (assigned p f) (c.Parsed k) := by
  have hwithin : ∀ fuel k, c.Run k (assignedAt p f fuel) (assignedAt p f fuel) (c.Parsed k) := by
    intro fuel
    induction fuel with
    | zero => exact fun _ => .failure
    | succ fuel ih =>
      refine fun k => (run_atWord "yield").bind ?_
      rintro _ _ a ⟨rfl, rfl, -⟩
      refine .ite (fun _ => run_yielded hp.expr f) fun _ =>
        (run_sequence hp.expr f).read fun j e he => ?_
      refine (run_assignment? hp f ih e).bind ?_
      rintro l (_ | _ | _) _ ⟨rfl, hlaid⟩
      · exact .pure (he.mono hlaid.le)
      · rw [Option.map_some, Assigned.mapSpans, Expr.span_mapSpans]
        exact .pure (he.alone (e := .other e.span "assignment") rfl rfl hlaid.le)
      · rw [Option.map_some, Assigned.mapSpans, Expr.span_mapSpans]
        exact .pure (he.alone (e := .other e.span "augmented_assignment") rfl rfl hlaid.le)
  intro ts us hat
  rw [assigned, assigned, hat.length_eq]
  exact hwithin _ k ts us hat

theorem run_expressionStatement (f : Frame) :
    c.Run k (expressionStatement p f) (expressionStatement p f) (c.Stated k) := by
  refine .front fun t ht => ?_
  -- The first token is that of the first expression.
  have hstands : ∀ {j e e'}, c.Parsed k j e e' → c.Stands k t.span := by
    rintro j e _ ⟨-, ⟨u, hu, hsolid, -⟩, -, -⟩
    obtain rfl := Option.some.inj (ht.symm.trans hu)
    exact ⟨t, ht, hsolid, rfl⟩
  refine (run_atWord "yield").bind ?_
  rintro _ _ a ⟨rfl, rfl, -⟩
  refine .ite (fun _ => (run_yielded hp.expr f).bind ?_) fun _ =>
    (run_sequence hp.expr f).bind ?_
  · rintro j e _ he
    obtain rfl := he.moved
    exact .pure (.plain (s := .expression t.span e) (hstands he) he.single he.lt rfl)
  · rintro j e _ he
    obtain rfl := he.moved
    have hlt := he.lt
    refine (run_assignment? hp f (fun _ => run_assigned hp f) e).bind ?_
    rintro l (_ | _ | _) _ ⟨rfl, hlaid⟩
    · have hle := hlaid.le
      exact .pure (.plain (s := .expression t.span e) (hstands he)
        (he.mono hle).single (by omega) rfl)
    · have hle := hlaid.le
      exact .pure (.plain (s := .assign t.span e _) (hstands he)
        (he.single.append hlaid) (by omega) rfl)
    · have hle := hlaid.le
      exact .pure (.plain (s := .augAssign t.span e _ _) (hstands he)
        (he.single.append hlaid) (by omega) rfl)

end Assignments

/-! ## Imports -/

theorem steady_importedName (f : Frame) : c.Steady (importedName f) := by
  refine .bind (.covered (steady_dottedName f)) fun _ => .bind (steady_atWord "as") fun _ =>
    .ite ?_ (.pure _)
  refine .bind (follows_shift f.middle).discard fun _ => ?_
  exact .token (fun _ => (run_identifier f).mono fun _ _ _ h => ⟨h.twin, h.le⟩) (fun _ _ => rfl)
    fun _ => .pure _

theorem steady_importedNames (f : Frame) : c.Steady (importedNames f) := by
  have hname : c.Gives (Items.plain c none) (some <$> importedName f) := fun k =>
    ((steady_importedName f).map some k).mono fun _ _ _ ⟨hab, hj⟩ => ⟨hab, .nil hj⟩
  refine fun k => (run_listed_row f "," (fun _ _ => rfl) hname).bind ?_
  rintro j ⟨as, _⟩ ⟨_, _⟩ ⟨-, hrow⟩
  obtain rfl : _ = as := hrow.1.trans (List.map_id as)
  exact .pure ⟨rfl, hrow.le⟩

theorem steady_importList (f : Frame) : c.Steady (importList f) := by
  refine .bind (steady_mark? f.middle "(") fun _ => .ite ?_ (steady_importedNames f)
  exact .bind (steady_importedNames f.inside) fun _ => .bind (steady_atMark ")") fun _ =>
    .bind (steady_require _) fun _ => .bind (follows_shift f).discard fun _ => .pure _

theorem steady_moduleName (f : Frame) : c.Steady (moduleName f) := by
  refine .bind (.extend (fun _ => ?_) 0) fun _ => ?_
  · refine .bind (steady_atMark ".") fun _ => .bind (steady_atMark "...") fun _ => .ite ?_ (.pure _)
    exact .bind (follows_shift f).discard fun _ => .pure _
  · exact .peek (fun _ _ => rfl) fun _ => .ite (steady_dottedName f) (.pure _)

/-- An import that starts at a point. -/
theorem run_importOf {i : Nat} {span : Span} (hspan : c.Stands k span) (hk : k < i)
    (source : Option String) (names : List ImportedName) :
    c.Run i (importOf span source names) (importOf (c.move span) source names) (c.Stated k) := by
  cases names with
  | nil => exact .failure
  | cons name names =>
    exact .pure (.plain (s := .importStmt span source name names) hspan
      (.nil (Nat.le_of_lt hk)) hk rfl)

theorem run_importFrom {t : Token} (ht : c.front k = some t) (hsolid : t.kind.isSolid)
    (f : Frame) :
    c.Run k (importFrom f t.span) (importFrom f (c.move t.span)) (c.Stated k) := by
  have hspan : c.Stands k t.span := ⟨t, ht, hsolid, rfl⟩
  refine .past ht hsolid (run_shift f.middle) fun j hj => .step (steady_atWord _) fun l _ hl =>
    .ite (fun _ => ?_) fun _ => ?_
  · exact .pass (follows_shift f.middle) fun m hm => .pass (follows_word f.middle _) fun n hn =>
      .pass (steady_importList f).follows fun o ho => .pure (.other (by omega))
  · refine .step (.covered (steady_moduleName f.middle)) fun m source hm =>
      .pass (follows_word f.middle _) fun n hn => .step (steady_atMark "*") fun o _ ho =>
      .ite (fun _ => ?_) fun _ => ?_
    · exact .pass (follows_shift f) fun q hq => run_importOf hspan (by omega) _ _
    · exact .step (steady_importList f) fun q names hq => run_importOf hspan (by omega) _ _

/-! ## Statements -/

theorem steady_atStatementEnd : c.Steady atStatementEnd :=
  .bind (steady_atKind .lineEnd) fun _ => .bind (steady_atMark ";") fun _ => .pure _

/-- What stands first among the parts of a statement. -/
theorem run_firstPart {operand : Parser Expr}
    (h : ∀ k, c.Run k operand operand (c.Parsed k)) :
    c.Run k (firstPart operand) (firstPart operand) fun j e e' =>
      e' = e.mapSpans c.move ∧ c.Laid k [.expr e] j := by
  refine .continued fun before => ?_
  refine (h k).bind ?_
  rintro j e _ he
  rcases before with _ | ⟨x, before⟩
  · exact .pure ⟨he.moved, he.single⟩
  · exact .pure ⟨rfl, .aside rfl (.nil (Nat.le_of_lt he.lt))⟩

theorem run_ended {statement statement' : Parser Stmt}
    (h : c.Run k statement statement' (c.Stated k)) :
    c.Run k (ended statement) (ended statement') (c.Stated k) := by
  refine h.bind fun j s s' hs => .step steady_atStatementEnd fun l _ hl =>
    .step (steady_require _) fun m _ hm => .pure ⟨hs.moved, hs.laid.mono (Nat.le_refl k) (by omega)⟩

section Statements

variable {p : Phrases} (hp : c.ReadsPhrases p)

include hp

theorem follows_commaSeparated_expr (f : Frame) :
    c.Follows (commaSeparated f (p.expr f Level.any)) :=
  follows_commaSeparated f (follows_expr hp.expr f Level.any)

theorem run_printed (f : Frame) (span : Span) :
    c.Run k (printed p f span) (printed p f (c.move span)) (c.Stated k) := by
  refine .pass (follows_shiftOperator f) fun i hi => .step (steady_mark? f.middle _) fun j _ hj =>
    .ite (fun _ => ?_) fun _ => ?_
  · refine .pass (follows_expr hp.expr f Level.any) fun l hl => .step (steady_mark? f _)
      fun m _ hm => .ite (fun _ => ?_) fun _ => .pure (.other (by omega))
    refine .front fun t _ => ?_
    refine .ite (fun _ => ?_) fun _ => .pure (.other (by omega))
    exact .pass (follows_sequence hp.expr f) fun n hn => .pure (.other (by omega))
  · exact .pass (follows_sequence hp.expr f) fun l hl => .pure (.other (by omega))

theorem run_executed (f : Frame) (span : Span) :
    c.Run k (executed p f span) (executed p f (c.move span)) (c.Stated k) := by
  refine .pass (follows_shiftOperator f) fun i hi => .front fun t ht => ?_
  have hrest : ∀ j, k ≤ j → c.Run j
      (do
        if ← atWord "in" then
          discard (shiftOperator f.middle)
          discard (commaSeparated f (p.expr f Level.any))
        return .other span "exec_statement")
      (do
        if ← atWord "in" then
          discard (shiftOperator f.middle)
          discard (commaSeparated f (p.expr f Level.any))
        return .other (c.move span) "exec_statement") (c.Stated k) := fun j hj =>
    .step (steady_atWord "in") fun l _ hl => .ite
      (fun _ => .pass (follows_shiftOperator f.middle) fun m hm =>
        .pass (follows_commaSeparated_expr hp f) fun n hn => .pure (.other (by omega)))
      fun _ => .pure (.other (by omega))
  refine .ite (fun hkind => ?_) fun _ => ?_
  · have hsolid : t.kind.isSolid := by
      rcases Bool.or_eq_true_iff.mp hkind with h | h <;> rw [of_decide_eq_true h] <;> rfl
    refine (run_literal hp.expr ht hsolid f).bind fun j _ _ ⟨_, hj⟩ => hrest j (by omega)
  · exact .pass (follows_identifier f) fun j hj => hrest j (by omega)

theorem run_typeAlias (f : Frame) (span : Span) :
    c.Run k (typeAlias p f span) (typeAlias p f (c.move span)) (c.Stated k) :=
  .pass (follows_shiftOperator f) fun i hi => .step (hp.type f.middle true) fun j _ hj =>
    .pass (follows_mark f.middle "=") fun l hl => .step (hp.type f true) fun m _ hm =>
      .pure (.other (by omega))

omit hp in
/-- A statement that lists names. -/
theorem run_names (f : Frame) (span : Span) (construct : String) :
    c.Run k
      (do
        discard (shift f.middle)
        discard (commaSeparated f (identifier f))
        return .other span construct)
      (do
        discard (shift f.middle)
        discard (commaSeparated f (identifier f))
        return .other (c.move span) construct) (c.Stated k) :=
  .pass (follows_shift f.middle) fun i hi =>
    .pass (follows_commaSeparated f (follows_identifier f)) fun j hj => .pure (.other (by omega))

/-- A cause may stand behind what is raised. -/
theorem run_raised (f : Frame) {span : Span} (hspan : c.Stands k span) {i l : Nat}
    {e : Option Expr} (hi : k < i) (hlaid : c.Laid i (e.toList.map .expr) l) :
    c.Run l
      (do
        if ← atWord "from" then
          discard (shiftOperator f.middle)
          discard (p.expr f Level.any)
          return .raiseStmt span e true
        else return .raiseStmt span e false)
      (do
        if ← atWord "from" then
          discard (shiftOperator f.middle)
          discard (p.expr f Level.any)
          return .raiseStmt (c.move span) (e.map (Expr.mapSpans c.move)) true
        else return .raiseStmt (c.move span) (e.map (Expr.mapSpans c.move)) false)
      (c.Stated k) := by
  have hle := hlaid.le
  have hraise : ∀ m caused, l ≤ m → c.Stated k m (.raiseStmt span e caused) _ :=
    fun m caused hm => .plain hspan (hlaid.mono (Nat.le_of_lt hi) hm) (by omega) rfl
  refine .step (steady_atWord "from") fun m _ hm => .ite (fun _ => ?_) fun _ => ?_
  · exact .pass (follows_shiftOperator f.middle) fun n hn =>
      .pass (follows_expr hp.expr f Level.any) fun o ho => .pure (hraise o true (by omega))
  · exact .pure (hraise m false hm)

/-- A statement that a reserved word starts. -/
theorem run_keywordStatement? {t : Token} (ht : c.front k = some t) (f : Frame) :
    Option.Rel (fun q q' => c.Run k q q' (c.Stated k)) (keywordStatement? p f t)
      (keywordStatement? p f (c.twin k t)) := by
  rw [keywordStatement?, keywordStatement?]
  by_cases hkind : t.kind ≠ .word
  · rw [if_pos hkind, if_pos (show (c.twin k t).kind ≠ .word from hkind)]
    exact .none
  rw [if_neg hkind, if_neg (show ¬(c.twin k t).kind ≠ .word from hkind)]
  simp only [text_twin, span_twin]
  have hsolid : t.kind.isSolid := by rw [not_not.mp hkind]; rfl
  have hspan : c.Stands k t.span := ⟨t, ht, hsolid, rfl⟩
  have hsome : ∀ {q q'}, c.Run k q q' (c.Stated k) →
      Option.Rel (fun q q' => c.Run k q q' (c.Stated k)) (some q) (some q') := fun h => .some h
  have hword : ∀ s : Stmt, s.span = t.span → s.pieces = [] →
      (Construct.stmt s).isDefinition = false →
      c.Run k (do discard (shift f); return s) (do discard (shift f); return s.mapSpans c.move)
        (c.Stated k) := fun s hs hpieces hplain =>
    .past ht hsolid (run_shift f) fun j hj => .pure
      (.plain (hs ▸ hspan) (by rw [hpieces]; exact .nil (Nat.le_of_lt hj)) hj hplain)
  -- One case for each word that starts a statement.
  generalize t.text = text
  split
  · exact hsome (hword (.passStmt t.span) rfl rfl rfl)
  · exact hsome (hword (.breakStmt t.span) rfl rfl rfl)
  · exact hsome (hword (.continueStmt t.span) rfl rfl rfl)
  · -- What is returned.
    refine hsome (.past ht hsolid (run_shiftOperator f) fun i hi => .front fun u _ => ?_)
    refine .ite (fun _ => ?_) fun _ =>
      .pure (.plain (s := .returnStmt t.span none) hspan (.nil (Nat.le_of_lt hi)) hi rfl)
    refine (run_firstPart fun _ => run_sequence hp.expr f).bind ?_
    rintro j e _ ⟨rfl, hlaid⟩
    have hle := hlaid.le
    exact .pure (.plain (s := .returnStmt t.span (some e)) hspan
      (hlaid.mono (Nat.le_of_lt hi) (Nat.le_refl j)) (by omega) rfl)
  · -- What is raised.
    refine hsome (.past ht hsolid (run_shiftOperator f) fun i hi => .front fun u _ => ?_)
    refine .ite (fun _ => ?_) fun _ =>
      run_raised hp f hspan (e := none) hi (.nil (Nat.le_refl i))
    refine Run.bind (M := fun j r s =>
      ∃ e, r = some e ∧ s = some (e.mapSpans c.move) ∧ c.Laid i [.expr e] j) (.map
        ((run_firstPart fun _ => run_sequence hp.expr f).mono fun j e e' ⟨he, hlaid⟩ =>
          ⟨e, rfl, congrArg some he, hlaid⟩)) ?_
    rintro j _ _ ⟨e, rfl, rfl, hlaid⟩
    exact run_raised hp f hspan (e := some e) hi hlaid
  · exact hsome (.pass (follows_shiftOperator f.middle) fun i hi =>
      .pass (follows_sequence hp.expr f) fun j hj => .pure (.other (by omega)))
  · exact hsome (.pass (follows_shiftOperator f.middle) fun i hi =>
      .pass (follows_commaSeparated_expr hp f) fun j hj => .pure (.other (by omega)))
  · exact hsome (run_names f t.span _)
  · exact hsome (run_names f t.span _)
  · exact hsome (.past ht hsolid (run_shift f.middle) fun i hi =>
      .step (steady_importedNames f) fun j names hj => run_importOf hspan (by omega) _ _)
  · exact hsome (run_importFrom ht hsolid f)
  · exact .none

theorem run_simple (f : Frame) : c.Run k (simple p f) (simple p f) (c.Stated k) := by
  refine .front fun t ht => ?_
  have hkeyword := run_keywordStatement? hp ht f
  generalize keywordStatement? p f t = q at hkeyword ⊢
  generalize keywordStatement? p f (c.twin k t) = q' at hkeyword ⊢
  cases hkeyword with
  | some h => exact h
  | none =>
    have hexpression := run_expressionStatement (k := k) hp f
    refine .ite (fun _ => ?_) fun _ => .ite (fun _ => ?_) fun _ => .ite (fun _ => ?_) fun _ =>
      hexpression
    · refine (run_second fun _ => rfl).bind ?_
      rintro _ a _ ⟨rfl, rfl⟩
      exact .ite (fun _ => run_printed hp f t.span) fun _ =>
        .orElse (run_ended hexpression) (run_printed hp f t.span)
    · exact .orElse (run_ended hexpression) (run_executed hp f t.span)
    · exact .orElse (run_ended (run_typeAlias hp f t.span)) hexpression

/-- Behind the simple statements of a line the line ends. -/
theorem run_simpleLine (margin : Nat) :
    c.Run k (simpleLine p margin) (simpleLine p margin) fun j r s =>
      (Items.stmts c).Row k j r s ∧ c.Ends j := by
  refine (run_listed_row _ ";" (fun _ _ => rfl)
    (gives_of_stated fun _ => run_simple hp (.statement margin))).bind ?_
  rintro j ⟨as, _⟩ ⟨bs, _⟩ ⟨-, hrow⟩
  refine (run_atKind .lineEnd).bind ?_
  rintro _ _ a ⟨rfl, rfl, hlooked⟩
  refine .require rfl fun hrequired => ?_
  obtain ⟨t, ht, hkind⟩ := exists_of_any (hlooked.symm.trans hrequired)
  refine run_takeToken.discard.bind ?_
  rintro l _ _ ⟨_, _, -, -, rfl⟩
  refine .pure ⟨hrow.mono (by rw [next]; omega), ?_⟩
  -- The end of a statement is only exposed where a line ends.
  have hmod := (front_kind ht).mp (of_decide_eq_true hkind)
  rcases front_cases ht with ⟨hmod', -⟩ | ⟨-, u, hu, hbreaks, -⟩
  · omega
  · rw [show j / 3 = (j + 2) / 3 by omega, ← front_next] at hu
    exact ⟨u, hu, Bool.or_eq_true_iff.mpr (.inl hbreaks)⟩

end Statements

end Course

end Rendition.Source
