import Rendition.Proofs.Grammar.Items

/-!
# Words, lists of expressions and parameters along two courses

What the grammar builds from single expressions without brackets around them, given that single
expressions are followed.

## Main definitions

* `Course.Parsed`: An expression was read from a point to another one.
* `Course.ReadsExprs`: A parser reads expressions along both courses.

## Theorems

* `run_sequence`, `run_targets`: Expressions separated by commas.
* `gives_parameter`: Parameters of functions.
-/

namespace Rendition.Source.Course

variable {c : Course} {k : Nat}

/-- An expression was read from a point to another one, and the same at other places. -/
structure Parsed (c : Course) (k j : Nat) (e e' : Expr) : Prop where
  moved : e' = e.mapSpans c.move
  stands : c.Stands k e.span
  laid : c.Laid k (e.parts.map .expr) j
  lt : k < j

/-- A parser reads expressions along both courses. -/
def ReadsExprs (c : Course) (expr : ExprParser) : Prop :=
  ∀ f level k, c.Run k (expr f level) (expr f level) (c.Parsed k)

namespace Parsed

variable {j l : Nat} {e e' : Expr}

theorem mono (h : c.Parsed k j e e') (hl : j ≤ l) : c.Parsed k l e e' :=
  ⟨h.moved, h.stands, h.laid.mono (Nat.le_refl k) hl, Nat.lt_of_lt_of_le h.lt hl⟩

/-- What was read is laid out from where it starts. -/
theorem single (h : c.Parsed k j e e') : c.Laid k [.expr e] j :=
  .cons (Nat.le_refl k) h.stands h.laid h.lt nofun (.nil (Nat.le_refl j))

/-- What was read behind a token that starts a construct around it. -/
theorem behind (h : c.Parsed l j e e') (hl : k ≤ l) : c.Laid k [.expr e] j :=
  h.single.mono hl (Nat.le_refl j)

/-- A construct without parts. -/
theorem leaf (hspan : c.Stands k e.span) (hlt : k < j) (hparts : e.parts = []) :
    c.Parsed k j e (e.mapSpans c.move) :=
  ⟨rfl, hspan, by rw [hparts]; exact .nil (Nat.le_of_lt hlt), hlt⟩

/-- A construct that starts with a token in front of one that was read. -/
theorem headed {operand operand' : Expr} (h : c.Parsed l j operand operand')
    (hspan : c.Stands k e.span) (hl : k < l) (hparts : e.parts = [operand]) :
    c.Parsed k j e (e.mapSpans c.move) :=
  ⟨rfl, hspan, by rw [hparts]; exact h.behind (Nat.le_of_lt hl), Nat.lt_trans hl h.lt⟩

/-- A construct that starts with one that was read already. -/
theorem around {first : Expr} {rest : List Expr} {first' : Expr}
    (h : c.Parsed k j first first') (hspan : e.span = first.span)
    (hparts : e.parts = first :: rest) (hrest : c.Laid j (rest.map .expr) l) :
    c.Parsed k l e (e.mapSpans c.move) := by
  refine ⟨rfl, hspan ▸ h.stands, ?_, Nat.lt_of_lt_of_le h.lt hrest.le⟩
  rw [hparts]
  exact h.single.append hrest

/-- A construct that takes up all of one that was read already. -/
theorem alone {first first' : Expr} (h : c.Parsed k j first first') (hspan : e.span = first.span)
    (hparts : e.parts = []) (hl : j ≤ l) : c.Parsed k l e (e.mapSpans c.move) :=
  .leaf (hspan ▸ h.stands) (Nat.lt_of_lt_of_le h.lt hl) hparts

end Parsed

/-- An expression that is read is the same along both courses but for its places. -/
theorem Run.read {α β : Type} {p q : Parser Expr} (h : c.Run k p q (c.Parsed k))
    {f : Expr → Parser α} {g : Expr → Parser β} {post : Nat → α → β → Prop}
    (hfg : ∀ j e, c.Parsed k j e (e.mapSpans c.move) →
      c.Run j (f e) (g (e.mapSpans c.move)) post) : c.Run k (p >>= f) (q >>= g) post :=
  h.bind fun j e e' he => by
    obtain rfl := he.moved
    exact hfg j e he

theorem gives_of_parsed {p : Parser Expr} (h : ∀ k, c.Run k p p (c.Parsed k)) :
    c.Gives (Items.exprs c) p :=
  fun k => (h k).mono fun _ _ _ h => ⟨h.moved, h.single⟩

theorem follows_of_parsed {p : Parser Expr} (h : ∀ k, c.Run k p p (c.Parsed k)) : c.Follows p :=
  (gives_of_parsed h).follows

/-- The expressions of a row. -/
theorem laid_exprs {i j : Nat} {as bs : List Expr} (h : (Items.exprs c).Row i j as bs) :
    c.Laid i (as.map .expr) j := by
  rw [List.map_eq_flatMap]
  exact h.2

/-- The expressions of a row that are present. -/
theorem present_of_row {i j : Nat} {as bs : List (Option Expr)}
    (h : (Items.optional c).Row i j as bs) :
    bs.filterMap id = (as.filterMap id).map (Expr.mapSpans c.move) ∧
      c.Laid i ((as.filterMap id).map .expr) j := by
  obtain ⟨rfl, hlaid⟩ := h
  have hview : as.flatMap (Items.optional c).view = (as.filterMap id).map .expr := by
    rw [List.filterMap_eq_flatMap_toList, List.map_flatMap]
    rfl
  refine ⟨?_, hview ▸ hlaid⟩
  rw [List.filterMap_map, List.map_filterMap]
  rfl

/-- Expressions that follow one another behind a token make up an expression with the token. -/
theorem Parsed.row {i j : Nat} {e e' : Expr} {as bs : List Expr} (hspan : c.Stands k e.span)
    (hk : k < i) (hrow : (Items.exprs c).Row i j as bs) (hparts : e.parts = as)
    (hmoved : bs = as.map (Expr.mapSpans c.move) → e' = e.mapSpans c.move) : c.Parsed k j e e' :=
  ⟨hmoved hrow.1, hspan, hparts ▸ (laid_exprs hrow).mono (Nat.le_of_lt hk) (Nat.le_refl j),
    Nat.lt_of_lt_of_le hk hrow.le⟩

/-! ## Words -/

theorem run_identifier (f : Frame) : c.Run k (identifier f) (identifier f) (c.Took k) := by
  refine .front fun t ht => ?_
  refine .require rfl fun _ => ?_
  exact run_shift f

theorem follows_identifier (f : Frame) : c.Follows (identifier f) :=
  follows_of_run (fun _ => run_identifier f) Took.le

theorem steady_dottedName (f : Frame) : c.Steady (dottedName f) := by
  refine .bind (follows_identifier f).discard fun _ => .extend (fun _ => ?_) ()
  refine .bind (steady_mark? f.middle ".") fun _ => .ite ?_ (.pure _)
  exact .bind (follows_identifier f).discard fun _ => .pure _

theorem steady_comparisonOperator? (f : Frame) : c.Steady (comparisonOperator? f) := by
  refine .peek (fun _ _ => rfl) fun t => .ite ?_ (.ite ?_ (.ite ?_ (.ite ?_ (.pure _))))
  · exact .bind (follows_shiftOperator f.middle).discard fun _ => .pure _
  · exact .bind (follows_shiftOperator f.middle).discard fun _ => .pure _
  · refine .bind (.covered (.bind (follows_shift f.middle).discard fun _ => ?_)) fun _ => .pure _
    exact (follows_word f.middle "in").discard
  · refine .bind (.covered (.bind (follows_shiftOperator f.middle).discard fun _ => ?_))
      fun _ => .pure _
    refine .bind (steady_atWord "not") fun _ => .ite ?_ (.pure _)
    exact (follows_shiftOperator f.middle).discard

/-! ## Expressions separated by commas -/

theorem run_sequenceOf (f : Frame) {starts : Token → Bool}
    (hstarts : ∀ k t, starts (c.twin k t) = starts t) {item : Parser Expr}
    (h : ∀ k, c.Run k item item (c.Parsed k)) :
    c.Run k (sequenceOf f starts item) (sequenceOf f starts item) (c.Parsed k) := by
  refine .front fun t ht => ?_
  refine (run_listed (F := fun j e => c.Parsed k j e (e.mapSpans c.move)) f "," hstarts
    (gives_of_parsed h) ((h k).mono fun j a b hab => ⟨hab.moved, hab.moved ▸ hab⟩)).bind ?_
  rintro j ⟨_, _⟩ ⟨_, separated⟩ ⟨rfl, e, as, bs, l, rfl, rfl, he, hrow⟩
  have hlaid := laid_exprs hrow
  obtain ⟨rfl, -⟩ := hrow
  -- The place of the first token is that of the first expression.
  have hspan : t.span = e.span := by
    obtain ⟨u, hu, -, hspan⟩ := he.stands
    rw [← hspan, Option.some.inj (ht.symm.trans hu)]
  have hsequence : c.Parsed k j (.sequence t.span (e :: as))
      (.sequence (c.twin k t).span (e.mapSpans c.move :: as.map (Items.exprs c).move)) := by
    have haround := he.around (e := .sequence t.span (e :: as)) hspan rfl hlaid
    rwa [Expr.mapSpans, Expr.mapAll_eq] at haround
  rcases as with _ | ⟨second, as⟩
  · cases separated
    · exact .pure (he.mono hlaid.le)
    · exact .pure hsequence
  · exact .pure hsequence

variable {expr : ExprParser} (hexpr : c.ReadsExprs expr)

include hexpr

theorem follows_expr (f : Frame) (level : Nat) : c.Follows (expr f level) :=
  follows_of_parsed fun k => hexpr f level k

theorem run_sequence (f : Frame) : c.Run k (sequence expr f) (sequence expr f) (c.Parsed k) :=
  run_sequenceOf f (fun _ _ => rfl) fun k => hexpr f Level.any k

theorem follows_sequence (f : Frame) : c.Follows (sequence expr f) :=
  follows_of_parsed fun _ => run_sequence hexpr f

theorem run_targets (f : Frame) : c.Run k (targets expr f) (targets expr f) (c.Parsed k) := by
  refine (run_sequenceOf f (fun _ _ => rfl) fun k => hexpr f Level.primary k).read fun j e he => ?_
  refine .require (Expr.isPattern_mapSpans c.move e) fun _ => ?_
  exact .pure he

theorem run_yielded (f : Frame) : c.Run k (yielded expr f) (yielded expr f) (c.Parsed k) := by
  refine (run_word f "yield").bind ?_
  rintro j t _ ⟨htook, hword⟩
  have hsolid := isSolid_of_isWord hword
  obtain rfl := htook.twin
  have hother : ∀ l, j ≤ l → c.Parsed k l (.other t.span "yield")
      (.other (c.twin k t).span "yield") := fun l hl =>
    .leaf (htook.stands hsolid) (Nat.lt_of_lt_of_le (htook.lt_of_isSolid hsolid) hl) rfl
  refine .step (steady_atWord "from") fun l _ hl => .ite (fun _ => ?_) fun _ => ?_
  · exact .pass (follows_shiftOperator f.middle) fun m hm =>
      .pass (follows_expr hexpr f Level.any) fun n hn => .pure (hother n (by omega))
  · refine .front fun u _ => ?_
    refine .ite (fun _ => ?_) fun _ => .pure (hother l hl)
    exact .pass (follows_sequence hexpr f) fun m hm => .pure (hother m (by omega))

theorem run_yieldedOrSequence (f : Frame) :
    c.Run k (yieldedOrSequence expr f) (yieldedOrSequence expr f) (c.Parsed k) := by
  refine (run_atWord "yield").bind ?_
  rintro _ _ a ⟨rfl, rfl, -⟩
  exact .ite (fun _ => run_yielded hexpr f) fun _ => run_sequence hexpr f

/-! ## Parameters -/

variable {type? : Option (Parser Unit)} (htype : ∀ p ∈ type?, c.Steady p)

omit hexpr in
include htype in
theorem steady_annotated (f : Frame) : c.Steady (annotated type? f) := by
  cases type? with
  | none => exact .pure _
  | some type =>
    refine .bind (steady_mark? f.middle ":") fun _ => .ite ?_ (.pure _)
    exact .bind (htype type rfl) fun _ => .pure _

theorem steady_defaulted (f : Frame) : c.Steady (defaulted expr f) := by
  refine .bind (steady_mark? f.middle "=") fun _ => .ite ?_ (.pure _)
  exact .bind (follows_expr hexpr f Level.any).discard fun _ => .pure _

include htype in
theorem run_starred (f : Frame) (span : Span) (construct : String) :
    c.Run k (starred expr type? f span construct)
      (starred expr type? f (c.move span) construct) fun j a b =>
        b = (Items.params c).move a ∧ k ≤ j := by
  refine (hexpr f Level.primary k).read fun j e he => ?_
  have hj := he.lt
  refine .require (Expr.isPlace_mapSpans c.move e) fun _ => ?_
  exact .step (steady_annotated htype f) fun l _ hl =>
    .ite (fun _ => .pure ⟨rfl, by omega⟩) fun _ => .pure ⟨rfl, by omega⟩

/-- Parameters in parentheses are patterns. -/
theorem run_tuplePattern (f : Frame) (span : Span) {a b : Bool} (h : b = a) :
    c.Run k
      (do
        require a
        if ← defaulted expr f then return .other span "default_parameter"
        else return .other span "tuple_pattern")
      (do
        require b
        if ← defaulted expr f then return .other (c.move span) "default_parameter"
        else return .other (c.move span) "tuple_pattern") fun j a b =>
        b = (Items.params c).move a ∧ k ≤ j := by
  refine .require h fun _ => ?_
  exact .step (steady_defaulted hexpr f) fun l _ hl =>
    .ite (fun _ => .pure ⟨rfl, hl⟩) fun _ => .pure ⟨rfl, hl⟩

include htype in
theorem gives_parameter (f : Frame) : c.Gives (Items.params c) (parameter expr type? f) := by
  intro k
  refine Run.mono (P := fun j a b => b = (Items.params c).move a ∧ k ≤ j) ?_
    fun j a b ⟨hab, hj⟩ => ⟨hab, .nil hj⟩
  refine .front fun t ht => ?_
  refine .ite (fun _ => ?_) fun _ => .ite (fun _ => ?_) fun _ => .ite (fun _ => ?_) fun _ =>
    .ite (fun _ => ?_) fun _ => .ite (fun _ => ?_) fun _ => .failure
  · -- A name, perhaps with a type and a default.
    refine .pass (follows_shift f) fun j hj => .step (steady_annotated htype f) fun l _ hl =>
      .ite (fun _ => ?_) fun _ => ?_
    · exact .step (steady_defaulted hexpr f) fun m _ hm =>
        .ite (fun _ => .pure ⟨rfl, by omega⟩) fun _ => .pure ⟨rfl, by omega⟩
    · exact .step (steady_defaulted hexpr f) fun m _ hm =>
        .ite (fun _ => .pure ⟨rfl, by omega⟩) fun _ => .pure ⟨rfl, by omega⟩
  · -- A pattern in parentheses is read as an expression.
    refine (hexpr f Level.primary k).read fun j e he => ?_
    have hj := Nat.le_of_lt he.lt
    cases e with
    | tuple span items =>
      refine (run_tuplePattern hexpr f t.span ?_).mono fun l a b h =>
        ⟨h.1, Nat.le_trans hj h.2⟩
      rw [Expr.mapAll_eq, Expr.arePatterns_map]
    | parens span item items =>
      refine (run_tuplePattern hexpr f t.span ?_).mono fun l a b h =>
        ⟨h.1, Nat.le_trans hj h.2⟩
      rw [Expr.mapAll_eq, Expr.arePatterns_map, Expr.isPattern_mapSpans]
    | _ => exact .failure
  · -- A star separates parameters if there is no name behind it.
    refine .pass (follows_shift f) fun j hj => .front fun u _ => ?_
    refine .ite (fun _ => ?_) fun _ => .pure ⟨rfl, hj⟩
    exact (run_starred hexpr htype f t.span _).mono fun l a b h => ⟨h.1, Nat.le_trans hj h.2⟩
  · exact .pass (follows_shift f.middle) fun j hj =>
      (run_starred hexpr htype f t.span _).mono fun l a b h => ⟨h.1, Nat.le_trans hj h.2⟩
  · exact .pass (follows_shift f) fun j hj => .pure ⟨rfl, hj⟩

theorem run_lambdaParameters (f : Frame) :
    c.Run k (lambdaParameters expr f) (lambdaParameters expr f) fun j as bs =>
      bs = as.map (Param.mapSpans c.move) ∧ k ≤ j := by
  refine .step (steady_atMark ":") fun j _ hj => .ite (fun _ => .pure ⟨rfl, hj⟩) fun _ => ?_
  refine (run_listed_row f.middle "," (fun _ _ => rfl)
    (@gives_parameter c expr hexpr none nofun f.middle)).bind ?_
  rintro l ⟨as, _⟩ ⟨bs, _⟩ ⟨-, hrow⟩
  exact .pure ⟨hrow.1, Nat.le_trans hj hrow.le⟩

end Rendition.Source.Course
