import Rendition.Proofs.Grammar.Grown
import Rendition.Proofs.Source.WellFormed

/-!
# Proper constructs

The grammar promises more of a construct than its shape: names are names that are allowed where they
stand, slices stand between the brackets of a subscript only, and what is assigned to can be. What
such constructs are read as is grammatical.

## Main definitions

* `Expr.Allowed`, `Stmt.Allowed`: What the grammar promises of one construct.
* `Expr.operands`: The parts of an expression that are expressions themselves.
* `Expr.Proper`, `Stmt.Proper`: The promises hold of a construct and all inside it.

## Theorems

* `Expr.Reads.isExpression`, `Expr.Targets.isExpression`: What proper expressions are read as.
* `Expr.Targets.isTarget`: What can be assigned to is read as a target.
* `Stmt.Reads.isStatement`: What proper statements are read as.
-/

namespace Rendition.Source

open Rendition.Tree (IsExpression IsStatement)

/-- A parameter that is a name has one that is allowed. -/
def Param.Allowed (param : Param) : Prop :=
  ∀ name, param = .named name → Text.IsIdentifier name

namespace Expr

/-- What the grammar promises of an expression apart from its parts. -/
def Allowed : Expr → Prop
  | ident _ name => Text.IsName name ∧ isVariable name = true
  | lambda _ params _ => ∀ param ∈ params, param.Allowed
  | attr _ _ name => Text.IsIdentifier name
  | call _ _ args => ∀ arg ∈ args, ∀ name ∈ arg.1, Text.IsName name ∧ isVariable name = true
  | slice .. => False
  | _ => True

/-- The expressions of an index: the bounds of a slice, or the index itself. -/
def limits : Expr → List Expr
  | slice _ parts => parts.flatMap Option.toList
  | e => [e]

/-- The parts of an expression, where those of a slice take its place. -/
def operands : Expr → List Expr
  | subscript _ object index indices => object :: (index :: indices).flatMap limits
  | e => e.parts

/-- The promises of the grammar hold of an expression and of all inside it. -/
inductive Proper : Expr → Prop
  | mk {e : Expr} (allowed : e.Allowed) (operands : ∀ p ∈ e.operands, Proper p) : Proper e

theorem Proper.allowed {e : Expr} (h : e.Proper) : e.Allowed := by
  cases h
  assumption

theorem Proper.operand {e p : Expr} (h : e.Proper) (hp : p ∈ e.operands) : p.Proper := by
  cases h with
  | mk _ hoperands => exact hoperands p hp

/-- A proper expression is no slice. -/
theorem Proper.limits_eq {e : Expr} (h : e.Proper) : e.limits = [e] := by
  cases e with
  | slice => exact h.allowed.elim
  | _ => rfl

end Expr

/-- What the grammar promises of a statement apart from its parts. -/
def Stmt.Allowed : Stmt → Prop
  | assign _ target _ => target.isPattern = true
  | augAssign _ target _ _ => target.isPattern = true
  | functionDef _ name params _ => Text.IsIdentifier name ∧ ∀ param ∈ params, param.Allowed
  | classDef _ name _ _ => Text.IsIdentifier name
  | forLoop _ target _ _ _ => target.isPattern = true
  | _ => True

/-- The promises of the grammar hold of a statement and of all inside it. -/
inductive Stmt.Proper : Stmt → Prop
  | mk {s : Stmt} (allowed : s.Allowed) (exprs : ∀ e, .expr e ∈ s.pieces → e.Proper)
    (suites : ∀ p, .stmt p ∈ s.pieces → Proper p) : Proper s

/-! ## Expressions -/

/-- Integer literals denote numbers that fit into a word. -/
theorem integerValue?_lt {text : String} {value : Int} (h : integerValue? text = some value) :
    value < Word.signedBound := by
  have hword : ∀ {n? : Option Nat},
      (n?.bind fun n => if n < Word.signedBound then some (n : Int) else none) = some value →
        value < Word.signedBound := by
    intro n? hn
    obtain ⟨n, -, hvalue⟩ := Option.bind_eq_some_iff.mp hn
    obtain ⟨hlt, hvalue⟩ := Option.ite_none_right_eq_some.mp hvalue
    cases hvalue
    exact Int.ofNat_lt.mpr hlt
  rw [integerValue?] at h
  split at h <;> exact hword h

variable {ok : Node Tree → Prop}

/-- A grammatical expression is no slice. -/
theorem bounds_of_isExpression {t : Tree} (h : IsExpression ok t) : t.bounds = [t] := by
  cases h <;> rfl

/-- What stands between the brackets of a subscript may be a grammatical expression. -/
theorem indices_of_isExpression {t : Tree} (h : IsExpression ok t) :
    ∀ i ∈ t.indices, ∀ e ∈ i.bounds, IsExpression ok e := by
  have hself : ∀ u, IsExpression ok u → ∀ e ∈ u.bounds, IsExpression ok e := fun u hu e he => by
    rw [bounds_of_isExpression hu, List.mem_singleton] at he
    exact he ▸ hu
  intro i hi
  unfold Tree.indices at hi
  split at hi
  · next first rest hnode =>
    cases h with
    | tuple _ hitems =>
      obtain rfl : _ = first :: rest := Node.tuple.inj hnode
      exact hself i (hitems i hi)
    | _ => cases hnode
  · rw [List.mem_singleton] at hi
    exact hi ▸ hself t h

namespace Expr

theorem mem_args_of_mem_named {args : List (Option String × Expr)} {arg : String × Expr}
    (h : arg ∈ named args) : (some arg.1, arg.2) ∈ args := by
  simp only [named, List.mem_filterMap, Option.map_eq_some_iff] at h
  obtain ⟨⟨name, e⟩, hmem, name', rfl, rfl⟩ := h
  exact hmem

/-- What joins in a connective is grammatical if the left side is. -/
theorem isExpression_joined (op : Connective) (left : Expr) {t : Tree} (h : IsExpression ok t) :
    (∀ v ∈ joined op left t, IsExpression ok v) ∧ 1 ≤ (joined op left t).length := by
  rcases joined_cases op left t with heq | ⟨values, hnode, heq⟩
  · rw [heq]
    exact ⟨List.forall_mem_singleton.mpr h, Nat.le_refl 1⟩
  · rw [heq]
    cases h with
    | boolOp _ hlength hvalues =>
      cases hnode
      exact ⟨hvalues, Nat.le_of_succ_le hlength⟩
    | _ => cases hnode

/-- What an expression is read as is grammatical if the expression is proper, and between the
    brackets of a subscript, if its bounds are. -/
def Becomes (e : Expr) (t : Tree) : Prop :=
  (e.Proper → IsExpression (fun _ => True) t) ∧
    ((∀ b ∈ e.limits, b.Proper) → ∀ b ∈ t.bounds, IsExpression (fun _ => True) b)

theorem Becomes.plain {e : Expr} {t : Tree} (hplain : e.limits = [e])
    (h : e.Proper → IsExpression (fun _ => True) t) : e.Becomes t := by
  refine ⟨h, fun hlimits b hb => ?_⟩
  rw [hplain] at hlimits
  have ht := h (hlimits e (.head _))
  rw [bounds_of_isExpression ht, List.mem_singleton] at hb
  exact hb ▸ ht

/-- What an expression becomes can stand between the brackets of a subscript. -/
theorem Becomes.indices {e : Expr} {t : Tree} (h : e.Becomes t) (hreads : Reads e t)
    (hlimits : ∀ b ∈ e.limits, b.Proper) :
    ∀ i ∈ t.indices, ∀ b ∈ i.bounds, IsExpression (fun _ => True) b := by
  cases hreads with
  | slice => exact List.forall_mem_singleton.mpr (h.2 hlimits)
  | _ => exact indices_of_isExpression (h.1 (hlimits _ (.head _)))

theorem Reads.becomes {e : Expr} {t : Tree} (h : Reads e t) : e.Becomes t := by
  induction h with
  | ident =>
    exact .plain rfl fun h => .ident trivial h.allowed.1 h.allowed.2
  | integer hvalue =>
    refine .plain rfl fun _ => .constant trivial fun n hn => ?_
    cases hn
    exact ⟨integerValue?_nonneg hvalue, integerValue?_lt hvalue⟩
  | float | string | strings | truth | nothing =>
    exact .plain rfl fun _ => .constant trivial fun n hn => by cases hn
  | unary _ ih | negation _ ih =>
    exact .plain rfl fun h => .unaryOp trivial (ih.1 (h.operand (.head _)))
  | binary _ _ ihleft ihright =>
    exact .plain rfl fun h => .binOp trivial (ihleft.1 (h.operand (.head _)))
      (ihright.1 (h.operand (.tail _ (.head _))))
  | @boolean span op left right left' right' _ _ ihleft ihright =>
    refine .plain rfl fun h => ?_
    obtain ⟨hjoined, hlength⟩ := isExpression_joined op left (ihleft.1 (h.operand (.head _)))
    refine .boolOp trivial ?_ (List.forall_mem_append.mpr ⟨hjoined,
      List.forall_mem_singleton.mpr (ihright.1 (h.operand (.tail _ (.head _))))⟩)
    rw [List.length_append, List.length_singleton]
    omega
  | @comparison span left link links left' ops comparators _ hops hlength _ ihleft ih =>
    refine .plain rfl fun h => ?_
    -- There are as many operators as links, and as many operands.
    have hcount := congrArg List.length hops
    simp only [List.length_map, List.length_cons] at hcount hlength
    refine .compare trivial ?_ (by omega) (ihleft.1 (h.operand (.head _)))
      (forall_of_zip (by rw [List.length_map]; exact hlength) fun p hp =>
        (ih p hp).1 (h.operand (.tail _ (List.of_mem_zip hp).1)))
    rintro rfl
    cases hcount
  | conditional _ _ _ ihbody ihtest ihorelse =>
    exact .plain rfl fun h => .ifExp trivial (ihtest.1 (h.operand (.tail _ (.head _))))
      (ihbody.1 (h.operand (.head _))) (ihorelse.1 (h.operand (.tail _ (.tail _ (.head _)))))
  | lambda _ ih =>
    refine .plain rfl fun h => .lambda trivial (fun name hname => ?_) (ih.1 (h.operand (.head _)))
    exact h.allowed _ (List.mem_map_of_mem hname) name rfl
  | attr _ ih =>
    exact .plain rfl fun h => .attr trivial (ih.1 (h.operand (.head _))) h.allowed
  | @subscript span object index object' index' _ hindex ihobject ihindex =>
    refine .plain rfl fun h => .subscript trivial (ihobject.1 (h.operand (.head _))) ?_
    exact ihindex.indices hindex fun b hb =>
      h.operand (.tail _ (List.mem_flatMap.mpr ⟨index, .head _, hb⟩))
  | @subscripts span object first second rest object' items _ hlength _ ihobject ih =>
    refine .plain rfl fun h => .subscript trivial (ihobject.1 (h.operand (.head _))) ?_
    -- The tuple that several indices make up stands for them.
    rcases items with _ | ⟨item, items⟩
    · cases hlength
    exact forall_of_zip hlength fun p hp => (ih p hp).2 fun b hb =>
      h.operand (.tail _ (List.mem_flatMap.mpr ⟨p.1, (List.of_mem_zip hp).1, hb⟩))
  | @slice span parts trees hlength hcolons _ ih =>
    refine ⟨fun h => h.allowed.elim, fun hlimits b hb => ?_⟩
    have htrees : ∀ tree ∈ trees, ∀ t ∈ tree, IsExpression (fun _ => True) t := by
      refine forall_of_zip hlength fun p hp t ht => ?_
      obtain ⟨e, he⟩ := Option.isSome_iff_exists.mp ((hcolons p hp).trans (ht ▸ rfl))
      exact (ih p hp e he t ht).1 (hlimits e (List.mem_flatMap.mpr
        ⟨p.1, (List.of_mem_zip hp).1, Option.mem_toList.mpr he⟩))
    obtain ⟨tree, htree, hb⟩ := List.mem_flatMap.mp
      (((sublist_toList _).trans (sublist_bounds trees)).subset hb)
    exact htrees tree htree b (Option.mem_toList.mp hb)
  | @call span func args func' args' keywords _ hlength _ hcount hnames _ ihfunc ihargs ih =>
    refine .plain rfl fun h => .call trivial (ihfunc.1 (h.operand (.head _)))
      (forall_of_zip hlength fun p hp => (ihargs p hp).1
        (h.operand (.tail _ (mem_of_mem_positional (List.of_mem_zip hp).1))))
      (forall_of_zip hcount fun p hp => ?_)
      (forall_of_zip hcount fun p hp => (ih p hp).1
        (h.operand (.tail _ (mem_of_mem_named (List.of_mem_zip hp).1))))
    rw [← hnames p hp]
    exact h.allowed _ (mem_args_of_mem_named (List.of_mem_zip hp).1) _ rfl
  | list hlength _ ih =>
    exact .plain rfl fun h => .list trivial (forall_of_zip hlength fun p hp =>
      (ih p hp).1 (h.operand (List.of_mem_zip hp).1))
  | tuple hlength _ ih | sequence hlength _ ih =>
    exact .plain rfl fun h => .tuple trivial (forall_of_zip hlength fun p hp =>
      (ih p hp).1 (h.operand (List.of_mem_zip hp).1))
  | parens _ ih =>
    exact .plain rfl fun h => ih.1 (h.operand (.head _))
  | @dict span pairs entries hlength _ _ ihkeys ihvalues =>
    refine .plain rfl fun h => ?_
    have hentry : ∀ p ∈ pairs.zip entries, p.1.1.Proper ∧ p.1.2.Proper := fun p hp => by
      have hmem : (p.1.1, some p.1.2) ∈ pairs.map fun pair => (pair.1, some pair.2) :=
        List.mem_map_of_mem (List.of_mem_zip hp).1
      exact ⟨h.operand (List.mem_flatMap.mpr ⟨_, hmem, .head _⟩),
        h.operand (List.mem_flatMap.mpr ⟨_, hmem, .tail _ (.head _)⟩)⟩
    exact .dict trivial
      (forall_of_zip hlength fun p hp => (ihkeys p hp).1 (hentry p hp).1)
      (forall_of_zip hlength fun p hp => (ihvalues p hp).1 (hentry p hp).2)

/-- What a proper expression is read as is grammatical. -/
theorem Reads.isExpression {e : Expr} {t : Tree} (h : Reads e t) (he : e.Proper) :
    IsExpression (fun _ => True) t :=
  h.becomes.1 he

/-! ## Targets and items -/

theorem Targets.isExpression {e : Expr} {t : Tree} (h : Targets e t) (he : e.Proper) :
    IsExpression (fun _ => True) t := by
  induction h with
  | place h => exact h.isExpression he
  | list hlength _ ih =>
    exact .list trivial (forall_of_zip hlength fun p hp =>
      ih p hp (he.operand (List.of_mem_zip hp).1))
  | sequence hlength _ ih | tuple hlength _ ih | parens hlength _ ih =>
    exact .tuple trivial (forall_of_zip hlength fun p hp =>
      ih p hp (he.operand (List.of_mem_zip hp).1))

/-- Whether expressions can be assigned to is told one by one. -/
theorem arePatterns_iff {es : List Expr} :
    arePatterns es = true ↔ ∀ e ∈ es, e.isPattern = true := by
  rw [arePatterns_eq, List.all_eq_true]

/-- Trees one by one of what can be assigned to are targets. -/
theorem all_isTarget {es : List Expr} {ts : List Tree} (hlength : es.length = ts.length)
    (h : ∀ p ∈ es.zip ts, p.1.isPattern = true → p.2.isTarget = true)
    (hpatterns : ∀ e ∈ es, e.isPattern = true) : ts.all Tree.isTarget = true :=
  List.all_eq_true.mpr (forall_of_zip hlength fun p hp =>
    h p hp (hpatterns p.1 (List.of_mem_zip hp).1))

theorem Reads.isTarget {e : Expr} {t : Tree} (h : Reads e t) (he : e.isPattern = true) :
    t.isTarget = true := by
  induction h with
  | ident | attr | subscript | subscripts => exact Tree.isTarget_mk _ _
  | list hlength _ ih | tuple hlength _ ih | sequence hlength _ ih =>
    exact (Tree.isTarget_mk _ _).trans (all_isTarget hlength ih (arePatterns_iff.mp he))
  | parens _ ih => exact ih (Bool.and_eq_true_iff.mp he).1
  | _ => cases he

/-- What can be assigned to is read as a target. -/
theorem Targets.isTarget {e : Expr} {t : Tree} (h : Targets e t) (he : e.isPattern = true) :
    t.isTarget = true := by
  induction h with
  | place h => exact h.isTarget he
  | sequence hlength _ ih | tuple hlength _ ih | list hlength _ ih =>
    exact (Tree.isTarget_mk _ _).trans (all_isTarget hlength ih (arePatterns_iff.mp he))
  | @parens span item items items' hlength _ ih =>
    exact (Tree.isTarget_mk _ _).trans
      (all_isTarget hlength ih (@arePatterns_iff (item :: items) |>.mp he))

/-- The name that an item of a `with` statement gets is no part of it. -/
theorem Proper.context {e : Expr} (h : e.Proper) : e.context.Proper := by
  cases e with
  | aliased => exact h.operand (.head _)
  | _ => exact h

/-- What optional expressions are read as is grammatical if they are proper. -/
theorem isExpression_of_rel {e : Option Expr} {t : Option Tree} (h : Option.Rel Reads e t)
    (he : ∀ e' ∈ e, e'.Proper) : ∀ t' ∈ t, IsExpression (fun _ => True) t' := by
  intro t' ht
  cases h with
  | none => cases ht
  | some h =>
    cases ht
    exact h.isExpression (he _ rfl)

end Expr

/-! ## Statements -/

namespace Stmt

/-- What statements one by one are read as is grammatical if each of them is proper. -/
theorem forall_isStatement {body : List Stmt} {body' : List Tree}
    (hlength : body.length = body'.length)
    (ih : ∀ p ∈ body.zip body', p.1.Proper → IsStatement (fun _ => True) p.2)
    (hbody : ∀ s ∈ body, s.Proper) : ∀ t ∈ body', IsStatement (fun _ => True) t :=
  forall_of_zip hlength fun p hp => ih p hp (hbody p.1 (List.of_mem_zip hp).1)

theorem Reads.isStatement {s : Stmt} {t : Tree} (h : Reads s t) (hs : s.Proper) :
    IsStatement (fun _ => True) t := by
  induction h with
  | expression hvalue =>
    obtain ⟨-, hexprs, -⟩ := hs
    exact .exprStmt trivial (hvalue.isExpression (hexprs _ (.head _)))
  | assign htarget hvalue =>
    obtain ⟨hallowed, hexprs, -⟩ := hs
    exact .assign trivial (htarget.isExpression (hexprs _ (.head _))) (htarget.isTarget hallowed)
      (hvalue.isExpression (hexprs _ (.tail _ (.head _))))
  | augAssign htarget hvalue =>
    obtain ⟨hallowed, hexprs, -⟩ := hs
    exact .augAssign trivial (htarget.isExpression (hexprs _ (.head _)))
      (htarget.isTarget hallowed) (hvalue.isExpression (hexprs _ (.tail _ (.head _))))
  | functionDef hlength _ ih =>
    obtain ⟨⟨hname, hparams⟩, -, hsuites⟩ := hs
    exact .functionDef trivial hname
      (fun p hp => hparams _ (List.mem_map_of_mem hp) p rfl)
      (forall_isStatement hlength ih fun p hp => hsuites p (List.mem_map_of_mem hp))
  | classDef hlength _ ih =>
    obtain ⟨hname, -, hsuites⟩ := hs
    exact .classDef trivial hname (List.forall_mem_nil _)
      (forall_isStatement hlength ih fun p hp => hsuites p (List.mem_map_of_mem hp))
  | @classDefOf span list name bases body bases' body' _ hbases hlength _ ih =>
    obtain ⟨hname, hexprs, hsuites⟩ := hs
    refine .classDef trivial hname (forall_of_zip hbases.length_eq fun p hp => ?_)
      (forall_isStatement hlength ih fun p hp =>
        hsuites p (List.mem_append_right _ (List.mem_map_of_mem hp)))
    refine (List.forall₂_zip hbases hp).isExpression (hexprs _ (List.mem_append_left _ ?_))
    obtain ⟨arg, harg, heq⟩ :=
      List.mem_map.mp (Expr.mem_of_mem_positional (List.of_mem_zip hp).1)
    exact List.mem_flatMap.mpr ⟨_, .head _, heq ▸ List.mem_map_of_mem harg⟩
  | ifStmt htest hlength _ hlength' _ ihbody ihorelse =>
    obtain ⟨-, hexprs, hsuites⟩ := hs
    exact .ifStmt trivial (htest.isExpression (hexprs _ (.head _)))
      (forall_isStatement hlength ihbody fun p hp =>
        hsuites p (.tail _ (List.mem_append_left _ (List.mem_map_of_mem hp))))
      (forall_isStatement hlength' ihorelse fun p hp =>
        hsuites p (.tail _ (List.mem_append_right _ (List.mem_map_of_mem hp))))
  | whileLoop htest hlength _ ih =>
    obtain ⟨-, hexprs, hsuites⟩ := hs
    exact .whileLoop trivial (htest.isExpression (hexprs _ (.head _)))
      (forall_isStatement hlength ih fun p hp => hsuites p (.tail _ (List.mem_map_of_mem hp)))
  | forLoop htarget hiter hlength _ ih =>
    obtain ⟨hallowed, hexprs, hsuites⟩ := hs
    exact .forLoop trivial (htarget.isExpression (hexprs _ (.head _)))
      (htarget.isTarget hallowed) (hiter.isExpression (hexprs _ (.tail _ (.head _))))
      (forall_isStatement hlength ih fun p hp =>
        hsuites p (.tail _ (.tail _ (List.mem_map_of_mem hp))))
  | @tryStmt span body clauses body' final handlers hlength _ _ hcount _ hcaught hlengths _
      hlength' _ ihbody ihhandlers ihfinal =>
    obtain ⟨-, hexprs, hsuites⟩ := hs
    -- What stands in a handler stands among the pieces of the statement.
    have hinside : ∀ p ∈ (Clause.excepts clauses).zip handlers, ∀ x,
        x ∈ p.1.2.1.map (fun item => Construct.expr item.expr) ++ p.1.2.2.map .stmt →
          x ∈ (Stmt.tryStmt span body clauses).pieces := fun p hp x hx =>
      List.mem_append_right _ (List.mem_append_left _
        (List.mem_flatMap.mpr ⟨p.1, (List.of_mem_zip hp).1, hx⟩))
    refine .tryStmt trivial
      (forall_isStatement hlength ihbody fun p hp =>
        hsuites p (List.mem_append_left _ (List.mem_map_of_mem hp)))
      (forall_of_zip hcount fun p hp t ht => ?_) (forall_of_zip hcount fun p hp hnone => ?_)
      (forall_of_zip hcount fun p hp => forall_isStatement (hlengths p hp) (ihhandlers p hp)
        fun q hq => hsuites q (hinside p hp _ (List.mem_append_right _ (List.mem_map_of_mem hq))))
      (forall_isStatement hlength' ihfinal fun p hp => hsuites p
        (List.mem_append_right _ (List.mem_append_right _ (List.mem_map_of_mem hp))))
    · obtain hbefore | ⟨e, he, hreads⟩ := (hcaught p hp).read t ht
      · cases hbefore
      · obtain ⟨item, hitem, rfl⟩ := Caught.mem_exprs he
        exact hreads.isExpression (hexprs _ (hinside p hp _
          (List.mem_append_left _ (List.mem_map_of_mem hitem)))).context
    · have hnamed := (hcaught p hp).named (fun h => by cases h)
      rw [hnone] at hnamed
      exact Option.not_isSome_iff_eq_none.mp fun h => by cases hnamed h
  | @withStmt span item items body items' body' hitems hlength _ ih =>
    obtain ⟨-, hexprs, hsuites⟩ := hs
    refine .withStmt trivial ?_ (forall_of_zip hitems.length_eq fun p hp => ?_)
      (forall_isStatement hlength ih fun p hp =>
        hsuites p (List.mem_append_right _ (List.mem_map_of_mem hp)))
    · rintro rfl
      cases hitems
    · exact (List.forall₂_zip hitems hp).context.isExpression (hexprs _
        (List.mem_append_left _ (List.mem_map_of_mem (List.of_mem_zip hp).1))).context
  | returnStmt hvalue =>
    obtain ⟨-, hexprs, -⟩ := hs
    exact .returnStmt trivial (Expr.isExpression_of_rel hvalue fun e he =>
      hexprs e (List.mem_map_of_mem (Option.mem_toList.mpr he)))
  | raiseStmt hexception =>
    obtain ⟨-, hexprs, -⟩ := hs
    exact .raiseStmt trivial (Expr.isExpression_of_rel hexception fun e he =>
      hexprs e (List.mem_map_of_mem (Option.mem_toList.mpr he)))
  | importStmt => exact .importStmt trivial (List.cons_ne_nil _ _)
  | passStmt => exact .passStmt trivial
  | breakStmt => exact .breakStmt trivial
  | continueStmt => exact .continueStmt trivial

end Stmt

end Rendition.Source
