import Mathlib.Logic.Relation
import Rendition.Proofs.Source.Reads
import Rendition.Tree.Equality

/-!
# Constructs without a counterpart

Trees cannot say everything that source texts say. What they cannot say is refused, however deep
inside a statement it stands. Of the concrete syntax only two things are passed over: line
continuations between the parentheses around an expression, and what an `except` clause lists
second, which is a name whatever it looks like. What the concrete syntax has lost already is not
refused: decorators and types by intent, but also the word `async`, the star of `except*`, and the
comma at the end of a subscript.

A comma that makes a tuple is kept elsewhere. An expression with a comma behind it is a sequence
even if it is the only one in it, and sequences are read as tuples.

## Main definitions

* `Expr.HasCounterpart`, `Stmt.HasCounterpart`: Trees can say what a construct adds to its parts.
* `Expr.Inside`, `Stmt.Inside`: One construct stands inside another, at any depth.

## Theorems

* `Expr.Targets.hasCounterpart`, `Stmt.Reads.hasCounterpart`: What is read has a counterpart.
* `Expr.Targets.inside`, `Stmt.Reads.inside`: What stands inside is read as well.
* `read_hasCounterpart`: Whatever stands in a source text with a tree has a counterpart.
* `read_trailing_comma`: An expression with a comma behind it is read as a tuple.
-/

namespace Rendition.Source

/-- A parameter that is only a name. -/
def Param.IsNamed : Param → Prop
  | .named _ => True
  | .other _ _ => False

namespace Expr

/-- Trees can say what an expression adds to its parts. -/
def HasCounterpart : Expr → Prop
  | comparison _ _ link links => ∀ l ∈ link :: links, (Comparison.ofSymbol? l.op).isSome
  | conditional _ continued _ _ _ => continued = false
  | lambda _ params _ => ∀ p ∈ params, p.IsNamed
  | dict _ entries => ∀ entry ∈ entries, entry.2.isSome
  | generatorCall .. | aliased .. | splat .. | continuation .. | other .. => False
  | _ => True

/-- The expressions directly inside an expression that make a difference. The line continuations
    around an expression in parentheses make none. -/
def kept : Expr → List Expr
  | parens _ item _ => [item]
  | e => e.parts

/-- One expression stands inside another one, at any depth. -/
def Inside : Expr → Expr → Prop :=
  Relation.ReflTransGen fun p e => p ∈ e.kept

theorem Reads.hasCounterpart {e : Expr} {t : Tree} (h : e.Reads t) : e.HasCounterpart := by
  cases h with
  | comparison _ hops =>
    intro l hl
    have hop := List.mem_map_of_mem (f := fun link => Comparison.ofSymbol? link.op) hl
    rw [hops] at hop
    obtain ⟨op, -, hop⟩ := List.mem_map.mp hop
    exact hop ▸ rfl
  | conditional => rfl
  | lambda =>
    intro p hp
    obtain ⟨name, -, rfl⟩ := List.mem_map.mp hp
    trivial
  | dict =>
    intro entry hentry
    obtain ⟨pair, -, rfl⟩ := List.mem_map.mp hentry
    rfl
  | _ => trivial

/-- Every argument is one without a name or one with a name. -/
theorem mem_positional_or_named {args : List (Option String × Expr)} {e : Expr}
    (h : e ∈ args.map Prod.snd) : e ∈ positional args ∨ ∃ name, (name, e) ∈ named args := by
  obtain ⟨⟨name, e⟩, hmem, rfl⟩ := List.mem_map.mp h
  cases name with
  | none => exact .inl (List.mem_filterMap.mpr ⟨_, hmem, rfl⟩)
  | some name => exact .inr ⟨name, List.mem_filterMap.mpr ⟨_, hmem, rfl⟩⟩

/-- What makes a difference in an expression is read along with it. -/
theorem Reads.kept {e : Expr} {t : Tree} (h : e.Reads t) : ∀ p ∈ e.kept, ∃ t', p.Reads t' := by
  cases h with
  | unary h | negation h | attr h | lambda h | parens h =>
    exact List.forall_mem_singleton.mpr ⟨_, h⟩
  | binary hleft hright | boolean hleft hright | subscript hleft hright =>
    exact List.forall_mem_cons.mpr ⟨⟨_, hleft⟩, List.forall_mem_singleton.mpr ⟨_, hright⟩⟩
  | conditional hbody htest horelse =>
    exact List.forall_mem_cons.mpr ⟨⟨_, hbody⟩,
      List.forall_mem_cons.mpr ⟨⟨_, htest⟩, List.forall_mem_singleton.mpr ⟨_, horelse⟩⟩⟩
  | comparison hleft _ hlength hcomparators =>
    refine List.forall_mem_cons.mpr ⟨⟨_, hleft⟩, exists_of_zip ?_ hcomparators⟩
    rw [List.length_map, hlength]
  | subscripts hobject hlength hitems =>
    exact List.forall_mem_cons.mpr ⟨⟨_, hobject⟩, exists_of_zip hlength hitems⟩
  | slice hlength hcolons hparts =>
    intro e he
    obtain ⟨part, hpart, he⟩ := List.mem_flatMap.mp he
    rw [Option.mem_toList] at he
    obtain ⟨tree, hsome, hread⟩ := exists_of_zip
      (R := fun part tree => part.isSome = tree.isSome ∧ ∀ e ∈ part, ∀ t ∈ tree, Reads e t)
      hlength (fun p hp => ⟨hcolons p hp, hparts p hp⟩) part hpart
    obtain ⟨t, ht⟩ := Option.isSome_iff_exists.mp (hsome.symm.trans (he ▸ rfl))
    exact ⟨t, hread e he t ht⟩
  | call hfunc hlength hargs hcount _ hkeywords =>
    refine List.forall_mem_cons.mpr ⟨⟨_, hfunc⟩, fun e he => ?_⟩
    rcases mem_positional_or_named he with he | ⟨name, he⟩
    · exact exists_of_zip hlength hargs e he
    · obtain ⟨keyword, hread⟩ := exists_of_zip
        (R := fun arg (keyword : Keyword Tree) => Reads arg.2 keyword.value) hcount hkeywords _ he
      exact ⟨keyword.value, hread⟩
  | list hlength hitems | tuple hlength hitems | sequence hlength hitems =>
    exact exists_of_zip hlength hitems
  | dict hlength hkeys hvalues =>
    intro e he
    obtain ⟨entry, hentry, he⟩ := List.mem_flatMap.mp he
    obtain ⟨pair, hpair, rfl⟩ := List.mem_map.mp hentry
    obtain ⟨tree, hkey, hvalue⟩ := exists_of_zip
      (R := fun pair tree => Reads pair.1 tree.1 ∧ Reads pair.2 tree.2)
      hlength (fun p hp => ⟨hkeys p hp, hvalues p hp⟩) pair hpair
    rcases List.mem_cons.mp he with rfl | he
    · exact ⟨tree.1, hkey⟩
    · exact List.mem_singleton.mp he ▸ ⟨tree.2, hvalue⟩
  | _ => exact nofun

/-- What is read, as an expression or as a target, has a counterpart. -/
theorem Targets.hasCounterpart {e : Expr} {t : Tree} (h : e.Targets t) : e.HasCounterpart := by
  cases h with
  | place h => exact h.hasCounterpart
  | _ => trivial

/-- What makes a difference in a target is read along with it. -/
theorem Targets.kept {e : Expr} {t : Tree} (h : e.Targets t) :
    ∀ p ∈ e.kept, ∃ t', p.Targets t' := by
  cases h with
  | place h =>
    intro p hp
    obtain ⟨t', ht'⟩ := h.kept p hp
    exact ⟨t', .place ht'⟩
  | sequence hlength hitems | tuple hlength hitems | list hlength hitems =>
    exact exists_of_zip hlength hitems
  | parens hlength hitems =>
    exact fun p hp => exists_of_zip hlength hitems p (List.mem_singleton.mp hp ▸ .head _)

/-- What stands inside of something that is read is read itself, at any depth. -/
theorem Targets.inside {e p : Expr} (hp : p.Inside e) {t : Tree} (h : e.Targets t) :
    ∃ t', p.Targets t' := by
  induction hp using Relation.ReflTransGen.head_induction_on with
  | refl => exact ⟨t, h⟩
  | head hkept _ ih =>
    obtain ⟨t', ht'⟩ := ih
    exact ht'.kept _ hkept

end Expr

/-! ## Statements -/

/-- A clause of a `try` statement that is a handler or a suite to execute at last. -/
def Clause.IsKnown : Clause → Prop
  | .other _ _ => False
  | _ => True

namespace Stmt

/-- Trees can say what a statement adds to its parts. -/
def HasCounterpart : Stmt → Prop
  | assign _ _ value => value.isSome
  | functionDef _ _ params _ => ∀ p ∈ params, p.IsNamed
  | classDef _ _ bases _ => ∀ list ∈ bases, ∀ arg ∈ list.2, arg.1 = none
  | whileLoop _ _ _ orelse => orelse = none
  | forLoop _ _ _ _ orelse => orelse = none
  | tryStmt _ _ clauses => ∀ clause ∈ clauses, clause.IsKnown
  | raiseStmt _ _ caused => caused = false
  | other .. => False
  | _ => True

/-- One statement stands inside another one, at any depth. -/
def Inside : Stmt → Stmt → Prop :=
  Relation.ReflTransGen fun p s => p ∈ s.parts

theorem Reads.hasCounterpart {s : Stmt} {t : Tree} (h : s.Reads t) : s.HasCounterpart := by
  cases h with
  | assign | whileLoop | forLoop | raiseStmt => rfl
  | functionDef =>
    intro p hp
    obtain ⟨name, -, rfl⟩ := List.mem_map.mp hp
    trivial
  | classDef => exact nofun
  | @classDefOf _ list _ bases _ _ _ hkeywords =>
    intro bases' hbases arg harg
    cases hbases
    rcases arg with ⟨_ | name, e⟩
    · rfl
    · have hmem : (name, e) ∈ Expr.named bases := List.mem_filterMap.mpr ⟨_, harg, rfl⟩
      rw [hkeywords] at hmem
      cases hmem
  | tryStmt _ _ hclauses =>
    intro clause hclause
    cases clause with
    | other span construct => exact hclauses span construct hclause
    | _ => trivial
  | _ => trivial

/-- The statements directly inside of a statement are read along with it. -/
theorem Reads.parts {s : Stmt} {t : Tree} (h : s.Reads t) : ∀ p ∈ s.parts, ∃ t', p.Reads t' := by
  cases h with
  | functionDef hlength hbody | classDef hlength hbody | whileLoop _ hlength hbody
  | withStmt _ hlength hbody | classDefOf _ _ hlength hbody | forLoop _ _ hlength hbody =>
    exact exists_of_zip hlength hbody
  | ifStmt _ hlength hbody hlength' horelse =>
    exact List.forall_mem_append.mpr
      ⟨exists_of_zip hlength hbody, exists_of_zip hlength' horelse⟩
  | @tryStmt _ _ clauses _ _ _ hlength hbody _ hcount _ _ hlengths hhandlers hlength' hfinal =>
    have hsuites : ∀ clause ∈ Clause.excepts clauses, ∀ p ∈ clause.2.2, ∃ t', p.Reads t' := by
      intro clause hclause p hp
      obtain ⟨handler, hread⟩ := exists_of_zip
        (R := fun clause handler => ∀ p ∈ clause.2.2, ∃ t', Stmt.Reads p t')
        hcount (fun q hq => exists_of_zip (hlengths q hq) (hhandlers q hq)) clause hclause
      exact hread p hp
    exact List.forall_mem_append.mpr ⟨List.forall_mem_append.mpr
      ⟨exists_of_zip hlength hbody, List.forall_mem_flatMap.mpr hsuites⟩,
      exists_of_zip hlength' hfinal⟩
  | _ => exact nofun

/-- The expressions directly inside of a statement are read along with it. -/
theorem Reads.exprs {s : Stmt} {t : Tree} (h : s.Reads t) : ∀ e ∈ s.exprs, ∃ t', e.Targets t' := by
  cases h with
  | expression h | ifStmt h | whileLoop h =>
    exact List.forall_mem_singleton.mpr ⟨_, .place h⟩
  | assign htarget h | augAssign htarget h | forLoop htarget h =>
    exact List.forall_mem_cons.mpr
      ⟨⟨_, htarget⟩, List.forall_mem_singleton.mpr ⟨_, .place h⟩⟩
  | classDefOf hkeywords hbases =>
    intro e he
    simp only [Stmt.exprs, Option.toList_some, List.flatMap_singleton] at he
    rcases Expr.mem_positional_or_named he with he | ⟨name, he⟩
    · obtain ⟨t', ht'⟩ := exists_of_zip hbases.length_eq
        (fun p hp => List.forall₂_zip hbases hp) e he
      exact ⟨t', .place ht'⟩
    · rw [hkeywords] at he
      cases he
  | @tryStmt _ _ clauses _ _ _ _ _ _ hcount _ hcaught =>
    intro e he
    obtain ⟨clause, hclause, he⟩ := List.mem_flatMap.mp he
    cases clause with
    | except span caught body =>
      have hexcept : (span, caught, body) ∈ Clause.excepts clauses :=
        List.mem_filterMap.mpr ⟨_, hclause, rfl⟩
      obtain ⟨handler, hread⟩ := exists_of_zip
        (R := fun clause handler => ReadsCaught (none, none) (Caught.exprs false clause.2.1)
          (handler.exception, handler.name)) hcount hcaught _ hexcept
      obtain ⟨t', ht'⟩ := hread.all e he
      exact ⟨t', .place ht'⟩
    | _ => cases he
  | withStmt hitems =>
    intro e he
    obtain ⟨item, hitem, rfl⟩ := List.mem_map.mp he
    obtain ⟨item', hread⟩ :=
      exists_of_zip hitems.length_eq (fun p hp => List.forall₂_zip hitems hp) item hitem
    exact ⟨item'.context, .place hread.context⟩
  | returnStmt h | raiseStmt h =>
    cases h with
    | none => exact nofun
    | some h => exact List.forall_mem_singleton.mpr ⟨_, .place h⟩
  | _ => exact nofun

/-- What stands inside of a statement that is read is read itself, at any depth. -/
theorem Reads.inside {s p : Stmt} (hp : p.Inside s) {t : Tree} (h : s.Reads t) :
    ∃ t', p.Reads t' := by
  induction hp using Relation.ReflTransGen.head_induction_on with
  | refl => exact ⟨t, h⟩
  | head hpart _ ih =>
    obtain ⟨t', ht'⟩ := ih
    exact ht'.parts _ hpart

end Stmt

/-- Whatever stands in a source text that has a tree, at any depth, has a counterpart. -/
theorem read_hasCounterpart {text : String} {tree : Tree} (h : read text = .ok tree) :
    ∃ statements, parse? text.toList = some statements ∧
      ∀ s ∈ statements, ∀ p, Stmt.Inside p s → p.HasCounterpart ∧
        ∀ e ∈ p.exprs, ∀ q, Expr.Inside q e → q.HasCounterpart := by
  obtain ⟨statements, body, hparse, hreads, -⟩ := read_eq_ok h
  refine ⟨statements, hparse, fun s hs p hp => ?_⟩
  obtain ⟨t, ht⟩ :=
    exists_of_zip hreads.length_eq (fun q hq => List.forall₂_zip hreads hq) s hs
  obtain ⟨t', ht'⟩ := ht.inside hp
  refine ⟨ht'.hasCounterpart, fun e he q hq => ?_⟩
  obtain ⟨target, htarget⟩ := ht'.exprs e he
  obtain ⟨_, hinside⟩ := htarget.inside hq
  exact hinside.hasCounterpart

/-! ## Commas -/

section Commas

variable {α β : Type}

theorem bind_apply (x : Parser α) (k : α → Parser β) (ts : List Token) :
    (x >>= k) ts = (x ts).bind fun r => k r.1 r.2 := rfl

theorem pure_apply (a : α) (ts : List Token) : (pure a : Parser α) ts = some (a, ts) := rfl

theorem discard_apply (x : Parser α) (ts : List Token) :
    (discard x : Parser PUnit) ts = (x ts).map fun r => (⟨⟩, r.2) := by
  rcases h : x ts with _ | r <;> simp [discard, Functor.mapConst, StateT.map, h]

theorem shiftOperator_cons (f : Frame) (t : Token) (rest : List Token) :
    shiftOperator f (t :: rest) = some (t, f.expose true rest) := rfl

/-- A list ends at a separator behind which no item starts. -/
theorem listed_ended {f : Frame} {separator : String} {continuation : Continuation → α}
    {starts : Token → Bool} {item : Parser α} {ts rest more : List Token} {first : α}
    {t next : Token} (hfirst : item ts = some (first, t :: rest))
    (ht : t.isMark separator = true) (hrest : f.expose true rest = next :: more)
    (hnext : starts next = false) :
    listed f separator continuation starts item ts =
      some ((first :: t.gap.continuations.map continuation, true), next :: more) := by
  simp only [listed, bind_apply, hfirst, Option.bind_some, extend, List.length_cons, extendWithin,
    Bool.false_eq_true, if_false, atMark, ht, if_true, continuations, discard_apply,
    shiftOperator_cons, hrest, Option.map_some, peek, hnext, pure_apply, List.singleton_append]

end Commas

/-- An expression with a comma behind it, where no other expression follows, is a sequence. -/
theorem sequence_trailing_comma {expr : ExprParser} {f : Frame} {ts rest more : List Token}
    {first : Expr} {start comma next : Token}
    (hfirst : expr f Level.any (start :: ts) = some (first, comma :: rest))
    (hcomma : comma.isMark "," = true) (hrest : f.expose true rest = next :: more)
    (hnext : next.startsExpression = false) :
    sequence expr f (start :: ts) = some (.sequence start.span
      (first :: comma.gap.continuations.map Continuation.toExpr), next :: more) := by
  simp only [sequence, sequenceOf, bind_apply, peek, Option.bind_some,
    listed_ended hfirst hcomma hrest hnext]
  cases comma.gap.continuations <;> rfl

/-- Wherever expressions can stand one after another, one of them with a comma behind it is read as
    a tuple of this one. -/
theorem read_trailing_comma {expr : ExprParser} {f : Frame} {ts rest more after : List Token}
    {first e : Expr} {start comma next : Token} {t : Tree}
    (hfirst : expr f Level.any (start :: ts) = some (first, comma :: rest))
    (hcomma : comma.isMark "," = true) (hrest : f.expose true rest = next :: more)
    (hnext : next.startsExpression = false)
    (hparse : sequence expr f (start :: ts) = some (e, after)) (hread : e.read = .ok t) :
    ∃ element, first.Reads element ∧ t = .mk start.span (.tuple [element]) := by
  rw [sequence_trailing_comma hfirst hcomma hrest hnext] at hparse
  cases hparse
  cases Expr.reads_of_read hread with
  | @sequence _ _ items hlength hitems =>
    have hall := List.forall₂_iff_zip.mpr ⟨hlength, fun {e t} hp => hitems (e, t) hp⟩
    cases hall with
    | cons helement hrest =>
      generalize comma.gap.continuations = continuations at hrest
      cases continuations with
      | nil =>
        cases hrest
        exact ⟨_, helement, rfl⟩
      | cons c rest =>
        -- A continued line among the parts of a sequence cannot be read.
        cases hrest with
        | cons hcontinuation => cases hcontinuation

/-- The comma at the end of a subscript is lost. -/
example : (read "x[1,]\n").toOption.any (fun t => (read "x[1]\n").toOption.any t.alike) = true :=
  by decide +kernel

end Rendition.Source
