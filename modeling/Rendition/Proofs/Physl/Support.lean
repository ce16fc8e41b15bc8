import Rendition.Proofs.Physl.Follow
import Rendition.Proofs.Physl.Parts

/-!
# What PhySL can express

Whether a tree has a rendition depends on the tree alone, and so does the node that a failure
names: neither the names that are defined nor whether places are asked for matter. The
reason is that what a node does with the scopes is never looked at by a decision to refuse. A tree
has a rendition exactly when each of its nodes is supported for itself, although some nodes are
never rendered: these are names, attributes and tuples, all of which are supported.

## Main definitions

* `Physl.supports`: Whether a node is supported, whatever its children are.
* `Physl.refusal`: The failure of a rendition, read off the tree.
* `Physl.Answers`: What a computation answers in every state.

## Theorems

* `refusal_eq_none`: Only trees of supported nodes are not refused.
* `answers_render`: The rendition fails as the refusal says.
* `fragment_ok_iff`: Trees of supported nodes, and no others, have a rendition.
-/

namespace Rendition.Physl

/-- Whether a node is supported, whatever its children are. -/
def supports : Node Tree → Bool
  | .tryStmt .. | .withStmt .. | .raiseStmt _ | .classDef .. | .importStmt .. | .breakStmt
  | .continueStmt => false
  | .binOp _ op _ => op ∈ [.add, .sub, .mult, .div, .mod, .matMult, .pow]
  | .augAssign target op _ =>
    op ∈ [.add, .sub, .mult, .div, .mod, .matMult, .pow] && isVariable target
  | .compare _ ops _ => ops.all fun op => op ∉ [.is, .isNot, .isIn, .notIn]
  | .unaryOp op _ => op != .invert
  | .assign target _ => isVariable target
  | .forLoop target _ _ => target.kind == .ident
  | .call func _ _ => isCallee func
  | _ => true

/-- The failure of a rendition: the node itself where it is refused at once, else the first failure
    among its parts, else the node itself where it is refused after them. -/
def refusal (t : Tree) : Option Unimplemented :=
  if refuses t.node then some ⟨t.kind, t.span⟩
  else ((parts t.node).attach.findSome? fun part => refusal part.1.2).or
    (if declines t.node then some ⟨t.kind, t.span⟩ else none)
termination_by t.height
decreasing_by
  rcases t with ⟨span, node⟩
  exact height_parts part.2

theorem refusal_mk (span : Span) (node : Node Tree) :
    refusal (.mk span node) = if refuses node then some ⟨node.kind, span⟩
      else ((parts node).findSome? fun part => refusal part.2).or
        (if declines node then some ⟨node.kind, span⟩ else none) := by
  rw [refusal]
  simp only [Tree.node_mk, Tree.span_mk, Tree.kind, List.findSome?_subtype, List.unattach_attach]
  rfl

/-- A tree is not refused when its root is not, before or after its parts, and no part is. -/
theorem refusal_mk_none {span : Span} {node : Node Tree} :
    refusal (.mk span node) = none ↔ refuses node = false ∧
      (∀ part ∈ parts node, refusal part.2 = none) ∧ declines node = false := by
  rw [refusal_mk]
  rcases refuses node with _ | _
  · rcases declines node with _ | _ <;> simp
  · simp

theorem primitive_isNone (op : Operator) :
    (primitive? op).isNone = !decide (op ∈ [.add, .sub, .mult, .div, .mod, .matMult, .pow]) := by
  cases op <;> rfl

theorem comparisonPrimitives_isNone (ops : List Comparison) :
    (ops.mapM comparisonPrimitive?).isNone =
      !ops.all fun op => op ∉ [.is, .isNot, .isIn, .notIn] := by
  induction ops with
  | nil => rfl
  | cons op rest ih =>
    have hop : (comparisonPrimitive? op).isSome = decide (op ∉ [.is, .isNot, .isIn, .notIn]) := by
      cases op <;> rfl
    rw [List.all_cons, ← hop, List.mapM_cons]
    rcases hprimitive : comparisonPrimitive? op with _ | primitive
    · rfl
    rcases hrest : rest.mapM comparisonPrimitive? with _ | primitives <;>
      simpa [hrest] using ih

/-- A node is supported when it is refused neither at once nor after its parts. -/
theorem supports_eq (node : Node Tree) : supports node = (!refuses node && !declines node) := by
  cases node with
  | augAssign target op value =>
    simp only [supports, refuses, declines, primitive_isNone, Bool.not_or, Bool.not_not,
      Bool.not_false, Bool.and_true]
  | forLoop target iter body =>
    rcases target with ⟨span, node⟩
    cases node <;> rfl
  | binOp left op right =>
    simp only [supports, refuses, declines, primitive_isNone, Bool.not_not, Bool.not_false,
      Bool.and_true]
  | compare left ops comparators =>
    simp only [supports, refuses, declines, comparisonPrimitives_isNone, Bool.not_not,
      Bool.not_false, Bool.and_true]
  | call func args keywords =>
    simp only [supports, refuses, declines, Bool.not_not, Bool.not_false, Bool.and_true]
  | assign target value =>
    simp only [supports, refuses, declines, Bool.not_not, Bool.not_false, Bool.true_and]
  | unaryOp op operand => cases op <;> rfl
  | _ => rfl

theorem supports_of_isGlance {t : Tree} (h : isGlance t = true) : supports t.node = true := by
  rcases t with ⟨span, node⟩
  cases node with
  | ident id => rfl
  | attr value name => rfl
  | tuple items => rfl
  | _ => cases h

/-- Only trees of supported nodes are not refused. -/
theorem refusal_eq_none (t : Tree) :
    refusal t = none ↔ ∀ d ∈ t.descendants, supports d.node = true := by
  induction t using partsInduction with
  | step span node ih =>
    rw [refusal_mk_none]
    constructor
    · rintro ⟨hrefuses, hparts, hdeclines⟩ d hd
      obtain ⟨path, hpath⟩ := Tree.mem_descendants.mp hd
      rcases path with _ | ⟨i, rest⟩
      · obtain rfl := Option.some.inj hpath
        rw [Tree.node_mk, supports_eq, hrefuses, hdeclines]
        rfl
      -- Below the node there are only the parts and what is looked at.
      rcases reach_parts hrefuses hdeclines (List.cons_ne_nil i rest) hpath with
        ⟨part, hpart, q, -, hq⟩ | hglance
      · exact (ih part hpart).mp (hparts part hpart) d (Tree.mem_descendants.mpr ⟨q, hq⟩)
      · exact supports_of_isGlance hglance
    · intro h
      have hroot : supports node = true := h _ (Tree.mem_descendants.mpr ⟨[], rfl⟩)
      rw [supports_eq, Bool.and_eq_true, Bool.not_eq_true', Bool.not_eq_true'] at hroot
      refine ⟨hroot.1, fun part hpart => ?_, hroot.2⟩
      exact (ih part hpart).mpr fun d hd => h d (mem_descendants_parts hpart hd)

/-- A refusal names a node that is not supported. -/
theorem supports_of_refusal {e : Unimplemented} (t : Tree) : refusal t = some e →
    ∃ d ∈ t.descendants, supports d.node = false ∧ e = ⟨d.kind, d.span⟩ := by
  induction t using partsInduction with
  | step span node ih =>
    intro h
    have hself : Tree.mk span node ∈ (Tree.mk span node).descendants :=
      Tree.mem_descendants.mpr ⟨[], rfl⟩
    rw [refusal_mk] at h
    rcases hrefuses : refuses node with _ | _
    case true =>
      simp only [hrefuses, if_true, Option.some.injEq] at h
      refine ⟨_, hself, ?_, h.symm⟩
      rw [Tree.node_mk, supports_eq, hrefuses]
      rfl
    simp only [hrefuses, Bool.false_eq_true, if_false, Option.or_eq_some_iff] at h
    rcases h with h | ⟨-, h⟩
    · obtain ⟨part, hpart, he⟩ := List.exists_of_findSome?_eq_some h
      obtain ⟨d, hd, hsupports⟩ := ih part hpart he
      exact ⟨d, mem_descendants_parts hpart hd, hsupports⟩
    · rcases hdeclines : declines node with _ | _
      case false => simp only [hdeclines, Bool.false_eq_true, if_false, reduceCtorEq] at h
      simp only [hdeclines, if_true, Option.some.injEq] at h
      refine ⟨_, hself, ?_, h.symm⟩
      rw [Tree.node_mk, supports_eq, hdeclines, Bool.not_true, Bool.and_false]

section Answers

variable {σ α β : Type} {r r' : Option Unimplemented} {holds : α → Prop} {holds' : β → Prop}

/-- The result that belongs to a refusal: a failure, or else something of which `holds` holds. -/
inductive Answer (holds : α → Prop) : Option Unimplemented → Except Unimplemented α → Prop where
  | ok {a : α} (h : holds a) : Answer holds none (.ok a)
  | error (e : Unimplemented) : Answer holds (some e) (.error e)

/-- A computation has the same answer in every state. -/
def Answers (x : Walk σ α) (r : Option Unimplemented) (holds : α → Prop) : Prop :=
  ∀ s, Answer holds r (x.run.run s).1

theorem Answers.pure {a : α} (h : holds a) : Answers (pure a : Walk σ α) none holds :=
  fun _ => .ok h

theorem Answers.throw (e : Unimplemented) :
    Answers (throwThe Unimplemented e : Walk σ α) (some e) holds :=
  fun _ => .error e

theorem Answers.bind {x : Walk σ α} {f : α → Walk σ β} (hx : Answers x r holds)
    (hf : ∀ a, holds a → Answers (f a) r' holds') : Answers (x >>= f) (r.or r') holds' := by
  intro s
  have hx := hx s
  rw [Walk.run_bind]
  rcases hrun : x.run.run s with ⟨result, s'⟩
  rw [hrun] at hx
  cases hx with
  | ok h => exact hf _ h s'
  | error e => exact .error e

variable [Scoping σ]

theorem Answers.declare (name : String) :
    Answers (declare name : Walk σ Bool) none fun _ => True := by
  intro s
  rw [run_declare]
  rcases scopes s with _ | ⟨scope, outer⟩
  · exact .ok trivial
  · dsimp only
    split <;> exact .ok trivial

theorem Answers.andThen {x : Walk σ α} (change : Scopes → Scopes) (hx : Answers x r holds) :
    Answers (andThen x change) r holds :=
  fun s => hx s

theorem Answers.inScope {x : Walk σ α} (params : List String) (hx : Answers x r holds) :
    Answers (inScope params x) r holds :=
  fun s => hx (changeScopes (params :: ·) s)

theorem Answers.withVariable {x : Walk σ α} (name : String) (hx : Answers x r holds) :
    Answers (withVariable name x) r holds := by
  have hdeclare : Answers (Physl.declare name : Walk σ Bool) none fun _ => True := .declare name
  exact hdeclare.bind fun fresh _ => hx.andThen (if fresh then undeclare name else id)

omit [Scoping σ] in
theorem Answers.runAll {V : Position × Tree → Visit (Walk σ) String} :
    ∀ ps : List (Position × Tree),
      (∀ part ∈ ps, Answers (V part).run (refusal part.2) fun _ => True) →
        Answers (runAll (ps.map V)) (ps.findSome? fun part => refusal part.2)
          fun texts => texts.length = ps.length := by
  intro ps
  induction ps with
  | nil =>
    intro _
    rw [List.map_nil, runAll_nil]
    exact .pure rfl
  | cons part rest ih =>
    intro h
    have hrest := ih fun part hpart => h part (List.mem_cons_of_mem _ hpart)
    have hlength : ∀ (text : String) {texts : List String}, texts.length = rest.length →
        Answers (Pure.pure (text :: texts) : Walk σ (List String)) none fun texts =>
          texts.length = (part :: rest).length := by
      intro text texts htexts
      exact .pure (by rw [List.length_cons, List.length_cons, htexts])
    have hall := (h part List.mem_cons_self).bind fun text _ => hrest.bind fun texts htexts =>
      hlength text htexts
    rw [List.map_cons, runAll_cons]
    have hfirst : (refusal part.2).or ((rest.findSome? fun part => refusal part.2).or none) =
        (part :: rest).findSome? fun part => refusal part.2 := by
      rw [Option.or_none, List.findSome?_cons]
      cases refusal part.2 <;> rfl
    exact hfirst ▸ hall

end Answers

/-- Texts for all parts are put together unless the node is refused. -/
theorem isSome_assemble (annotate fresh : Bool) (span : Span) {texts : List String}
    {node : Node Tree} (hrefuses : refuses node = false)
    (htexts : texts.length = (parts node).length) :
    (assemble annotate fresh span texts node).isSome = !declines node := by
  cases node with
  | assign target value =>
    rcases target with ⟨tspan, tnode⟩
    rcases texts with _ | ⟨value, _ | ⟨target, rest⟩⟩ <;> cases tnode <;>
      simp_all [assemble, declines, isVariable, parts, element]
  | augAssign target op value =>
    rcases hop : primitive? op with _ | primitive
    · simp [refuses, hop] at hrefuses
    rcases texts with _ | ⟨target, _ | ⟨value, rest⟩⟩ <;>
      simp_all [assemble, declines, parts, below, Node.toList]
  | forLoop target iter body =>
    rcases target with ⟨tspan, tnode⟩
    rcases texts with _ | ⟨iter, body⟩ <;> cases tnode <;>
      simp_all [assemble, declines, refuses, parts]
  | binOp left op right =>
    rcases hop : primitive? op with _ | primitive <;>
      simp_all [assemble, declines, refuses]
  | unaryOp op operand =>
    rcases texts with _ | ⟨operand, rest⟩ <;> cases op <;>
      simp_all [assemble, declines, parts, below, Node.toList]
  | compare left ops comparators =>
    rcases hops : ops.mapM comparisonPrimitive? with _ | primitives <;>
      simp_all [assemble, declines, refuses]
  | call func args keywords =>
    rw [refuses, isCallee_eq annotate] at hrefuses
    rcases hname : calleeText? annotate func with _ | name <;>
      simp_all [assemble, declines]
  | attr value name =>
    simp only [assemble, declines]
    split <;> rfl
  | exprStmt value =>
    rcases texts with _ | ⟨text, rest⟩
    · cases htexts
    · rfl
  | ifStmt test body orelse =>
    rcases texts with _ | ⟨text, rest⟩
    · simp [parts, below, Node.toList] at htexts
    · rfl
  | whileLoop test body =>
    rcases texts with _ | ⟨text, rest⟩
    · simp [parts, below, Node.toList] at htexts
    · rfl
  | breakStmt | continueStmt | tryStmt | withStmt | raiseStmt | classDef | importStmt =>
    cases hrefuses
  | _ => rfl

section Render

variable {σ : Type} [Scoping σ] (annotate : Bool)

theorem answers_script {V : Position × Tree → Visit (Walk σ) String} (span : Span)
    {node : Node Tree} (hrefuses : refuses node = false)
    (h : ∀ part ∈ parts node, Answers (V part).run (refusal part.2) fun _ => True) :
    Answers (script annotate span node ((parts node).map V))
      ((parts node).findSome? fun part => refusal part.2)
      fun fragment => fragment.isSome = !declines node := by
  have hall := Answers.runAll (parts node) h
  have hfinish : ∀ (fresh : Bool) (texts : List String), texts.length = (parts node).length →
      Answers (pure (assemble annotate fresh span texts node) : Walk σ (Option String)) none
        fun fragment => fragment.isSome = !declines node :=
    fun fresh texts htexts => .pure (isSome_assemble annotate fresh span hrefuses htexts)
  simp only [script, hrefuses, Bool.false_eq_true, if_false]
  rcases hbinding : binding node with _ | ⟨name, params⟩ | params | name | id
  case none =>
    simpa only [Option.or_none] using hall.bind fun texts htexts => hfinish false texts htexts
  case function =>
    simpa only [Option.or_none, Option.none_or] using (Answers.declare name).bind fun _ _ =>
      (hall.inScope params).bind fun texts htexts => hfinish false texts htexts
  case lambda =>
    simpa only [Option.or_none] using (hall.inScope params).bind fun texts htexts =>
      hfinish false texts htexts
  case name =>
    simpa only [Option.or_none, Option.none_or] using hall.bind fun texts htexts =>
      (Answers.declare id).bind fun fresh _ => hfinish fresh texts htexts
  case loop =>
    obtain ⟨iter, body, hparts⟩ := parts_of_loop hbinding
    rw [hparts] at h hfinish ⊢
    have hbody := Answers.runAll (below [] 2 body) fun part hpart =>
      h part (List.mem_cons_of_mem _ hpart)
    have hloop := (h _ List.mem_cons_self).bind fun text _ =>
      (hbody.withVariable name).bind fun texts htexts => hfinish false (text :: texts) (by
        rw [List.length_cons, List.length_cons, htexts])
    have hfirst : (refusal iter).or
        (((below [] 2 body).findSome? fun part => refusal part.2).or none) =
          (([1], iter) :: below [] 2 body).findSome? fun part => refusal part.2 := by
      rw [Option.or_none, List.findSome?_cons]
      cases refusal iter <;> rfl
    exact hfirst ▸ hloop

theorem answers_visit (t : Tree) : ∀ path,
    Answers (t.visitAt (rule annotate : Rule (Walk σ) String) (fun _ x => x) path).run (refusal t)
      fun _ => True := by
  induction t using partsInduction with
  | step span node ih =>
    intro path
    rw [Tree.visitAt_run, Rule.apply, rule_eq_script annotate _ (Tree.visitAt_span _ _)
      (Tree.visitAt_node _ _), refusal_mk, Node.kind_mapIdx]
    rcases hrefuses : refuses node with _ | _
    case true =>
      simp only [script, hrefuses, if_true]
      exact .throw _
    have hscript := answers_script annotate span hrefuses fun part hpart =>
      ih part hpart (path ++ part.1)
    simp only [Bool.false_eq_true, if_false]
    refine hscript.bind fun fragment hfragment => ?_
    cases fragment with
    | none =>
      have hdeclines : declines node = true := by
        simpa only [Option.isSome_none, Bool.false_eq, Bool.not_eq_false'] using hfragment
      rw [if_pos hdeclines]
      exact .throw _
    | some text =>
      have hdeclines : declines node = false := by
        simpa only [Option.isSome_some, Bool.true_eq, Bool.not_eq_true'] using hfragment
      rw [if_neg (by rw [hdeclines]; decide)]
      exact .pure trivial

/-- The rendition fails as the refusal says, in every state. -/
theorem answers_render (t : Tree) :
    Answers (t.render (rule annotate : Rule (Walk σ) String)) (refusal t) fun _ => True := by
  have hrender : (t.visitAt (rule annotate : Rule (Walk σ) String) (fun _ x => x) []).run =
      t.render (rule annotate) := by
    rw [Tree.visitAt_bare]
    rfl
  rw [← hrender]
  exact answers_visit annotate t []

end Render

/-- A tree has a rendition exactly when each of its nodes is supported. A failure names a node that
    is not supported, and it is the same whatever the state was. -/
theorem fragment_ok_iff (t : Tree) (s : State) :
    ((∃ text, ((renderer.fragment t).run.run s).1 = .ok text) ↔
        ∀ d ∈ t.descendants, supports d.node = true) ∧
      ∀ e, ((renderer.fragment t).run.run s).1 = .error e →
        (∃ d ∈ t.descendants, supports d.node = false ∧ e = ⟨d.kind, d.span⟩) ∧
          ∀ s' : State, ((renderer.fragment t).run.run s').1 = .error e := by
  have hanswer : ∀ s : State,
      Answer (fun _ => True) (refusal t) ((renderer.fragment t).run.run s).1 := by
    intro s
    rw [run_fragment]
    exact answers_render s.annotate t s
  rw [← refusal_eq_none]
  rcases hrefusal : refusal t with _ | e
  · have hok := hanswer s
    rw [hrefusal] at hok
    rcases hresult : ((renderer.fragment t).run.run s).1 with e | text <;> rw [hresult] at hok
    · cases hok
    · exact ⟨⟨fun _ => rfl, fun _ => ⟨text, rfl⟩⟩, fun e he => by cases he⟩
  · have herror : ∀ s : State, ((renderer.fragment t).run.run s).1 = .error e := by
      intro s
      have h := hanswer s
      rw [hrefusal] at h
      cases hresult : ((renderer.fragment t).run.run s).1 <;> rw [hresult] at h <;> cases h
      rfl
    refine ⟨⟨?_, fun h => by cases h⟩, fun e' he' => ?_⟩
    · rintro ⟨text, htext⟩
      rw [herror] at htext
      cases htext
    · rw [herror] at he'
      cases he'
      exact ⟨supports_of_refusal t hrefusal, herror⟩

/-- The failure of a loop exit in a fresh module is its failure among other names, with places. -/
theorem fragment_ok_iff_breakStmt :
    ((renderer.fragment (.mk ⟨1, 1⟩ (.moduleDef [.mk ⟨1, 5⟩ .breakStmt]))).run.run
        ⟨true, [["x"], []], "text"⟩).1 = .error ⟨.breakStmt, ⟨1, 5⟩⟩ := by
  have hfresh : ((renderer.fragment (.mk ⟨1, 1⟩ (.moduleDef [.mk ⟨1, 5⟩ .breakStmt]))).run.run
      ⟨false, [[]], ""⟩).1 = .error ⟨.breakStmt, ⟨1, 5⟩⟩ := by
    simp only [renderer, Tree.render_mk, Tree.visit_mk, Rule.apply, rule, Node.map, List.map_cons,
      List.map_nil, runAll_cons, Visit.run]
    rfl
  exact ((fragment_ok_iff _ _).2 _ hfresh).2 _

end Rendition.Physl
