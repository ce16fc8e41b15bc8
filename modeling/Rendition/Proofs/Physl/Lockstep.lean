import Rendition.Proofs.Physl.Follow
import Rendition.Proofs.Physl.Parts
import Rendition.Proofs.Rendering.Related

/-!
# Two PhySL renditions in lockstep

Two renditions of trees of one shape go through the same steps. In each the innermost function has
names of its own, and what the renditions do with the names differs only where a name is assigned
to: the text says whether the name is new. So two renditions agree as long as the innermost
functions know the same names, or nothing is assigned outside the functions that begin on the way.

What two trees have to do with each other is left open, as is what their texts do. It is enough
that nodes of one shape are compared with each other and that their texts are put together alike.

## Main definitions

* `Physl.Level`: Two states inside given functions, whose innermost functions may have to know the
  same names.
* `Physl.Lockstep`: Two computations that are related inside all functions.
* `Physl.Binding.opens`: Whether the parts of a node belong to a function of their own.
* `Physl.Similar`: A comparison of trees under which renditions agree.

## Theorems

* `visit_run`: One step of a rendition, by the script.
* `lockstep_script`: Scripts of similar nodes are in lockstep.
* `lockstep_render`: Renditions of similar trees are in lockstep.
* `paired_render`: The texts of tasks with similar trees are related, or both tasks fail.
-/

namespace Rendition.Physl

variable {σ τ α β : Type} [Scoping σ] [Scoping τ]

/-- One step of a rendition, by the script. -/
theorem visit_run (annotate : Bool) (span : Span) (node : Node Tree) :
    (Tree.visit (rule annotate : Rule (Walk σ) String) (.mk span node)).run =
      script annotate span node ((parts node).map fun part => Tree.visit (rule annotate) part.2)
        >>= fun text => text.elim (throwThe Unimplemented ⟨node.kind, span⟩) pure := by
  have hspan : ∀ t (_ : Position),
      (Tree.visit (rule annotate : Rule (Walk σ) String) t).span = t.span := by
    rintro ⟨span, node⟩ _
    rw [Tree.visit_mk]
    rfl
  have hnode : ∀ t (_ : Position), (Tree.visit (rule annotate : Rule (Walk σ) String) t).node =
      t.node.mapIdx fun _ child => Tree.visit (rule annotate) child := by
    rintro ⟨span, node⟩ _
    rw [Tree.visit_mk, Node.mapIdx_const]
    rfl
  have hrule := rule_eq_script annotate (fun t _ => Tree.visit (rule annotate) t) hspan hnode []
    span node
  rw [Node.mapIdx_const] at hrule
  rw [Tree.visit_mk, Visit.run, Rule.apply_eq, hrule, Node.kind_map]

/-! ## Names of the innermost functions -/

/-- Two states inside the given functions. The functions that come first know the same names if it
    is asked for. -/
def Level (same : Bool) (outer outer' : Scopes) (s : σ) (t : τ) : Prop :=
  ∃ scope scope', scopes s = scope :: outer ∧ scopes t = scope' :: outer' ∧
    (same = true → scope = scope')

/-- Two computations that are related inside all functions. -/
def Lockstep (same : Bool) (E : Unimplemented → Unimplemented → Prop) (R : α → β → Prop)
    (x : Walk σ α) (y : Walk τ β) : Prop :=
  ∀ outer outer', Related (Level same outer outer') E R x y

omit [Scoping τ] in
theorem scopes_changeScopes (change : Scopes → Scopes) (s : σ) :
    scopes (changeScopes change s) = change (scopes s) :=
  Scoping.scopes_setScopes _ _

omit [Scoping τ] in
/-- A name that is defined belongs to the innermost function from then on. -/
theorem run_declare_insert {name : String} {s : σ} {scope : List String} {outer : Scopes}
    (h : scopes s = scope :: outer) : (declare name : Walk σ Bool).run.run s =
      (.ok (decide (name ∉ scope)), setScopes (scope.insert name :: outer) s) := by
  by_cases hmem : name ∈ scope
  · rw [run_declare_of_mem h hmem, List.insert_of_mem hmem, ← h, Scoping.setScopes_scopes,
      decide_eq_false (not_not_intro hmem)]
  · rw [run_declare_of_not_mem h hmem, List.insert_of_not_mem hmem, decide_eq_true hmem]

/-- The variable of a loop is forgotten in both states alike, unless it was known before. -/
theorem Level.forget {same fresh fresh' : Bool} {outer outer' : Scopes} {s : σ} {t : τ}
    (name : String) (hfresh : same = true → fresh = fresh') (h : Level same outer outer' s t) :
    Level same outer outer' (changeScopes (if fresh then undeclare name else id) s)
      (changeScopes (if fresh' then undeclare name else id) t) := by
  have hchange : ∀ (fresh : Bool) (scope : List String) (outer : Scopes),
      (if fresh then undeclare name else id) (scope :: outer) =
        (if fresh then scope.filter (· != name) else scope) :: outer := by
    intro fresh scope outer
    cases fresh <;> rfl
  obtain ⟨scope, scope', hs, ht, hsame⟩ := h
  refine ⟨if fresh then scope.filter (· != name) else scope,
    if fresh' then scope'.filter (· != name) else scope', ?_, ?_, fun h => ?_⟩
  · rw [scopes_changeScopes, hs, hchange]
  · rw [scopes_changeScopes, ht, hchange]
  · rw [hsame h, hfresh h]

namespace Lockstep

variable {same : Bool} {E : Unimplemented → Unimplemented → Prop} {R : α → β → Prop}

/-- Whether a name is new is the same in both runs if they know the same names. -/
theorem declare (name : String) :
    Lockstep same E (fun fresh fresh' => same = true → fresh = fresh')
      (declare name : Walk σ Bool) (declare name : Walk τ Bool) := by
  rintro outer outer' s t ⟨scope, scope', hs, ht, hsame⟩
  rw [run_declare_insert hs, run_declare_insert ht]
  exact ⟨.ok fun h => by rw [hsame h], scope.insert name, scope'.insert name,
    Scoping.scopes_setScopes _ _, Scoping.scopes_setScopes _ _, fun h => by rw [hsame h]⟩

/-- A new function begins with the same names in both runs, whatever the functions around it
    know. -/
theorem inScope {x : Walk σ α} {y : Walk τ β} (params : List String)
    (h : Lockstep true E R x y) : Lockstep same E R (inScope params x) (inScope params y) := by
  rintro outer outer' s t ⟨scope, scope', hs, ht, hsame⟩
  have hopened : Level true (scope :: outer) (scope' :: outer')
      (changeScopes (params :: ·) s) (changeScopes (params :: ·) t) := by
    refine ⟨params, params, ?_, ?_, fun _ => rfl⟩
    · rw [scopes_changeScopes, hs]
    · rw [scopes_changeScopes, ht]
  obtain ⟨hpaired, inner, inner', hs', ht', -⟩ := h _ _ _ _ hopened
  rw [run_inScope, run_inScope]
  -- After the function the functions around it are as they were.
  refine ⟨hpaired, scope, scope', ?_, ?_, hsame⟩
  · rw [scopes_changeScopes, hs', List.tail_cons]
  · rw [scopes_changeScopes, ht', List.tail_cons]

theorem withVariable {x : Walk σ α} {y : Walk τ β} (name : String)
    (h : Lockstep same E R x y) :
    Lockstep same E R (withVariable name x) (withVariable name y) := by
  intro outer outer'
  refine (declare name outer outer').bind fun fresh fresh' hfresh s t hst => ?_
  obtain ⟨hpaired, hlevel⟩ := h outer outer' s t hst
  exact ⟨hpaired, hlevel.forget name hfresh⟩

end Lockstep

/-! ## Scripts -/

/-- Whether the parts of a node belong to a function of their own. -/
def Binding.opens : Binding → Bool
  | .function .. | .lambda _ => true
  | .none | .loop _ | .name _ => false

section Script

variable {same annotate annotate' : Bool} {E : Unimplemented → Unimplemented → Prop}
  {R : String → String → Prop}

theorem Lockstep.runAll {vs : List (Visit (Walk σ) String)} {ws : List (Visit (Walk τ) String)}
    (h : List.Forall₂ (fun v w => Lockstep same E R v.run w.run) vs ws) :
    Lockstep same E (List.Forall₂ R) (runAll vs) (runAll ws) :=
  fun outer outer' => Related.runAll (h.imp fun _ _ h => h outer outer')

/-- Scripts are in lockstep at nodes that do the same with the names around their parts, and that
    put related texts together alike. -/
theorem lockstep_script {vs : List (Visit (Walk σ) String)} {ws : List (Visit (Walk τ) String)}
    {span span' : Span} {node node' : Node Tree} (hrefuses : refuses node = refuses node')
    (hbinding : binding node = binding node')
    (hname : ∀ id, binding node = .name id → same = true)
    (hparts : List.Forall₂
      (fun v w => Lockstep (same || (binding node).opens) E R v.run w.run) vs ws)
    (hassemble : ∀ fresh texts texts', List.Forall₂ R texts texts' →
      Option.Rel R (assemble annotate fresh span texts node)
        (assemble annotate' fresh span' texts' node')) :
    Lockstep same E (Option.Rel R) (script annotate span node vs)
      (script annotate' span' node' ws) := by
  intro outer outer'
  have hfinish : ∀ fresh texts texts', List.Forall₂ R texts texts' →
      Related (Level same outer outer') E (Option.Rel R)
        (pure (assemble annotate fresh span texts node) : Walk σ (Option String))
        (pure (assemble annotate' fresh span' texts' node') : Walk τ (Option String)) :=
    fun fresh texts texts' h => .pure (hassemble fresh texts texts' h)
  simp only [script, ← hrefuses, ← hbinding]
  rcases refuses node with _ | _
  case true => exact .pure .none
  simp only [Bool.false_eq_true, if_false]
  rcases hbind : binding node with _ | ⟨name, params⟩ | params | name | id
  all_goals simp only [hbind, Binding.opens, Bool.or_false, Bool.or_true] at hparts
  case none => exact (Lockstep.runAll hparts outer outer').bind (hfinish false)
  case function =>
    refine (Lockstep.declare name outer outer').bind fun _ _ _ => ?_
    exact ((Lockstep.runAll hparts).inScope params outer outer').bind (hfinish false)
  case lambda => exact ((Lockstep.runAll hparts).inScope params outer outer').bind (hfinish false)
  case loop =>
    cases hparts with
    | nil => exact .pure .none
    | cons hiter hbody =>
      refine (hiter outer outer').bind fun text text' htext => ?_
      refine ((Lockstep.runAll hbody).withVariable name outer outer').bind fun texts texts' h => ?_
      exact hfinish false _ _ (.cons htext h)
  case name =>
    refine (Lockstep.runAll hparts outer outer').bind fun texts texts' h => ?_
    refine (Lockstep.declare id outer outer').bind fun fresh fresh' hfresh => ?_
    -- Here alone the text tells whether a name is new.
    obtain rfl := hfresh (hname id hbind)
    exact hfinish fresh texts texts' h

end Script

/-! ## Trees -/

/-- A comparison of trees under which renditions agree: what is asked of the settings of both
    renditions, of the failures and of the texts, so that comparing the nodes is enough. Below a
    tree that is compared, its parts are; inside a function that begins there, both renditions know
    the same names. -/
structure Similar (annotate annotate' : Bool) (E : Unimplemented → Unimplemented → Prop)
    (R : String → String → Prop) (Q : Bool → Tree → Tree → Prop) : Prop where
  refuses {same : Bool} {a b : Tree} : Q same a b → refuses a.node = refuses b.node
  binding {same : Bool} {a b : Tree} : Q same a b → binding a.node = binding b.node
  name {same : Bool} {a b : Tree} {id : String} : Q same a b → Physl.binding a.node = .name id →
    same = true
  parts {same : Bool} {a b : Tree} : Q same a b → List.Forall₂
    (fun part part' => Q (same || (Physl.binding a.node).opens) part.2 part'.2)
    (parts a.node) (parts b.node)
  failure {same : Bool} {a b : Tree} : Q same a b → E ⟨a.kind, a.span⟩ ⟨b.kind, b.span⟩
  assemble {same : Bool} {a b : Tree} (fresh : Bool) {texts texts' : List String} : Q same a b →
    List.Forall₂ R texts texts' → Option.Rel R (assemble annotate fresh a.span texts a.node)
      (assemble annotate' fresh b.span texts' b.node)

/-- Renditions of similar trees are in lockstep. -/
theorem lockstep_render {annotate annotate' : Bool} {E : Unimplemented → Unimplemented → Prop}
    {R : String → String → Prop} {Q : Bool → Tree → Tree → Prop}
    (h : Similar annotate annotate' E R Q) {same : Bool} {a b : Tree} (hab : Q same a b) :
    Lockstep same E R (a.render (rule annotate) : Walk σ String)
      (b.render (rule annotate') : Walk τ String) := by
  induction a using partsInduction generalizing same b with
  | step span node ih =>
    rcases b with ⟨span', node'⟩
    -- The parts are in lockstep by induction, inside a new function if one begins here.
    have hparts : List.Forall₂
        (fun v w => Lockstep (same || (binding node).opens) E R (Visit.run v) (Visit.run w))
        ((parts node).map fun part => Tree.visit (rule annotate : Rule (Walk σ) String) part.2)
        ((parts node').map fun part =>
          Tree.visit (rule annotate' : Rule (Walk τ) String) part.2) := by
      rw [List.forall₂_map_left_iff, List.forall₂_map_right_iff]
      exact (forall₂_mem (h.parts hab)).imp fun part part' hpart => ih part hpart.1 hpart.2.2
    intro outer outer'
    rw [Tree.render, Tree.render, visit_run, visit_run]
    refine (lockstep_script (h.refuses hab) (h.binding hab) (fun id => h.name hab) hparts
      (fun fresh _ _ => h.assemble fresh hab) outer outer').bind fun text text' htext => ?_
    cases htext with
    | none => exact .throw (h.failure hab)
    | some htext => exact .pure htext

/-- The text of a task is the text of its tree, rendered in an empty module. -/
theorem render_eq (task : Task) (config : Config) : renderer.render task config =
    ((task.tree.render (rule config.annotates)).run.run
      (renderer.create task config)).1 := by
  have hannotate : (renderer.create task config).annotate = config.annotates := rfl
  rw [Renderer.render, Renderer.build, Renderer.present, Walk.run_bind, run_fragment, hannotate]
  rcases (task.tree.render (rule config.annotates)).run.run (renderer.create task config) with
    ⟨_ | text, s⟩ <;> rfl

/-- The texts of tasks with similar trees are related, or both tasks fail. -/
theorem paired_render {E : Unimplemented → Unimplemented → Prop} {R : String → String → Prop}
    {Q : Bool → Tree → Tree → Prop} {task task' : Task} {config config' : Config}
    (h : Similar config.annotates config'.annotates E R Q) (htree : Q true task.tree task'.tree) :
    Paired E R (renderer.render task config) (renderer.render task' config') := by
  have hlevel : Level true [] [] (renderer.create task config) (renderer.create task' config') :=
    ⟨[], [], rfl, rfl, fun _ => rfl⟩
  rw [render_eq, render_eq]
  exact (lockstep_render h htree [] [] _ _ hlevel).1

end Rendition.Physl
