import Rendition.Proofs.Physl.Scopes

/-!
# The observer beside the rendition

A rendition whose state holds more than another's, and which an observer tells of its fragments, is
the other rendition as long as the observer keeps to the additional part of the state. This is what
makes it possible to speak of the fragments inside a tree: they are noted in a log beside the state
of the rendition, which is not touched.

## Main definitions

* `Physl.Mirrors`: Whether a computation is another one on a part of its state.
* `Physl.logging`: The observer that writes a log beside the state.

## Theorems

* `mirrors_script`: A script mirrors the same script on a part of its state.
* `mirrors_observe`: An observed rendition mirrors the rendition.
-/

namespace Rendition.Physl

variable {σ τ α β : Type}

section Mirrors

variable (forget : τ → σ)

/-- A computation is another one on a part of its state. -/
def Mirrors (x : Walk τ α) (y : Walk σ α) : Prop :=
  ∀ s, y.run.run (forget s) = ((x.run.run s).1, forget (x.run.run s).2)

variable {forget}

theorem Mirrors.pure (a : α) : Mirrors forget (pure a) (pure a) :=
  fun _ => rfl

theorem Mirrors.throw (e : Unimplemented) : Mirrors forget
    (throwThe Unimplemented e : Walk τ α) (throwThe Unimplemented e) :=
  fun _ => rfl

theorem Mirrors.bind {x : Walk τ α} {y : Walk σ α} {f : α → Walk τ β} {g : α → Walk σ β}
    (h : Mirrors forget x y) (hf : ∀ a, Mirrors forget (f a) (g a)) :
    Mirrors forget (x >>= f) (y >>= g) := by
  intro s
  rw [Walk.run_bind, Walk.run_bind, h s]
  rcases x.run.run s with ⟨e | a, s'⟩
  · rfl
  · exact hf a s'

theorem Mirrors.all {V : Position × Tree → Visit (Walk τ) String}
    {W : Position × Tree → Visit (Walk σ) String} : ∀ (ps : List (Position × Tree)),
      (∀ part ∈ ps, Mirrors forget (V part).run (W part).run) →
        Mirrors forget (runAll (ps.map V)) (runAll (ps.map W)) := by
  intro ps
  induction ps with
  | nil =>
    intro _
    rw [List.map_nil, List.map_nil, runAll_nil, runAll_nil]
    exact .pure []
  | cons part rest ih =>
    intro h
    rw [List.map_cons, List.map_cons, runAll_cons, runAll_cons]
    refine (h part List.mem_cons_self).bind fun text => ?_
    exact (ih fun part hpart => h part (List.mem_cons_of_mem _ hpart)).bind fun texts => .pure _

variable [Scoping σ] [Scoping τ] (hforget : ∀ a s, forget (setScopes a s) = setScopes a (forget s))

include hforget

theorem scopes_forget (s : τ) : scopes (forget s) = scopes s := by
  have h := hforget (scopes s) s
  rw [Scoping.setScopes_scopes] at h
  rw [h, Scoping.scopes_setScopes]

theorem forget_changeScopes (change : Scopes → Scopes) (s : τ) :
    forget (changeScopes change s) = changeScopes change (forget s) := by
  rw [changeScopes, changeScopes, hforget, scopes_forget hforget]

theorem Mirrors.declare (name : String) :
    Mirrors forget (declare name : Walk τ Bool) (declare name) := by
  intro s
  rw [run_declare, run_declare, scopes_forget hforget]
  rcases scopes s with _ | ⟨scope, outer⟩
  · rfl
  · simp only
    split
    · rfl
    · rw [hforget]

theorem Mirrors.andThen {x : Walk τ α} {y : Walk σ α} (change : Scopes → Scopes)
    (h : Mirrors forget x y) : Mirrors forget (andThen x change) (andThen y change) := by
  intro s
  rw [run_andThen, run_andThen, h s, forget_changeScopes hforget]

theorem Mirrors.inScope {x : Walk τ α} {y : Walk σ α} (params : List String)
    (h : Mirrors forget x y) : Mirrors forget (inScope params x) (inScope params y) := by
  intro s
  rw [run_inScope, run_inScope, ← forget_changeScopes hforget, h, forget_changeScopes hforget]

theorem Mirrors.withVariable {x : Walk τ α} {y : Walk σ α} (name : String)
    (h : Mirrors forget x y) : Mirrors forget (withVariable name x) (withVariable name y) :=
  (Mirrors.declare hforget name).bind fun _ => h.andThen hforget _

/-- A script mirrors the same script on a part of its state. -/
theorem mirrors_script {V : Position × Tree → Visit (Walk τ) String}
    {W : Position × Tree → Visit (Walk σ) String} (annotate : Bool) (span : Span)
    {node : Node Tree} (h : ∀ part ∈ parts node, Mirrors forget (V part).run (W part).run) :
    Mirrors forget (script annotate span node ((parts node).map V))
      (script annotate span node ((parts node).map W)) := by
  have hall := Mirrors.all (parts node) h
  simp only [script]
  rcases refuses node with _ | _
  case true => exact .pure none
  simp only [Bool.false_eq_true, if_false]
  rcases hbinding : binding node with _ | ⟨name, params⟩ | params | name | id
  case none => exact hall.bind fun texts => .pure _
  case function =>
    exact (Mirrors.declare hforget name).bind fun _ =>
      (hall.inScope hforget params).bind fun texts => .pure _
  case lambda => exact (hall.inScope hforget params).bind fun texts => .pure _
  case loop =>
    obtain ⟨iter, body, hparts⟩ := parts_of_loop hbinding
    rw [hparts] at h ⊢
    have hbody := Mirrors.all (below [] 2 body) fun part hpart =>
      h part (List.mem_cons_of_mem _ hpart)
    exact (h _ List.mem_cons_self).bind fun text =>
      (hbody.withVariable hforget name).bind fun texts => .pure _
  case name =>
    exact hall.bind fun texts => (Mirrors.declare hforget id).bind fun fresh => .pure _

/-- An observed rendition mirrors the rendition. -/
theorem mirrors_visit {note : Position → String → τ → τ}
    (hnote : ∀ path text s, forget (note path text s) = forget s) (annotate : Bool) (t : Tree) :
    ∀ path, Mirrors forget (t.visitAt (rule annotate) (noting note) path).run
      (t.visitAt (rule annotate) (fun _ x => x) path).run := by
  induction t using partsInduction with
  | step span node ih =>
    intro path
    have hrule := mirrors_script hforget annotate span fun part hpart =>
      ih part hpart (path ++ part.1)
    rw [Tree.visitAt_run, Tree.visitAt_run, Rule.apply_eq, Rule.apply_eq,
      rule_eq_script annotate _ (Tree.visitAt_span _ _) (Tree.visitAt_node _ _),
      rule_eq_script annotate _ (Tree.visitAt_span _ _) (Tree.visitAt_node _ _),
      Node.kind_mapIdx, Node.kind_mapIdx]
    -- What is noted at the end does not show on the part of the state.
    have hnoting : ∀ {x : Walk τ String} {y : Walk σ String}, Mirrors forget x y →
        Mirrors forget (noting note path x) y := by
      intro x y h s
      rw [h s, noting, Walk.run_bind]
      rcases x.run.run s with ⟨e | text, s'⟩
      · rfl
      · simp only [Walk.run_bind, Walk.run_modify, Walk.run_pure, hnote]
    refine hnoting (hrule.bind fun fragment => ?_)
    cases fragment with
    | none => exact .throw _
    | some text => exact .pure text

end Mirrors

/-- The state beside a log. -/
instance [Scoping σ] {τ : Type} : Scoping (σ × τ) where
  scopes s := scopes s.1
  setScopes a s := (setScopes a s.1, s.2)
  scopes_setScopes a s := Scoping.scopes_setScopes a s.1
  setScopes_scopes s := congrArg (·, s.2) (Scoping.setScopes_scopes s.1)
  setScopes_setScopes a b s := congrArg (·, s.2) (Scoping.setScopes_setScopes a b s.1)

/-- The observer that writes a log beside the state. -/
def logging (path : Position) (text : String) (s : σ × Log) : σ × Log :=
  (s.1, s.2 ++ [(path, text)])

theorem logging_setScopes [Scoping σ] (path : Position) (text : String) (a : Scopes)
    (s : σ × Log) : logging path text (setScopes a s) = setScopes a (logging path text s) := rfl

/-- The fragments of a rendition are noted in a log beside its state. -/
theorem run_logged [Scoping σ] (annotate : Bool) (t : Tree) (s : σ) (log : Log) :
    (t.render (rule annotate)).run.run s =
      ((((t.observe (rule annotate) logging).run.run (s, log)).1),
        ((t.observe (rule annotate) logging).run.run (s, log)).2.1) := by
  have hset : ∀ a (s : σ × Log), Prod.fst (setScopes a s) = setScopes a (Prod.fst s) :=
    fun _ _ => rfl
  have hlogging : ∀ path text (s : σ × Log), Prod.fst (logging path text s) = Prod.fst s :=
    fun _ _ _ => rfl
  have h := mirrors_visit hset hlogging annotate t [] (s, log)
  rw [Tree.visitAt_bare] at h
  exact h

end Rendition.Physl
