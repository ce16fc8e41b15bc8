import Rendition.Proofs.Physl.Lockstep
import Rendition.Proofs.Physl.Scopes
import Rendition.Proofs.Rendering.Reached
import Rendition.Source.Read

/-!
# Using a PhySL rendition again

The state of a rendition remembers the names of the module, and whatever was rendered before,
successfully or not, may have added some. A tree that assigns to names inside functions only is
rendered as if nothing had been there: every function begins with its own parameters, and a
definition of a function does not ask whether its name is new. The tree of a task is of this kind.

## Main definitions

* `Physl.assignsName`: Whether a node assigns to a name.
* `Physl.Sheltered`: Whether every assignment to a name lies inside a function.

## Theorems

* `Sheltered.part`: Outside functions, the parts of a sheltered tree are sheltered.
* `similar_sheltered`: Renditions of a sheltered tree agree in all states.
* `scope_after`: The names of a module only grow.
* `exists_scope_after`: There is one function's worth of names after any sequence of steps.
* `walk_reused`: An instance that was used before renders sheltered trees like a fresh one.
-/

namespace Rendition.Physl

/-- Whether a node assigns to a name. -/
def assignsName (node : Node Tree) : Bool :=
  match node with
  | .assign target _ => target.kind = .ident
  | _ => false

/-- Every assignment to a name in a tree lies inside a function of the tree. -/
def Sheltered (t : Tree) : Prop :=
  ∀ path d, t.descend? path = some d → assignsName d.node = true →
    ∃ p q u, path = p ++ q ∧ t.descend? p = some u ∧ u.kind ∈ [.functionDef, .lambda]

theorem assignsName_of_binding {node : Node Tree} {id : String} (h : binding node = .name id) :
    assignsName node = true := by
  obtain ⟨target, value, rfl, hid⟩ := binding_eq_name.mp h
  simp only [assignsName, Tree.kind, hid, Node.kind, decide_true]

theorem opens_iff {node : Node Tree} :
    (binding node).opens = true ↔ node.kind ∈ [.functionDef, .lambda] := by
  cases node with
  | assign target value =>
    rcases target with ⟨tspan, tnode⟩
    cases tnode <;> simp [binding, Binding.opens, Node.kind]
  | forLoop target iter body =>
    rcases target with ⟨tspan, tnode⟩
    cases tnode <;> simp [binding, Binding.opens, Node.kind]
  | _ => simp [binding, Binding.opens, Node.kind]

namespace Sheltered

/-- Outside functions the children of a sheltered tree are sheltered. -/
theorem child {t c : Tree} (h : Sheltered t) (hkind : t.kind ∉ [.functionDef, .lambda]) {i : Nat}
    (hc : t.children[i]? = some c) : Sheltered c := by
  intro path d hd hassigns
  have hdescend : t.descend? (i :: path) = some d := by
    rw [Tree.descend_cons, hc, Option.bind_some, hd]
  obtain ⟨p, q, u, hpath, hu, hfunction⟩ := h _ d hdescend hassigns
  rcases p with _ | ⟨j, p⟩
  · -- The function is not the tree itself.
    obtain rfl := Option.some.inj hu
    exact absurd hfunction hkind
  · obtain ⟨rfl, rfl⟩ := List.cons.inj hpath
    rw [Tree.descend_cons, hc, Option.bind_some] at hu
    exact ⟨p, q, u, rfl, hu, hfunction⟩

/-- What is only looked at is no function. -/
theorem kind_of_isGlance {t : Tree} (h : isGlance t = true) :
    t.kind ∉ [.functionDef, .lambda] := by
  rcases t with ⟨span, node⟩
  cases node with
  | ident | attr | tuple => simp [Tree.kind, Node.kind]
  | _ => cases h

/-- Outside functions the parts of a sheltered tree are sheltered. -/
theorem part {span : Span} {node : Node Tree} (h : Sheltered (.mk span node))
    (hopens : (binding node).opens = false) {part : Position × Tree} (hpart : part ∈ parts node) :
    Sheltered part.2 := by
  have hkind : node.kind ∉ [.functionDef, .lambda] := by
    rw [← opens_iff, hopens]
    exact Bool.false_ne_true
  rcases steps_parts hpart with ⟨i, hi, -⟩ | ⟨i, child, j, hi, hglance, hj, -⟩
  · exact h.child hkind hi
  · exact (h.child hkind hi).child (kind_of_isGlance hglance) hj

/-- A module that holds nothing but the definition of a function is sheltered. -/
theorem definition (span span' : Span) (name : String) (params : List String) (body : List Tree) :
    Sheltered (.mk span (.moduleDef [.mk span' (.functionDef name params body)])) := by
  intro path d hd hassigns
  rcases path with _ | ⟨_ | i, rest⟩
  · obtain rfl := Option.some.inj hd
    cases hassigns
  · exact ⟨[0], rest, _, rfl, rfl, by simp [Tree.kind, Node.kind]⟩
  · cases hd

end Sheltered

/-- Renditions of a sheltered tree agree whatever names are known, and so do renditions of any tree
    where the same names are known. -/
theorem similar_sheltered (annotate : Bool) :
    Similar annotate annotate Eq Eq fun same a b => a = b ∧ (same = true ∨ Sheltered a) where
  refuses h := by rw [h.1]
  binding h := by rw [h.1]
  name := by
    rintro same a _ id ⟨rfl, hsame | hsheltered⟩ hbinding
    · exact hsame
    · obtain ⟨p, q, u, hpath, hu, hfunction⟩ :=
        hsheltered [] a rfl (assignsName_of_binding hbinding)
      -- An assignment is no function itself.
      obtain ⟨rfl, -⟩ := List.append_eq_nil_iff.mp hpath.symm
      obtain rfl := Option.some.inj hu
      rw [Tree.kind, ← opens_iff, hbinding] at hfunction
      cases hfunction
  parts := by
    rintro same ⟨span, node⟩ _ ⟨rfl, h⟩
    refine List.forall₂_same.mpr fun part hpart => ⟨rfl, ?_⟩
    rcases h with hsame | hsheltered
    · exact .inl (by rw [hsame, Bool.true_or])
    · rcases hopens : (binding node).opens with _ | _
      · exact .inr (hsheltered.part hopens hpart)
      · exact .inl (by rw [Tree.node_mk, hopens, Bool.or_true])
  failure h := by rw [h.1]
  assemble := by
    rintro same a _ fresh texts texts' ⟨rfl, -⟩ htexts
    obtain rfl : texts = texts' := by rwa [List.forall₂_eq_eq_eq] at htexts
    rcases assemble annotate fresh a.span texts a.node with _ | text
    · exact .none
    · exact .some rfl

/-! ## Sessions -/

/-- The rendition of a tree changes the names of the innermost function only, and forgets none of
    them. -/
theorem exists_scope_fragment (tree : Tree) {s : State} {scope : List String} {outer : Scopes}
    (h : s.scopes = scope :: outer) :
    ∃ scope', scope ⊆ scope' ∧
      ((renderer.fragment tree).run.run s).2 = { s with scopes := scope' :: outer } := by
  obtain ⟨entries, scope', hstate, hlower, -⟩ := adds_visit silent_setScopes s.annotate tree
    (.top scope) [] s scope outer h (Place.known_top scope).symm
  have hrender : (tree.visitAt (rule s.annotate : Rule (Walk State) String)
      (noting silent) []).run = tree.render (rule s.annotate) := tree.observe_silent _
  rw [Place.known_top] at hlower
  rw [run_fragment, ← hrender, hstate, replay_silent]
  exact ⟨scope', fun name hname => List.mem_toFinset.mp (hlower (List.mem_toFinset.mpr hname)), rfl⟩

/-- Any sequence of steps in a module adds names to those of the module. -/
theorem scope_after (steps : List Step) {s : State} {scope : List String}
    (h : s.scopes = [scope]) : ∃ scope' output, scope ⊆ scope' ∧
      renderer.after steps s = ⟨s.annotate, [scope'], output⟩ := by
  have hfragment : ∀ tree, Keeps (fun t : State => ∃ scope' output, scope ⊆ scope' ∧
      t = ⟨s.annotate, [scope'], output⟩) (renderer.fragment tree) := by
    rintro tree _ ⟨scope', output, hscope', rfl⟩
    obtain ⟨scope'', hscope'', hstate⟩ := exists_scope_fragment tree
      (show (State.mk s.annotate [scope'] output).scopes = [scope'] from rfl)
    exact ⟨scope'', output, fun _ hname => hscope'' (hscope' hname), hstate⟩
  refine renderer.after_invariant hfragment ?_ steps s ⟨scope, s.output, List.Subset.refl _, ?_⟩
  · rintro text _ ⟨scope', output, hscope', rfl⟩
    exact ⟨scope', text, hscope', rfl⟩
  · rw [← h]

/-- After any sequence of steps there is one function's worth of names, those of the module. -/
theorem exists_scope_after (steps : List Step) (task : Task) (config : Config) :
    ∃ scope output, renderer.after steps (renderer.create task config) =
      ⟨config.annotates, [scope], output⟩ := by
  obtain ⟨scope, output, -, hafter⟩ := scope_after steps
    (show (renderer.create task config).scopes = [[]] from rfl)
  exact ⟨scope, output, hafter⟩

/-- The tree of a task is sheltered. -/
theorem sheltered_tasksOf (text : List Char) (statements : List Tree) :
    ∀ task ∈ Source.tasksOf text statements, Sheltered task.tree := by
  induction statements with
  | nil =>
    intro task htask
    cases htask
  | cons statement rest ih =>
    intro task htask
    rcases statement with ⟨span, node⟩
    rw [Source.tasksOf] at htask
    cases node with
    | functionDef name params body =>
      rcases List.mem_cons.mp htask with rfl | htask
      · exact .definition _ _ _ _ _
      · exact ih task htask
    | _ => exact ih task htask

/-- An instance that was used for other trees before, successfully or not, gives the same answer as
    a fresh one for every sheltered tree, and so for the tree of every task. -/
theorem walk_reused {config config' : Config} (hconfig : config.annotates = config'.annotates) :
    (∀ (task task' : Task) (steps : List Step) (tree : Tree), Sheltered tree →
      (renderer.answer (.walk tree) (renderer.after steps (renderer.create task config))).1 =
        (renderer.answer (.walk tree) (renderer.create task' config')).1) ∧
      ∀ text tasks, Source.tasks text = .ok tasks → ∀ task ∈ tasks, Sheltered task.tree := by
  constructor
  · intro task task' steps tree h
    obtain ⟨scope, output, hafter⟩ := exists_scope_after steps task config
    have hlevel : Level false [] [] (State.mk config.annotates [scope] output)
        (renderer.create task' config') := ⟨scope, [], rfl, rfl, Bool.noConfusion⟩
    have hpaired := (lockstep_render (similar_sheltered config.annotates) ⟨rfl, .inr h⟩ [] [] _ _
      hlevel).1.eq
    have hannotate : (renderer.create task' config').annotate = config.annotates := hconfig.symm
    rw [hafter, renderer.answer_walk, renderer.answer_walk, run_fragment, run_fragment, hannotate,
      hpaired]
  · intro text tasks htasks
    rw [Source.tasks] at htasks
    rcases hstatements : Source.readStatements text with e | statements
    · rw [hstatements] at htasks
      cases htasks
    · rw [hstatements] at htasks
      obtain rfl := Except.ok.inj htasks
      exact sheltered_tasksOf text.toList statements

/-- The definition of a function after an assignment in the module and a failure. -/
theorem walk_reused_breakStmt :
    (renderer.answer (.walk (.mk ⟨1, 0⟩ (.moduleDef [.mk ⟨1, 0⟩ (.functionDef "f" [] [
        .mk ⟨2, 4⟩ (.assign (.mk ⟨2, 4⟩ (.ident "x")) (.mk ⟨2, 8⟩ (.constant .none)))])])))
      (renderer.after [.present (.mk ⟨1, 0⟩ (.moduleDef [
        .mk ⟨1, 0⟩ (.assign (.mk ⟨1, 0⟩ (.ident "x")) (.mk ⟨1, 4⟩ (.constant .none))),
        .mk ⟨2, 0⟩ .breakStmt]))]
        (renderer.create ⟨⟨"f", "", 1⟩, .mk ⟨1, 0⟩ .passStmt⟩ {}))).1 =
      .ok (.fragment "define(f, define(x, nil))") := by
  refine ((walk_reused rfl).1 _ ⟨⟨"f", "", 1⟩, .mk ⟨1, 0⟩ .passStmt⟩ _ _
    (.definition _ _ _ _ _)).trans ?_
  rfl

end Rendition.Physl
