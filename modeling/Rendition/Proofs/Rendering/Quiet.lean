import Rendition.Rendering.Rule

/-!
# Renditions without effects

Where the computations at the children of a node do nothing but return, running them in order
returns what they return. A rule that has something to say about every node then returns as well,
whatever kind of computation it is run in.

## Theorems

* `mapM_eq_pure`, `runAll_eq_pure`, `runOr_eq_pure`: Children that only return.
* `run_eq_pure`: A tree whose rule only returns.
-/

namespace Rendition

variable {m : Type → Type} [Monad m] [LawfulMonad m] {α β γ φ : Type}

theorem mapM_eq_pure {as : List α} {f : α → β} {g : β → m γ} {value : α → γ}
    (h : ∀ a ∈ as, g (f a) = pure (value a)) : (as.map f).mapM g = pure (as.map value) := by
  induction as with
  | nil => rw [List.map_nil, List.mapM_nil, List.map_nil]
  | cons a rest ih =>
    rw [List.map_cons, List.mapM_cons, h a List.mem_cons_self, pure_bind,
      ih fun b hb => h b (List.mem_cons_of_mem a hb), pure_bind, List.map_cons]

theorem runAll_eq_pure {as : List α} {V : α → Visit m φ} {value : α → φ}
    (h : ∀ a ∈ as, (V a).run = pure (value a)) : runAll (as.map V) = pure (as.map value) :=
  mapM_eq_pure h

omit [LawfulMonad m] in
theorem runOr_eq_pure {a : Option α} {V : α → Visit m φ} {value : α → φ} (absent : φ)
    (h : ∀ x ∈ a, (V x).run = pure (value x)) :
    runOr absent (a.map V) = pure ((a.map value).getD absent) := by
  rcases a with _ | x
  · rfl
  · exact h x rfl

variable [MonadExceptOf Unimplemented m]

/-- A tree is rendered as what the rule returns for its root. -/
theorem run_eq_pure {rule : Rule m φ} {span : Span} {node : Node Tree} {value : φ}
    (h : rule span (node.map (Tree.visit rule)) = pure (some value)) :
    (Tree.visit rule (.mk span node)).run = pure value := by
  rw [Tree.visit_mk]
  simp only [Visit.run, Rule.apply_eq, h, pure_bind, Option.elim]

end Rendition
