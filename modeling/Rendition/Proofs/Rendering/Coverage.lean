import Rendition.Proofs.Rendering.Display

/-!
# Renditions of all trees

Renditions as Python and as s-expressions have something to say about every node, whatever stands
below it: about statements where expressions belong, suites without statements, comparisons with
too many operands and whole source texts inside others. So no tree is without a rendition, neither
the tree of a task nor one that a session comes upon later. PhySL is not like that.

## Theorems

* `Steady.answer_after`: A rendition without effects has an answer to every step of a session.
* `build_covers`: Every task has a rendition as Python and one as an s-expression.
-/

namespace Rendition

variable {σ φ : Type}

/-- A rendition without effects has an answer to every step, whatever steps came before. -/
theorem Renderer.Steady.answer_after {renderer : Renderer σ φ} {P : σ → Prop} {value : Tree → φ}
    (h : renderer.Steady P value) (hkeep : ∀ fragment s, P s → P (renderer.keep fragment s))
    {s : σ} (hs : P s) (steps : List Step) (step : Step) :
    (renderer.answer step (renderer.after steps s)).1 = .ok (renderer.steadyReply value step) := by
  have hsettings : ∀ tree, Keeps P (renderer.fragment tree) := fun tree s hs => by rwa [h tree s hs]
  exact h.answer step (renderer.after_invariant hsettings hkeep steps s hs)

/-- Every task has a rendition as Python and one as an s-expression, whatever its tree and whatever
    the settings. The sessions that it begins answer every step: each tree that they are told to
    render has a fragment, and no node is left without a rule. -/
theorem build_covers (task : Task) (config : Config) :
    (∃ s, Python.renderer.build task config = .ok s ∧
      s.output = (Python.wording s.indent task.tree).text ∧
      ∀ steps step, (Python.renderer.answer step (Python.renderer.after steps s)).1 =
        .ok (Python.renderer.steadyReply (fun tree => (Python.wording s.indent tree).text) step)) ∧
    ∃ s, Sexpr.renderer.build task config = .ok s ∧
      s.output = Sexpr.value task.tree ∧
      ∀ steps step, (Sexpr.renderer.answer step (Sexpr.renderer.after steps s)).1 =
        .ok (Sexpr.renderer.steadyReply Sexpr.value step) := by
  refine ⟨⟨_, Python.build_text task config, rfl, fun steps step => ?_⟩,
    ⟨_, Sexpr.build_value task config, rfl, fun steps step => ?_⟩⟩
  · exact (Python.steady _).answer_after (fun _ _ h => h) rfl steps step
  · exact (Sexpr.steady config.isPretty).answer_after (fun _ _ h => h) rfl steps step

end Rendition
