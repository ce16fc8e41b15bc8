import Rendition.Rendering.Rule

/-!
# Outlines

A rendition with rules for a few kinds only. It lists the functions of a tree with their places
and the integers that their statements consist of, and fails at everything else, so it shows what
happens to nodes without a rule.

## Main definitions

* `Outline.rule`: The rules for the few kinds.
* `Outline.renderer`: The rendition, which also shows what it was created from.
-/

namespace Rendition.Outline

/-- What each node of an outline is rendered as. -/
def rule {m : Type → Type} [Monad m] : Rule m String := fun span node => do
  match node with
  | .moduleDef body => return some ("|".intercalate (← runAll body))
  | .functionDef name _ body =>
    return some (name ++ "@" ++ span.text ++ "[" ++ ";".intercalate (← runAll body) ++ "]")
  | .returnStmt (some value) => return some (← value.run)
  | .exprStmt value => return some (← value.run)
  | .constant (.int value) => return some (toString value)
  | _ => return none

/-- The state of an outline. -/
structure State where
  /-- The name of the function, the kind of the root and the width of a level, in front of the
      text. -/
  heading : String
  /-- The text of the last tree rendered in full. -/
  output : String

/-- The rendition, which shows what it was created from in front of its text. -/
def renderer : Renderer State String where
  create task config :=
    ⟨task.function.name ++ "/" ++ task.tree.kind.text ++ "/" ++ toString config.width ++ ":", ""⟩
  fragment tree := tree.render rule
  keep text state := { state with output := text }
  shown state := state.heading ++ state.output
  fragmentText := id

end Rendition.Outline
