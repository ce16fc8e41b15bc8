import Rendition.Rendering.Rule

/-!
# Sessions

A renderer that was built for a task can go on to work: it gives fragments for further trees, and
shows another tree if it is told to. A step that fails leaves behind what it did to the state.

## Main definitions

* `Step`: What a renderer can be told to do.
* `Reply`: What it answers.
* `Renderer.steps`: The answers to a sequence of steps, each with the text shown afterwards.
-/

namespace Rendition

/-- What a renderer can be told to do. -/
inductive Step where
  /-- Give the fragment of a tree. -/
  | walk (tree : Tree)
  /-- Give the fragments of trees, in order. -/
  | walkAll (trees : List Tree)
  /-- Show a tree. -/
  | present (tree : Tree)

/-- What a renderer answers to a step. -/
inductive Reply where
  | fragment (text : String)
  | fragments (texts : List String)
  | shown
  deriving DecidableEq

namespace Renderer

variable {σ φ : Type} (renderer : Renderer σ φ)

/-- Do one step. -/
def step : Step → Walk σ Reply
  | .walk tree => do
    return .fragment (renderer.fragmentText (← renderer.fragment tree))
  | .walkAll trees => do
    let fragments ← trees.mapM renderer.fragment
    return .fragments (fragments.map renderer.fragmentText)
  | .present tree => do
    renderer.present tree
    return .shown

/-- The answer to a step and the state after it. -/
def answer (step : Step) (state : σ) : Except Unimplemented Reply × σ :=
  (renderer.step step).run.run state

/-- The answers to a sequence of steps, each with the text shown afterwards. -/
def steps : List Step → σ → List (Except Unimplemented Reply × String)
  | [], _ => []
  | step :: rest, state =>
    let (reply, state) := renderer.answer step state
    (reply, renderer.shown state) :: steps rest state

end Renderer

end Rendition
