import Rendition.Config
import Rendition.Task

/-!
# Rendering rules

A rendition is given by a rule for one node. The rule sees the node and everything below it, and
at each node below the computation that renders it; it decides which of these to run and in
which order. Where the rule has nothing to say, the rendition of the whole tree
fails and names the node.

## Main definitions

* `Unimplemented`: The failure of a rendition, with the node that has no rule.
* `Visit`: A tree with the computation that renders it at each node.
* `Rule`: What a node is rendered as.
* `Tree.render`: The rendition of a tree by a rule.
* `Walk`: Computations with a state that survives failures.
* `Renderer`: A rule with a state, and the text that the state shows.

## Theorems

* `runAll_cons`, `runAll_append`: Lists of children are rendered from left to right.
* `runAll_bind_congr`: Only lists of the right length come out of a list of children.
* `visit_mk`, `render_mk`: One step of a rendition.
-/

namespace Rendition

/-- A rendition met a node for which it has no rule. -/
structure Unimplemented where
  kind : NodeKind
  span : Span
  deriving DecidableEq

namespace Unimplemented

/-- The wording of the failure. -/
def message (e : Unimplemented) : String :=
  "transformation rule for " ++ e.kind.text ++ " at " ++ e.span.text ++ " is not implemented"

end Unimplemented

/-- A tree each node of which carries the computation that renders it. -/
inductive Visit (m : Type → Type) (φ : Type) where
  | mk (span : Span) (node : Node (Visit m φ)) (run : m φ)

variable {m : Type → Type} {φ σ : Type}

namespace Visit

/-- Where the tree starts. -/
def span : Visit m φ → Span
  | mk span _ _ => span

/-- The node at the root. -/
def node : Visit m φ → Node (Visit m φ)
  | mk _ node _ => node

/-- The computation that renders the tree. -/
def run : Visit m φ → m φ
  | mk _ _ run => run

end Visit

/-- What a node at a place is rendered as, if there is a rule for it. -/
abbrev Rule (m : Type → Type) (φ : Type) :=
  Span → Node (Visit m φ) → m (Option φ)

namespace Rule

/-- The rule that has nothing to say. -/
def empty [Monad m] : Rule m φ :=
  fun _ _ => pure none

/-- The fragment of a node. Having nothing to say is a failure that names the node. -/
def apply [Monad m] [MonadExceptOf Unimplemented m] (rule : Rule m φ) (span : Span)
    (node : Node (Visit m φ)) : m φ := do
  match ← rule span node with
  | some fragment => pure fragment
  | none => throwThe Unimplemented ⟨node.kind, span⟩

theorem apply_eq [Monad m] [MonadExceptOf Unimplemented m] (rule : Rule m φ) (span : Span)
    (node : Node (Visit m φ)) : rule.apply span node = rule span node >>= fun fragment =>
      fragment.elim (throwThe Unimplemented ⟨node.kind, span⟩) pure :=
  bind_congr fun fragment => by cases fragment <;> rfl

end Rule

/-- The results of a list of children, in order. The first failure ends it. -/
def runAll [Monad m] (visits : List (Visit m φ)) : m (List φ) :=
  visits.mapM Visit.run

/-- The result of a child, or the given one where there is no child. -/
def runOr [Monad m] (absent : φ) : Option (Visit m φ) → m φ
  | none => pure absent
  | some visit => visit.run

section RunAll

variable [Monad m] {β : Type}

theorem runAll_nil : runAll ([] : List (Visit m φ)) = pure [] := by
  simp only [runAll, List.mapM_nil]

variable [LawfulMonad m]

theorem runAll_cons (v : Visit m φ) (vs : List (Visit m φ)) :
    runAll (v :: vs) = v.run >>= fun a => runAll vs >>= fun as => pure (a :: as) := by
  simp only [runAll, List.mapM_cons]

theorem runAll_append (vs ws : List (Visit m φ)) :
    runAll (vs ++ ws) = runAll vs >>= fun as => runAll ws >>= fun bs => pure (as ++ bs) := by
  simp only [runAll, List.mapM_append]

/-- Only lists of the right length come out of a list of children. -/
theorem runAll_bind_congr (vs : List (Visit m φ)) : ∀ (f g : List φ → m β),
    (∀ as, as.length = vs.length → f as = g as) → runAll vs >>= f = runAll vs >>= g := by
  induction vs with
  | nil =>
    intro f g h
    simp only [runAll_nil, pure_bind]
    exact h [] rfl
  | cons v rest ih =>
    intro f g h
    simp only [runAll_cons, bind_assoc, pure_bind]
    refine bind_congr fun a => ih _ _ fun as has => h (a :: as) ?_
    simp only [List.length_cons, has]

end RunAll

namespace Tree

variable [Monad m] [MonadExceptOf Unimplemented m] (rule : Rule m φ)

/-- The tree with the computation that renders it at each node. -/
def visit (t : Tree) : Visit m φ :=
  t.fold fun span node => ⟨span, node, rule.apply span node⟩

/-- The rendition of a tree by a rule. -/
def render (t : Tree) : m φ :=
  (t.visit rule).run

theorem visit_mk (span : Span) (node : Node Tree) :
    visit rule (mk span node) =
      ⟨span, node.map (visit rule), rule.apply span (node.map (visit rule))⟩ := by
  rw [visit, fold_mk]
  rfl

theorem render_mk (span : Span) (node : Node Tree) :
    render rule (mk span node) = rule.apply span (node.map (visit rule)) := by
  rw [render, visit_mk]
  rfl

end Tree

/-- Computations over a state that may fail; what was done to the state before a failure stays. -/
abbrev Walk (σ : Type) :=
  ExceptT Unimplemented (StateM σ)

namespace Walk

variable {α β : Type}

theorem run_pure (a : α) (s : σ) : (pure a : Walk σ α).run.run s = (.ok a, s) := rfl

theorem run_throw (e : Unimplemented) (s : σ) :
    (throwThe Unimplemented e : Walk σ α).run.run s = (.error e, s) := rfl

theorem run_get (s : σ) : (get : Walk σ σ).run.run s = (.ok s, s) := rfl

theorem run_modify (f : σ → σ) (s : σ) :
    (modify f : Walk σ PUnit).run.run s = (.ok ⟨⟩, f s) := rfl

theorem run_bind (x : Walk σ α) (f : α → Walk σ β) (s : σ) :
    (x >>= f).run.run s = match x.run.run s with
      | (.ok a, s) => (f a).run.run s
      | (.error e, s) => (.error e, s) := by
  simp only [bind, ExceptT.bind, ExceptT.mk, ExceptT.run, StateT.bind, StateT.run]
  rcases x s with ⟨_ | _, _⟩ <;> rfl

end Walk

/-- A rendition with a state, which shows the text of the last tree rendered in full. -/
structure Renderer (σ φ : Type) where
  /-- The state before anything was rendered. -/
  create : Task → Config → σ
  /-- The fragment that a tree is rendered as. -/
  fragment : Tree → Walk σ φ
  /-- The state that shows the given fragment. -/
  keep : φ → σ → σ
  /-- The text that a state shows. -/
  shown : σ → String
  /-- The text of a fragment on its own. -/
  fragmentText : φ → String

namespace Renderer

/-- Render a tree and show it. A failure keeps what was shown before. -/
def present (renderer : Renderer σ φ) (tree : Tree) : Walk σ Unit := do
  let fragment ← renderer.fragment tree
  modify (renderer.keep fragment)

/-- The state after the tree of a task was rendered. -/
def build (renderer : Renderer σ φ) (task : Task) (config : Config) :
    Except Unimplemented σ :=
  match (renderer.present task.tree).run.run (renderer.create task config) with
  | (.ok (), state) => .ok state
  | (.error e, _) => .error e

/-- The text of a task. -/
def render (renderer : Renderer σ φ) (task : Task) (config : Config) :
    Except Unimplemented String :=
  (renderer.build task config).map renderer.shown

end Renderer

end Rendition
