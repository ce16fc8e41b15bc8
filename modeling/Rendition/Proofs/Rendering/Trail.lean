import Rendition.Proofs.Rendering.Observed
import Rendition.Proofs.Tree.Grammatical
import Rendition.Proofs.Tree.Preorder
import Rendition.Proofs.Tree.Suites

/-!
# The way of a rendition through a tree

A rule decides at which of the nodes below a node it runs the rendition, and when. To follow it, the
position of a node is noted before the node is rendered. The notes stand beside the state, so the
rule knows nothing of them, and together they are the way that the rendition takes.

## Main definitions

* `entering`: Note a position, then run a computation.
* `Tree.trail`: The rendition of a tree that notes the way it takes.
* `passing`: Note several positions.

## Theorems

* `passing_bind`: Notes of two parts of the way are notes of both.
* `mapM_eq_passing`, `runAll_eq_passing`, `runOr_eq_passing`: The way through lists of children.
* `trail_eq_passing`: If a rule passes through the children of every node in order, then the
  rendition of a tree takes the way through all of its positions.
-/

namespace Rendition

variable {σ φ α β γ : Type}

/-- Note a position, then run a computation. -/
def entering (path : Position) (x : Walk (σ × List Position) φ) : Walk (σ × List Position) φ := do
  modify fun s => (s.1, s.2 ++ [path])
  x

/-- The rendition of a tree that notes the way it takes. -/
def Tree.trail (rule : Rule (Walk (σ × List Position)) φ) (t : Tree) : Walk (σ × List Position) φ :=
  (t.visitAt rule entering []).run

/-- Note several positions. -/
def passing (paths : List Position) : Walk (σ × List Position) PUnit :=
  modify fun s => (s.1, s.2 ++ paths)

theorem entering_eq (path : Position) (x : Walk (σ × List Position) φ) :
    entering path x = passing [path] >>= fun _ => x := rfl

theorem passing_nil : (passing [] : Walk (σ × List Position) PUnit) = pure ⟨⟩ := by
  funext s
  simp only [passing, List.append_nil]
  rfl

/-- Notes of two parts of the way are notes of both. -/
theorem passing_bind (paths paths' : List Position)
    (k : PUnit → Walk (σ × List Position) α) :
    (passing paths >>= fun _ => passing paths' >>= k) = passing (paths ++ paths') >>= k := by
  funext s
  simp only [passing, bind, ExceptT.bind, ExceptT.mk, StateT.bind, modify, modifyGet,
    MonadStateOf.modifyGet, monadLift, MonadLift.monadLift, ExceptT.lift, StateT.modifyGet,
    Functor.map, StateT.map, pure, ExceptT.bindCont, ← List.append_assoc]

theorem run_passing_pure (paths : List Position) (a : α) (s : σ) (walked : List Position) :
    (passing paths >>= fun _ => pure a).run.run (s, walked) = (.ok a, (s, walked ++ paths)) := rfl

section Children

variable {V : α → Visit (Walk (σ × List Position)) φ} {way : α → List Position} {value : α → φ}

theorem mapM_eq_passing {as : List α} {f : α → β} {g : β → Walk (σ × List Position) γ}
    {way : α → List Position} {value : α → γ}
    (h : ∀ a ∈ as, g (f a) = passing (way a) >>= fun _ => pure (value a)) :
    (as.map f).mapM g = passing (as.flatMap way) >>= fun _ => pure (as.map value) := by
  induction as with
  | nil => rw [List.map_nil, List.mapM_nil, List.flatMap_nil, passing_nil, pure_bind, List.map_nil]
  | cons a rest ih =>
    rw [List.map_cons, List.mapM_cons, h a List.mem_cons_self,
      ih fun b hb => h b (List.mem_cons_of_mem a hb)]
    simp only [bind_assoc, pure_bind, passing_bind, List.flatMap_cons, List.map_cons]

theorem runAll_eq_passing {as : List α}
    (h : ∀ a ∈ as, (V a).run = passing (way a) >>= fun _ => pure (value a)) :
    runAll (as.map V) = passing (as.flatMap way) >>= fun _ => pure (as.map value) :=
  mapM_eq_passing h

theorem runOr_eq_passing {a : Option α} (absent : φ)
    (h : ∀ x ∈ a, (V x).run = passing (way x) >>= fun _ => pure (value x)) :
    runOr absent (a.map V) = passing (a.toList.flatMap way) >>= fun _ =>
      pure ((a.map value).getD absent) := by
  rcases a with _ | x
  · rw [Option.toList_none, List.flatMap_nil, passing_nil, pure_bind]
    rfl
  · rw [Option.toList_some, List.flatMap_singleton]
    exact h x rfl

end Children

/-- If a rule passes through the children of every node in order, then the rendition of a tree takes
    the way through all of its positions. -/
theorem Tree.trail_eq_passing {rule : Rule (Walk (σ × List Position)) φ} {value : Tree → φ}
    {t : Tree} (h : ∀ d ∈ t.descendants, ∀ (V : Nat × Tree → Visit (Walk (σ × List Position)) φ)
        (way : Nat × Tree → List Position),
      (∀ pair ∈ d.node.numbered.toList,
        (V pair).run = passing (way pair) >>= fun _ => pure (value pair.2)) →
      rule d.span (d.node.numbered.map V) =
        passing (d.node.numbered.toList.flatMap way) >>= fun _ => pure (some (value d))) :
    t.trail rule = passing t.positions >>= fun _ => pure (value t) := by
  -- The induction is on the tree, for all positions that it may stand at.
  suffices hall : ∀ path, (t.visitAt rule entering path).run =
      passing (t.positions.map (path ++ ·)) >>= fun _ => pure (value t) by
    simpa only [trail, List.nil_append, List.map_id'] using hall []
  induction t using inductionOn with
  | step span node ih =>
    intro path
    have hrule := h _ (mem_descendants_self _)
      (fun pair => visitAt rule entering pair.2 (path ++ [pair.1]))
      (fun pair => pair.2.positions.map (path ++ [pair.1] ++ ·)) fun pair hpair => by
        have hmem : pair.2 ∈ node.toList := List.mem_of_getElem? (Node.mem_numbered hpair)
        exact ih pair.2 hmem (fun d hd => h d (mem_descendants_of_child hmem hd)) (path ++ [pair.1])
    have hway : node.numbered.toList.flatMap
        (fun pair => pair.2.positions.map (path ++ [pair.1] ++ ·)) =
        ((node.toList.mapIdx fun i child => child.positions.map (i :: ·)).flatten).map
          (path ++ ·) := by
      rw [Node.numbered, Node.toList_mapIdx, List.flatMap_def, list_map_mapIdx, List.map_flatten,
        list_map_mapIdx]
      simp only [List.map_map, Function.comp_def, List.append_assoc, List.singleton_append]
    simp only [node_mk, span_mk] at hrule
    rw [visitAt_run, Node.mapIdx_eq_numbered, entering_eq, Rule.apply_eq, hrule, hway, positions_mk]
    simp only [bind_assoc, pure_bind, Option.elim, passing_bind, List.map_cons, List.append_nil,
      List.singleton_append]

end Rendition
