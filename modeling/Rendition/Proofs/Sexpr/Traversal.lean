import Rendition.Proofs.Rendering.Trail
import Rendition.Proofs.Sexpr.Value

/-!
# The way through a tree

The rendition as an s-expression runs at every node of a tree, and at none of them twice. The way it
takes is that of the list of descendants: a node, then what is below its children, from the first
child to the last. The one node that can keep it from this is a comparison with more operands than
operators, of which it leaves the last ones out.

## Main definitions

* `Matched`: A comparison has as many operators as it has operands after the first.

## Theorems

* `rule_eq_passing`: The rule passes through the children of a node in order.
* `trail_descendants`: The rendition meets the descendants of a tree, each at its own position.
-/

namespace Rendition.Sexpr

variable {σ α β : Type}

/-- A comparison has as many operators as it has operands after the first. -/
def Matched : Node α → Prop
  | .compare _ ops comparators => ops.length = comparators.length
  | _ => True

instance (node : Node α) : Decidable (Matched node) := by
  cases node <;> unfold Matched <;> infer_instance

theorem matched_mapIdx (f : Nat → α → β) (node : Node α) :
    Matched (node.mapIdx f) ↔ Matched node := by
  cases node with
  | compare left ops comparators => simp only [Matched, Node.mapIdx, List.length_mapIdx]
  | _ => rfl

/-- The rule passes through the children of a node in order. -/
theorem rule_eq_passing {V : α → Visit (Walk (σ × List Position)) Json} {way : α → List Position}
    {value : α → Json} (span : Span) (node : Node α) (hmatched : Matched node)
    (h : ∀ a ∈ node.toList, (V a).run = passing (way a) >>= fun _ => pure (value a)) :
    rule span (node.map V) = passing (node.toList.flatMap way) >>= fun _ =>
      pure (some (assemble (node.map value))) := by
  have hall : ∀ as : List α, (∀ a ∈ as, (V a).run = passing (way a) >>= fun _ => pure (value a)) →
      runAll (as.map V) = passing (as.flatMap way) >>= fun _ => pure (as.map value) :=
    fun as => runAll_eq_passing
  have hor : ∀ a : Option α,
      (∀ x ∈ a, (V x).run = passing (way x) >>= fun _ => pure (value x)) →
      runOr Json.null (a.map V) = passing (a.toList.flatMap way) >>= fun _ =>
        pure (optional (a.map value)) := fun a => runOr_eq_passing Json.null
  cases node with
  | tryStmt body handlers finalbody =>
    simp only [Node.toList, List.mem_append, List.mem_flatMap, or_imp, forall_and] at h
    obtain ⟨⟨hbody, hhandlers⟩, hfinal⟩ := h
    have hclauses : (handlers.map (Handler.map V)).mapM (fun handler => do
        let exception ← runOr Json.null handler.exception
        return form "except" [exception, Json.ofString? handler.name,
          ← Json.array <$> runAll handler.body]) =
        passing (handlers.flatMap fun handler => handler.toList.flatMap way) >>= fun _ =>
          pure (handlers.map fun handler => form "except" [optional (handler.exception.map value),
            Json.ofString? handler.name, .array (handler.body.map value)]) := by
      refine mapM_eq_passing fun handler hmem => ?_
      have hexception := hor handler.exception fun x hx =>
        hhandlers x ⟨handler, hmem, List.mem_append_left _ (Option.mem_toList.mpr hx)⟩
      have hsuite := hall handler.body fun x hx =>
        hhandlers x ⟨handler, hmem, List.mem_append_right _ hx⟩
      simp only [Handler.map, Handler.toList, hexception, hsuite, map_bind, map_pure, bind_assoc,
        pure_bind, passing_bind, List.flatMap_append]
    simp only [rule, assemble, Node.map, Node.toList, hall body hbody, hall finalbody hfinal,
      hclauses, map_bind, map_pure, bind_assoc, pure_bind, passing_bind, List.map_map,
      List.flatMap_append, List.flatMap_assoc, List.append_assoc]
    rfl
  | withStmt items body =>
    simp only [Node.toList, List.mem_append, List.mem_map, or_imp, forall_and] at h
    obtain ⟨hitems, hbody⟩ := h
    have hcontexts : (items.map (WithItem.map V)).mapM (fun item => do
        return Json.array [← item.context.run, Json.ofString? item.asName]) =
        passing (items.flatMap fun item => way item.context) >>= fun _ =>
          pure (items.map fun item => Json.array [value item.context,
            Json.ofString? item.asName]) := by
      refine mapM_eq_passing fun item hmem => ?_
      simp only [WithItem.map, hitems item.context ⟨item, hmem, rfl⟩, bind_assoc, pure_bind]
    simp only [rule, assemble, Node.map, Node.toList, hall body hbody, hcontexts, map_bind,
      map_pure, bind_assoc, pure_bind, passing_bind, List.map_map, List.flatMap_append,
      List.flatMap_map]
    rfl
  | call func args keywords =>
    simp only [Node.toList, List.mem_cons, List.mem_append, List.mem_map, or_imp, forall_and,
      forall_eq] at h
    obtain ⟨hfunc, hargs, hkeywords⟩ := h
    have hvalues : (keywords.map (Keyword.map V)).mapM (fun keyword => do
        return (keyword.name, ← keyword.value.run)) =
        passing (keywords.flatMap fun keyword => way keyword.value) >>= fun _ =>
          pure (keywords.map fun keyword => (keyword.name, value keyword.value)) := by
      refine mapM_eq_passing fun keyword hmem => ?_
      simp only [Keyword.map, hkeywords keyword.value ⟨keyword, hmem, rfl⟩, bind_assoc, pure_bind]
    simp only [rule, assemble, Node.map, Node.toList, hfunc, hall args hargs, hvalues, map_bind,
      map_pure, bind_assoc, pure_bind, passing_bind, List.map_map, List.flatMap_cons,
      List.flatMap_append, List.flatMap_map]
    rfl
  | dict entries =>
    have hpairs : (entries.map fun entry => (V entry.1, V entry.2)).mapM (fun entry => do
        let key ← entry.1.run
        return Json.array [key, ← entry.2.run]) =
        passing (entries.flatMap fun entry => [entry.1, entry.2].flatMap way) >>= fun _ =>
          pure (entries.map fun entry => Json.array [value entry.1, value entry.2]) := by
      refine mapM_eq_passing fun entry hmem => ?_
      have hkey := h entry.1 (List.mem_flatMap.mpr ⟨entry, hmem, List.mem_cons_self⟩)
      have hvalue := h entry.2 (List.mem_flatMap.mpr
        ⟨entry, hmem, List.mem_cons_of_mem _ List.mem_cons_self⟩)
      simp only [hkey, hvalue, bind_assoc, pure_bind, passing_bind, List.flatMap_cons,
        List.flatMap_nil, List.append_nil]
    simp only [rule, assemble, Node.map, Node.toList, hpairs, bind_assoc, pure_bind, List.map_map,
      List.flatMap_assoc]
    rfl
  | compare left ops comparators =>
    simp only [Node.toList, List.mem_cons, or_imp, forall_and, forall_eq] at h
    -- With as many operators as operands none of the operands is left out.
    have hops : ops.length = (comparators.map V).length := by rw [List.length_map, hmatched]
    simp only [rule, assemble, Node.map, Node.toList, hops, List.take_length, h.1,
      hall comparators h.2, bind_assoc, pure_bind, passing_bind, List.flatMap_cons]
  | _ =>
    -- The children of the other nodes come one by one, as lists, or as values that may be absent.
    simp only [Node.toList, List.mem_cons, List.mem_append, List.not_mem_nil, Option.mem_toList,
      or_imp, forall_and, or_false, forall_eq] at h
    simp +contextual [-bind_pure_comp, rule, assemble, Node.map, Node.toList, h, hall, hor,
      passing_bind, passing_nil, List.flatMap_append]

/-- The rendition takes the way through all positions of a tree. -/
theorem trail_eq_passing (t : Tree) (h : ∀ d ∈ t.descendants, Matched d.node) :
    (t.trail rule : Walk (σ × List Position) Json) =
      passing t.positions >>= fun _ => pure (value t) :=
  Tree.trail_eq_passing fun d hd V way hchildren => by
    have hmatched : Matched d.node.numbered := (matched_mapIdx Prod.mk d.node).mpr (h d hd)
    rw [rule_eq_passing d.span d.node.numbered hmatched hchildren, Node.map_numbered]
    rcases d with ⟨span, node⟩
    rw [value_mk]
    rfl

/-- If every comparison has as many operators as operands, the rendition of a tree meets exactly the
    descendants of the tree, in their order and each at its own position. -/
theorem trail_descendants (t : Tree) (h : ∀ d ∈ t.descendants, Matched d.node) (s : State) :
    ∃ walked : List Position,
      (t.trail rule).run.run (s, []) =
        (((renderer.fragment t).run.run s).1, (((renderer.fragment t).run.run s).2, walked)) ∧
      walked.map t.descend? = t.descendants.map some ∧ walked.Nodup := by
  refine ⟨t.positions, ?_, t.map_descend_positions, t.nodup_positions⟩
  have hfragment : renderer.fragment t = pure (value t) := run_value t
  rw [trail_eq_passing t h, run_passing_pure, hfragment, List.nil_append, Walk.run_pure]

/-- In `a < a` the same node is met twice, at two positions. -/
theorem trail_descendants_comparison :
    ∃ t : Tree, t.descendants.length = 4 ∧ (∀ d ∈ t.descendants, Matched d.node) ∧
      ∃ walked : List Position,
        (t.trail rule).run.run (⟨false, .null⟩, []) =
          (((renderer.fragment t).run.run ⟨false, .null⟩).1,
            (((renderer.fragment t).run.run ⟨false, .null⟩).2, walked)) ∧
        walked.map t.descend? = t.descendants.map some ∧ walked.Nodup :=
  let t : Tree := .mk ⟨1, 0⟩ (.exprStmt (.mk ⟨1, 0⟩ (.compare (.mk ⟨1, 0⟩ (.ident "a")) [.lt]
    [.mk ⟨1, 0⟩ (.ident "a")])))
  ⟨t, by decide, by decide, trail_descendants t (by decide) ⟨false, .null⟩⟩

end Rendition.Sexpr
