import Rendition.Proofs.Rendering.Quiet
import Rendition.Proofs.Tree.Replaced
import Rendition.Rendering.Sexpr

/-!
# The value of a tree

The rendition as an s-expression has something to say about every node, and does nothing on the
way. So every tree has a value, which is computed from the values of the children of each node.

## Main definitions

* `Sexpr.assemble`: The value of a node, from the values of its children.
* `Sexpr.value`: The value of a tree.

## Theorems

* `run_value`: The rendition of a tree returns its value.
* `value_erase`: The value does not depend on places.
* `build_value`, `render_value`: A task is rendered as the value of its tree.
-/

namespace Rendition.Sexpr

/-- A value that may be absent. -/
def optional (value : Option Json) : Json :=
  value.getD .null

/-- The value of a node, from the values of its children. -/
def assemble : Node Json → Json
  | .moduleDef body => form "module" body
  | .functionDef name params body =>
    form "std.fn" [.string name, Json.ofStrings params, .array body]
  | .returnStmt value => form "return" [optional value]
  | .assign target value => form "set" [target, value]
  | .augAssign target op value => form "set" [target, form (operatorHead op) [target, value]]
  | .exprStmt value => value
  | .ifStmt test body orelse => form "if" [test, .array body, .array orelse]
  | .whileLoop test body => form "while" [test, .array body]
  | .forLoop target iter body => form "for" [target, iter, .array body]
  | .passStmt => form "pass" []
  | .breakStmt => form "break" []
  | .continueStmt => form "continue" []
  | .tryStmt body handlers finalbody =>
    form "try" [.array body, .array (handlers.map fun handler => form "except"
      [optional handler.exception, Json.ofString? handler.name, .array handler.body]),
      .array finalbody]
  | .withStmt items body =>
    form "with" [.array (items.map fun item =>
      Json.array [item.context, Json.ofString? item.asName]), .array body]
  | .raiseStmt exception => form "raise" [optional exception]
  | .classDef name bases body => form "class" [.string name, .array bases, .array body]
  | .importStmt source names =>
    form "import" [Json.ofString? source, .array (names.map fun name =>
      Json.array [.string name.name, Json.ofString? name.asName])]
  | .ident id => form "var" [.string id]
  | .constant value => constantValue value
  | .binOp left op right => form (operatorHead op) [left, right]
  | .unaryOp op operand => form (unaryHead op) [operand]
  | .compare left ops comparators => form "compare" (left :: links ops comparators)
  | .boolOp op values => form (connectiveHead op) values
  | .call func args keywords => form "call" [func, .array args,
      Json.ofMembers (keywords.map fun keyword => (keyword.name, keyword.value))]
  | .attr value name => form "attr" [value, .string name]
  | .subscript value index => form "index" [value, index]
  | .slice lower upper step => form "slice" [optional lower, optional upper, optional step]
  | .list items => form "list" items
  | .tuple items => form "tuple" items
  | .dict entries => form "dict" (entries.map fun entry => Json.array [entry.1, entry.2])
  | .ifExp test body orelse => form "if" [test, body, orelse]
  | .lambda params body => form "lambda" [Json.ofStrings params, body]

/-- The value of a tree. -/
def value (t : Tree) : Json :=
  t.fold fun _ => assemble

theorem value_mk (span : Span) (node : Node Tree) :
    value (.mk span node) = assemble (node.map value) := by
  rw [value, Tree.fold_mk]
  rfl

/-- The value does not depend on places. -/
theorem value_erase (t : Tree) : value t.erase = value t := by
  refine Tree.fold_erase assemble (fun g node => ?_) t
  cases node with
  | tryStmt body handlers finalbody =>
    simp only [assemble, Node.mapSpans, List.map_map]
    rfl
  | _ => rfl

/-- An operand without a comparison before it does not count. -/
theorem links_take (ops : List Comparison) (operands : List Json) :
    links ops (operands.take ops.length) = links ops operands := by
  induction ops generalizing operands with
  | nil => rfl
  | cons op ops ih =>
    rcases operands with _ | ⟨operand, operands⟩
    · rfl
    · simp only [List.length_cons, List.take_succ_cons, links, ih]

section Run

variable {m : Type → Type} [Monad m] [LawfulMonad m]

/-- The rule returns the value of a node if the computations at its children return theirs. -/
theorem rule_eq_pure {α : Type} {V : α → Visit m Json} {value : α → Json} (span : Span)
    (node : Node α) (h : ∀ a ∈ node.toList, (V a).run = pure (value a)) :
    rule span (node.map V) = pure (some (assemble (node.map value))) := by
  have hall : ∀ as : List α, (∀ a ∈ as, (V a).run = pure (value a)) →
      runAll (as.map V) = pure (as.map value) := fun as => runAll_eq_pure
  have hor : ∀ a : Option α, (∀ x ∈ a, (V x).run = pure (value x)) →
      runOr Json.null (a.map V) = pure (optional (a.map value)) := fun a => runOr_eq_pure Json.null
  cases node with
  | tryStmt body handlers finalbody =>
    simp only [Node.toList, List.mem_append, List.mem_flatMap, or_imp, forall_and] at h
    obtain ⟨⟨hbody, hhandlers⟩, hfinal⟩ := h
    have hclauses : (handlers.map (Handler.map V)).mapM (fun handler => do
        let exception ← runOr Json.null handler.exception
        return form "except" [exception, Json.ofString? handler.name,
          ← Json.array <$> runAll handler.body]) =
        (pure (handlers.map fun handler => form "except" [optional (handler.exception.map value),
          Json.ofString? handler.name, .array (handler.body.map value)]) : m (List Json)) := by
      refine mapM_eq_pure fun handler hmem => ?_
      have hexception := hor handler.exception fun x hx =>
        hhandlers x ⟨handler, hmem, List.mem_append_left _ (Option.mem_toList.mpr hx)⟩
      have hsuite := hall handler.body fun x hx =>
        hhandlers x ⟨handler, hmem, List.mem_append_right _ hx⟩
      simp only [Handler.map, hexception, hsuite, map_pure, pure_bind]
    simp only [rule, assemble, Node.map, hall body hbody, hall finalbody hfinal, hclauses,
      map_pure, pure_bind, List.map_map]
    rfl
  | withStmt items body =>
    simp only [Node.toList, List.mem_append, List.mem_map, or_imp, forall_and] at h
    obtain ⟨hitems, hbody⟩ := h
    have hcontexts : (items.map (WithItem.map V)).mapM (fun item => do
        return Json.array [← item.context.run, Json.ofString? item.asName]) =
        (pure (items.map fun item => Json.array [value item.context,
          Json.ofString? item.asName]) : m (List Json)) := by
      refine mapM_eq_pure fun item hmem => ?_
      simp only [WithItem.map, hitems item.context ⟨item, hmem, rfl⟩, pure_bind]
    simp only [rule, assemble, Node.map, hall body hbody, hcontexts, map_pure, pure_bind,
      List.map_map]
    rfl
  | call func args keywords =>
    simp only [Node.toList, List.mem_cons, List.mem_append, List.mem_map, or_imp, forall_and,
      forall_eq] at h
    obtain ⟨hfunc, hargs, hkeywords⟩ := h
    have hvalues : (keywords.map (Keyword.map V)).mapM (fun keyword => do
        return (keyword.name, ← keyword.value.run)) =
        (pure (keywords.map fun keyword => (keyword.name, value keyword.value)) :
          m (List (String × Json))) := by
      refine mapM_eq_pure fun keyword hmem => ?_
      simp only [Keyword.map, hkeywords keyword.value ⟨keyword, hmem, rfl⟩, pure_bind]
    simp only [rule, assemble, Node.map, hfunc, hall args hargs, hvalues, map_pure, pure_bind,
      List.map_map]
    rfl
  | dict entries =>
    have hpairs : (entries.map fun entry => (V entry.1, V entry.2)).mapM (fun entry => do
        let key ← entry.1.run
        return Json.array [key, ← entry.2.run]) =
        (pure (entries.map fun entry => Json.array [value entry.1, value entry.2]) :
          m (List Json)) := by
      refine mapM_eq_pure fun entry hmem => ?_
      have hkey := h entry.1 (List.mem_flatMap.mpr ⟨entry, hmem, List.mem_cons_self⟩)
      have hvalue := h entry.2 (List.mem_flatMap.mpr
        ⟨entry, hmem, List.mem_cons_of_mem _ List.mem_cons_self⟩)
      simp only [hkey, hvalue, pure_bind]
    simp only [rule, assemble, Node.map, hpairs, pure_bind, List.map_map]
    rfl
  | compare left ops comparators =>
    simp only [Node.toList, List.mem_cons, or_imp, forall_and, forall_eq] at h
    -- Operands beyond the comparisons are not even rendered.
    have htake := hall (comparators.take ops.length) fun x hx => h.2 x (List.mem_of_mem_take hx)
    simp only [rule, assemble, Node.map, h.1, ← List.map_take, htake, pure_bind]
    rw [List.map_take, links_take]
  | _ =>
    -- The children of the other nodes come one by one, as lists, or as values that may be absent.
    simp only [Node.toList, List.mem_cons, List.mem_append, List.not_mem_nil, Option.mem_toList,
      or_imp, forall_and, or_false, forall_eq] at h
    simp +contextual [rule, assemble, Node.map, h, hall, hor]

variable [MonadExceptOf Unimplemented m]

/-- The rendition of a tree returns its value. -/
theorem run_value (t : Tree) : (t.render rule : m Json) = pure (value t) := by
  induction t using Tree.inductionOn with
  | step span node ih =>
    rw [Tree.render, run_eq_pure (rule_eq_pure span node ih), value_mk]

end Run

/-- The state after a task holds the value of its tree. -/
theorem build_value (task : Task) (config : Config) : renderer.build task config =
    .ok ⟨config.isPretty, value task.tree⟩ := by
  have hfragment : renderer.fragment task.tree = pure (value task.tree) := run_value task.tree
  rw [Renderer.build, Renderer.present, hfragment]
  rfl

/-- A task is rendered as the written value of its tree. -/
theorem render_value (task : Task) (config : Config) : renderer.render task config =
    .ok (State.text ⟨config.isPretty, value task.tree⟩) := by
  rw [Renderer.render, build_value]
  rfl

end Rendition.Sexpr
