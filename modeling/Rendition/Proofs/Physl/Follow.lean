import Rendition.Proofs.Physl.Script

/-!
# The rule follows the script

The rule of PhySL is written for computations that stand in a tree of computations, and the script
for a list of them. Both do the same in every tree of computations that has the shape of a syntax
tree, whatever the computations are. So what is to be proved about a rendition is proved about the
script, in which the kinds of nodes no longer differ in what they run.

## Main definitions

* `Physl.Follows`: The rule does at a node what the script says.

## Theorems

* `mapM_keywords`, `mapM_entries`: Keyword arguments and entries of dictionaries are lists of
  children, too.
* `callee_eq`: What a call applies is known before its object is rendered.
* `rule_eq_script`: The rule follows the script.
-/

namespace Rendition.Physl

variable {σ : Type} [Scoping σ]

omit [Scoping σ] in
theorem visits_below (V : Tree → Position → Visit (Walk σ) String) (path rel : Position)
    (start : Nat) (ts : List Tree) :
    ((below rel start ts).map fun part => V part.2 (path ++ part.1)) =
      ts.mapIdx fun i t => V t (path ++ rel ++ [i + start]) := by
  simp only [below, list_map_mapIdx, List.append_assoc]

section Rule
variable (annotate : Bool) (V : Tree → Position → Visit (Walk σ) String)
    (hspan : ∀ t path, (V t path).span = t.span)
    (hnode : ∀ t path, (V t path).node = t.node.mapIdx fun i child => V child (path ++ [i]))
    (path : Position) (span : Span)

/-- The rule follows the script at a node. -/
def Follows (node : Node Tree) : Prop :=
  rule annotate span (node.mapIdx fun i child => V child (path ++ [i])) =
      script annotate span node ((parts node).map fun part => V part.2 (path ++ part.1))

attribute [local simp] Follows rule script refuses binding parts assemble Node.mapIdx Node.toList
  visits_below runAll_cons runAll_nil

theorem follows_function (name : String) (params : List String) (body : List Tree) :
    Follows annotate V path span (.functionDef name params body) := by
  have hdiscard : ∀ f : Unit → Walk σ (Option String),
      discard (declare name) >>= f = declare name >>= fun _ => f () :=
    fun f => bind_map_left ..
  simp only [Follows, rule, script, refuses, binding, parts, visits_below, Node.mapIdx, Node.toList,
    assemble, hdiscard, List.append_nil, Nat.add_zero, Bool.false_eq_true, if_false]

theorem follows_return (value : Option Tree) :
    Follows annotate V path span (.returnStmt value) := by
  cases value <;> simp [runOr]

include hspan hnode in
theorem follows_assign (target value : Tree) :
    Follows annotate V path span (.assign target value) := by
  rcases target with ⟨tspan, tnode⟩
  cases tnode <;> simp [element, hnode, hspan]

include hnode in
theorem follows_augAssign (target : Tree) (op : Operator) (value : Tree) :
    Follows annotate V path span (.augAssign target op value) := by
  rcases target with ⟨tspan, tnode⟩
  rcases hop : primitive? op with _ | primitive
  · simp [hop]
  cases tnode <;> simp [below, isVariable, hnode, hop]

theorem follows_if (test : Tree) (body orelse : List Tree) :
    Follows annotate V path span (.ifStmt test body orelse) := by
  simp only [Follows, rule, script, refuses, binding, parts, Node.mapIdx, Node.toList, visits_below,
    assemble, runAll_cons, List.mapIdx_cons, List.mapIdx_append, runAll_append, bind_assoc,
    pure_bind, Bool.false_eq_true, if_false, List.append_nil, Nat.add_zero]
  refine bind_congr fun test => runAll_bind_congr _ _ _ fun bodyTexts hbody =>
    runAll_bind_congr _ _ _ fun elseTexts helse => ?_
  have hbody' : bodyTexts.length = body.length := by simpa only [List.length_mapIdx] using hbody
  have helse' : elseTexts.length = orelse.length := by simpa only [List.length_mapIdx] using helse
  have hempty : elseTexts.isEmpty = orelse.isEmpty := by
    rw [Bool.eq_iff_iff, List.isEmpty_iff_length_eq_zero, List.isEmpty_iff_length_eq_zero, helse']
  simp only [hempty, ← hbody', List.take_left, List.drop_left]

include hspan hnode in
theorem follows_for (target iter : Tree) (body : List Tree) :
    Follows annotate V path span (.forLoop target iter body) := by
  rcases target with ⟨tspan, tnode⟩
  cases tnode <;> simp [hnode, hspan]

theorem follows_binOp (left : Tree) (op : Operator) (right : Tree) :
    Follows annotate V path span (.binOp left op right) := by
  rcases hop : primitive? op with _ | primitive <;> simp [below, hop]

theorem follows_unaryOp (op : UnaryOperator) (operand : Tree) :
    Follows annotate V path span (.unaryOp op operand) := by
  cases op <;> simp [below]

theorem follows_compare (left : Tree) (ops : List Comparison) (comparators : List Tree) :
    Follows annotate V path span (.compare left ops comparators) := by
  rcases hops : ops.mapM comparisonPrimitive? with _ | primitives <;> simp [hops]

omit [Scoping σ] in
include hspan in
/-- Keyword arguments are rendered one after another, and each text is put beside its name. -/
theorem mapM_keywords (number : Nat → Nat) (keywords : List (Keyword Tree)) :
    ((keywords.mapIdx fun i k =>
        (⟨k.name, V k.value (path ++ [number i])⟩ : Keyword (Visit (Walk σ) String))).mapM
          fun k => do
          let value ← k.value.run
          return apply annotate "__arg" k.value.span [tag annotate k.name k.value.span, value]) =
      runAll (keywords.mapIdx fun i k => V k.value (path ++ [number i])) >>= fun values =>
        pure (keywordTexts annotate keywords values) := by
  induction keywords generalizing number with
  | nil => simp only [List.mapIdx_nil, List.mapM_nil, runAll_nil, pure_bind, keywordTexts,
      List.zipWith_nil_left]
  | cons k rest ih =>
    have ih := ih fun i => number (i + 1)
    simp only [List.mapIdx_cons, List.mapM_cons, ih, runAll_cons, bind_assoc, pure_bind, hspan,
      keywordTexts, List.zipWith_cons_cons]

omit [Scoping σ] in
/-- The entries of a dictionary are rendered one after another, each key before its value. -/
theorem mapM_entries (entries : List (Visit (Walk σ) String × Visit (Walk σ) String)) :
    (entries.mapM fun entry => do
        let key ← entry.1.run
        return apply annotate "list" span [key, ← entry.2.run]) =
      runAll (entries.flatMap fun entry => [entry.1, entry.2]) >>= fun texts =>
        pure (pairTexts annotate span texts) := by
  induction entries with
  | nil => simp only [List.mapM_nil, List.flatMap_nil, runAll_nil, pure_bind, pairTexts]
  | cons entry rest ih =>
    simp only [List.mapM_cons, ih, List.flatMap_cons, List.cons_append, List.nil_append,
      runAll_cons, bind_assoc, pure_bind, pairTexts]

theorem follows_lambda (params : List String) (body : Tree) :
    Follows annotate V path span (.lambda params body) := by
  simp only [Follows, rule, script, refuses, binding, parts, visits_below, Node.mapIdx, Node.toList,
    List.mapIdx_cons, List.mapIdx_nil, assemble, runAll_cons, runAll_nil, inScope_map, bind_assoc,
    pure_bind, List.append_nil, Nat.add_zero, Bool.false_eq_true, if_false]

theorem isModuleAlias_mapIdx {α β : Type} (f : Nat → α → β) (node : Node α) :
    isModuleAlias (node.mapIdx f) = isModuleAlias node := by
  cases node <;> rfl

omit [Scoping σ] in
include hspan hnode in
/-- What a call applies is known before its object is rendered. -/
theorem callee_eq (func : Tree) :
    callee? annotate (V func (path ++ [0])) = match calleeText? annotate func with
      | none => pure none
      | some name => do
        let object ← runAll ((receiver func).map fun part => V part.2 (path ++ part.1))
        return some (name, object) := by
  rcases func with ⟨fspan, fnode⟩
  cases fnode with
  | attr value name =>
    have hvalue : isModuleAlias (V value (path ++ [0, 0])).node = isModuleAlias value.node := by
      rw [hnode, isModuleAlias_mapIdx]
    rcases halias : isModuleAlias value.node with _ | _ <;>
      simp [callee?, calleeText?, receiver, hspan, hnode (.mk _ _), hvalue, halias]
  | _ => simp [callee?, calleeText?, receiver, hspan, hnode]

theorem isCallee_eq (func : Tree) : isCallee func = (calleeText? annotate func).isSome := by
  rcases func with ⟨fspan, fnode⟩
  cases fnode <;> rfl

include hspan hnode in
theorem follows_call (func : Tree) (args : List Tree) (keywords : List (Keyword Tree)) :
    Follows annotate V path span (.call func args keywords) := by
  simp only [Follows, rule, script, refuses, binding, parts, Node.mapIdx, isCallee_eq annotate,
    callee_eq annotate V hspan hnode]
  rcases hname : calleeText? annotate func with _ | name
  · rfl
  simp only [List.map_append, visits_below, List.mapIdx_append, List.append_nil, runAll_append,
    list_mapIdx_map, bind_assoc, pure_bind,
    mapM_keywords annotate V hspan path fun i => i + args.length + 1, assemble, hname,
    Option.isSome_some, Bool.not_true, Bool.false_eq_true, if_false, Option.map_some]
  refine bind_congr fun object => bind_congr fun args =>
    runAll_bind_congr _ _ _ fun values hvalues => ?_
  rw [List.length_mapIdx] at hvalues
  have hcount : (object ++ (args ++ values)).length - keywords.length =
      (object ++ args).length := by
    rw [← List.append_assoc, List.length_append, hvalues, Nat.add_sub_cancel]
  rw [hcount, ← List.append_assoc, List.take_left, List.drop_left]

include hnode in
theorem follows_attr (value : Tree) (name : String) :
    Follows annotate V path span (.attr value name) := by
  have hvalue : isModuleAlias (V value (path ++ [0])).node = isModuleAlias value.node := by
    rw [hnode, isModuleAlias_mapIdx]
  rcases halias : isModuleAlias value.node with _ | _ <;> simp [hvalue, halias]

include hnode in
theorem follows_subscript (value index : Tree) :
    Follows annotate V path span (.subscript value index) := by
  rcases index with ⟨ispan, inode⟩
  cases inode <;> simp [indices, hnode]

theorem follows_slice (lower upper step : Option Tree) :
    Follows annotate V path span (.slice lower upper step) := by
  cases lower <;> cases upper <;> cases step <;> simp [below, runOr, boundTexts]

theorem follows_dict (entries : List (Tree × Tree)) :
    Follows annotate V path span (.dict entries) := by
  have hflat := Node.flatMap_mapIdx_entries (fun i t => V t (path ++ [i])) entries 0
  simp only [Nat.add_zero] at hflat
  simp only [Follows, rule, script, refuses, binding, parts, Node.mapIdx, Node.toList, visits_below,
    assemble, mapM_entries, hflat, bind_assoc, pure_bind, Bool.false_eq_true, if_false,
    List.append_nil, Nat.add_zero]

include hspan hnode in
/-- The rule follows the script at every node of a tree of computations that has the shape of a
    syntax tree. -/
theorem rule_eq_script (node : Node Tree) :
    rule annotate span (node.mapIdx fun i child => V child (path ++ [i])) =
      script annotate span node ((parts node).map fun part => V part.2 (path ++ part.1)) := by
  suffices h : Follows annotate V path span node from h
  cases node with
  | functionDef name params body => exact follows_function annotate V path span name params body
  | returnStmt value => exact follows_return annotate V path span value
  | assign target value => exact follows_assign annotate V hspan hnode path span target value
  | augAssign target op value => exact follows_augAssign annotate V hnode path span target op value
  | ifStmt test body orelse => exact follows_if annotate V path span test body orelse
  | forLoop target iter body =>
    exact follows_for annotate V hspan hnode path span target iter body
  | binOp left op right => exact follows_binOp annotate V path span left op right
  | unaryOp op operand => exact follows_unaryOp annotate V path span op operand
  | compare left ops comparators => exact follows_compare annotate V path span left ops comparators
  | call func args keywords =>
    exact follows_call annotate V hspan hnode path span func args keywords
  | attr value name => exact follows_attr annotate V hnode path span value name
  | subscript value index => exact follows_subscript annotate V hnode path span value index
  | slice lower upper step => exact follows_slice annotate V path span lower upper step
  | dict entries => exact follows_dict annotate V path span entries
  | lambda params body => exact follows_lambda annotate V path span params body
  | _ =>
    simp

end Rule

end Rendition.Physl
