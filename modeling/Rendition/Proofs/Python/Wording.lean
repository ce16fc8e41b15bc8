import Rendition.Proofs.Rendering.Quiet
import Rendition.Proofs.Tree.Replaced
import Rendition.Rendering.Python

/-!
# The wording of a tree

The rendition as Python has something to say about every node, and does nothing on the way. So
every tree has a wording. Most nodes only need the texts of their children, but an index is worded
differently from other expressions, and a conditional statement may continue the one that it stands
in.

## Main definitions

* `Python.Wording`: What a tree is rendered as, wherever it stands.
* `Python.assemble`: The text of a node, from the wordings of its children.
* `Python.wording`: The wording of a tree.

## Theorems

* `run_text`: The rendition of a tree returns its text.
* `wording_erase`: The wording does not depend on places.
* `build_text`, `render_text`: A task is rendered as the text of its tree.
-/

namespace Rendition.Python

/-- What a tree is rendered as, wherever it stands. -/
structure Wording where
  text : String
  /-- The text as an index: a tuple needs no parentheses there. -/
  index : String
  /-- Whether the tree is a conditional statement, which can continue another one. -/
  isIf : Bool

/-- The texts of trees one after another. -/
def texts (wordings : List Wording) : List String :=
  wordings.map Wording.text

/-- The text of a part that may be absent. -/
def textOr (absent : String) (wording : Option Wording) : String :=
  (wording.map Wording.text).getD absent

/-- What follows the first branch of a conditional statement. A condition that stands alone in an
    `else` continues the chain of conditions. -/
def otherwise (indent : String) : List Wording → String
  | [] => ""
  | [single] =>
    if single.isIf then "\nel" ++ single.text else "\n" ++ headed indent "else" [single.text]
  | orelse => "\n" ++ headed indent "else" (texts orelse)

/-- The text of a clause of a `try` statement. -/
def clause (indent : String) (handler : Handler Wording) : String :=
  let exception := handler.exception.toList.map fun exception => " " ++ exception.text
  headed indent (withAlias (String.join ("except" :: exception)) handler.name) (texts handler.body)

/-- The text of a node, from the wordings of its children. -/
def assemble (indent : String) : Node Wording → String
  | .moduleDef body => String.join ((texts body).map (· ++ "\n"))
  | .functionDef name params body =>
    headed indent ("def " ++ name ++ "(" ++ listing params ++ ")") (texts body)
  | .returnStmt none => "return"
  | .returnStmt (some value) => "return " ++ value.text
  | .assign target value => target.text ++ " = " ++ value.text
  | .augAssign target op value => target.text ++ " " ++ op.symbol ++ "= " ++ value.text
  | .exprStmt value => value.text
  | .ifStmt test body orelse =>
    headed indent ("if " ++ test.text) (texts body) ++ otherwise indent orelse
  | .whileLoop test body => headed indent ("while " ++ test.text) (texts body)
  | .forLoop target iter body =>
    headed indent ("for " ++ target.text ++ " in " ++ iter.text) (texts body)
  | .passStmt => "pass"
  | .breakStmt => "break"
  | .continueStmt => "continue"
  | .tryStmt body handlers finalbody =>
    let last := if (texts finalbody).isEmpty then [] else
      [headed indent "finally" (texts finalbody)]
    "\n".intercalate (headed indent "try" (texts body) :: handlers.map (clause indent) ++ last)
  | .withStmt items body =>
    let contexts := items.map fun item => withAlias item.context.text item.asName
    headed indent ("with " ++ listing contexts) (texts body)
  | .raiseStmt none => "raise"
  | .raiseStmt (some exception) => "raise " ++ exception.text
  | .classDef name bases body =>
    let head := if (texts bases).isEmpty then "class " ++ name
      else "class " ++ name ++ "(" ++ listing (texts bases) ++ ")"
    headed indent head (texts body)
  | .importStmt source names =>
    let names := listing (names.map fun name => withAlias name.name name.asName)
    match source with
    | some source => "from " ++ source ++ " import " ++ names
    | none => "import " ++ names
  | .ident id => id
  | .constant value => constantText value
  | .binOp left op right => "(" ++ left.text ++ " " ++ op.symbol ++ " " ++ right.text ++ ")"
  | .unaryOp op operand =>
    "(" ++ op.symbol ++ (if op = .not then " " else "") ++ operand.text ++ ")"
  | .compare left ops comparators =>
    "(" ++ left.text ++ links ops (texts (comparators.take ops.length)) ++ ")"
  | .boolOp op values => "(" ++ (" " ++ op.symbol ++ " ").intercalate (texts values) ++ ")"
  | .call func args keywords =>
    let keywords := keywords.map fun keyword => keyword.name ++ "=" ++ keyword.value.text
    func.text ++ "(" ++ listing (texts args ++ keywords) ++ ")"
  | .attr value name => value.text ++ "." ++ name
  | .subscript value index => value.text ++ "[" ++ index.index ++ "]"
  | .slice lower upper step =>
    textOr "" lower ++ ":" ++ textOr "" upper ++
      String.join (step.toList.map fun step => ":" ++ step.text)
  | .list items => "[" ++ listing (texts items) ++ "]"
  | .tuple items => tuple (texts items)
  | .dict entries =>
    "\x7b" ++ listing (entries.map fun entry => entry.1.text ++ ": " ++ entry.2.text) ++ "\x7d"
  | .ifExp test body orelse =>
    "(" ++ body.text ++ " if " ++ test.text ++ " else " ++ orelse.text ++ ")"
  | .lambda params body =>
    let head := if params.isEmpty then "lambda" else "lambda " ++ listing params
    "(" ++ head ++ ": " ++ body.text ++ ")"

/-- The text of a node as an index. -/
def assembleIndex (indent : String) : Node Wording → String
  | .tuple (first :: rest) => listing (texts (first :: rest))
  | node => assemble indent node

/-- The wording of a tree. -/
def wording (indent : String) (t : Tree) : Wording :=
  t.fold fun _ node => ⟨assemble indent node, assembleIndex indent node, node.kind = .ifStmt⟩

theorem wording_mk (indent : String) (span : Span) (node : Node Tree) :
    wording indent (.mk span node) = ⟨assemble indent (node.map (wording indent)),
      assembleIndex indent (node.map (wording indent)), node.kind = .ifStmt⟩ := by
  rw [wording, Tree.fold_mk, Node.kind_map]
  rfl

/-- The wording does not depend on places. -/
theorem wording_erase (indent : String) (t : Tree) : wording indent t.erase = wording indent t := by
  refine Tree.fold_erase (β := Wording) _ (fun g node => ?_) t
  cases node with
  | tryStmt body handlers finalbody =>
    simp only [assemble, assembleIndex, Node.mapSpans, List.map_map]
    rfl
  | _ => rfl

section Run

variable {m : Type → Type} [Monad m]

/-- The computation that renders a tree as an index. -/
def runIndex (visit : Visit m String) : m String :=
  match visit.node with
  | .tuple (first :: rest) => listing <$> runAll (first :: rest)
  | _ => visit.run

theorem runIndex_bind {β : Type} (visit : Visit m String) (f : String → m β) :
    runIndex visit >>= f = match visit.node with
      | .tuple (first :: rest) => listing <$> runAll (first :: rest) >>= f
      | _ => visit.run >>= f := by
  rcases visit with ⟨span, node, run⟩
  cases node with
  | tuple items => cases items <;> rfl
  | _ => rfl

/-- A tree of computations that return what a wording says. -/
structure Worded (visit : Visit m String) (wording : Wording) : Prop where
  run : visit.run = pure wording.text
  index : runIndex visit = pure wording.index
  isIf : isIf visit = wording.isIf

variable [LawfulMonad m]

/-- The rule returns the text of a node if the computations at its children return what their
    wordings say. -/
theorem rule_eq_text {α : Type} {V : α → Visit m String} {W : α → Wording} (indent : String)
    (span : Span) (node : Node α) (h : ∀ a ∈ node.toList, Worded (V a) (W a)) :
    rule indent span (node.map V) = pure (some (assemble indent (node.map W))) := by
  have hall : ∀ as : List α, (∀ a ∈ as, Worded (V a) (W a)) →
      runAll (as.map V) = pure (texts (as.map W)) := by
    intro as has
    rw [texts, List.map_map]
    exact runAll_eq_pure fun a ha => (has a ha).run
  have hor : ∀ (absent : String) (a : Option α), (∀ x ∈ a, Worded (V x) (W x)) →
      runOr absent (a.map V) = pure (textOr absent (a.map W)) := by
    intro absent a ha
    rw [textOr, Option.map_map]
    exact runOr_eq_pure absent fun x hx => (ha x hx).run
  have hone : ∀ a, Worded (V a) (W a) → (V a).run = pure (W a).text := fun _ h => h.run
  cases node with
  | returnStmt value =>
    rcases value with _ | value
    · rfl
    · have hvalue := (h value List.mem_cons_self).run
      simp only [rule, assemble, Node.map, Option.map_some, hvalue, pure_bind]
  | raiseStmt exception =>
    rcases exception with _ | exception
    · rfl
    · have hexception := (h exception List.mem_cons_self).run
      simp only [rule, assemble, Node.map, Option.map_some, hexception, pure_bind]
  | ifStmt test body orelse =>
    simp only [Node.toList, List.mem_cons, List.mem_append, or_imp, forall_and, forall_eq] at h
    obtain ⟨htest, hbody, horelse⟩ := h
    simp only [rule, assemble, Node.map, htest.run, hall body hbody, pure_bind]
    -- The rule asks whether a single statement is alone in the `else`.
    rcases orelse with _ | ⟨first, _ | ⟨second, rest⟩⟩
    · simp only [List.map_nil, otherwise, String.append_empty]
    · have hfirst := horelse first List.mem_cons_self
      simp only [List.map_cons, List.map_nil, hfirst.run, pure_bind, hfirst.isIf, otherwise]
      split <;> simp only [String.append_assoc]
    · have hrest := hall _ horelse
      simp only [List.map_cons] at hrest ⊢
      simp only [hrest, pure_bind, otherwise, String.append_assoc]
  | tryStmt body handlers finalbody =>
    simp only [Node.toList, List.mem_append, List.mem_flatMap, or_imp, forall_and] at h
    obtain ⟨⟨hbody, hhandlers⟩, hfinal⟩ := h
    have hclauses : (handlers.map (Handler.map V)).mapM (fun handler => do
        let exception ← handler.exception.toList.mapM Visit.run
        let head := withAlias (String.join ("except" :: exception.map (" " ++ ·))) handler.name
        return headed indent head (← runAll handler.body)) =
        (pure (handlers.map fun handler => clause indent (handler.map W)) : m (List String)) := by
      refine mapM_eq_pure fun handler hmem => ?_
      have hexception : (handler.exception.map V).toList.mapM Visit.run =
          pure (texts (handler.exception.map W).toList) := by
        rw [Option.toList_map, Option.toList_map]
        exact hall handler.exception.toList fun x hx =>
          hhandlers x ⟨handler, hmem, List.mem_append_left _ hx⟩
      have hsuite := hall handler.body fun x hx =>
        hhandlers x ⟨handler, hmem, List.mem_append_right _ hx⟩
      simp only [Handler.map, hexception, hsuite, pure_bind, clause, texts, List.map_map]
      rfl
    simp only [rule, assemble, Node.map, hall body hbody, hall finalbody hfinal, hclauses,
      pure_bind, List.map_map]
    rfl
  | withStmt items body =>
    simp only [Node.toList, List.mem_append, List.mem_map, or_imp, forall_and] at h
    obtain ⟨hitems, hbody⟩ := h
    have hcontexts : (items.map (WithItem.map V)).mapM (fun item => do
        return withAlias (← item.context.run) item.asName) =
        (pure (items.map fun item => withAlias (W item.context).text item.asName) :
          m (List String)) := by
      refine mapM_eq_pure fun item hmem => ?_
      simp only [WithItem.map, (hitems item.context ⟨item, hmem, rfl⟩).run, pure_bind]
    simp only [rule, assemble, Node.map, hall body hbody, hcontexts, pure_bind, List.map_map]
    rfl
  | compare left ops comparators =>
    simp only [Node.toList, List.mem_cons, or_imp, forall_and, forall_eq] at h
    have htake := hall (comparators.take ops.length) fun x hx => h.2 x (List.mem_of_mem_take hx)
    simp only [rule, assemble, Node.map, h.1.run, ← List.map_take, htake, pure_bind]
  | call func args keywords =>
    simp only [Node.toList, List.mem_cons, List.mem_append, List.mem_map, or_imp, forall_and,
      forall_eq] at h
    obtain ⟨hfunc, hargs, hkeywords⟩ := h
    have hvalues : (keywords.map (Keyword.map V)).mapM (fun keyword => do
        return keyword.name ++ "=" ++ (← keyword.value.run)) =
        (pure (keywords.map fun keyword => keyword.name ++ "=" ++ (W keyword.value).text) :
          m (List String)) := by
      refine mapM_eq_pure fun keyword hmem => ?_
      simp only [Keyword.map, (hkeywords keyword.value ⟨keyword, hmem, rfl⟩).run, pure_bind]
    simp only [rule, assemble, Node.map, hfunc.run, hall args hargs, hvalues, pure_bind,
      List.map_map]
    rfl
  | subscript value index =>
    have hvalue := (h value List.mem_cons_self).run
    have hindex := (h index (List.mem_cons_of_mem _ List.mem_cons_self)).index
    simp only [rule, assemble, Node.map, hvalue, pure_bind]
    -- The rule looks at the index and then goes on in each case.
    refine (runIndex_bind (V index) fun index =>
      pure (some ((W value).text ++ "[" ++ index ++ "]"))).symm.trans ?_
    rw [hindex, pure_bind]
  | slice lower upper step =>
    simp only [Node.toList, List.mem_append, or_imp, forall_and] at h
    obtain ⟨⟨hlower, hupper⟩, hstep⟩ := h
    have hlower := hor "" lower fun x hx => hlower x (Option.mem_toList.mpr hx)
    have hupper := hor "" upper fun x hx => hupper x (Option.mem_toList.mpr hx)
    have hstep : (step.map V).toList.mapM Visit.run = pure (texts (step.map W).toList) := by
      rw [Option.toList_map, Option.toList_map]
      exact hall step.toList hstep
    simp only [rule, assemble, Node.map, hlower, hupper, hstep, pure_bind, texts, List.map_map]
    rfl
  | dict entries =>
    have hpairs : (entries.map fun entry => (V entry.1, V entry.2)).mapM (fun entry => do
        let key ← entry.1.run
        return key ++ ": " ++ (← entry.2.run)) =
        (pure (entries.map fun entry => (W entry.1).text ++ ": " ++ (W entry.2).text) :
          m (List String)) := by
      refine mapM_eq_pure fun entry hmem => ?_
      have hkey := h entry.1 (List.mem_flatMap.mpr ⟨entry, hmem, List.mem_cons_self⟩)
      have hvalue := h entry.2 (List.mem_flatMap.mpr
        ⟨entry, hmem, List.mem_cons_of_mem _ List.mem_cons_self⟩)
      simp only [hkey.run, hvalue.run, pure_bind]
    simp only [rule, assemble, Node.map, hpairs, pure_bind, List.map_map]
    rfl
  | importStmt source names => cases source <;> rfl
  | _ =>
    -- The other nodes need the texts of their children only.
    simp only [Node.toList, List.mem_cons, List.mem_append, List.not_mem_nil, or_imp, forall_and,
      or_false, forall_eq] at h
    simp +contextual [rule, assemble, Node.map, h, hone, hall]

variable [MonadExceptOf Unimplemented m]

/-- The rendition of a tree returns what the wording of the tree says. -/
theorem worded_visit (indent : String) (t : Tree) :
    Worded (m := m) (t.visit (rule indent)) (wording indent t) := by
  induction t using Tree.inductionOn with
  | step span node ih =>
    have hrun := run_eq_pure (rule_eq_text indent span node ih)
    have hnode : (Tree.visit (m := m) (rule indent) (.mk span node)).node =
        node.map (Tree.visit (rule indent)) := by
      rw [Tree.visit_mk]
      rfl
    rw [wording_mk]
    refine ⟨hrun, ?_, ?_⟩
    · -- As an index only a tuple with elements is worded differently.
      rw [runIndex, hnode]
      cases node with
      | tuple items =>
        rcases items with _ | ⟨first, rest⟩
        · exact hrun
        · have hitems := runAll_eq_pure fun t ht => (ih t ht).run
          refine (congrArg (listing <$> ·) hitems).trans ?_
          simp only [map_pure, assembleIndex, Node.map, Node.toList, texts, List.map_cons,
            List.map_map, Function.comp_def]
      | _ => exact hrun
    · rw [isIf, hnode, Node.kind_map]

/-- The rendition of a tree returns its text. -/
theorem run_text (indent : String) (t : Tree) :
    (t.render (rule indent) : m String) = pure (wording indent t).text :=
  (worded_visit indent t).run

end Run

/-- The state after a task holds the text of its tree. -/
theorem build_text (task : Task) (config : Config) : renderer.build task config =
    .ok ⟨String.ofList (List.replicate config.width ' '),
      (wording (String.ofList (List.replicate config.width ' ')) task.tree).text⟩ := by
  have hfragment (s : State) : (renderer.fragment task.tree).run.run s =
      (.ok (wording s.indent task.tree).text, s) := by
    rw [renderer, Walk.run_bind, Walk.run_get]
    simp only [run_text]
    rfl
  rw [Renderer.build, Renderer.present, Walk.run_bind, hfragment]
  rfl

/-- A task is rendered as the text of its tree. -/
theorem render_text (task : Task) (config : Config) : renderer.render task config =
    .ok (wording (String.ofList (List.replicate config.width ' ')) task.tree).text := by
  rw [Renderer.render, build_text]
  rfl

end Rendition.Python
