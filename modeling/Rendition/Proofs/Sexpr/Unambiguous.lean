import Rendition.Proofs.Sexpr.Heads
import Rendition.Proofs.Tree.Grammatical

/-!
# The value of a source text says all of it

No two source texts have the same value, unless they differ in places and in the order of keyword
arguments only. That holds of trees in which statements and expressions stand where they belong,
with a few exceptions that the value cannot tell apart: an augmented assignment is written like the
assignment it stands for, and a constant for nothing like a part that is absent.

The proof reads the kind of a node off the name that its value starts with. Nodes of one kind are
then compared part by part, and where a part is the value of a child, by induction.

## Main definitions

* `Sexpr.Exact`: Nodes of which nothing is lost in their values.
* `Sexpr.Regular`: Nodes of trees whose values are no other tree's.

## Theorems

* `agree_assemble`: Nodes of one kind are compared part by part.
* `value_augAssign`: An augmented assignment cannot be told from an assignment.
* `kindOf_value`: The kind of a tree can be read off its value.
* `agree_value`: Trees have the same value if they are alike.
* `build_agree_iff`: The rendition of source texts is unambiguous.
-/

namespace Rendition.Sexpr

variable {α β : Type}

/-- A node of which nothing is lost in its value: no operand without a comparison, no float without
    a written form, no keyword that another one replaces, and no operator that an assignment
    hides. -/
def Exact : Node α → Prop
  | .compare _ ops comparators => ops.length = comparators.length
  | .constant (.float value) => value.isFinite = true
  | .call _ _ keywords => (keywords.map Keyword.name).Nodup
  | .augAssign .. => False
  | _ => True

theorem exact_map (f : α → β) (node : Node α) : Exact (node.map f) ↔ Exact node := by
  cases node with
  | compare left ops comparators => simp only [Exact, Node.map, List.length_map]
  | call func args keywords =>
    simp only [Exact, Node.map, List.map_map]
    rfl
  | constant value => cases value <;> rfl
  | _ => rfl

/-! ## Parts of values -/

theorem beq_operatorHead (op op' : Operator) :
    (operatorHead op == operatorHead op') = (op == op') := by
  cases op <;> cases op' <;> rfl

theorem beq_unaryHead (op op' : UnaryOperator) :
    (unaryHead op == unaryHead op') = (op == op') := by
  cases op <;> cases op' <;> rfl

theorem beq_comparisonHead (op op' : Comparison) :
    (comparisonHead op == comparisonHead op') = (op == op') := by
  cases op <;> cases op' <;> rfl

theorem beq_connectiveHead (op op' : Connective) :
    (connectiveHead op == connectiveHead op') = (op == op') := by
  cases op <;> cases op' <;> rfl

@[simp]
theorem agree_form (head head' : String) (items items' : List Json) :
    (form head items).agree (form head' items') =
      (head == head' && agreeList Json.agree items items') := by
  rw [form, form, Json.agree_array, agreeList, Json.agree_string]

/-- Absent values agree if none is written like an absent one. -/
theorem agree_optional {value value' : Option Json} (h : ∀ v ∈ value.toList, v ≠ .null)
    (h' : ∀ v ∈ value'.toList, v ≠ .null) :
    (optional value).agree (optional value') = agreeOption Json.agree value value' := by
  cases value <;> cases value'
  · rfl
  · exact Json.agree_null_left (h' _ List.mem_cons_self)
  · exact Json.agree_null_right (h _ List.mem_cons_self)
  · rfl

theorem agree_constantValue {value value' : Literal} (h : Exact (.constant value : Node Json))
    (h' : Exact (.constant value' : Node Json)) :
    (constantValue value).agree (constantValue value') = value.agree value' := by
  cases value <;> cases value' <;> simp_all [Exact, constantValue, Json.agree, Literal.agree]

/-- Comparisons are compared one by one with the operands after them. -/
theorem agree_links {ops ops' : List Comparison} {operands operands' : List Json}
    (h : ops.length = operands.length) (h' : ops'.length = operands'.length) :
    agreeList Json.agree (links ops operands) (links ops' operands') =
      (ops == ops' && agreeList Json.agree operands operands') := by
  -- Comparisons and operands run out together on both sides.
  induction ops generalizing operands ops' operands' with
  | nil =>
    obtain rfl := List.length_eq_zero_iff.mp h.symm
    rcases ops' with _ | ⟨op', ops'⟩ <;> rcases operands' with _ | ⟨operand', operands'⟩ <;>
      first | rfl | cases h'
  | cons op ops ih =>
    rcases operands with _ | ⟨operand, operands⟩
    · cases h
    rcases ops' with _ | ⟨op', ops'⟩ <;> rcases operands' with _ | ⟨operand', operands'⟩ <;>
      first | rfl | cases h' | skip
    have hrest := ih (Nat.succ.inj h) (Nat.succ.inj h')
    simp [links, agreeList, hrest, beq_comparisonHead, Bool.and_assoc, Bool.and_left_comm]

theorem agree_keywords {keywords keywords' : List (Keyword Json)}
    (h : (keywords.map Keyword.name).Nodup) (h' : (keywords'.map Keyword.name).Nodup) :
    (Json.ofMembers (keywords.map fun keyword => (keyword.name, keyword.value))).agree
        (Json.ofMembers (keywords'.map fun keyword => (keyword.name, keyword.value))) =
      agreeList (fun a b => a.name == b.name && a.value.agree b.value)
        (keywords.mergeSort fun a b => Json.keyLe a.name b.name)
        (keywords'.mergeSort fun a b => Json.keyLe a.name b.name) := by
  -- An object has its members in the order in which sorting puts the arguments.
  have hmembers : ∀ keywords : List (Keyword Json), (keywords.map Keyword.name).Nodup →
      Json.ofMembers (keywords.map fun keyword => (keyword.name, keyword.value)) =
        .object ((keywords.mergeSort fun a b => Json.keyLe a.name b.name).map
          fun keyword => (keyword.name, keyword.value)) := by
    intro keywords h
    have hsort := @List.map_mergeSort _ _ (fun a b => Json.keyLe a.name b.name) Json.memberLe
      (fun keyword : Keyword Json => (keyword.name, keyword.value)) keywords fun _ _ _ _ => rfl
    rw [hsort, Json.ofMembers_eq]
    rwa [List.map_map]
  rw [hmembers keywords h, hmembers keywords' h', Json.agree_object, agreeList_map]

section

attribute [local simp] assemble Node.sortKeywords Node.agree agreeList agreeList_map Bool.and_assoc

/-- Nodes of one kind have the same value if they agree up to the order of keyword arguments. -/
theorem agree_assemble {node node' : Node Json} (hkind : node.kind = node'.kind)
    (h : Exact node) (h' : Exact node') (hnull : ∀ v ∈ node.optionals, v ≠ .null)
    (hnull' : ∀ v ∈ node'.optionals, v ≠ .null) :
    (assemble node).agree (assemble node') =
      node.sortKeywords.agree (fun _ _ => true) Json.agree node'.sortKeywords := by
  -- Nodes of different kinds are out of the way first. Where a value is put together from the texts
  -- and the children in another order than nodes are compared in, `&&` is rearranged.
  cases node <;> cases node' <;> simp only [Node.kind, reduceCtorEq] at hkind
  case returnStmt.returnStmt value value' =>
    simp [agree_optional hnull hnull']
  case raiseStmt.raiseStmt exception exception' =>
    simp [agree_optional hnull hnull']
  case slice.slice lower upper step lower' upper' step' =>
    simp only [Node.optionals, List.mem_append, or_imp, forall_and] at hnull hnull'
    obtain ⟨⟨hlower, hupper⟩, hstep⟩ := hnull
    obtain ⟨⟨hlower', hupper'⟩, hstep'⟩ := hnull'
    simp [agree_optional hlower hlower', agree_optional hupper hupper',
      agree_optional hstep hstep']
  case tryStmt.tryStmt body handlers finalbody body' handlers' finalbody' =>
    simp only [Node.optionals, List.mem_flatMap] at hnull hnull'
    have hclauses : agreeList Json.agree
        (handlers.map fun handler => form "except"
          [optional handler.exception, Json.ofString? handler.name, .array handler.body])
        (handlers'.map fun handler => form "except"
          [optional handler.exception, Json.ofString? handler.name, .array handler.body]) =
        agreeList (fun a b => true && a.name == b.name
          && agreeOption Json.agree a.exception b.exception && agreeList Json.agree a.body b.body)
          handlers handlers' := by
      rw [agreeList_map]
      refine agreeList_congr fun a ha b hb => ?_
      have hexception := agree_optional (fun v hv => hnull v ⟨a, ha, hv⟩)
        (fun v hv => hnull' v ⟨b, hb, hv⟩)
      simp [hexception, Bool.and_left_comm]
    simp [hclauses]
  case withStmt.withStmt =>
    simp [Bool.and_comm]
  case importStmt.importStmt source names source' names' =>
    have hnames : agreeList (fun a b => a.name == b.name && a.asName == b.asName) names names' =
        (names == names') := by
      rw [← agreeList_beq]
      refine agreeList_congr fun a _ b _ => ?_
      rcases a with ⟨name, asName⟩
      rcases b with ⟨name', asName'⟩
      rw [Bool.eq_iff_iff]
      simp
    simp [hnames]
  case constant.constant =>
    exact agree_constantValue h h'
  case compare.compare =>
    simp [agree_links h h', Bool.and_left_comm]
  case call.call =>
    simp [agree_keywords h h']
  case augAssign.augAssign => exact h.elim
  case attr.attr =>
    simp [Bool.and_comm]
  all_goals
    simp [beq_operatorHead, beq_unaryHead, beq_connectiveHead]

end

/-! ## Trees -/

/-- An augmented assignment has the value of the assignment that it stands for. -/
theorem value_augAssign (span span' : Span) (target : Tree) (op : Operator) (operand : Tree) :
    value (.mk span (.augAssign target op operand)) =
      value (.mk span (.assign target (.mk span' (.binOp target op operand)))) := by
  simp only [value_mk, Node.map, assemble]

/-- A node of a tree whose value is no other tree's: statements and expressions stand where they
    belong, nothing is lost, no part that is there is written like an absent one, and no conditional
    expression stands as a statement. -/
structure Regular (node : Node Tree) : Prop where
  statements : ∀ c ∈ node.statements, c.kind.category = .statement
  expressions : ∀ c ∈ node.expressions, c.kind.category = .expression
  exact : Exact node
  present : ∀ c ∈ node.optionals, c.node ≠ .constant .none
  conditional : ∀ c, node = .exprStmt c → c.kind ≠ .ifExp

/-- An expression other than the constant for nothing has a value that is not null. -/
theorem value_ne_null {t : Tree} (hkind : t.kind.category = .expression) (h : Exact t.node)
    (hnone : t.node ≠ .constant .none) : value t ≠ .null := by
  rcases t with ⟨span, node⟩
  rw [value_mk]
  cases node with
  | constant literal =>
    cases literal with
    | none => exact absurd rfl hnone
    | float literal =>
      have hfinite : literal.isFinite = true := h
      simp [Node.map, assemble, constantValue, hfinite]
    | _ => simp [Node.map, assemble, constantValue]
  | exprStmt c => cases hkind
  -- Everything else is written as a list.
  | _ => simp [Node.map, assemble, form]

theorem optionals_ne_null {span : Span} {node : Node Tree}
    (h : ∀ d ∈ (Tree.mk span node).descendants, Regular d.node) :
    ∀ v ∈ (node.map value).optionals, v ≠ .null := by
  intro v hv
  rw [Node.optionals_map, List.mem_map] at hv
  obtain ⟨c, hc, rfl⟩ := hv
  have hregular := h _ (Tree.mem_descendants_self _)
  have hexpression := Node.mem_expressions_of_optionals hc
  have hchild := Tree.forall_child h (Node.mem_of_mem_expressions hexpression)
  exact value_ne_null (hregular.expressions c hexpression)
    (hchild c (Tree.mem_descendants_self c)).exact (hregular.present c hc)

/-- The kind of a tree can be read off its value by what kind of trees it is among. -/
theorem kindOf_value {t : Tree} (h : ∀ d ∈ t.descendants, Regular d.node) :
    kindOf t.kind.category (head? (value t)) = t.kind := by
  have hregular := h t (Tree.mem_descendants_self t)
  rcases t with ⟨span, node⟩
  have haug : (node.map value).kind ≠ .augAssign := by
    rw [Node.kind_map]
    intro hkind
    cases node <;> simp only [Node.kind, reduceCtorEq] at hkind
    exact hregular.exact
  -- An expression as a statement has no name of its own: its value is the expression's.
  have hkind := kindOf_assemble haug fun v hv => by
    cases node <;> simp only [Node.map, reduceCtorEq, Node.exprStmt.injEq] at hv
    case exprStmt c =>
      rcases c with ⟨cspan, cnode⟩
      have hcategory := hregular.expressions _ List.mem_cons_self
      have hconditional := hregular.conditional _ rfl
      rw [← hv, value_mk]
      exact kindOf_exprStmt (by rwa [Node.kind_map]) (by rwa [Node.kind_map])
  rw [Node.kind_map] at hkind
  rw [value_mk]
  exact hkind

/-- Trees of one category have the same value if they are alike up to the order of keyword
    arguments. -/
theorem agree_value {a b : Tree} (ha : ∀ d ∈ a.descendants, Regular d.node)
    (hb : ∀ d ∈ b.descendants, Regular d.node) (hcategory : a.kind.category = b.kind.category) :
    (value a).agree (value b) = a.sortKeywords.alike b.sortKeywords := by
  induction a using Tree.inductionOn generalizing b with
  | step span node ih =>
    rcases b with ⟨span', node'⟩
    by_cases hkind : node.kind = node'.kind
    · have hnode := ha _ (Tree.mem_descendants_self _)
      have hnode' := hb _ (Tree.mem_descendants_self _)
      calc (value (.mk span node)).agree (value (.mk span' node'))
          = (assemble (node.map value)).agree (assemble (node'.map value)) := by
            rw [value_mk, value_mk]
        _ = (node.map value).sortKeywords.agree (fun _ _ => true) Json.agree
              (node'.map value).sortKeywords :=
            agree_assemble (by rwa [Node.kind_map, Node.kind_map])
              ((exact_map value node).mpr hnode.exact) ((exact_map value node').mpr hnode'.exact)
              (optionals_ne_null ha) (optionals_ne_null hb)
        _ = node.sortKeywords.agree (fun _ _ => true)
              (fun c c' => (value c).agree (value c')) node'.sortKeywords := by
            rw [Node.sortKeywords_map, Node.sortKeywords_map, Node.agree_map]
        _ = node.sortKeywords.agree (fun _ _ => true)
              (fun c c' => c.sortKeywords.alike c'.sortKeywords) node'.sortKeywords := by
            -- Children at corresponding places are of one category.
            refine Node.agree_congr _ (fun c hc c' hc' => ?_) fun c hc c' hc' => ?_
            · rw [Node.statements_sortKeywords] at hc hc'
              exact ih c (Node.mem_of_mem_statements hc)
                (Tree.forall_child ha (Node.mem_of_mem_statements hc))
                (Tree.forall_child hb (Node.mem_of_mem_statements hc'))
                ((hnode.statements c hc).trans (hnode'.statements c' hc').symm)
            · rw [Node.mem_expressions_sortKeywords] at hc hc'
              exact ih c (Node.mem_of_mem_expressions hc)
                (Tree.forall_child ha (Node.mem_of_mem_expressions hc))
                (Tree.forall_child hb (Node.mem_of_mem_expressions hc'))
                ((hnode.expressions c hc).trans (hnode'.expressions c' hc').symm)
        _ = (Tree.mk span node).sortKeywords.alike (Tree.mk span' node').sortKeywords := by
            rw [Tree.sortKeywords_mk, Tree.sortKeywords_mk, Tree.alike_mk, Node.agree_map]
    · -- Equal values would start with one name, and the name tells the kind.
      have hdiffer : (value (.mk span node)).agree (value (.mk span' node')) = false := by
        rw [← Bool.not_eq_true]
        intro hagree
        have hread := kindOf_value ha
        rw [hcategory, head_eq_of_agree hagree, kindOf_value hb] at hread
        exact hkind hread.symm
      rw [hdiffer, Tree.sortKeywords_mk, Tree.sortKeywords_mk, Tree.alike_mk,
        Node.agree_of_kind_ne]
      simpa only [Node.kind_map, Node.kind_sortKeywords] using hkind

/-- The rendition of source texts is unambiguous: two of them have the same value if they are alike
    up to the order of keyword arguments. -/
theorem build_agree_iff {a b : Tree} (hroot : a.kind = .moduleDef) (hroot' : b.kind = .moduleDef)
    (ha : ∀ d ∈ a.descendants, Regular d.node) (hb : ∀ d ∈ b.descendants, Regular d.node)
    (f g : SourceFunction) (config config' : Config) :
    ∃ s s', renderer.build ⟨f, a⟩ config = .ok s ∧ renderer.build ⟨g, b⟩ config' = .ok s' ∧
      (s.output.agree s'.output = true ↔ a.sortKeywords.alike b.sortKeywords = true) := by
  have hbuild : ∀ (task : Task) (config : Config), renderer.build task config =
      .ok ⟨config.isPretty, value task.tree⟩ := by
    intro task config
    have hfragment : renderer.fragment task.tree = pure (value task.tree) := run_value task.tree
    rw [Renderer.build, Renderer.present, hfragment]
    rfl
  refine ⟨_, _, hbuild _ _, hbuild _ _, ?_⟩
  rw [agree_value ha hb (by rw [hroot, hroot'])]

/-- Two calls whose keyword arguments come in different order. -/
theorem build_agree_keywords :
    (Tree.mk ⟨1, 0⟩ (.moduleDef [.mk ⟨1, 0⟩ (.exprStmt (.mk ⟨1, 0⟩ (.call
      (.mk ⟨1, 0⟩ (.ident "f")) [] [⟨"x", .mk ⟨1, 4⟩ (.constant (.int 1))⟩,
        ⟨"y", .mk ⟨1, 9⟩ (.constant (.int 2))⟩])))])).sortKeywords.alike
    (Tree.mk ⟨1, 0⟩ (.moduleDef [.mk ⟨1, 0⟩ (.exprStmt (.mk ⟨1, 0⟩ (.call
      (.mk ⟨1, 0⟩ (.ident "f")) [] [⟨"y", .mk ⟨1, 4⟩ (.constant (.int 2))⟩,
        ⟨"x", .mk ⟨1, 9⟩ (.constant (.int 1))⟩])))])).sortKeywords = true := by
  have hregular : ∀ (x y : String) (m n : Int), x ≠ y →
      ∀ d ∈ (Tree.mk ⟨1, 0⟩ (.moduleDef [.mk ⟨1, 0⟩ (.exprStmt (.mk ⟨1, 0⟩ (.call
        (.mk ⟨1, 0⟩ (.ident "f")) [] [⟨x, .mk ⟨1, 4⟩ (.constant (.int m))⟩,
          ⟨y, .mk ⟨1, 9⟩ (.constant (.int n))⟩])))])).descendants, Regular d.node := by
    intro x y m n hne
    simp only [Tree.descendants_mk, Node.toList, List.flatMap_cons, List.flatMap_nil,
      List.append_nil, List.map_cons, List.map_nil, List.nil_append, List.cons_append,
      List.forall_mem_cons, Tree.node_mk]
    refine ⟨?_, ?_, ?_, ?_, ?_, ?_, List.forall_mem_nil _⟩
    all_goals
      constructor <;> simp [Node.statements, Node.expressions, Node.optionals, Node.toList, Exact,
        Tree.kind, Node.kind, NodeKind.category, hne]
  obtain ⟨s, s', hs, hs', hiff⟩ := build_agree_iff rfl rfl (hregular "x" "y" 1 2 (by decide))
    (hregular "y" "x" 2 1 (by decide)) ⟨"f", "", 1⟩ ⟨"f", "", 1⟩ {} {}
  -- The values are compared, which sorted their members already.
  refine hiff.mp ?_
  cases hs
  cases hs'
  rfl

end Rendition.Sexpr
