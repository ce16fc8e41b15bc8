import Rendition.Proofs.Source.Reads
import Rendition.Proofs.Tree.Grammatical
import Rendition.Proofs.Tree.Placement

/-!
# Trees of source texts are well formed

The type of trees allows more than a source text can say: an expression where a statement belongs,
a comparison without operators, or a name for an exception that is not there. Renditions rely on
none of it occurring, some of them silently. Whatever a tree was read from, each of its nodes has
statements and expressions in their places and as many of them as its kind needs.

## Main definitions

* `Node.Complete`: A node has as many parts as its kind needs.
* `Node.WellFormed`: A node is complete and has the right kinds of children.
* `Tree.Forms`: A tree of a category, all of whose nodes are well formed.

## Theorems

* `Tree.Forms.mk_node`: A tree is well formed if its node is complete and its children are.
* `Source.Expr.Reads.forms`, `Source.Stmt.Reads.forms`: What is read is well formed.
* `Source.read_wellFormed`: The tree of a source text is well formed.
-/

namespace Rendition

namespace Node

variable {α : Type}

/-- A node has as many parts as its kind needs. -/
def Complete : Node α → Prop
  | boolOp _ values => 2 ≤ values.length
  | compare _ ops comparators => ops.length = comparators.length ∧ 1 ≤ ops.length
  | constant (.int n) => 0 ≤ n
  | importStmt _ names => 1 ≤ names.length
  | withStmt items _ => 1 ≤ items.length
  | tryStmt _ handlers _ => ∀ h ∈ handlers, h.name.isSome → h.exception.isSome
  | _ => True

/-- A node is complete, and its children are statements where statements belong and expressions
    elsewhere. -/
structure WellFormed (node : Node Tree) : Prop where
  statements : ∀ c ∈ node.statements, c.kind.category = .statement
  expressions : ∀ c ∈ node.expressions, c.kind.category = .expression
  complete : node.Complete

end Node

namespace Tree

/-- A tree of a category, all of whose nodes are well formed. -/
structure Forms (category : Category) (t : Tree) : Prop where
  category : t.kind.category = category
  nodes : ∀ d ∈ t.descendants, d.node.WellFormed

/-- A tree is well formed if its node is complete and its children are well formed. -/
theorem Forms.mk_node {category : Category} {span : Span} {node : Node Tree}
    (hcategory : node.kind.category = category) (hcomplete : node.Complete)
    (hstatements : ∀ c ∈ node.statements, Forms .statement c)
    (hexpressions : ∀ c ∈ node.expressions, Forms .expression c) :
    Forms category (Tree.mk span node) where
  category := hcategory
  nodes d hd := by
    rw [descendants_mk, List.mem_cons, List.mem_flatMap] at hd
    rcases hd with rfl | ⟨c, hc, hd⟩
    · exact ⟨fun c hc => (hstatements c hc).category, fun c hc => (hexpressions c hc).category,
        hcomplete⟩
    · rcases Node.mem_toList.mp hc with hc | hc
      · exact (hstatements c hc).nodes d hd
      · exact (hexpressions c hc).nodes d hd

/-- An expression is well formed if it is complete and made of well-formed expressions. -/
theorem Forms.expression {span : Span} {node : Node Tree}
    (hcategory : node.kind.category = .expression) (hcomplete : node.Complete)
    (hchildren : ∀ c ∈ node.toList, Forms .expression c) : Forms .expression (Tree.mk span node) :=
  .mk_node hcategory hcomplete (by rw [Node.statements_eq_nil hcategory]; nofun)
    fun c hc => hchildren c (Node.mem_of_mem_expressions hc)

/-- The children of a well-formed expression are well formed. -/
theorem Forms.child {span : Span} {node : Node Tree} (h : Forms .expression (Tree.mk span node))
    {c : Tree} (hc : c ∈ node.toList) : Forms .expression c where
  category := by
    rcases Node.mem_toList.mp hc with hc | hc
    · have hnil : node.statements = [] := Node.statements_eq_nil h.category
      rw [hnil] at hc
      cases hc
    · exact (h.nodes _ (mem_descendants_self _)).expressions c hc
  nodes := forall_child h.nodes hc

/-- No well-formed tree has a whole source text inside it. -/
theorem Forms.kind_ne {category : Category} {t : Tree} (h : Forms category t)
    (hcategory : category ≠ .source) : ∀ d ∈ t.descendants, d.kind ≠ .moduleDef := by
  induction t using inductionOn generalizing category with
  | step span node ih =>
    intro d hd
    rw [descendants_mk, List.mem_cons, List.mem_flatMap] at hd
    rcases hd with rfl | ⟨c, hc, hd⟩
    · intro hkind
      exact hcategory (h.category ▸ congrArg NodeKind.category hkind)
    · have hnode := h.nodes _ (mem_descendants_self _)
      rcases Node.mem_toList.mp hc with hc' | hc'
      · exact ih c hc ⟨hnode.statements c hc', forall_child h.nodes hc⟩ (by decide) d hd
      · exact ih c hc ⟨hnode.expressions c hc', forall_child h.nodes hc⟩ (by decide) d hd

end Tree

namespace Source

/-- No integer literal denotes a negative number. -/
theorem integerValue?_nonneg {text : String} {value : Int} (h : integerValue? text = some value) :
    0 ≤ value := by
  have hword : ∀ {n? : Option Nat},
      (n?.bind fun n => if n < Word.signedBound then some (n : Int) else none) = some value →
        0 ≤ value := by
    intro n? hn
    obtain ⟨n, -, hvalue⟩ := Option.bind_eq_some_iff.mp hn
    obtain ⟨-, hvalue⟩ := Option.ite_none_right_eq_some.mp hvalue
    cases hvalue
    exact Int.natCast_nonneg n
  rw [integerValue?] at h
  split at h <;> exact hword h

/-- What a connective joins is the left side, or the operands of the same connective there. -/
theorem joined_eq (op : Connective) (left : Expr) (t : Tree) :
    joined op left t = [t] ∨ t.node = .boolOp op (joined op left t) := by
  rw [joined.eq_def]
  split
  · next inner values hnode =>
    split
    · next heq => exact .inr (heq ▸ hnode)
    · exact .inl rfl
  · exact .inl rfl

/-- The bounds of a slice are among its parts. -/
theorem mem_of_mem_bounds {trees : List (Option Tree)} {t : Tree} (h : some t ∈ bounds trees) :
    some t ∈ trees := by
  induction trees with
  | nil => simp [bounds] at h
  | cons tree rest ih =>
    cases tree with
    | none =>
      rw [bounds, List.mem_cons] at h
      exact .tail _ (ih (h.resolve_left nofun))
    | some bound =>
      rw [bounds] at h
      split at h
      · next more hmore =>
        rcases List.mem_cons.mp h with heq | h
        · exact heq ▸ .head _
        · exact .tail _ (ih (hmore ▸ .tail _ h))
      · exact .tail _ (ih h)

open Rendition.Tree (Forms)

/-- What a connective joins is well formed, and at least one expression. -/
theorem joined_forms (op : Connective) (left : Expr) {t : Tree} (h : Forms .expression t) :
    (∀ v ∈ joined op left t, Forms .expression v) ∧ 1 ≤ (joined op left t).length := by
  rcases joined_eq op left t with heq | hnode
  · rw [heq]
    exact ⟨List.forall_mem_singleton.mpr h, Nat.le_refl 1⟩
  · rcases t with ⟨span, node⟩
    have hcomplete := (h.nodes _ (Tree.mem_descendants_self _)).complete
    generalize joined op left (.mk span node) = values at hnode ⊢
    obtain rfl : node = .boolOp op values := hnode
    exact ⟨fun v hv => h.child hv, Nat.le_of_succ_le hcomplete⟩

/-- What expressions are read as is well formed. -/
theorem Expr.Reads.forms {e : Expr} {t : Tree} (h : e.Reads t) : Forms .expression t := by
  induction h with
  | ident | float | string | strings | truth | nothing =>
    exact .expression rfl trivial nofun
  | integer hvalue => exact .expression rfl (integerValue?_nonneg hvalue) nofun
  | unary _ ih | negation _ ih | attr _ ih =>
    exact .expression rfl trivial (List.forall_mem_singleton.mpr ih)
  | lambda _ ih => exact .expression rfl trivial (List.forall_mem_singleton.mpr ih)
  | binary _ _ ihleft ihright =>
    exact .expression rfl trivial (by simpa [Node.toList] using ⟨ihleft, ihright⟩)
  | @boolean span op left right left' right' _ _ ihleft ihright =>
    obtain ⟨hjoined, hlength⟩ := joined_forms op left ihleft
    refine .expression rfl ?_ fun c hc => ?_
    · change 2 ≤ (joined op left left' ++ [right']).length
      rw [List.length_append, List.length_singleton]
      omega
    · rcases List.mem_append.mp hc with hc | hc
      · exact hjoined c hc
      · exact List.mem_singleton.mp hc ▸ ihright
  | @comparison span left link links left' ops comparators _ hops hlength _ ihleft ih =>
    -- There are as many operators as links, and as many operands.
    have hcount := congrArg List.length hops
    simp only [List.length_map, List.length_cons] at hcount hlength
    refine .expression rfl ⟨by omega, by omega⟩ (List.forall_mem_cons.mpr ⟨ihleft, ?_⟩)
    exact forall_of_zip (by rw [List.length_map]; exact hlength) ih
  | conditional _ _ _ ihbody ihtest ihorelse =>
    exact .expression rfl trivial (by simpa [Node.toList] using ⟨ihtest, ihbody, ihorelse⟩)
  | subscript _ _ ihobject ihindex =>
    exact .expression rfl trivial (by simpa [Node.toList] using ⟨ihobject, ihindex⟩)
  | subscripts _ hlength _ ihobject ih =>
    refine .expression rfl trivial (List.forall_mem_cons.mpr
      ⟨ihobject, List.forall_mem_singleton.mpr ?_⟩)
    exact .expression rfl trivial (forall_of_zip hlength ih)
  | @slice span parts trees hlength hcolons _ ih =>
    have htrees : ∀ tree ∈ trees, ∀ t ∈ tree, Forms .expression t := by
      refine forall_of_zip hlength fun p hp t ht => ?_
      obtain ⟨e, he⟩ := Option.isSome_iff_exists.mp ((hcolons p hp).trans (ht ▸ rfl))
      exact ih p hp e he t ht
    have hbound : ∀ i : Nat, ∀ t ∈ (bounds trees)[i]?.join, Forms .expression t := by
      intro i t ht
      have hmem := mem_of_mem_bounds (List.mem_of_getElem? (Option.join_eq_some_iff.mp ht))
      exact htrees _ hmem t rfl
    refine .expression rfl trivial fun c hc => ?_
    simp only [Node.toList, List.mem_append, Option.mem_toList] at hc
    rcases hc with (hc | hc) | hc
    · exact hbound 0 c hc
    · exact hbound 1 c hc
    · exact hbound 2 c hc
  | @call span func args func' args' keywords _ hlength _ hcount _ _ ihfunc ihargs ih =>
    have hkeywords : ∀ keyword ∈ keywords, Forms .expression keyword.value :=
      forall_of_zip hcount ih
    refine .expression rfl trivial (List.forall_mem_cons.mpr ⟨ihfunc, fun c hc => ?_⟩)
    rcases List.mem_append.mp hc with hc | hc
    · exact forall_of_zip hlength ihargs c hc
    · obtain ⟨keyword, hkeyword, rfl⟩ := List.mem_map.mp hc
      exact hkeywords keyword hkeyword
  | list hlength _ ih | tuple hlength _ ih | sequence hlength _ ih =>
    exact .expression rfl trivial (forall_of_zip hlength ih)
  | parens _ ih => exact ih
  | @dict span pairs entries hlength _ _ ihkeys ihvalues =>
    have hentries : ∀ entry ∈ entries,
        Forms .expression entry.1 ∧ Forms .expression entry.2 :=
      forall_of_zip hlength fun p hp => ⟨ihkeys p hp, ihvalues p hp⟩
    refine .expression rfl trivial fun c hc => ?_
    obtain ⟨entry, hentry, hc⟩ := List.mem_flatMap.mp hc
    rcases List.mem_cons.mp hc with rfl | hc
    · exact (hentries entry hentry).1
    · exact List.mem_singleton.mp hc ▸ (hentries entry hentry).2

/-- What targets are read as is well formed. -/
theorem Expr.Targets.forms {e : Expr} {t : Tree} (h : e.Targets t) : Forms .expression t := by
  induction h with
  | place h => exact h.forms
  | sequence hlength _ ih | tuple hlength _ ih | list hlength _ ih =>
    exact .expression rfl trivial (forall_of_zip hlength ih)
  | parens hlength _ ih => exact .expression rfl trivial (forall_of_zip hlength ih)

/-- What expressions are read as, one by one, is well formed. -/
theorem Expr.forms_of_forall₂ {es : List Expr} {ts : List Tree}
    (h : List.Forall₂ Expr.Reads es ts) : ∀ t ∈ ts, Forms .expression t :=
  forall_of_zip h.length_eq fun _ hp => (List.forall₂_zip h hp).forms

/-- What an optional expression is read as is well formed. -/
theorem Expr.forms_of_rel {e : Option Expr} {t : Option Tree} (h : Option.Rel Expr.Reads e t) :
    ∀ t' ∈ t.toList, Forms .expression t' := by
  cases h with
  | none => exact nofun
  | some h => exact List.forall_mem_singleton.mpr h.forms

/-- What statements are read as is well formed. -/
theorem Stmt.Reads.forms {s : Stmt} {t : Tree} (h : s.Reads t) : Forms .statement t := by
  induction h with
  | expression hvalue =>
    exact .mk_node rfl trivial nofun (List.forall_mem_singleton.mpr hvalue.forms)
  | assign htarget hvalue | augAssign htarget hvalue =>
    exact .mk_node rfl trivial nofun
      (List.forall_mem_cons.mpr ⟨htarget.forms, List.forall_mem_singleton.mpr hvalue.forms⟩)
  | functionDef hlength _ ih => exact .mk_node rfl trivial (forall_of_zip hlength ih) nofun
  | classDef hlength _ ih => exact .mk_node rfl trivial (forall_of_zip hlength ih) nofun
  | classDefOf _ hbases hlength _ ih =>
    exact .mk_node rfl trivial (forall_of_zip hlength ih) (Expr.forms_of_forall₂ hbases)
  | ifStmt htest hlength _ hlength' _ ih ih' =>
    exact .mk_node rfl trivial
      (List.forall_mem_append.mpr ⟨forall_of_zip hlength ih, forall_of_zip hlength' ih'⟩)
      (List.forall_mem_singleton.mpr htest.forms)
  | whileLoop htest hlength _ ih =>
    exact .mk_node rfl trivial (forall_of_zip hlength ih)
      (List.forall_mem_singleton.mpr htest.forms)
  | forLoop htarget hiter hlength _ ih =>
    exact .mk_node rfl trivial (forall_of_zip hlength ih)
      (List.forall_mem_cons.mpr ⟨htarget.forms, List.forall_mem_singleton.mpr hiter.forms⟩)
  | @tryStmt span body clauses body' final handlers hlength _ _ hcount _ hcaught hlengths _
      hlength' _ ih ihhandlers ihfinal =>
    refine .mk_node rfl ?_ ?_ ?_
    · exact forall_of_zip hcount fun p hp => (hcaught p hp).named nofun
    · have hbodies : ∀ handler ∈ handlers, ∀ c ∈ handler.body, Forms .statement c :=
        forall_of_zip hcount fun p hp => forall_of_zip (hlengths p hp) (ihhandlers p hp)
      exact List.forall_mem_append.mpr ⟨List.forall_mem_append.mpr
        ⟨forall_of_zip hlength ih, List.forall_mem_flatMap.mpr hbodies⟩,
        forall_of_zip hlength' ihfinal⟩
    · have hexceptions : ∀ handler ∈ handlers, ∀ c ∈ handler.exception.toList,
          Forms .expression c := by
        refine forall_of_zip hcount fun p hp c hc => ?_
        obtain ⟨e, -, he⟩ :=
          ((hcaught p hp).read c (Option.mem_toList.mp hc)).resolve_left nofun
        exact he.forms
      exact List.forall_mem_flatMap.mpr hexceptions
  | @withStmt span item items body items' body' hitems hlength _ ih =>
    have hcontexts : ∀ item ∈ items', Forms .expression item.context :=
      forall_of_zip hitems.length_eq fun p hp => (List.forall₂_zip hitems hp).context.forms
    have hitem : 1 ≤ items'.length := hitems.length_eq ▸ Nat.succ_pos _
    exact .mk_node rfl hitem (forall_of_zip hlength ih) (List.forall_mem_map.mpr hcontexts)
  | returnStmt hvalue => exact .mk_node rfl trivial nofun (Expr.forms_of_rel hvalue)
  | raiseStmt hexception => exact .mk_node rfl trivial nofun (Expr.forms_of_rel hexception)
  | importStmt => exact .mk_node rfl (Nat.succ_pos _) nofun nofun
  | passStmt | breakStmt | continueStmt => exact .mk_node rfl trivial nofun nofun

/-- The tree of a source text is well formed: its root stands for the whole text and no other node
    does, and every node has as many parts as its kind needs, with statements where statements
    belong and expressions elsewhere. -/
theorem read_wellFormed {text : String} {tree : Tree} (h : read text = .ok tree) :
    tree.kind = .moduleDef ∧ (∀ c ∈ tree.children, ∀ d ∈ c.descendants, d.kind ≠ .moduleDef) ∧
      ∀ d ∈ tree.descendants, d.node.WellFormed := by
  obtain ⟨statements, body, -, hreads, rfl⟩ := read_eq_ok h
  have hforms : ∀ t ∈ body, Forms .statement t :=
    forall_of_zip hreads.length_eq fun p hp => (List.forall₂_zip hreads hp).forms
  have hmodule : Forms .source (.mk ⟨1, 0⟩ (.moduleDef body)) :=
    .mk_node rfl trivial hforms nofun
  exact ⟨rfl, fun c hc => (hforms c hc).kind_ne (by decide), hmodule.nodes⟩

/-- A chain of comparisons where an exception is caught by its name. -/
theorem read_wellFormed_tryStmt :
    ∃ tree, read "try:\n  f(0 < x < 2 and y)\nexcept E as e:\n  pass\n" = .ok tree ∧
      tree.kind = .moduleDef ∧ (∀ c ∈ tree.children, ∀ d ∈ c.descendants, d.kind ≠ .moduleDef) ∧
      ∀ d ∈ tree.descendants, d.node.WellFormed := by
  have hok : (read "try:\n  f(0 < x < 2 and y)\nexcept E as e:\n  pass\n").isOk = true := by
    decide +kernel
  rcases htree : read "try:\n  f(0 < x < 2 and y)\nexcept E as e:\n  pass\n" with e | tree
  · rw [htree] at hok
    cases hok
  · exact ⟨tree, rfl, read_wellFormed htree⟩

end Source

end Rendition
