import Mathlib.Data.List.Forall2
import Rendition.Proofs.Physl.Parts

/-!
# What texts are put together from

A node puts the texts of its parts together in few ways: it applies primitives and methods to them,
and a module puts them on lines. Besides these there are names and constants. So to compare the
texts of two renditions, one with places and one without for instance, it is enough to know that
applications and lines keep a relation between texts, and that names and constants have it.

## Main definitions

* `Physl.primitives`: The names that nodes apply by themselves.
* `Physl.identifiers`: The names that are written in a node.
* `Physl.Congruence`: A relation between texts that applications and lines keep.

## Theorems

* `Congruence.assemble`: Related texts are put together to related ones.
-/

namespace Rendition.Physl

/-- The names that nodes apply by themselves. -/
def primitives : List String :=
  ["define", "store", "block", "if", "while", "for_each", "lambda", "list", "slice", "dict",
    "__arg", "__add", "__sub", "__mul", "__div", "__mod", "dot", "power", "__minus", "__not",
    "__eq", "__ne", "__lt", "__le", "__gt", "__ge", "__and", "__or"]

/-- The names that are written in a node: variables, functions, parameters, attributes and
    keywords. -/
def identifiers {α : Type} : Node α → List String
  | .functionDef name params _ => name :: params
  | .ident id => [id]
  | .call _ _ keywords => keywords.map Keyword.name
  | .attr _ name => [name]
  | .lambda params _ => params
  | _ => []

/-- A relation between texts that applications and lines keep, and that names at given places and
    constants have. -/
structure Congruence (annotate annotate' : Bool) (R : String → String → Prop)
    (names : String → Prop) (places : Span → Prop) : Prop where
  primitive : ∀ name ∈ primitives, names name
  constant : ∀ value, R (constantText value) (constantText value)
  tag {name : String} {span : Span} : names name → places span →
    R (tag annotate name span) (tag annotate' name span)
  apply {name : String} {span : Span} {texts texts' : List String} : names name → places span →
    List.Forall₂ R texts texts' →
      R (apply annotate name span texts) (apply annotate' name span texts')
  lines {texts texts' : List String} : List.Forall₂ R texts texts' →
    R ("\n".intercalate texts) ("\n".intercalate texts')

theorem mem_primitives_of_primitive? {op : Operator} {name : String}
    (h : primitive? op = some name) : name ∈ primitives := by
  cases op <;> cases h <;> decide

theorem mem_primitives_of_mapM {ops : List Comparison} {names : List String}
    (h : ops.mapM comparisonPrimitive? = some names) : ∀ name ∈ names, name ∈ primitives := by
  induction ops generalizing names with
  | nil =>
    obtain rfl := Option.some.inj h
    simp
  | cons op ops ih =>
    simp only [List.mapM_cons, Option.bind_eq_bind, Option.pure_def, Option.bind_eq_some_iff,
      Option.some.injEq] at h
    obtain ⟨first, hfirst, rest, hrest, rfl⟩ := h
    refine List.forall_mem_cons.mpr ⟨?_, ih hrest⟩
    cases op <;> cases hfirst <;> decide

namespace Congruence

variable {annotate annotate' : Bool} {R : String → String → Prop} {names : String → Prop}
  {places : Span → Prop} {span : Span} {texts texts' : List String}

section

variable (h : Congruence annotate annotate' R names places) (hspan : places span)

include h

theorem nil : R "nil" "nil" :=
  h.constant .none

include hspan

theorem tags {params : List String} (hparams : ∀ name ∈ params, names name) :
    List.Forall₂ R (params.map (Physl.tag annotate · span))
      (params.map (Physl.tag annotate' · span)) := by
  rw [List.forall₂_map_left_iff, List.forall₂_map_right_iff]
  exact List.forall₂_same.mpr fun name hname => h.tag (hparams name hname) hspan

theorem suite (htexts : List.Forall₂ R texts texts') :
    R (suite annotate span texts) (Physl.suite annotate' span texts') := by
  have hblock := h.apply (h.primitive "block" (by decide)) hspan htexts
  cases htexts with
  | nil => exact hblock
  | cons hfirst hrest =>
    cases hrest with
    | nil => exact hfirst
    | cons => exact hblock

theorem links {primitives : List String} (hprimitives : ∀ name ∈ primitives, names name)
    (htexts : List.Forall₂ R texts texts') :
    List.Forall₂ R
      ((primitives.zip (neighbours texts)).map fun (primitive, left, right) =>
        Physl.apply annotate primitive span [left, right])
      ((primitives.zip (neighbours texts')).map fun (primitive, left, right) =>
        Physl.apply annotate' primitive span [left, right]) := by
  induction htexts generalizing primitives with
  | nil => cases primitives <;> exact .nil
  | cons hfirst hrest ih =>
    rcases primitives with _ | ⟨primitive, primitives⟩
    · exact .nil
    obtain ⟨hprimitive, hprimitives⟩ := List.forall_mem_cons.mp hprimitives
    cases hrest with
    | nil => exact .nil
    | cons hsecond hrest =>
      exact .cons (h.apply hprimitive hspan (.cons hfirst (.cons hsecond .nil))) (ih hprimitives)

theorem chain {primitives : List String} (hprimitives : ∀ name ∈ primitives, names name)
    (htexts : List.Forall₂ R texts texts') :
    R (chain annotate span primitives texts) (Physl.chain annotate' span primitives texts') := by
  have hlinks := links h hspan hprimitives htexts
  have hand := h.apply (h.primitive "__and" (by decide)) hspan hlinks
  unfold Physl.chain
  dsimp only
  generalize List.map _ (primitives.zip (neighbours texts)) = links at hlinks hand ⊢
  generalize List.map _ (primitives.zip (neighbours texts')) = links' at hlinks hand ⊢
  cases hlinks with
  | nil => exact hand
  | cons hfirst hrest =>
    cases hrest with
    | nil => exact hfirst
    | cons => exact hand

theorem pairTexts (htexts : List.Forall₂ R texts texts') :
    List.Forall₂ R (pairTexts annotate span texts) (Physl.pairTexts annotate' span texts') := by
  induction texts using pairTexts.induct generalizing texts' with
  | case1 key value rest ih =>
    cases htexts with
    | cons hkey htexts =>
      cases htexts with
      | cons hvalue hrest =>
        refine .cons ?_ (ih hrest)
        exact h.apply (h.primitive "list" (by decide)) hspan (.cons hkey (.cons hvalue .nil))
  | case2 texts hother =>
    -- A key without a value is left out of both.
    cases htexts with
    | nil => exact .nil
    | cons _ hrest =>
      cases hrest with
      | nil => exact .nil
      | cons => exact (hother _ _ _ rfl).elim

omit hspan in
theorem keywordTexts {keywords : List (Keyword Tree)}
    (hkeywords : ∀ keyword ∈ keywords, names keyword.name ∧ places keyword.value.span)
    (htexts : List.Forall₂ R texts texts') :
    List.Forall₂ R (keywordTexts annotate keywords texts)
      (Physl.keywordTexts annotate' keywords texts') := by
  induction htexts generalizing keywords with
  | nil => cases keywords <;> exact .nil
  | cons hvalue hrest ih =>
    rcases keywords with _ | ⟨keyword, keywords⟩
    · exact .nil
    obtain ⟨⟨hname, hplace⟩, hkeywords⟩ := List.forall_mem_cons.mp hkeywords
    have htag := h.tag hname hplace
    exact .cons (h.apply (h.primitive "__arg" (by decide)) hplace (.cons htag (.cons hvalue .nil)))
      (ih hkeywords)

omit hspan in
theorem boundTexts (lower upper : Option Tree) (htexts : List.Forall₂ R texts texts') :
    List.Forall₂ R (boundTexts lower upper texts) (Physl.boundTexts lower upper texts') := by
  have hnil := h.nil
  rcases lower with _ | lower <;> rcases upper with _ | upper
  · exact .cons hnil (.cons hnil htexts)
  · exact .cons hnil htexts
  · cases htexts with
    | nil => exact .nil
    | cons hfirst hrest => exact .cons hfirst (.cons hnil hrest)
  · exact htexts

end

/-- The texts of parts that are related are put together to related texts, if the names and the
    places in the tree are among those that the relation is about. -/
theorem assemble (h : Congruence annotate annotate' R names places) {t : Tree}
    (ht : ∀ d ∈ t.descendants, (∀ name ∈ identifiers d.node, names name) ∧ places d.span)
    (fresh : Bool) (htexts : List.Forall₂ R texts texts') :
    Option.Rel R (assemble annotate fresh t.span texts t.node)
      (Physl.assemble annotate' fresh t.span texts' t.node) := by
  rcases t with ⟨span, node⟩
  have hchild : ∀ c ∈ node.toList, (∀ name ∈ identifiers c.node, names name) ∧ places c.span := by
    intro c hc
    refine ht c ?_
    rw [Tree.descendants_mk]
    refine List.mem_cons_of_mem _ (List.mem_flatMap.mpr ⟨c, hc, ?_⟩)
    exact Tree.mem_descendants.mpr ⟨[], rfl⟩
  obtain ⟨hnames, hspan⟩ := ht (.mk span node) (Tree.mem_descendants.mpr ⟨[], rfl⟩)
  have happly : ∀ {name : String} {args args' : List String}, name ∈ primitives →
      List.Forall₂ R args args' →
        Option.Rel R (some (Physl.apply annotate name span args))
          (some (Physl.apply annotate' name span args')) :=
    fun hname hargs => .some (h.apply (h.primitive _ hname) hspan hargs)
  simp only [Tree.span_mk, Tree.node_mk] at hnames hspan ⊢
  cases node with
  | moduleDef body => exact .some (h.lines htexts)
  | functionDef name params body =>
    obtain ⟨hname, hparams⟩ := List.forall_mem_cons.mp hnames
    have hsuite := h.suite hspan htexts
    refine happly (by decide) (.cons (h.tag hname hspan) ?_)
    exact List.rel_append (h.tags hspan hparams) (.cons hsuite .nil)
  | returnStmt value =>
    cases htexts with
    | nil => exact .some h.nil
    | cons hfirst hrest => exact .some hfirst
  | assign target value =>
    -- A name that is assigned to carries its own place; a subscript is rendered like a value.
    have htarget := hchild target List.mem_cons_self
    rcases target with ⟨tspan, tnode⟩
    cases tnode with
    | ident id =>
      have htag := h.tag (htarget.1 id List.mem_cons_self) htarget.2
      cases htexts with
      | nil => exact .none
      | cons hvalue hrest =>
        exact happly (by cases fresh <;> decide) (.cons htag (.cons hvalue .nil))
    | subscript value index =>
      cases htexts with
      | nil => exact .none
      | cons hvalue hrest =>
        cases hrest with
        | nil => exact .none
        | cons htarget hrest => exact happly (by decide) (.cons htarget (.cons hvalue .nil))
    | _ => exact .none
  | augAssign target op value =>
    simp only [Physl.assemble]
    rcases hop : primitive? op with _ | primitive
    · exact .none
    cases htexts with
    | nil => exact .none
    | cons htarget hrest =>
      cases hrest with
      | nil => exact .none
      | cons hvalue hrest =>
        have happlied := h.apply (h.primitive _ (mem_primitives_of_primitive? hop)) hspan
          (.cons htarget (.cons hvalue .nil))
        exact happly (by decide) (.cons htarget (.cons happlied .nil))
  | exprStmt value =>
    cases htexts with
    | nil => exact .none
    | cons hfirst hrest => exact .some hfirst
  | ifStmt test body orelse =>
    cases htexts with
    | nil => exact .none
    | cons htest hrest =>
      -- The texts of both branches come in one list, those of the body first.
      have hbody := h.suite hspan (List.forall₂_take body.length hrest)
      have horelse := h.suite hspan (List.forall₂_drop body.length hrest)
      refine happly (by decide) (.cons htest (.cons hbody ?_))
      split
      · exact .nil
      · exact .cons horelse .nil
  | whileLoop test body =>
    cases htexts with
    | nil => exact .none
    | cons htest hrest =>
      exact happly (by decide) (.cons htest (.cons (h.suite hspan hrest) .nil))
  | forLoop target iter body =>
    have htarget := hchild target List.mem_cons_self
    rcases target with ⟨tspan, tnode⟩
    cases tnode with
    | ident id =>
      have htag := h.tag (htarget.1 id List.mem_cons_self) htarget.2
      cases htexts with
      | nil => exact .none
      | cons hiter hbody =>
        -- The loop applies a function of its variable, with the body as what it does.
        have hstep := h.apply (h.primitive "lambda" (by decide)) hspan
          (.cons htag (.cons (h.suite hspan hbody) .nil))
        exact happly (by decide) (.cons hstep (.cons hiter .nil))
    | _ => exact .none
  | passStmt => exact .some h.nil
  | ident id => exact .some (h.tag (hnames id List.mem_cons_self) hspan)
  | constant value => exact .some (h.constant value)
  | binOp left op right =>
    simp only [Physl.assemble]
    rcases hop : primitive? op with _ | primitive
    · exact .none
    · exact happly (mem_primitives_of_primitive? hop) htexts
  | unaryOp op operand =>
    cases op with
    | invert => exact .none
    | uSub => exact happly (by decide) htexts
    | not => exact happly (by decide) htexts
    | uAdd =>
      cases htexts with
      | nil => exact .none
      | cons hfirst hrest => exact .some hfirst
  | compare left ops comparators =>
    simp only [Physl.assemble]
    rcases hops : ops.mapM comparisonPrimitive? with _ | primitives
    · exact .none
    · exact .some (h.chain hspan (fun name hname =>
        h.primitive name (mem_primitives_of_mapM hops name hname)) htexts)
  | boolOp op values => exact happly (by cases op <;> decide) htexts
  | call func args keywords =>
    have hfunc := hchild func List.mem_cons_self
    have hkeywords : ∀ keyword ∈ keywords, names keyword.name ∧ places keyword.value.span := by
      intro keyword hmem
      refine ⟨hnames _ (List.mem_map_of_mem hmem), (hchild keyword.value ?_).2⟩
      exact List.mem_cons_of_mem _ (List.mem_append_right _ (List.mem_map_of_mem hmem))
    -- The arguments come first; how many they are is the same for both, if a receiver is there.
    have hargs (count : Nat) : List.Forall₂ R
        (texts.take count ++ Physl.keywordTexts annotate keywords (texts.drop count))
        (texts'.take count ++ Physl.keywordTexts annotate' keywords (texts'.drop count)) :=
      List.rel_append (List.forall₂_take count htexts)
        (h.keywordTexts hkeywords (List.forall₂_drop count htexts))
    rcases func with ⟨fspan, fnode⟩
    simp only [Physl.assemble, htexts.length_eq]
    -- What is applied is a name or an attribute, at the place of the name.
    cases fnode with
    | ident id => exact .some (h.apply (hfunc.1 id List.mem_cons_self) hfunc.2 (hargs _))
    | attr value name => exact .some (h.apply (hfunc.1 name List.mem_cons_self) hfunc.2 (hargs _))
    | _ => exact .none
  | attr value name =>
    have hname := hnames name List.mem_cons_self
    simp only [Physl.assemble]
    split
    · exact .some (h.tag hname hspan)
    · exact .some (h.apply hname hspan htexts)
  | subscript value index => exact happly (by decide) htexts
  | slice lower upper step => exact happly (by decide) (h.boundTexts lower upper htexts)
  | list items => exact happly (by decide) htexts
  | tuple items => exact happly (by decide) htexts
  | dict entries => exact happly (by decide) (h.pairTexts hspan htexts)
  | ifExp test body orelse => exact happly (by decide) htexts
  | lambda params body =>
    exact happly (by decide) (List.rel_append (h.tags hspan hnames) htexts)
  | _ => exact .none

end Congruence

end Rendition.Physl
