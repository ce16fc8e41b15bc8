import Rendition.Proofs.Physl.Congruence
import Rendition.Proofs.Physl.Term
import Rendition.Proofs.Tree.Grammatical

/-!
# The term of a node

A node puts the texts of its parts together to the text of a term. Which term that is, is said here
for every kind of node, in terms of the terms of its parts: what is applied, and to which arguments
in which order. Only a module is no term, it is a list of them.

## Main definitions

* `Physl.draft`: The term of a node, from the terms of its parts.

## Theorems

* `text_draft`: The text of the term is the text of the node.
* `sound_draft`: The term is sound if the terms of the parts are and the names are bare.
-/

namespace Rendition.Physl

namespace Term

/-- The application of a primitive to terms. -/
def apply (annotate : Bool) (primitive : String) (span : Span) (args : List Term) : Term :=
  .app (tag annotate primitive span) args

/-- Statements as one term: a single one as it is, several as a block. -/
def suite (annotate : Bool) (span : Span) : List Term → Term
  | [single] => single
  | statements => apply annotate "block" span statements

/-- A chain of comparisons holds when each of its links does. -/
def chain (annotate : Bool) (span : Span) (primitives : List String) (operands : List Term) :
    Term :=
  let links := (primitives.zip (neighbours operands)).map fun (primitive, left, right) =>
    apply annotate primitive span [left, right]
  match links with
  | [single] => single
  | links => apply annotate "__and" span links

/-- Neighbours as pairs, each put into a list. -/
def pairs (annotate : Bool) (span : Span) : List Term → List Term
  | key :: value :: rest => apply annotate "list" span [key, value] :: pairs annotate span rest
  | _ => []

/-- The keyword arguments from their values. -/
def keywordArgs (annotate : Bool) (keywords : List (Keyword Tree)) (values : List Term) :
    List Term :=
  List.zipWith (fun keyword value => apply annotate "__arg" keyword.value.span
    [.word (tag annotate keyword.name keyword.value.span), value]) keywords values

/-- The bounds of a slice from those that are given. -/
def bounds (lower upper : Option Tree) (terms : List Term) : List Term :=
  match lower, upper, terms with
  | some _, some _, terms => terms
  | some _, none, lower :: rest => lower :: .word "nil" :: rest
  | none, some _, terms => .word "nil" :: terms
  | none, none, terms => .word "nil" :: .word "nil" :: terms
  | some _, none, [] => []

/-- The term of a constant: a literal for a text, a word for any other. -/
def constant : Literal → Term
  | .str value => .literal (String.ofList (value.toList.flatMap Text.quoteChar))
  | value => .word (constantText value)

end Term

/-- The term of a node, from the terms of its parts. Whether a name is new matters where it is
    assigned to. -/
def draft (annotate fresh : Bool) (span : Span) (terms : List Term) : Node Tree → Option Term
  | .functionDef name params _ => some (.apply annotate "define" span
      (.word (tag annotate name span) :: params.map (fun param => .word (tag annotate param span))
        ++ [.suite annotate span terms]))
  | .returnStmt _ => some (terms.headD (.word "nil"))
  | .assign target _ => match target.node, terms with
    | .ident id, value :: _ => some (.apply annotate (assignment fresh) span
        [.word (tag annotate id target.span), value])
    | .subscript .., value :: target :: _ => some (.apply annotate "store" span [target, value])
    | _, _ => none
  | .augAssign _ op _ => match primitive? op, terms with
    | some primitive, target :: value :: _ => some (.apply annotate "store" span
        [target, .apply annotate primitive span [target, value]])
    | _, _ => none
  | .exprStmt _ => terms.head?
  | .ifStmt _ body orelse => match terms with
    | test :: rest => some (.apply annotate "if" span
        ([test, .suite annotate span (rest.take body.length)]
          ++ if orelse.isEmpty then [] else [.suite annotate span (rest.drop body.length)]))
    | [] => none
  | .whileLoop _ _ => match terms with
    | test :: body => some (.apply annotate "while" span [test, .suite annotate span body])
    | [] => none
  | .forLoop target _ _ => match target.node, terms with
    | .ident id, iter :: body => some (.apply annotate "for_each" span
        [.apply annotate "lambda" span
          [.word (tag annotate id target.span), .suite annotate span body], iter])
    | _, _ => none
  | .passStmt => some (.word "nil")
  | .ident id => some (.word (tag annotate id span))
  | .constant value => some (.constant value)
  | .binOp _ op _ => (primitive? op).map fun primitive => .apply annotate primitive span terms
  | .unaryOp op _ => match op with
    | .uSub => some (.apply annotate "__minus" span terms)
    | .not => some (.apply annotate "__not" span terms)
    | .uAdd => terms.head?
    | .invert => none
  | .compare _ ops _ => (ops.mapM comparisonPrimitive?).map fun primitives =>
      .chain annotate span primitives terms
  | .boolOp op _ => some (.apply annotate (connectivePrimitive op) span terms)
  | .call func _ keywords => (calleeText? annotate func).map fun name =>
      let count := terms.length - keywords.length
      .app name (terms.take count ++ Term.keywordArgs annotate keywords (terms.drop count))
  | .attr value name =>
    if isModuleAlias value.node then some (.word (tag annotate name span))
    else some (.apply annotate name span terms)
  | .subscript _ _ => some (.apply annotate "slice" span terms)
  | .slice lower upper _ => some (.apply annotate "list" span (Term.bounds lower upper terms))
  | .list _ | .tuple _ => some (.apply annotate "list" span terms)
  | .dict _ => some (.apply annotate "dict" span (Term.pairs annotate span terms))
  | .ifExp _ _ _ => some (.apply annotate "if" span terms)
  | .lambda params _ => some (.apply annotate "lambda" span
      (params.map (fun param => .word (tag annotate param span)) ++ terms))
  | .moduleDef _ | .breakStmt | .continueStmt | .tryStmt .. | .withStmt .. | .raiseStmt _
  | .classDef .. | .importStmt .. => none

/-! ## Texts -/

namespace Term

variable {annotate : Bool} {span : Span}

@[simp] theorem text_word (name : String) : (word name).text = name := rfl

@[simp] theorem text_apply (annotate : Bool) (primitive : String) (span : Span)
    (args : List Term) : (apply annotate primitive span args).text =
      Physl.apply annotate primitive span (args.map text) :=
  text_app _ args

theorem text_suite (annotate : Bool) (span : Span) (terms : List Term) :
    (suite annotate span terms).text = Physl.suite annotate span (terms.map text) := by
  rcases terms with _ | ⟨first, _ | ⟨second, rest⟩⟩
  · exact text_apply annotate "block" span []
  · rfl
  · exact text_apply annotate "block" span (first :: second :: rest)

theorem text_chain (annotate : Bool) (span : Span) (primitives : List String)
    (terms : List Term) :
    (chain annotate span primitives terms).text =
      Physl.chain annotate span primitives (terms.map text) := by
  have hlinks : ((primitives.zip (neighbours terms)).map fun link =>
        apply annotate link.1 span [link.2.1, link.2.2]).map text =
      (primitives.zip (neighbours (terms.map text))).map fun link =>
        Physl.apply annotate link.1 span [link.2.1, link.2.2] := by
    rw [neighbours, neighbours, ← List.map_tail, List.zip_map, List.zip_map_right, List.map_map,
      List.map_map]
    refine List.map_congr_left fun link _ => ?_
    exact text_apply annotate link.1 span [link.2.1, link.2.2]
  unfold chain Physl.chain
  dsimp only
  rw [← hlinks]
  generalize List.map _ (primitives.zip (neighbours terms)) = links
  rcases links with _ | ⟨first, _ | ⟨second, rest⟩⟩
  · exact text_apply annotate "__and" span []
  · rfl
  · exact text_apply annotate "__and" span (first :: second :: rest)

theorem map_text_pairs (annotate : Bool) (span : Span) : ∀ terms : List Term,
    (pairs annotate span terms).map text = pairTexts annotate span (terms.map text)
  | key :: value :: rest => by
    rw [pairs, List.map_cons, map_text_pairs annotate span rest, text_apply]
    rfl
  | [_] => rfl
  | [] => rfl

theorem map_text_keywordArgs (annotate : Bool) (keywords : List (Keyword Tree))
    (terms : List Term) :
    (keywordArgs annotate keywords terms).map text =
      keywordTexts annotate keywords (terms.map text) := by
  rw [keywordArgs, keywordTexts, List.map_zipWith, List.zipWith_map_right]
  simp only [text_apply, List.map_cons, List.map_nil, text_word]

theorem map_text_bounds (lower upper : Option Tree) (terms : List Term) :
    (bounds lower upper terms).map text = boundTexts lower upper (terms.map text) := by
  rcases lower with _ | lower <;> rcases upper with _ | upper <;>
    rcases terms with _ | ⟨t, rest⟩ <;> rfl

theorem text_constant (value : Literal) : (constant value).text = constantText value := by
  cases value with
  | str value =>
    rw [← String.toList_inj, constant, toList_literal, constantText, Text.toList_quote,
      String.toList_ofList]
  | _ => rfl

end Term

/-- The text of the term is the text of the node. -/
theorem text_draft (annotate fresh : Bool) (span : Span) (terms : List Term) {node : Node Tree}
    (hnode : node.kind ≠ .moduleDef) :
    (draft annotate fresh span terms node).map Term.text =
      assemble annotate fresh span (terms.map Term.text) node := by
  have htags : ∀ params : List String,
      (params.map fun param => Term.word (tag annotate param span)).map Term.text =
        params.map (tag annotate · span) := fun params => by
    rw [List.map_map]
    rfl
  cases node with
  | moduleDef body => exact absurd rfl hnode
  | functionDef name params body =>
    simp only [draft, assemble, Option.map_some, Term.text_apply, List.map_append, List.map_cons,
      List.map_nil, htags, Term.text_word, Term.text_suite]
  | returnStmt value => rcases terms with _ | ⟨t, rest⟩ <;> rfl
  | assign target value =>
    rcases target with ⟨tspan, tnode⟩
    rcases terms with _ | ⟨value, _ | ⟨target, rest⟩⟩ <;> cases tnode <;>
      simp only [draft, assemble, Tree.node_mk, Option.map_some, Option.map_none, Term.text_apply,
        List.map_cons, List.map_nil, Term.text_word]
  | augAssign target op value =>
    rcases hop : primitive? op with _ | primitive
    · simp only [draft, assemble, hop, Option.map_none]
    rcases terms with _ | ⟨target, _ | ⟨value, rest⟩⟩ <;>
      simp only [draft, assemble, hop, Option.map_some, Option.map_none, Term.text_apply,
        List.map_cons, List.map_nil]
  | exprStmt value => rcases terms with _ | ⟨t, rest⟩ <;> rfl
  | ifStmt test body orelse =>
    rcases terms with _ | ⟨test, rest⟩
    · rfl
    simp only [draft, assemble, Option.map_some, Term.text_apply, List.map_append, List.map_cons,
      List.map_nil, Term.text_suite, List.map_take]
    split
    · rfl
    · simp only [List.map_cons, List.map_nil, Term.text_suite, List.map_drop]
  | whileLoop test body =>
    rcases terms with _ | ⟨test, rest⟩
    · rfl
    · simp only [draft, assemble, Option.map_some, Term.text_apply, List.map_cons, List.map_nil,
        Term.text_suite]
  | forLoop target iter body =>
    rcases target with ⟨tspan, tnode⟩
    rcases terms with _ | ⟨iter, rest⟩ <;> cases tnode <;>
      simp only [draft, assemble, Tree.node_mk, Option.map_some, Option.map_none, Term.text_apply,
        List.map_cons, List.map_nil, Term.text_word, Term.text_suite]
  | constant value => exact congrArg some (Term.text_constant value)
  | binOp left op right =>
    rcases hop : primitive? op with _ | primitive <;>
      simp only [draft, assemble, hop, Option.map_none, Option.map_some, Term.text_apply]
  | unaryOp op operand =>
    cases op with
    | uAdd => rcases terms with _ | ⟨t, rest⟩ <;> rfl
    | invert => rfl
    | _ => exact congrArg some (Term.text_apply annotate _ span terms)
  | compare left ops comparators =>
    rcases hops : ops.mapM comparisonPrimitive? with _ | primitives <;>
      simp only [draft, assemble, hops, Option.map_none, Option.map_some, Term.text_chain]
  | call func args keywords =>
    rcases hname : calleeText? annotate func with _ | name <;>
      simp only [draft, assemble, hname, Option.map_none, Option.map_some, Term.text_app,
        List.map_append, List.map_take, List.map_drop, Term.map_text_keywordArgs, List.length_map]
  | attr value name =>
    simp only [draft, assemble]
    split
    · rfl
    · rw [Option.map_some, Term.text_apply]
  | slice lower upper step =>
    simp only [draft, assemble, Option.map_some, Term.text_apply, Term.map_text_bounds]
  | dict entries =>
    simp only [draft, assemble, Option.map_some, Term.text_apply, Term.map_text_pairs]
  | lambda params body =>
    simp only [draft, assemble, Option.map_some, Term.text_apply, List.map_append, htags]
  | _ =>
    simp only [draft, assemble, Option.map_some, Option.map_none, Term.text_apply, Term.text_word]

/-! ## Soundness -/

section Sound

variable {annotate : Bool} {span : Span} {terms : List Term}

theorem isBare_tag (annotate : Bool) {name : String} (span : Span) (h : IsBare name.toList) :
    IsBare (tag annotate name span).toList := by
  have hdigits : ∀ n : Nat, ∀ c ∈ (toString n).toList, c ≠ '"' ∧ delimits c = false := by
    intro n c hc
    have hplain : IsBare [c] := .of_unadorned (List.cons_ne_nil c []) fun d hd => by
      rw [List.mem_singleton.mp hd]
      exact unadorned_toString_nat n c hc
    exact hplain.2 c List.mem_cons_self
  have hdollar : ∀ c ∈ "$".toList, c ≠ '"' ∧ delimits c = false :=
    (show IsBare "$".toList by decide).2
  cases annotate with
  | false => exact h
  | true =>
    simp only [tag, if_true, String.toList_append]
    exact (((h.append hdollar).append (hdigits span.line)).append hdollar).append
      (hdigits span.column)

theorem isBare_primitives : ∀ name ∈ primitives, IsBare name.toList := by
  decide

namespace Term

theorem sound_tag {name : String} (h : IsBare name.toList) :
    (word (tag annotate name span)).Sound :=
  .word (isBare_tag annotate span h)

theorem sound_tags {names : List String} (h : ∀ name ∈ names, IsBare name.toList) :
    ∀ t ∈ names.map (fun name => word (tag annotate name span)), t.Sound := by
  intro t ht
  obtain ⟨name, hname, rfl⟩ := List.mem_map.mp ht
  exact sound_tag (h name hname)

theorem sound_nil : (word "nil").Sound :=
  .word (by decide)

theorem sound_apply {name : String} (h : IsBare name.toList) (hargs : ∀ t ∈ terms, t.Sound) :
    (apply annotate name span terms).Sound :=
  .app (isBare_tag annotate span h) hargs

theorem sound_suite (h : ∀ t ∈ terms, t.Sound) : (suite annotate span terms).Sound := by
  rcases terms with _ | ⟨first, _ | ⟨second, rest⟩⟩
  · exact sound_apply (isBare_primitives "block" (by decide)) h
  · exact h first List.mem_cons_self
  · exact sound_apply (isBare_primitives "block" (by decide)) h

theorem sound_chain {primitives : List String} (hnames : ∀ name ∈ primitives, IsBare name.toList)
    (h : ∀ t ∈ terms, t.Sound) : (chain annotate span primitives terms).Sound := by
  have hlinks : ∀ t ∈ (primitives.zip (neighbours terms)).map fun (primitive, left, right) =>
      apply annotate primitive span [left, right], t.Sound := by
    intro t ht
    obtain ⟨⟨name, left, right⟩, hlink, rfl⟩ := List.mem_map.mp ht
    obtain ⟨hname, hpair⟩ := List.of_mem_zip hlink
    obtain ⟨hleft, hright⟩ := List.of_mem_zip hpair
    refine sound_apply (hnames name hname) (List.forall_mem_cons.mpr ⟨h left hleft, ?_⟩)
    exact List.forall_mem_singleton.mpr (h right (List.mem_of_mem_tail hright))
  unfold chain
  dsimp only
  generalize List.map _ (primitives.zip (neighbours terms)) = links at hlinks ⊢
  rcases links with _ | ⟨first, _ | ⟨second, rest⟩⟩
  · exact sound_apply (isBare_primitives "__and" (by decide)) hlinks
  · exact hlinks first List.mem_cons_self
  · exact sound_apply (isBare_primitives "__and" (by decide)) hlinks

theorem sound_pairs : ∀ {terms : List Term}, (∀ t ∈ terms, t.Sound) →
    ∀ t ∈ pairs annotate span terms, t.Sound
  | key :: value :: rest, h => by
    obtain ⟨hkey, h⟩ := List.forall_mem_cons.mp h
    obtain ⟨hvalue, h⟩ := List.forall_mem_cons.mp h
    refine List.forall_mem_cons.mpr ⟨sound_apply (isBare_primitives "list" (by decide)) ?_,
      sound_pairs h⟩
    exact List.forall_mem_cons.mpr ⟨hkey, List.forall_mem_singleton.mpr hvalue⟩
  | [_], _ => List.forall_mem_nil _
  | [], _ => List.forall_mem_nil _

theorem sound_keywordArgs {keywords : List (Keyword Tree)}
    (hnames : ∀ keyword ∈ keywords, IsBare keyword.name.toList) (h : ∀ t ∈ terms, t.Sound) :
    ∀ t ∈ keywordArgs annotate keywords terms, t.Sound := by
  intro t ht
  rw [keywordArgs, ← List.map_uncurry_zip_eq_zipWith] at ht
  obtain ⟨⟨keyword, value⟩, hpair, rfl⟩ := List.mem_map.mp ht
  obtain ⟨hkeyword, hvalue⟩ := List.of_mem_zip hpair
  refine sound_apply (isBare_primitives "__arg" (by decide)) (List.forall_mem_cons.mpr ⟨?_, ?_⟩)
  · exact sound_tag (hnames keyword hkeyword)
  · exact List.forall_mem_singleton.mpr (h value hvalue)

theorem sound_bounds (lower upper : Option Tree) (h : ∀ t ∈ terms, t.Sound) :
    ∀ t ∈ bounds lower upper terms, t.Sound := by
  have hnil := sound_nil
  rcases lower with _ | lower <;> rcases upper with _ | upper
  · exact List.forall_mem_cons.mpr ⟨hnil, List.forall_mem_cons.mpr ⟨hnil, h⟩⟩
  · exact List.forall_mem_cons.mpr ⟨hnil, h⟩
  · rcases terms with _ | ⟨first, rest⟩
    · exact List.forall_mem_nil _
    · obtain ⟨hfirst, hrest⟩ := List.forall_mem_cons.mp h
      exact List.forall_mem_cons.mpr ⟨hfirst, List.forall_mem_cons.mpr ⟨hnil, hrest⟩⟩
  · exact h

theorem sound_constant (value : Literal) : (constant value).Sound := by
  cases value with
  | none => exact sound_nil
  | bool value => exact .word (by cases value <;> decide)
  | int value =>
    exact .word (.of_unadorned (mt String.toList_eq_nil_iff.mp (text_int_ne_empty value))
      (unadorned_int value))
  | float value =>
    exact .word (.of_unadorned (mt String.toList_eq_nil_iff.mp (text_float_ne_empty value))
      (unadorned_float value))
  | str value =>
    refine .literal ?_
    rw [String.toList_ofList]
    exact inside_quoted value.toList

end Term

open Term in
/-- The term is sound if the terms of the parts are and the names in the tree are bare. -/
theorem sound_draft {fresh : Bool} {t : Tree} {term : Term}
    (hnames : ∀ d ∈ t.descendants, ∀ name ∈ identifiers d.node, IsBare name.toList)
    (hterms : ∀ t ∈ terms, t.Sound) (h : draft annotate fresh t.span terms t.node = some term) :
    term.Sound := by
  rcases t with ⟨span, node⟩
  have hroot := hnames _ (Tree.mem_descendants_self (.mk span node))
  have hchild : ∀ c ∈ node.toList, ∀ name ∈ identifiers c.node, IsBare name.toList := fun c hc =>
    hnames c (Tree.mem_descendants_of_child (t := .mk span node) hc (Tree.mem_descendants_self c))
  have happly : ∀ {name : String} {args : List Term}, name ∈ primitives →
      (∀ t ∈ args, t.Sound) → (Term.apply annotate name span args).Sound :=
    fun hname hargs => sound_apply (isBare_primitives _ hname) hargs
  have hpair : ∀ {a b : Term}, a.Sound → b.Sound → ∀ t ∈ [a, b], t.Sound := fun ha hb =>
    List.forall_mem_cons.mpr ⟨ha, List.forall_mem_singleton.mpr hb⟩
  simp only [Tree.span_mk, Tree.node_mk] at h hroot
  cases node with
  | functionDef name params body =>
    cases h
    obtain ⟨hname, hparams⟩ := List.forall_mem_cons.mp hroot
    refine happly (by decide) (List.forall_mem_append.mpr ⟨List.forall_mem_cons.mpr
      ⟨sound_tag hname, sound_tags hparams⟩, ?_⟩)
    exact List.forall_mem_singleton.mpr (sound_suite hterms)
  | returnStmt value =>
    cases h
    rcases terms with _ | ⟨first, rest⟩
    · exact sound_nil
    · exact hterms first List.mem_cons_self
  | assign target value =>
    have htarget := hchild target List.mem_cons_self
    rcases target with ⟨tspan, tnode⟩
    rcases terms with _ | ⟨value, _ | ⟨target, rest⟩⟩ <;> cases tnode
    all_goals try cases h
    · exact happly (by cases fresh <;> decide) (hpair
        (sound_tag (htarget _ List.mem_cons_self)) (hterms value List.mem_cons_self))
    · exact happly (by cases fresh <;> decide) (hpair
        (sound_tag (htarget _ List.mem_cons_self)) (hterms value List.mem_cons_self))
    · exact happly (by decide) (hpair (hterms target (List.mem_cons_of_mem _ List.mem_cons_self))
        (hterms value List.mem_cons_self))
  | augAssign target op value =>
    simp only [draft] at h
    split at h
    case h_2 => cases h
    case h_1 primitive target value rest hop =>
      cases h
      have htarget := hterms target List.mem_cons_self
      have hvalue := hterms value (List.mem_cons_of_mem _ List.mem_cons_self)
      exact happly (by decide) (hpair htarget
        (happly (mem_primitives_of_primitive? hop) (hpair htarget hvalue)))
  | exprStmt value => exact hterms term (List.mem_of_mem_head? h)
  | ifStmt test body orelse =>
    rcases terms with _ | ⟨test, rest⟩
    · cases h
    cases h
    obtain ⟨htest, hrest⟩ := List.forall_mem_cons.mp hterms
    have hbody := @sound_suite annotate span (rest.take body.length) fun t ht =>
      hrest t (List.mem_of_mem_take ht)
    have horelse := @sound_suite annotate span (rest.drop body.length) fun t ht =>
      hrest t (List.mem_of_mem_drop ht)
    refine happly (by decide) (List.forall_mem_append.mpr ⟨hpair htest hbody, ?_⟩)
    split
    · exact List.forall_mem_nil _
    · exact List.forall_mem_singleton.mpr horelse
  | whileLoop test body =>
    rcases terms with _ | ⟨test, rest⟩
    · cases h
    cases h
    obtain ⟨htest, hrest⟩ := List.forall_mem_cons.mp hterms
    exact happly (by decide) (hpair htest (sound_suite hrest))
  | forLoop target iter body =>
    have htarget := hchild target List.mem_cons_self
    rcases target with ⟨tspan, tnode⟩
    rcases terms with _ | ⟨iter, rest⟩ <;> cases tnode
    all_goals try cases h
    obtain ⟨hiter, hrest⟩ := List.forall_mem_cons.mp hterms
    refine happly (by decide) (hpair (happly (by decide) (hpair ?_ (sound_suite hrest))) hiter)
    exact sound_tag (htarget _ List.mem_cons_self)
  | passStmt =>
    cases h
    exact sound_nil
  | ident id =>
    cases h
    exact sound_tag (hroot id List.mem_cons_self)
  | constant value =>
    cases h
    exact sound_constant value
  | binOp left op right =>
    obtain ⟨primitive, hop, rfl⟩ := Option.map_eq_some_iff.mp h
    exact happly (mem_primitives_of_primitive? hop) hterms
  | unaryOp op operand =>
    cases op with
    | uAdd => exact hterms term (List.mem_of_mem_head? h)
    | invert => cases h
    | uSub => cases h; exact happly (by decide) hterms
    | not => cases h; exact happly (by decide) hterms
  | compare left ops comparators =>
    obtain ⟨primitives, hops, rfl⟩ := Option.map_eq_some_iff.mp h
    exact sound_chain (fun name hname =>
      isBare_primitives name (mem_primitives_of_mapM hops name hname)) hterms
  | boolOp op values =>
    cases h
    exact happly (by cases op <;> decide) hterms
  | call func args keywords =>
    obtain ⟨name, hname, rfl⟩ := Option.map_eq_some_iff.mp h
    have hfunc := hchild func List.mem_cons_self
    have hkeywords : ∀ keyword ∈ keywords, IsBare keyword.name.toList := fun keyword hmem =>
      hroot _ (List.mem_map_of_mem hmem)
    have hhead : IsBare name.toList := by
      rcases func with ⟨fspan, fnode⟩
      cases fnode <;> cases hname <;> exact isBare_tag annotate fspan (hfunc _ List.mem_cons_self)
    refine .app hhead (List.forall_mem_append.mpr
      ⟨fun t ht => hterms t (List.mem_of_mem_take ht), ?_⟩)
    exact sound_keywordArgs hkeywords fun t ht => hterms t (List.mem_of_mem_drop ht)
  | attr value name =>
    have hname := hroot name List.mem_cons_self
    simp only [draft] at h
    split at h <;> cases h
    · exact sound_tag hname
    · exact sound_apply hname hterms
  | subscript value index => cases h; exact happly (by decide) hterms
  | slice lower upper step =>
    cases h
    exact happly (by decide) (sound_bounds lower upper hterms)
  | list items => cases h; exact happly (by decide) hterms
  | tuple items => cases h; exact happly (by decide) hterms
  | dict entries =>
    cases h
    exact happly (by decide) (sound_pairs hterms)
  | ifExp test body orelse => cases h; exact happly (by decide) hterms
  | lambda params body =>
    cases h
    exact happly (by decide) (List.forall_mem_append.mpr ⟨sound_tags hroot, hterms⟩)
  | _ => cases h

end Sound

end Rendition.Physl
