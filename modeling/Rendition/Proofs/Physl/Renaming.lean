import Mathlib.Logic.Equiv.Basic
import Rendition.Proofs.Physl.Lockstep
import Rendition.Proofs.Physl.Tokens
import Rendition.Proofs.Tree.Grammatical

/-!
# Other names

Giving one name of a tree another name that does not occur in it changes the rendition in this name
only: whether there is one, what is defined and what is stored to, and every other token stay. What
a name is called does matter in one place, the attributes of a module that names primitives
directly, which is known by its name alone: so the name must not be that of such a module, or no
attribute of it may be taken.

## Main definitions

* `Node.rename`, `Tree.rename`: The same tree with other names of variables and functions.
* `replacing`: One name in place of another.
* `Physl.Faithful`: Nodes at which a renaming does not turn a module into a value or a value into a
  module.

## Theorems

* `related_script`: Scripts of renamed nodes do the same to renamed scopes.
* `related_render`: Renditions of a tree and of the renamed tree.
* `paired_rename`: Renaming a name to a fresh one changes the tokens of the name only.
* `render_module_parameter`: The name of a module is an exception.
-/

namespace Rendition

/-- The same node with other names of variables, parameters and functions. -/
def Node.rename {α : Type} (ρ : String → String) : Node α → Node α
  | .functionDef name params body => .functionDef (ρ name) (params.map ρ) body
  | .ident id => .ident (ρ id)
  | .lambda params body => .lambda (params.map ρ) body
  | node => node

/-- The same tree with other names of variables, parameters and functions. -/
def Tree.rename (ρ : String → String) (t : Tree) : Tree :=
  t.fold fun span node => .mk span (node.rename ρ)

theorem Tree.rename_mk (ρ : String → String) (span : Span) (node : Node Tree) :
    (Tree.mk span node).rename ρ = .mk span ((node.map (Tree.rename ρ)).rename ρ) := by
  rw [Tree.rename, Tree.fold_mk]
  rfl

/-- One name in place of another. -/
def replacing (p q name : String) : String :=
  if name = p then q else name

namespace Physl

variable {ρ : String → String}

/-! ## Renamed nodes -/

/-- The name behind which an attribute is looked for stands for a module before and after. -/
def Faithful (ρ : String → String) : Node Tree → Prop
  | .attr value _ => isModuleAlias (value.rename ρ).node = isModuleAlias value.node
  | _ => True

/-- What a node does to other names. -/
def Binding.rename (ρ : String → String) : Binding → Binding
  | .none => .none
  | .function func params => .function (ρ func) (params.map ρ)
  | .lambda params => .lambda (params.map ρ)
  | .loop id => .loop (ρ id)
  | .name id => .name (ρ id)

theorem refuses_rename (t : Tree) : refuses (t.rename ρ).node = refuses t.node := by
  have hvariable : ∀ target : Tree, isVariable (target.rename ρ) = isVariable target := by
    rintro ⟨span, node⟩
    cases node <;> simp [Tree.rename_mk, isVariable, Node.map, Node.rename]
  have hcallee : ∀ func : Tree, isCallee (func.rename ρ) = isCallee func := by
    rintro ⟨span, node⟩
    cases node <;> simp [Tree.rename_mk, isCallee, Node.map, Node.rename]
  rcases t with ⟨span, node⟩
  rw [Tree.rename_mk]
  cases node with
  | augAssign target op value => simp [refuses, Node.map, Node.rename, hvariable]
  | call func args keywords => simp [refuses, Node.map, Node.rename, hcallee]
  | forLoop target iter body =>
    rcases target with ⟨tspan, tnode⟩
    cases tnode <;> simp [Tree.rename_mk, refuses, Node.map, Node.rename]
  | _ => rfl

theorem binding_rename (t : Tree) : binding (t.rename ρ).node = (binding t.node).rename ρ := by
  rcases t with ⟨span, node⟩
  rw [Tree.rename_mk]
  cases node with
  | assign target value =>
    rcases target with ⟨tspan, tnode⟩
    cases tnode <;> simp [Tree.rename_mk, binding, Node.map, Node.rename, Binding.rename]
  | forLoop target iter body =>
    rcases target with ⟨tspan, tnode⟩
    cases tnode <;> simp [Tree.rename_mk, binding, Node.map, Node.rename, Binding.rename]
  | _ => rfl

theorem below_rename (path : Position) (start : Nat) (ts : List Tree) :
    below path start (ts.map (Tree.rename ρ)) =
      (below path start ts).map fun part => (part.1, part.2.rename ρ) := by
  simp only [below, list_mapIdx_map, list_map_mapIdx]

/-- The same trees below a node are rendered. -/
theorem parts_rename {t : Tree} (h : ∀ d ∈ t.descendants, Faithful ρ d.node) :
    parts (t.rename ρ).node = (parts t.node).map fun part => (part.1, part.2.rename ρ) := by
  rcases t with ⟨span, node⟩
  have hroot : Faithful ρ node := h _ (Tree.mem_descendants_self (.mk span node))
  have hchild : ∀ c ∈ node.toList, Faithful ρ c.node := fun c hc =>
    h c (Tree.mem_descendants_of_child (t := .mk span node) hc (Tree.mem_descendants_self c))
  have hchildren := below_rename (ρ := ρ) [] 0 node.toList
  rw [← Node.toList_map] at hchildren
  rw [Tree.rename_mk]
  cases node with
  | assign target value =>
    rcases target with ⟨tspan, tnode⟩
    cases tnode <;> simp [Tree.rename_mk, parts, element, Node.map, Node.rename]
  | forLoop target iter body => simp [parts, Node.map, Node.rename, below_rename]
  | call func args keywords =>
    have hreceiver : receiver (func.rename ρ) =
        (receiver func).map fun part => (part.1, part.2.rename ρ) := by
      have hfunc := hchild func List.mem_cons_self
      rcases func with ⟨fspan, fnode⟩
      cases fnode with
      | attr value name =>
        simp only [Tree.node_mk, Faithful] at hfunc
        simp only [Tree.rename_mk, receiver, Tree.node_mk, Node.map, Node.rename, hfunc]
        split <;> rfl
      | _ => simp [Tree.rename_mk, receiver, Node.map, Node.rename]
    have hrest := below_rename (ρ := ρ) [] 1 (args ++ keywords.map Keyword.value)
    simp only [List.map_append, List.map_map] at hrest
    simp only [parts, Tree.node_mk, Node.map, Node.rename, hreceiver, List.map_append,
      List.map_map, ← hrest]
    rfl
  | attr value name =>
    simp only [Faithful] at hroot
    simp only [parts, Tree.node_mk, Node.map, Node.rename, hroot]
    split <;> rfl
  | subscript value index =>
    rcases index with ⟨ispan, inode⟩
    cases inode <;> simp [Tree.rename_mk, parts, indices, Node.map, Node.rename, below_rename]
  | _ => exact hchildren

/-! ## Renamed texts -/

section Assemble

variable {p q : String} {texts texts' : List String}

/-- Texts that are renamed. -/
abbrev AllRenamed (p q : String) : List String → List String → Prop :=
  List.Forall₂ fun text text' => Renamed p q text.toList text'.toList

theorem renamed_params {params : List String}
    (h : ∀ name ∈ params, Renamed p q name.toList (ρ name).toList) (span : Span) :
    AllRenamed p q (params.map (tag false · span)) ((params.map ρ).map (tag false · span)) := by
  rw [List.map_map, AllRenamed, List.forall₂_map_left_iff, List.forall₂_map_right_iff]
  exact List.forall₂_same.mpr h

/-- The names that are given to variables, parameters and functions at a node. -/
def given {α : Type} : Node α → List String
  | .functionDef name params _ => name :: params
  | .ident id => [id]
  | .lambda params _ => params
  | _ => []

theorem mem_identifiers_of_given {α : Type} {node : Node α} {name : String}
    (h : name ∈ given node) : name ∈ identifiers node := by
  cases node <;> first | exact h | cases h

/-- The text of a renamed node from renamed texts is renamed. -/
theorem assemble_rename (fresh : Bool) {t : Tree}
    (hfaithful : ∀ d ∈ t.descendants, Faithful ρ d.node)
    (hwords : ∀ d ∈ t.descendants, ∀ name ∈ identifiers d.node, IsWord name.toList)
    (hgiven : ∀ d ∈ t.descendants, ∀ name ∈ given d.node, Renamed p q name.toList (ρ name).toList)
    (htexts : AllRenamed p q texts texts') :
    Option.Rel (fun text text' => Renamed p q text.toList text'.toList)
      (assemble false fresh t.span texts t.node)
      (assemble false fresh (t.rename ρ).span texts' (t.rename ρ).node) := by
  have hcongruence := congruence_renamed p q
  -- Most nodes put the same texts together whatever their variables are called.
  have hsame := hcongruence.assemble (t := t) (fun d hd => ⟨hwords d hd, trivial⟩) fresh htexts
  have hroot := hfaithful t (Tree.mem_descendants_self t)
  have hnames := hgiven t (Tree.mem_descendants_self t)
  have hchild : ∀ c ∈ t.children, (∀ name ∈ identifiers c.node, IsWord name.toList) ∧
      ∀ name ∈ given c.node, Renamed p q name.toList (ρ name).toList := fun c hc =>
    have hmem := Tree.mem_descendants_of_child hc (Tree.mem_descendants_self c)
    ⟨hwords c hmem, hgiven c hmem⟩
  have happly : ∀ {name : String} (span : Span) {args args' : List String}, name ∈ primitives →
      AllRenamed p q args args' → Renamed p q (Physl.apply false name span args).toList
        (Physl.apply false name span args').toList :=
    fun span _ _ hname hargs => hcongruence.apply (hcongruence.primitive _ hname) trivial hargs
  have hsuite : ∀ (span : Span) {texts texts' : List String}, AllRenamed p q texts texts' →
      Renamed p q (suite false span texts).toList (suite false span texts').toList :=
    fun span _ _ htexts => hcongruence.suite trivial htexts
  rcases t with ⟨span, node⟩
  rw [Tree.rename_mk]
  cases node with
  | functionDef name params body =>
    obtain ⟨hname, hparams⟩ := List.forall_mem_cons.mp hnames
    refine .some (happly span (by decide)
      (.cons hname (List.rel_append ?_ (.cons (hsuite span htexts) .nil))))
    exact renamed_params hparams span
  | assign target value =>
    have htarget := hchild target List.mem_cons_self
    rcases target with ⟨tspan, tnode⟩
    rw [Node.map, Tree.rename_mk]
    cases tnode with
    | ident id =>
      have hid := htarget.2 id List.mem_cons_self
      cases htexts with
      | nil => exact .none
      | cons hvalue hrest =>
        exact .some (happly span (by cases fresh <;> decide) (.cons hid (.cons hvalue .nil)))
    | _ => rcases texts' with _ | ⟨value, _ | ⟨target, rest⟩⟩ <;> exact hsame
  | forLoop target iter body =>
    have htarget := hchild target List.mem_cons_self
    rcases target with ⟨tspan, tnode⟩
    rw [Node.map, Tree.rename_mk]
    cases tnode with
    | ident id =>
      have hid := htarget.2 id List.mem_cons_self
      cases htexts with
      | nil => exact .none
      | cons hiter hbody =>
        have hstep := happly span (by decide : "lambda" ∈ primitives)
          (.cons hid (.cons (hsuite span hbody) .nil))
        exact .some (happly span (by decide) (.cons hstep (.cons hiter .nil)))
    | _ => rcases texts' with _ | ⟨iter, rest⟩ <;> exact hsame
  | ident id => exact .some (hnames id List.mem_cons_self)
  | lambda params body =>
    exact .some (happly span (by decide) (List.rel_append (renamed_params hnames span) htexts))
  | ifStmt test body orelse =>
    simp only [Tree.span_mk, Tree.node_mk, assemble, Node.map, Node.rename, List.length_map,
      List.isEmpty_map] at hsame ⊢
    exact hsame
  | call func args keywords =>
    have hfunc := hchild func List.mem_cons_self
    have hkeywords : ∀ values, keywordTexts false (keywords.map (Keyword.map (Tree.rename ρ)))
        values = keywordTexts false keywords values := by
      intro values
      rw [keywordTexts, List.zipWith_map_left]
      rfl
    have hargs : AllRenamed p q
        (texts.take (texts.length - keywords.length) ++
          keywordTexts false keywords (texts.drop (texts.length - keywords.length)))
        (texts'.take (texts.length - keywords.length) ++
          keywordTexts false keywords (texts'.drop (texts.length - keywords.length))) := by
      refine List.rel_append (List.forall₂_take _ htexts) ?_
      refine hcongruence.keywordTexts (fun keyword hmem => ⟨?_, trivial⟩)
        (List.forall₂_drop _ htexts)
      exact hwords _ (Tree.mem_descendants_self _) _ (List.mem_map_of_mem hmem)
    rcases func with ⟨fspan, fnode⟩
    simp only [Tree.node_mk, assemble, Node.map, Node.rename, hkeywords, List.length_map,
      Tree.rename_mk, htexts.length_eq] at hsame hargs ⊢
    -- The name that is applied may be another one, but not the name of an attribute.
    cases fnode with
    | ident id => exact .some (.apply (hfunc.2 id List.mem_cons_self) hargs)
    | _ => exact hsame
  | attr value name =>
    simp only [Tree.node_mk, Faithful] at hroot
    simp only [Tree.span_mk, Tree.node_mk, assemble, Node.map, Node.rename, hroot] at hsame ⊢
    exact hsame
  | slice lower upper step =>
    have hbounds : boundTexts (lower.map (Tree.rename ρ)) (upper.map (Tree.rename ρ)) texts' =
        boundTexts lower upper texts' := by
      cases lower <;> cases upper <;> cases texts' <;> rfl
    simp only [Tree.span_mk, Tree.node_mk, assemble, Node.map, Node.rename, hbounds] at hsame ⊢
    exact hsame
  | _ => exact hsame

end Assemble

/-! ## Renamed scopes -/

section Run

variable {σ τ α β : Type} [Scoping σ] [Scoping τ]

/-- The functions of one state know the names that those of the other do, by their new names. -/
def SameScopes (ρ : String → String) (s : σ) (t : τ) : Prop :=
  scopes t = (scopes s).map (List.map ρ)

variable {E : Unimplemented → Unimplemented → Prop} {R : α → β → Prop}

theorem SameScopes.change {s : σ} {t : τ} (h : SameScopes ρ s t) {change change' : Scopes → Scopes}
    (hchange : ∀ a : Scopes, change' (a.map (List.map ρ)) = (change a).map (List.map ρ)) :
    SameScopes ρ (changeScopes change s) (changeScopes change' t) := by
  rw [SameScopes, scopes_changeScopes, scopes_changeScopes, h, hchange]

/-- Whether a name is new does not depend on what it is called. -/
theorem related_declare (hρ : Function.Injective ρ) (name : String) :
    Related (SameScopes ρ) E Eq (declare name : Walk σ Bool) (declare (ρ name) : Walk τ Bool) := by
  intro s t h
  have hmem : ∀ scope : List String, (scope.map ρ).contains (ρ name) = scope.contains name := by
    intro scope
    rw [Bool.eq_iff_iff, List.contains_iff_mem, List.contains_iff_mem, List.mem_map_of_injective hρ]
  have hscopes : scopes t = (scopes s).map (List.map ρ) := h
  rw [run_declare, run_declare, hscopes]
  rcases scopes s with _ | ⟨scope, outer⟩
  · exact ⟨.ok rfl, h⟩
  · simp only [List.map_cons, hmem]
    split
    · exact ⟨.ok rfl, h⟩
    · refine ⟨.ok rfl, ?_⟩
      rw [SameScopes, Scoping.scopes_setScopes, Scoping.scopes_setScopes]
      rfl

theorem related_inScope {x : Walk σ α} {y : Walk τ β} (params : List String)
    (h : Related (SameScopes ρ) E R x y) :
    Related (SameScopes ρ) E R (inScope params x) (inScope (params.map ρ) y) := by
  intro s t hst
  have hopened : SameScopes ρ (changeScopes (params :: ·) s)
      (changeScopes (params.map ρ :: ·) t) := hst.change fun _ => rfl
  obtain ⟨hpaired, hinner⟩ := h _ _ hopened
  rw [run_inScope, run_inScope]
  exact ⟨hpaired, hinner.change fun a => (List.map_tail ..).symm⟩

theorem related_withVariable (hρ : Function.Injective ρ) {x : Walk σ α} {y : Walk τ β}
    (name : String) (h : Related (SameScopes ρ) E R x y) :
    Related (SameScopes ρ) E R (withVariable name x) (withVariable (ρ name) y) := by
  have hforget : ∀ a : Scopes,
      undeclare (ρ name) (a.map (List.map ρ)) = (undeclare name a).map (List.map ρ) := by
    rintro (_ | ⟨scope, outer⟩)
    · rfl
    · have hne : ((· != ρ name) ∘ ρ : String → Bool) = (· != name) := by
        funext x
        simp only [Function.comp_apply, bne, beq_eq_decide, hρ.eq_iff]
      rw [List.map_cons, undeclare, undeclare, List.map_cons, List.filter_map, hne]
  refine (related_declare hρ name).bind fun fresh _ hfresh s t hst => ?_
  subst hfresh
  obtain ⟨hpaired, hinner⟩ := h s t hst
  refine ⟨hpaired, hinner.change fun a => ?_⟩
  cases fresh
  · rfl
  · exact hforget a

/-- Scripts of renamed nodes do the same to renamed scopes. -/
theorem related_script {R : String → String → Prop} (hρ : Function.Injective ρ) {span : Span}
    {node node' : Node Tree} (hrefuses : refuses node' = refuses node)
    (hbinding : binding node' = (binding node).rename ρ)
    {vs : List (Visit (Walk σ) String)} {ws : List (Visit (Walk τ) String)}
    (hparts : List.Forall₂ (fun v w => Related (SameScopes ρ) E R v.run w.run) vs ws)
    (hassemble : ∀ fresh texts texts', List.Forall₂ R texts texts' → Option.Rel R
      (assemble false fresh span texts node) (assemble false fresh span texts' node')) :
    Related (SameScopes ρ) E (Option.Rel R) (script false span node vs)
      (script false span node' ws) := by
  have hfinish : ∀ fresh texts texts', List.Forall₂ R texts texts' →
      Related (SameScopes ρ) E (Option.Rel R)
        (pure (assemble false fresh span texts node) : Walk σ (Option String))
        (pure (assemble false fresh span texts' node') : Walk τ (Option String)) :=
    fun fresh texts texts' h => .pure (hassemble fresh texts texts' h)
  simp only [script, hrefuses, hbinding]
  rcases refuses node with _ | _
  case true => exact .pure .none
  simp only [Bool.false_eq_true, if_false]
  rcases binding node with _ | ⟨name, params⟩ | params | name | id
  case none => exact (Related.runAll hparts).bind (hfinish false)
  case function =>
    refine (related_declare hρ name).bind fun _ _ _ => ?_
    exact (related_inScope params (.runAll hparts)).bind (hfinish false)
  case lambda => exact (related_inScope params (.runAll hparts)).bind (hfinish false)
  case loop =>
    cases hparts with
    | nil => exact .pure .none
    | cons hiter hbody =>
      refine hiter.bind fun text text' htext => ?_
      refine (related_withVariable hρ name (.runAll hbody)).bind fun texts texts' h => ?_
      exact hfinish false _ _ (.cons htext h)
  case name =>
    refine (Related.runAll hparts).bind fun texts texts' h => ?_
    refine (related_declare hρ id).bind fun fresh fresh' hfresh => ?_
    subst hfresh
    exact hfinish fresh texts texts' h

/-- Renditions of a tree and of the renamed tree have the same tokens, except for the name. -/
theorem related_render {p q : String} (hρ : Function.Injective ρ) {t : Tree}
    (hfaithful : ∀ d ∈ t.descendants, Faithful ρ d.node)
    (hwords : ∀ d ∈ t.descendants, ∀ name ∈ identifiers d.node, IsWord name.toList)
    (hgiven : ∀ d ∈ t.descendants, ∀ name ∈ given d.node,
      Renamed p q name.toList (ρ name).toList) :
    Related (SameScopes ρ) Eq (fun text text' => Renamed p q text.toList text'.toList)
      (t.render (rule false) : Walk σ String)
      ((t.rename ρ).render (rule false) : Walk τ String) := by
  induction t using partsInduction with
  | step span node ih =>
    have hrefuses := refuses_rename (ρ := ρ) (.mk span node)
    have hbinding := binding_rename (ρ := ρ) (.mk span node)
    have hassemble := fun fresh (texts texts' : List String)
        (htexts : AllRenamed p q texts texts') =>
      assemble_rename fresh hfaithful hwords hgiven htexts
    have hparts := parts_rename hfaithful
    have hkind : ((node.map (Tree.rename ρ)).rename ρ).kind = node.kind := by
      cases node <;> rfl
    rw [Tree.rename_mk] at hrefuses hbinding hassemble hparts ⊢
    rw [Tree.render, Tree.render, visit_run, visit_run, hkind]
    have hpairs : List.Forall₂
        (fun v w => Related (SameScopes ρ) Eq
          (fun text text' : String => Renamed p q text.toList text'.toList)
          (Visit.run v) (Visit.run w))
        ((parts node).map fun part => Tree.visit (rule false : Rule (Walk σ) String) part.2)
        ((parts ((node.map (Tree.rename ρ)).rename ρ)).map fun part =>
          Tree.visit (rule false : Rule (Walk τ) String) part.2) := by
      rw [Tree.node_mk, Tree.node_mk] at hparts
      rw [hparts, List.map_map, List.forall₂_map_left_iff, List.forall₂_map_right_iff]
      refine List.forall₂_same.mpr fun part hpart => ih part hpart (fun d hd => ?_) (fun d hd => ?_)
        fun d hd => ?_
      all_goals have hmem : d ∈ (Tree.mk span node).descendants := mem_descendants_parts hpart hd
      · exact hfaithful d hmem
      · exact hwords d hmem
      · exact hgiven d hmem
    refine (related_script hρ hrefuses hbinding hpairs hassemble).bind fun text text' htext => ?_
    cases htext with
    | none => exact .throw rfl
    | some htext => exact .pure htext

end Run

/-! ## Fresh names -/

/-- Where a name does not occur, giving it to another one is an exchange of both. -/
theorem rename_replacing {p q : String} {t : Tree}
    (h : ∀ d ∈ t.descendants, q ∉ identifiers d.node) :
    t.rename (replacing p q) = t.rename (Equiv.swap p q) := by
  have hname : ∀ {name : String}, name ≠ q → replacing p q name = Equiv.swap p q name := by
    intro name hne
    rw [replacing, Equiv.swap_apply_def, if_neg hne]
  have hnames : ∀ {names : List String}, q ∉ names →
      names.map (replacing p q) = names.map (Equiv.swap p q) := fun hnot =>
    List.map_congr_left fun name hmem => hname fun heq => hnot (heq ▸ hmem)
  induction t using Tree.inductionOn with
  | step span node ih =>
    have hroot : q ∉ identifiers node := h _ (Tree.mem_descendants_self (.mk span node))
    have hchildren : node.map (Tree.rename (replacing p q)) =
        node.map (Tree.rename (Equiv.swap p q)) := Node.map_congr fun c hc =>
      ih c hc fun d hd => h d (Tree.mem_descendants_of_child (t := .mk span node) hc hd)
    have hnode : ∀ node : Node Tree, q ∉ identifiers node →
        node.rename (replacing p q) = node.rename (Equiv.swap p q) := by
      intro node hnot
      cases node with
      | functionDef name params body =>
        obtain ⟨hne, hparams⟩ := not_or.mp (mt List.mem_cons.mpr hnot)
        simp only [Node.rename, hname (Ne.symm hne), hnames hparams]
      | ident id => simp only [Node.rename, hname fun heq => hnot (heq ▸ List.mem_cons_self)]
      | lambda params body =>
        have hparams : q ∉ params := hnot
        simp only [Node.rename, hnames hparams]
      | _ => rfl
    have hidentifiers :
        identifiers (node.map (Tree.rename (Equiv.swap p q))) = identifiers node := by
      cases node with
      | call func args keywords =>
        simp only [identifiers, Node.map, List.map_map]
        rfl
      | _ => rfl
    rw [Tree.rename_mk, Tree.rename_mk, hchildren, hnode _ (by rwa [hidentifiers])]

/-- The new name and the old one are told from the others, and they name no module if the name of a
    module has no attributes in the tree. -/
theorem faithful_swap {p q : String} {t : Tree}
    (hfresh : ∀ d ∈ t.descendants, q ∉ identifiers d.node) (hmodule : q ∉ moduleAliases)
    (hattr : p ∈ moduleAliases → ∀ d ∈ t.descendants, ∀ value name,
      d.node = .attr value name → value.node ≠ .ident p) :
    ∀ d ∈ t.descendants, Faithful (Equiv.swap p q) d.node := by
  rintro ⟨span, node⟩ hd
  cases node with
  | attr value name =>
    have hvalue : value ∈ t.descendants := by
      obtain ⟨path, hpath⟩ := Tree.mem_descendants.mp hd
      refine Tree.mem_descendants.mpr ⟨path ++ [0], ?_⟩
      rw [Tree.descend_append, hpath]
      rfl
    have hmodules := fun halias => hattr halias _ hd value name rfl
    have hid := hfresh value hvalue
    rcases value with ⟨vspan, vnode⟩
    cases vnode with
    | ident id =>
      have hne : id ≠ q := fun heq => hid (heq ▸ List.mem_cons_self)
      simp only [Tree.rename_mk, Tree.node_mk, Node.map, Node.rename, isModuleAlias,
        Faithful, Equiv.swap_apply_def, hne, if_false] at hmodules ⊢
      split
      · next heq =>
        subst heq
        have hp : id ∉ moduleAliases := fun halias => hmodules halias rfl
        rw [Bool.eq_iff_iff, List.contains_iff_mem, List.contains_iff_mem]
        exact iff_of_false hmodule hp
      · rfl
    | _ =>
      simp only [Faithful, Tree.rename_mk, Tree.node_mk, Node.map, Node.rename, isModuleAlias]
  | _ => trivial

/-- Renaming a name to a fresh one that names no module leaves a rendition as it is, except for the
    tokens of the name, as long as no attribute is looked for behind a name of a module. -/
theorem paired_rename {p q : String} {f g : SourceFunction} {t : Tree} {config : Config}
    (hplain : config.annotates = false)
    (hwords : ∀ d ∈ t.descendants, ∀ name ∈ identifiers d.node, IsWord name.toList)
    (hword : IsWord q.toList) (hfresh : ∀ d ∈ t.descendants, q ∉ identifiers d.node)
    (hmodule : q ∉ moduleAliases)
    (hattr : p ∈ moduleAliases → ∀ d ∈ t.descendants, ∀ value name,
      d.node = .attr value name → value.node ≠ .ident p) :
    Paired Eq (fun text text' =>
        List.Forall₂ (Token.Renamed p q) (tokens text.toList) (tokens text'.toList))
      (renderer.render ⟨f, t⟩ config) (renderer.render ⟨g, t.rename (replacing p q)⟩ config) := by
  have hgiven : ∀ d ∈ t.descendants, ∀ name ∈ given d.node,
      Renamed p q name.toList (Equiv.swap p q name).toList := by
    intro d hd name hname
    have hname := mem_identifiers_of_given hname
    rw [Equiv.swap_apply_def]
    split
    · next heq => exact .name (hwords d hd name hname) hword (.inr ⟨heq, rfl⟩)
    · rw [if_neg (ne_of_mem_of_not_mem hname (hfresh d hd))]
      exact .name (hwords d hd name hname) (hwords d hd name hname) (.inl rfl)
  have hfaithful := faithful_swap hfresh hmodule hattr
  have hscopes : SameScopes (Equiv.swap p q) (renderer.create ⟨f, t⟩ config)
      (renderer.create ⟨g, t.rename (Equiv.swap p q)⟩ config) := rfl
  rw [rename_replacing hfresh, render_eq, render_eq, hplain]
  obtain ⟨hpaired, -⟩ :=
    related_render (Equiv.swap p q).injective hfaithful hwords hgiven _ _ hscopes
  rcases paired_iff.mp hpaired with ⟨text, text', hrun, hrun', h⟩ | ⟨e, e', hrun, hrun', h⟩
  all_goals rw [hrun, hrun']
  · exact .ok h.tokens
  · exact .error h

/-- An attribute of a parameter loses what it is taken of if the parameter is called like a
    module. -/
theorem render_module_parameter :
    let t : Tree := .mk ⟨1, 0⟩ (.functionDef "f" ["np"] [.mk ⟨2, 4⟩ (.returnStmt (some
      (.mk ⟨2, 11⟩ (.attr (.mk ⟨2, 11⟩ (.ident "np")) "x"))))])
    renderer.render (.ofTree t) {} = .ok "define(f, np, x)" ∧
      renderer.render (.ofTree (t.rename (replacing "np" "a"))) {} = .ok "define(f, a, x(a))" :=
  ⟨by rfl, by rfl⟩

end Physl

end Rendition
