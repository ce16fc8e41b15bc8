import Rendition.Proofs.Physl.Draft
import Rendition.Proofs.Physl.Lockstep

/-!
# Renditions are terms

Every tree that is rendered at all is rendered as the text of a term, and the term is put together
from the terms of its parts. A module is a list of terms, one on a line. As no two terms have the
same text, neither what stands inside of literals nor an empty list of statements or arguments can
change how a line is read.

## Main definitions

* `Physl.Yields`: Computations whose results have a property.
* `Physl.Drafted`: A tree and the term that its rendition is the text of.
* `Physl.topLevel`: The statements of a module, or another tree alone.

## Theorems

* `yields_script`: The text of a node is put together from texts of its parts.
* `yields_render`: A rendition is the text of a term.
* `render_terms`: A task is rendered as terms on lines, each of which is read in one way.
-/

namespace Rendition.Physl

/-! ## Results of computations -/

section Yields

variable {σ α β γ : Type}

/-- If a computation has a result, whatever state it starts in, then the result has a property. -/
def Yields (P : α → Prop) (x : Walk σ α) : Prop :=
  ∀ s a, (x.run.run s).1 = .ok a → P a

namespace Yields

variable {P : α → Prop} {Q : β → Prop}

theorem pure {a : α} (h : P a) : Yields P (pure a : Walk σ α) := by
  rintro s _ ⟨⟩
  exact h

theorem throw (e : Unimplemented) : Yields P (throwThe Unimplemented e : Walk σ α) := by
  rintro s a ⟨⟩

theorem trivial (x : Walk σ α) : Yields (fun _ => True) x :=
  fun _ _ _ => True.intro

theorem bind {x : Walk σ α} {f : α → Walk σ β} (hx : Yields P x)
    (hf : ∀ a, P a → Yields Q (f a)) : Yields Q (x >>= f) := by
  intro s b h
  rw [Walk.run_bind] at h
  rcases hrun : x.run.run s with ⟨e | a, s'⟩ <;> rw [hrun] at h
  · cases h
  · exact hf a (hx s a (by rw [hrun])) s' b h

/-- The results of a list of children have the properties of the children. -/
theorem runAll {R : γ → α → Prop} {V : γ → Visit (Walk σ) α} {children : List γ}
    (h : ∀ c ∈ children, Yields (R c) (V c).run) :
    Yields (List.Forall₂ R children) (runAll (children.map V)) := by
  induction children with
  | nil =>
    rw [List.map_nil, runAll_nil]
    exact pure .nil
  | cons c rest ih =>
    obtain ⟨hc, hrest⟩ := List.forall_mem_cons.mp h
    rw [List.map_cons, runAll_cons]
    exact hc.bind fun a ha => (ih hrest).bind fun as has => pure (.cons ha has)

variable [Scoping σ]

theorem inScope {x : Walk σ α} (params : List String) (h : Yields P x) :
    Yields P (inScope params x) :=
  fun s a ha => h (changeScopes (params :: ·) s) a ha

theorem withVariable {x : Walk σ α} (name : String) (h : Yields P x) :
    Yields P (withVariable name x) :=
  (trivial (declare name)).bind fun _ _ s a ha => h s a ha

end Yields

/-- The text of a node is put together from texts of its parts, whatever becomes of the names. -/
theorem yields_script [Scoping σ] {annotate : Bool} {span : Span} {node : Node Tree}
    {R : Position × Tree → String → Prop} {V : Position × Tree → Visit (Walk σ) String}
    (h : ∀ part ∈ parts node, Yields (R part) (V part).run) :
    Yields (fun result => ∀ text, result = some text → ∃ fresh texts,
        List.Forall₂ R (parts node) texts ∧ assemble annotate fresh span texts node = some text)
      (script annotate span node ((parts node).map V)) := by
  have hfinish : ∀ fresh texts, List.Forall₂ R (parts node) texts →
      Yields (fun result => ∀ text, result = some text → ∃ fresh texts,
          List.Forall₂ R (parts node) texts ∧ assemble annotate fresh span texts node = some text)
        (pure (assemble annotate fresh span texts node) : Walk σ (Option String)) :=
    fun fresh texts htexts => .pure fun text htext => ⟨fresh, texts, htexts, htext⟩
  have hall := Yields.runAll h
  simp only [script]
  rcases refuses node with _ | _
  case true => exact .pure fun text htext => by cases htext
  rcases hbind : binding node with _ | ⟨name, params⟩ | params | name | id
  case none => exact hall.bind (hfinish false)
  case function =>
    exact (Yields.trivial _).bind fun _ _ => (hall.inScope params).bind (hfinish false)
  case lambda => exact (hall.inScope params).bind (hfinish false)
  case name =>
    exact hall.bind fun texts htexts => (Yields.trivial _).bind fun fresh _ =>
      hfinish fresh texts htexts
  case loop =>
    obtain ⟨iter, body, hparts⟩ := parts_of_loop hbind
    rw [hparts] at h hfinish ⊢
    obtain ⟨hiter, hbody⟩ := List.forall_mem_cons.mp h
    exact hiter.bind fun text htext => ((Yields.runAll hbody).withVariable name).bind
      fun texts htexts => hfinish false _ (.cons htext htexts)

end Yields

/-! ## Terms of trees -/

/-- The term of a tree is put together from the terms of its parts. -/
inductive Drafted (annotate : Bool) : Tree → Term → Prop where
  | mk {t : Tree} {terms : List Term} {term : Term} (fresh : Bool)
    (hparts : List.Forall₂ (fun part term => Drafted annotate part.2 term) (parts t.node) terms)
    (hterm : draft annotate fresh t.span terms t.node = some term) : Drafted annotate t term

/-- The term of a tree is sound if the names in the tree are bare. -/
theorem Drafted.sound {annotate : Bool} {t : Tree} {term : Term} (h : Drafted annotate t term)
    (hnames : ∀ d ∈ t.descendants, ∀ name ∈ identifiers d.node, IsBare name.toList) :
    term.Sound := by
  induction t using partsInduction generalizing term with
  | step span node ih =>
    obtain ⟨fresh, hparts, hterm⟩ := h
    refine sound_draft hnames (fun t ht => ?_) hterm
    obtain ⟨part, -, hpart, -, hdrafted⟩ := exists_of_forall₂ (forall₂_mem hparts).flip ht
    exact ih part hpart hdrafted fun d hd => hnames d (mem_descendants_parts hpart hd)

/-- Texts of terms are the texts of a list of terms. -/
theorem exists_terms {α : Type} {R : α → Term → Prop} {as : List α} {texts : List String}
    (h : List.Forall₂ (fun a text => ∃ term, R a term ∧ term.text = text) as texts) :
    ∃ terms, List.Forall₂ R as terms ∧ terms.map Term.text = texts := by
  induction h with
  | nil => exact ⟨[], .nil, rfl⟩
  | cons hfirst hrest ih =>
    obtain ⟨term, hterm, rfl⟩ := hfirst
    obtain ⟨terms, hterms, rfl⟩ := ih
    exact ⟨term :: terms, .cons hterm hterms, rfl⟩

variable {σ : Type} [Scoping σ]

/-- A rendition is the text of a term, which is put together from the terms of the parts. -/
theorem yields_render (annotate : Bool) {t : Tree}
    (h : ∀ d ∈ t.descendants, d.kind ≠ .moduleDef) :
    Yields (fun text => ∃ term, Drafted annotate t term ∧ term.text = text)
      (t.render (rule annotate) : Walk σ String) := by
  induction t using partsInduction with
  | step span node ih =>
    have hparts : ∀ part ∈ parts node,
        Yields (fun text => ∃ term, Drafted annotate part.2 term ∧ term.text = text)
          (Tree.visit (rule annotate : Rule (Walk σ) String) part.2).run := fun part hpart =>
      ih part hpart fun d hd => h d (mem_descendants_parts hpart hd)
    rw [Tree.render, visit_run]
    refine (yields_script hparts).bind fun result hresult => ?_
    rcases result with _ | text
    · exact .throw _
    obtain ⟨fresh, texts, htexts, htext⟩ := hresult text rfl
    -- One term for each part, with the text of the part.
    obtain ⟨terms, hterms, rfl⟩ := exists_terms htexts
    have hkind : node.kind ≠ .moduleDef := h _ (Tree.mem_descendants_self (.mk span node))
    rw [← text_draft annotate fresh span terms hkind, Option.map_eq_some_iff] at htext
    obtain ⟨term, hterm, rfl⟩ := htext
    exact .pure ⟨term, .mk fresh hterms hterm, rfl⟩

/-- The statements of a module, or another tree alone. -/
def topLevel (t : Tree) : List Tree :=
  match t.node with
  | .moduleDef body => body
  | _ => [t]

/-- A module is rendered as terms on lines, and any other tree as one term. -/
theorem yields_lines (annotate : Bool) {t : Tree}
    (h : ∀ c ∈ t.children, ∀ d ∈ c.descendants, d.kind ≠ .moduleDef) :
    Yields (fun text => ∃ terms, List.Forall₂ (Drafted annotate) (topLevel t) terms ∧
        text = "\n".intercalate (terms.map Term.text))
      (t.render (rule annotate) : Walk σ String) := by
  rcases t with ⟨span, node⟩
  by_cases hkind : node.kind = .moduleDef
  · obtain ⟨body, rfl⟩ : ∃ body, node = .moduleDef body := by
      cases node <;> first | exact ⟨_, rfl⟩ | cases hkind
    have hparts : ∀ part ∈ parts (.moduleDef body),
        Yields (fun text => ∃ term, Drafted annotate part.2 term ∧ term.text = text)
          (Tree.visit (rule annotate : Rule (Walk σ) String) part.2).run := by
      intro part hpart
      have hmem : part.2 ∈ body := map_snd_below [] 0 body ▸ List.mem_map_of_mem hpart
      exact yields_render annotate (h part.2 hmem)
    rw [Tree.render, visit_run]
    refine (yields_script hparts).bind fun result hresult => ?_
    rcases result with _ | text
    · exact .throw _
    obtain ⟨fresh, texts, htexts, htext⟩ := hresult text rfl
    obtain ⟨terms, hterms, rfl⟩ := exists_terms htexts
    refine .pure ⟨terms, ?_, (Option.some.inj htext).symm⟩
    have hbody : List.Forall₂ (Drafted annotate) ((below [] 0 body).map Prod.snd) terms :=
      List.forall₂_map_left_iff.mpr hterms
    rwa [map_snd_below] at hbody
  · have hrender := yields_render (σ := σ) annotate (t := .mk span node) fun d hd => by
      rw [Tree.descendants_mk, List.mem_cons, List.mem_flatMap] at hd
      rcases hd with rfl | ⟨c, hc, hd⟩
      · exact hkind
      · exact h c hc d hd
    have htop : topLevel (.mk span node) = [.mk span node] := by
      cases node with
      | moduleDef body => exact absurd rfl hkind
      | _ => rfl
    intro s text htext
    obtain ⟨term, hterm, rfl⟩ := hrender s text htext
    exact ⟨[term], by rw [htop]; exact .cons hterm .nil, String.intercalate_singleton.symm⟩

/-- Each top-level statement of a task is rendered as the text of a term on a line of its own, the
    term is put together from the terms of its parts, and no other term has this text. -/
theorem render_terms {task : Task} {config : Config} {text : String}
    (hmodule : ∀ c ∈ task.tree.children, ∀ d ∈ c.descendants, d.kind ≠ .moduleDef)
    (hnames : ∀ d ∈ task.tree.descendants, ∀ name ∈ identifiers d.node, IsBare name.toList)
    (h : renderer.render task config = .ok text) :
    ∃ terms, List.Forall₂ (Drafted config.annotates) (topLevel task.tree) terms ∧
      (terms = [] → text = "") ∧
      (terms ≠ [] → text.toList.splitOn '\n' = terms.map fun term => term.text.toList) ∧
      ∀ term ∈ terms, term.Sound ∧
        ∀ other : Term, other.Sound → other.text = term.text → other = term := by
  rw [render_eq] at h
  obtain ⟨terms, hterms, rfl⟩ := yields_lines config.annotates hmodule _ text h
  have hsound : ∀ term ∈ terms, term.Sound := by
    intro term hterm
    obtain ⟨t, -, ht, -, hdrafted⟩ := exists_of_forall₂ (forall₂_mem hterms).flip hterm
    refine hdrafted.sound fun d hd => hnames d ?_
    -- A statement of the module lies in the tree, and so does the tree itself.
    rcases hroot : task.tree with ⟨span, node⟩
    rw [hroot] at ht
    cases node with
    | moduleDef body => exact Tree.mem_descendants_of_child (t := .mk span (.moduleDef body)) ht hd
    | _ =>
      rw [← List.mem_singleton.mp ht]
      exact hd
  refine ⟨terms, hterms, ?_, fun hne => ?_, fun term hterm => ⟨hsound term hterm, ?_⟩⟩
  · rintro rfl
    rfl
  · rw [String.toList_intercalate, List.map_map]
    refine List.splitOn_intercalate '\n' (fun line hline => ?_) ?_
    · obtain ⟨term, hterm, rfl⟩ := List.mem_map.mp hline
      exact (hsound term hterm).feed_not_mem
    · rwa [ne_eq, List.map_eq_nil_iff]
  · exact fun other hother htext => hother.eq_of_text_eq (hsound term hterm) htext

/-- A call with a literal that holds a parenthesis, a comma, a quote and a line feed, and behind it
    an empty list: two lines, and two terms. -/
theorem render_terms_literal :
    ∃ (task : Task) (text : String) (terms : List Term), renderer.render task {} = .ok text ∧
      text.toList.splitOn '\n' = terms.map (fun term => term.text.toList) ∧ terms.length = 2 ∧
      ∀ term ∈ terms, term.Sound ∧
        ∀ other : Term, other.Sound → other.text = term.text → other = term := by
  let task : Task := ⟨⟨"m", "", 1⟩, .mk ⟨1, 0⟩ (.moduleDef
    [.mk ⟨1, 0⟩ (.exprStmt (.mk ⟨1, 0⟩ (.call (.mk ⟨1, 0⟩ (.ident "f"))
      [.mk ⟨1, 2⟩ (.constant (.str "), \"\n"))] []))),
    .mk ⟨3, 0⟩ (.exprStmt (.mk ⟨3, 0⟩ (.list [])))])⟩
  have hrender : renderer.render task {} = .ok "f(\"), \\\"\\n\")\nlist()" := by rfl
  obtain ⟨terms, hterms, -, hlines, hunique⟩ :=
    render_terms (by decide) (by decide) hrender
  have hlength : terms.length = 2 := hterms.length_eq.symm
  refine ⟨task, _, terms, hrender, hlines fun hnil => ?_, hlength, hunique⟩
  rw [hnil] at hlength
  cases hlength

end Rendition.Physl
