import Rendition.Proofs.Python.Faithful
import Rendition.Proofs.Source.Numeral
import Rendition.Proofs.Source.Quoted
import Rendition.Proofs.Source.Reads
import Rendition.Proofs.Tree.Agreement

/-!
# Concrete syntax that restores a tree

Operands are read as trees like those they were rendered from if their parts are. The brackets of
other expressions leave nothing behind; as the target of an assignment an operand stands for the
same tree.

## Main definitions

* `Python.Denotes`: An expression is read as a tree like the given one.
* `Python.Restores`: An operand that does so, wherever it stands.

## Theorems

* `restores_call`, `restores_subscript`, …: Operands whose parts restore trees.
-/

namespace Rendition

namespace Source

/-- Whether an expression is an operand: nothing but brackets and points hold it together. -/
def Expr.isOperand : Expr → Bool
  | ident .. | integer .. | float .. | string .. | truth .. | nothing .. | attr .. | subscript ..
  | call .. | list .. | tuple .. | parens .. | dict .. => true
  | _ => false

end Source

namespace Python

open Source Source.Lexeme

/-- An expression is read as a tree like the given one. -/
def Denotes (e : Expr) (t : Tree) : Prop :=
  ∃ u, e.read = .ok u ∧ t.alike u = true

/-- As the target of an assignment an expression is read as a tree like the given one. -/
def DenotesTarget (e : Expr) (t : Tree) : Prop :=
  e.isPattern = true ∧ ∃ u, e.readTarget = .ok u ∧ t.alike u = true

/-- An operand that stands for a tree like the given one. -/
structure Restores (e : Expr) (t : Tree) : Prop where
  read : Denotes e t
  operand : e.isOperand = true
  target : t.isTarget = true → DenotesTarget e t

/-! ## Lists of parts -/

theorem denotes_all {ts : List Tree} {es : List Expr}
    (h : List.Forall₂ (fun t e => Denotes e t) ts es) :
    ∃ us, Expr.readAll es = .ok us ∧ agreeList Tree.alike ts us = true := by
  induction h with
  | nil => exact ⟨[], rfl, rfl⟩
  | cons h _ ih =>
    obtain ⟨u, hread, halike⟩ := h
    obtain ⟨us, hreads, halikes⟩ := ih
    refine ⟨u :: us, ?_, by rw [agreeList, halike, halikes]; rfl⟩
    simp only [Expr.readAll, hread, hreads, ok_bind]
    rfl

theorem denotes_targets {ts : List Tree} {es : List Expr}
    (h : List.Forall₂ (fun t e => DenotesTarget e t) ts es) : Expr.arePatterns es = true ∧
    ∃ us, Expr.readTargets es = .ok us ∧ agreeList Tree.alike ts us = true := by
  induction h with
  | nil => exact ⟨rfl, [], rfl, rfl⟩
  | cons h _ ih =>
    obtain ⟨hpattern, u, hread, halike⟩ := h
    obtain ⟨hpatterns, us, hreads, halikes⟩ := ih
    refine ⟨by rw [Expr.arePatterns, hpattern, hpatterns]; rfl, u :: us, ?_,
      by rw [agreeList, halike, halikes]; rfl⟩
    simp only [Expr.readTargets, hread, hreads, ok_bind]
    rfl

/-- Operands that are the targets of assignments. -/
theorem forall₂_target {ts : List Tree} {es : List Expr} (htarget : ∀ t ∈ ts, t.isTarget = true)
    (h : List.Forall₂ (fun t e => Restores e t) ts es) :
    List.Forall₂ (fun t e => DenotesTarget e t) ts es := by
  induction h with
  | nil => exact .nil
  | @cons t e ts es h _ ih =>
    obtain ⟨hfirst, hrest⟩ := List.forall_mem_cons.mp htarget
    exact .cons (h.target hfirst) (ih hrest)

/-- Arguments with and without names. -/
theorem denotes_arguments {args : List Tree} {keywords : List (Keyword Tree)}
    {es es' : List (Option String × Expr)}
    (hargs : List.Forall₂ (fun t arg => arg.1 = none ∧ Denotes arg.2 t) args es)
    (hkeywords : List.Forall₂ (fun k arg => arg.1 = some k.name ∧ Denotes arg.2 k.value)
      keywords es') :
    ∃ us ks, Expr.readArguments (es ++ es') = .ok (us, ks) ∧
      agreeList Tree.alike args us = true ∧
      agreeList (fun k k' => k.name == k'.name && Tree.alike k.value k'.value) keywords ks =
        true := by
  induction hargs with
  | nil =>
    induction hkeywords with
    | nil => exact ⟨[], [], rfl, rfl, rfl⟩
    | @cons k arg keywords es' h _ ih =>
      obtain ⟨name, e⟩ := arg
      obtain ⟨rfl, u, hread, halike⟩ := h
      obtain ⟨us, ks, hreads, halikes, hagree⟩ := ih
      refine ⟨us, ⟨k.name, u⟩ :: ks, ?_, halikes, ?_⟩
      · rw [List.nil_append] at hreads ⊢
        simp only [Expr.readArguments, hread, hreads, ok_bind]
        rfl
      · simp only [agreeList, beq_self_eq_true, halike, hagree, Bool.and_true]
  | @cons t arg args es h _ ih =>
    obtain ⟨name, e⟩ := arg
    obtain ⟨rfl, u, hread, halike⟩ := h
    obtain ⟨us, ks, hreads, halikes, hagree⟩ := ih
    refine ⟨u :: us, ks, ?_, by rw [agreeList, halike, halikes]; rfl, hagree⟩
    rw [List.cons_append]
    simp only [Expr.readArguments, hread, hreads, ok_bind]
    rfl

theorem denotes_entries {entries : List (Tree × Tree)} {es : List (Expr × Option Expr)}
    (h : List.Forall₂ (fun t e => Denotes e.1 t.1 ∧ ∃ v, e.2 = some v ∧ Denotes v t.2) entries es) :
    ∃ us, Expr.readEntries es = .ok us ∧
      agreeList (fun e e' => Tree.alike e.1 e'.1 && Tree.alike e.2 e'.2) entries us = true := by
  induction h with
  | nil => exact ⟨[], rfl, rfl⟩
  | @cons entry e entries es h _ ih =>
    obtain ⟨key, value⟩ := e
    obtain ⟨⟨k, hkey, hkeys⟩, e, rfl, v, hvalue, hvalues⟩ := h
    obtain ⟨us, hreads, halikes⟩ := ih
    refine ⟨(k, v) :: us, ?_, by simp only [agreeList, hkeys, hvalues, halikes, Bool.and_true]⟩
    simp only [Expr.readEntries, hkey, hvalue, hreads, ok_bind]
    rfl

/-! ## Operands -/

section Operands

variable (span : Span) {span' : Span}

/-- An operand that is no target of an assignment. -/
theorem restores_of_read {e : Expr} {node : Node Tree} (h : Denotes e (.mk span node))
    (hoperand : e.isOperand = true) (htarget : (Tree.mk span node).isTarget = false) :
    Restores e (.mk span node) :=
  ⟨h, hoperand, fun hleft => absurd (htarget.symm.trans hleft) Bool.false_ne_true⟩

/-- Brackets around an expression. -/
theorem restores_parens {e : Expr} {node : Node Tree} (h : Denotes e (.mk span node))
    (htarget : (Tree.mk span node).isTarget = false) :
    Restores (.parens span' e []) (.mk span node) :=
  restores_of_read span h rfl htarget

theorem restores_ident (id : String) : Restores (.ident span' id) (.mk span (.ident id)) := by
  have hread : ∃ u, Expr.read (.ident span' id) = .ok u ∧
      Tree.alike (.mk span (.ident id)) u = true :=
    ⟨_, rfl, by rw [Tree.alike_mk]; exact beq_self_eq_true id⟩
  exact ⟨hread, rfl, fun _ => ⟨rfl, hread⟩⟩

/-- A constant, from its value and the value that is read. -/
theorem restores_constant {e : Expr} {value value' : Literal}
    (hread : e.read = .ok (.mk span' (.constant value'))) (hagree : value.agree value' = true)
    (hoperand : e.isOperand = true) : Restores e (.mk span (.constant value)) :=
  restores_of_read span ⟨_, hread, by rw [Tree.alike_mk]; exact hagree⟩ hoperand
    (Tree.isTarget_mk span _)

theorem restores_attr {e : Expr} {value : Tree} (h : Restores e value) (name : String) :
    Restores (.attr span' e name) (.mk span (.attr value name)) := by
  obtain ⟨u, hread, halike⟩ := h.read
  have hread : ∃ u, Expr.read (.attr span' e name) = .ok u ∧
      Tree.alike (.mk span (.attr value name)) u = true := by
    refine ⟨.mk span' (.attr u name), ?_, ?_⟩
    · simp only [Expr.read, hread, ok_bind]
      rfl
    · rw [Tree.alike_mk]
      simp only [Node.agree, beq_self_eq_true, halike, Bool.and_true]
  exact ⟨hread, rfl, fun _ => ⟨rfl, hread⟩⟩

theorem restores_call {e : Expr} {func : Tree} {args : List Tree} {keywords : List (Keyword Tree)}
    {es es' : List (Option String × Expr)} (h : Restores e func)
    (hargs : List.Forall₂ (fun t arg => arg.1 = none ∧ Denotes arg.2 t) args es)
    (hkeywords : List.Forall₂ (fun k arg => arg.1 = some k.name ∧ Denotes arg.2 k.value)
      keywords es') :
    Restores (.call span' e (es ++ es')) (.mk span (.call func args keywords)) := by
  obtain ⟨u, hread, halike⟩ := h.read
  obtain ⟨us, ks, hreads, halikes, hagree⟩ := denotes_arguments hargs hkeywords
  refine restores_of_read span ⟨.mk span' (.call u us ks), ?_, ?_⟩ rfl (Tree.isTarget_mk span _)
  · simp only [Expr.read, hread, hreads, ok_bind]
    rfl
  · rw [Tree.alike_mk]
    simp only [Node.agree, halike, halikes, hagree, Bool.and_true]

theorem restores_list {items : List Tree} {es : List Expr}
    (h : List.Forall₂ (fun t e => Restores e t) items es) :
    Restores (.list span' es) (.mk span (.list items)) := by
  obtain ⟨us, hreads, halikes⟩ := denotes_all (h.imp fun _ _ h => h.read)
  refine ⟨⟨.mk span' (.list us), ?_, ?_⟩, rfl, fun htarget => ?_⟩
  · simp only [Expr.read, hreads, ok_bind]
    rfl
  · rw [Tree.alike_mk]
    exact halikes
  · rw [Tree.isTarget_mk, List.all_eq_true] at htarget
    obtain ⟨hpatterns, us, hreads, halikes⟩ := denotes_targets (forall₂_target htarget h)
    refine ⟨hpatterns, .mk span' (.list us), ?_, ?_⟩
    · simp only [Expr.readTarget, hreads, ok_bind]
      rfl
    · rw [Tree.alike_mk]
      exact halikes

theorem restores_tuple {items : List Tree} {es : List Expr}
    (h : List.Forall₂ (fun t e => Restores e t) items es) :
    Restores (.tuple span' es) (.mk span (.tuple items)) := by
  obtain ⟨us, hreads, halikes⟩ := denotes_all (h.imp fun _ _ h => h.read)
  refine ⟨⟨.mk span' (.tuple us), ?_, ?_⟩, rfl, fun htarget => ?_⟩
  · simp only [Expr.read, hreads, ok_bind]
    rfl
  · rw [Tree.alike_mk]
    exact halikes
  · rw [Tree.isTarget_mk, List.all_eq_true] at htarget
    obtain ⟨hpatterns, us, hreads, halikes⟩ := denotes_targets (forall₂_target htarget h)
    refine ⟨hpatterns, .mk span' (.tuple us), ?_, ?_⟩
    · simp only [Expr.readTarget, hreads, ok_bind]
      rfl
    · rw [Tree.alike_mk]
      exact halikes

theorem restores_dict {entries : List (Tree × Tree)} {es : List (Expr × Option Expr)}
    (h : List.Forall₂ (fun t e => Denotes e.1 t.1 ∧ ∃ v, e.2 = some v ∧ Denotes v t.2) entries es) :
    Restores (.dict span' es) (.mk span (.dict entries)) := by
  obtain ⟨us, hreads, halikes⟩ := denotes_entries h
  refine restores_of_read span ⟨.mk span' (.dict us), ?_, ?_⟩ rfl (Tree.isTarget_mk span _)
  · simp only [Expr.read, hreads, ok_bind]
    rfl
  · rw [Tree.alike_mk]
    exact halikes

/-- The indices of a subscript: one, or several that form a tuple. -/
theorem restores_subscript {e i : Expr} {es : List Expr} {value index : Tree}
    (h : Restores e value) (hsingle : ∀ item, index.node ≠ .tuple [item])
    (hindices : List.Forall₂ (fun t e => Denotes e t) index.indices (i :: es)) :
    Restores (.subscript span' e i es) (.mk span (.subscript value index)) := by
  obtain ⟨u, hread, halike⟩ := h.read
  have hread : ∃ w, Expr.read (.subscript span' e i es) = .ok w ∧
      Tree.alike (.mk span (.subscript value index)) w = true := by
    rcases index with ⟨place, node⟩
    have hagree {j : Tree} (hj : Tree.alike (.mk place node) j = true) :
        Tree.alike (.mk span (.subscript value (.mk place node)))
          (.mk span' (.subscript u j)) = true := by
      rw [Tree.alike_mk]
      simp only [Node.agree, halike, hj, Bool.and_true]
    by_cases htuple : ∃ a b rest, node = .tuple (a :: b :: rest)
    · obtain ⟨a, b, rest, rfl⟩ := htuple
      obtain ⟨us, hreads, halikes⟩ := denotes_all hindices
      obtain ⟨first, hfirst, hrest⟩ := bind_eq_ok.mp hreads
      obtain ⟨more, hmore, hus⟩ := bind_eq_ok.mp hrest
      rcases pure_eq_ok.mp hus
      rcases more with _ | ⟨second, more⟩
      · simp [agreeList, Tree.indices] at halikes
      · refine ⟨.mk span' (.subscript u (.mk i.span (.tuple (first :: second :: more)))), ?_, ?_⟩
        · simp only [Expr.read, hread, hfirst, hmore, ok_bind]
          rfl
        · refine hagree ?_
          rw [Tree.alike_mk]
          exact halikes
    · have hone : Tree.indices (.mk place node) = [.mk place node] := by
        rw [Tree.indices]
        split
        · next first rest hnode =>
          rcases rest with _ | ⟨second, rest⟩
          · exact absurd hnode (hsingle first)
          · exact absurd ⟨first, second, rest, hnode⟩ htuple
        · rfl
      rw [hone] at hindices
      obtain ⟨⟨j, hindex, hj⟩, hnil⟩ := List.forall₂_cons.mp hindices
      rcases List.forall₂_nil_left_iff.mp hnil
      refine ⟨.mk span' (.subscript u j), ?_, hagree hj⟩
      simp only [Expr.read, hread, hindex, Expr.readAll, ok_bind]
      rfl
  exact ⟨hread, rfl, fun _ => ⟨rfl, hread⟩⟩

end Operands

/-! ## What stands between parentheses -/

section Inner

variable (span : Span) {span' : Span}

theorem denotes_binary {left right : Expr} {l r : Tree} (hleft : Denotes left l)
    (hright : Denotes right r) (op : Operator) :
    Denotes (.binary span' left op right) (.mk span (.binOp l op r)) := by
  obtain ⟨u, hread, halike⟩ := hleft
  obtain ⟨v, hread', halike'⟩ := hright
  refine ⟨.mk span' (.binOp u op v), ?_, ?_⟩
  · simp only [Expr.read, hread, hread', ok_bind]
    rfl
  · rw [Tree.alike_mk]
    simp only [Node.agree, beq_self_eq_true, halike, halike', Bool.and_true]

theorem denotes_unary {e : Expr} {t : Tree} (h : Denotes e t) (op : UnaryOperator) :
    Denotes (.unary span' op e) (.mk span (.unaryOp op t)) := by
  obtain ⟨u, hread, halike⟩ := h
  refine ⟨.mk span' (.unaryOp op u), ?_, ?_⟩
  · simp only [Expr.read, hread, ok_bind]
    rfl
  · rw [Tree.alike_mk]
    simp only [Node.agree, beq_self_eq_true, halike, Bool.and_true]

theorem denotes_negation {e : Expr} {t : Tree} (h : Denotes e t) :
    Denotes (.negation span' e) (.mk span (.unaryOp .not t)) := by
  obtain ⟨u, hread, halike⟩ := h
  refine ⟨.mk span' (.unaryOp .not u), ?_, ?_⟩
  · simp only [Expr.read, hread, ok_bind]
    rfl
  · rw [Tree.alike_mk]
    simp only [Node.agree, beq_self_eq_true, halike, Bool.and_true]

/-- A link of a chain of comparisons. -/
structure DenotesLink (link : Link Expr) (op : Comparison) (t : Tree) : Prop where
  before : link.before = none
  after : link.after = none
  op : readComparison link.op = .ok op
  operand : Denotes link.operand t

theorem denotes_links {links : List (Comparison × Tree)} {es : List (Link Expr)}
    (h : List.Forall₂ (fun l e => DenotesLink e l.1 l.2) links es) :
    ∃ us, Expr.readLinks es = .ok us ∧ us.map Prod.fst = links.map Prod.fst ∧
      agreeList Tree.alike (links.map Prod.snd) (us.map Prod.snd) = true := by
  induction h with
  | nil => exact ⟨[], rfl, rfl, rfl⟩
  | @cons link e links es h _ ih =>
    obtain ⟨op, t⟩ := link
    obtain ⟨before, text, after, operand⟩ := e
    obtain ⟨rfl, rfl, hop, u, hread, halike⟩ := h
    obtain ⟨us, hreads, hops, halikes⟩ := ih
    refine ⟨(op, u) :: us, ?_, ?_, ?_⟩
    · have hop' : readComparison text = .ok op := hop
      simp only [Expr.readLinks, Expr.readLink, uncontinued, hop', hread, hreads, ok_bind]
      rfl
    · rw [List.map_cons, List.map_cons, hops]
    · simp only [List.map_cons, agreeList, halike, halikes, Bool.and_true]

theorem denotes_comparison {left : Expr} {l : Tree} {ops : List Comparison} {ts : List Tree}
    {link : Link Expr} {links : List (Link Expr)} (hleft : Denotes left l)
    (hlength : ops.length = ts.length)
    (hlinks : List.Forall₂ (fun l e => DenotesLink e l.1 l.2) (ops.zip ts) (link :: links)) :
    Denotes (.comparison span' left link links) (.mk span (.compare l ops ts)) := by
  obtain ⟨u, hread, halike⟩ := hleft
  obtain ⟨us, hreads, hops, halikes⟩ := denotes_links hlinks
  obtain ⟨first, hfirst, hrest⟩ := bind_eq_ok.mp hreads
  obtain ⟨more, hmore, hus⟩ := bind_eq_ok.mp hrest
  rcases pure_eq_ok.mp hus
  rw [List.map_fst_zip hlength.le] at hops
  rw [List.map_snd_zip hlength.ge] at halikes
  refine ⟨.mk span' (.compare u (first.1 :: more.map Prod.fst) (first.2 :: more.map Prod.snd)),
    ?_, ?_⟩
  · simp only [Expr.read, hread, hfirst, hmore, ok_bind]
    rfl
  · rw [Tree.alike_mk, ← hops]
    simp only [Node.agree, List.map_cons, beq_self_eq_true, halike, Bool.and_true, Bool.true_and]
    exact halikes

/-- A chain of one connective, read from the left: what is joined so far. -/
structure DenotesChain (op : Connective) (e : Expr) (ts : List Tree) : Prop where
  read : ∃ span us, e.read = .ok (.mk span (.boolOp op us)) ∧ agreeList Tree.alike ts us = true
  boolean : ∃ span left right, e = .boolean span left op right

theorem agreeList_concat {α β : Type} {r : α → β → Bool} {as : List α} {bs : List β} {a : α} {b : β}
    (h : agreeList r as bs = true) (hab : r a b = true) :
    agreeList r (as ++ [a]) (bs ++ [b]) = true := by
  induction as generalizing bs with
  | nil =>
    rcases bs with _ | ⟨b', bs⟩
    · rw [List.nil_append, List.nil_append, agreeList, hab]
      rfl
    · cases h
  | cons a' as ih =>
    rcases bs with _ | ⟨b', bs⟩
    · cases h
    · rw [agreeList, Bool.and_eq_true] at h
      rw [List.cons_append, List.cons_append, agreeList, h.1, ih h.2]
      rfl

/-- A chain starts with two operands, neither of which joins in. -/
theorem DenotesChain.pair {e e' : Expr} {t t' : Tree} (h : Restores e t) (h' : Denotes e' t')
    (op : Connective) : DenotesChain op (.boolean span' e op e') [t, t'] := by
  obtain ⟨u, hread, halike⟩ := h.read
  obtain ⟨v, hread', halike'⟩ := h'
  have hjoined : joined op e u = [u] := by
    cases e with
    | boolean => exact absurd h.operand Bool.false_ne_true
    | _ => rfl
  refine ⟨⟨span', [u, v], ?_, by rw [agreeList, halike, agreeList, halike']; rfl⟩, _, _, _, rfl⟩
  simp only [Expr.read, hread, hread', ok_bind, hjoined]
  rfl

/-- A chain goes on with another operand. -/
theorem DenotesChain.concat {e e' : Expr} {ts : List Tree} {t : Tree} {op : Connective}
    (h : DenotesChain op e ts) (h' : Denotes e' t) :
    DenotesChain op (.boolean span' e op e') (ts ++ [t]) := by
  obtain ⟨⟨place, us, hread, halikes⟩, span, left, right, rfl⟩ := h
  obtain ⟨v, hread', halike⟩ := h'
  refine ⟨⟨span', us ++ [v], ?_, agreeList_concat halikes halike⟩, _, _, _, rfl⟩
  rw [Expr.read, hread, ok_bind, hread', ok_bind]
  simp only [joined, Tree.node_mk, if_true]
  rfl

theorem DenotesChain.denotes {e : Expr} {ts : List Tree} {op : Connective}
    (h : DenotesChain op e ts) : Denotes e (.mk span (.boolOp op ts)) := by
  obtain ⟨⟨span', us, hread, halikes⟩, -⟩ := h
  refine ⟨_, hread, ?_⟩
  rw [Tree.alike_mk]
  simp only [Node.agree, beq_self_eq_true, halikes, Bool.and_true]

theorem denotes_conditional {body test orelse : Expr} {b t o : Tree} (hbody : Denotes body b)
    (htest : Denotes test t) (horelse : Denotes orelse o) :
    Denotes (.conditional span' false body test orelse) (.mk span (.ifExp t b o)) := by
  obtain ⟨u, hread, halike⟩ := hbody
  obtain ⟨v, hread', halike'⟩ := htest
  obtain ⟨w, hread'', halike''⟩ := horelse
  refine ⟨.mk span' (.ifExp v u w), ?_, ?_⟩
  · simp only [Expr.read, hread, hread', hread'', ok_bind]
    rfl
  · rw [Tree.alike_mk]
    simp only [Node.agree, halike, halike', halike'', Bool.and_true]

theorem mapM_read_named (params : List String) :
    (params.map Param.named).mapM Param.read = .ok params := by
  induction params with
  | nil => rfl
  | cons param params ih =>
    rw [List.map_cons, List.mapM_cons, ih]
    rfl

theorem denotes_lambda {body : Expr} {b : Tree} (hbody : Denotes body b) (params : List String) :
    Denotes (.lambda span' (params.map .named) body) (.mk span (.lambda params b)) := by
  obtain ⟨u, hread, halike⟩ := hbody
  refine ⟨.mk span' (.lambda params u), ?_, ?_⟩
  · rw [Expr.read, mapM_read_named, ok_bind, hread]
    rfl
  · rw [Tree.alike_mk]
    simp only [Node.agree, beq_self_eq_true, halike, Bool.and_true]

/-! ## Slices -/

/-- The step of a slice behind its colon. -/
def stepParts {α : Type} (step : Option α) : List (Option α) :=
  match step with
  | some step => [none, some step]
  | none => []

/-- The parts of a slice: its bounds as far as they are there, and the colons between them. -/
def sliceParts {α : Type} (lower upper step : Option α) : List (Option α) :=
  (lower.map some).toList ++ none :: ((upper.map some).toList ++ stepParts step)

/-- Parts that are absent, or read as trees like the given ones. -/
def DenotesOption (e : Option Expr) (t : Option Tree) : Prop :=
  ∃ u, Expr.readOptional e = .ok u ∧ agreeOption Tree.alike t u = true

theorem denotesOption_none : DenotesOption none none :=
  ⟨none, rfl, rfl⟩

theorem denotesOption_some {e : Expr} {t : Tree} (h : Denotes e t) :
    DenotesOption (some e) (some t) := by
  obtain ⟨u, hread, halike⟩ := h
  exact ⟨some u, by rw [Expr.readOptional, hread]; rfl, halike⟩

/-- The bounds of a slice are found among its parts. -/
theorem bounds_sliceParts (l u s : Option Tree) :
    (Source.bounds (sliceParts l u s))[0]?.join = l ∧
      (Source.bounds (sliceParts l u s))[1]?.join = u ∧
      (Source.bounds (sliceParts l u s))[2]?.join = s := by
  rcases l with _ | l <;> rcases u with _ | u <;> rcases s with _ | s <;> exact ⟨rfl, rfl, rfl⟩

theorem readParts_slice {lower upper step : Option Expr} {l u s : Option Tree}
    (hl : Expr.readOptional lower = .ok l) (hu : Expr.readOptional upper = .ok u)
    (hs : Expr.readOptional step = .ok s) :
    Expr.readParts (sliceParts lower upper step) = .ok (sliceParts l u s) := by
  have hcases {e : Option Expr} {t : Option Tree} (h : Expr.readOptional e = .ok t) :
      e = none ∧ t = none ∨ ∃ e' t', e = some e' ∧ t = some t' ∧ e'.read = .ok t' := by
    rcases e with _ | e
    · exact .inl ⟨rfl, (Except.ok.inj h).symm⟩
    · obtain ⟨t', ht, heq⟩ := bind_eq_ok.mp h
      exact .inr ⟨e, t', rfl, (Except.ok.inj heq).symm, ht⟩
  rcases hcases hl with ⟨rfl, rfl⟩ | ⟨_, _, rfl, rfl, hl⟩ <;>
    rcases hcases hu with ⟨rfl, rfl⟩ | ⟨_, _, rfl, rfl, hu⟩ <;>
    rcases hcases hs with ⟨rfl, rfl⟩ | ⟨_, _, rfl, rfl, hs⟩ <;>
    simp only [sliceParts, stepParts, Option.map_some, Option.map_none, Option.toList_some,
      Option.toList_none,
      List.cons_append, List.nil_append, List.append_nil, Expr.readParts, *, ok_bind] <;> rfl

theorem denotes_slice {lower upper step : Option Expr} {l u s : Option Tree}
    (hlower : DenotesOption lower l) (hupper : DenotesOption upper u)
    (hstep : DenotesOption step s) :
    Denotes (.slice span' (sliceParts lower upper step)) (.mk span (.slice l u s)) := by
  obtain ⟨l', hl, hlagree⟩ := hlower
  obtain ⟨u', hu, huagree⟩ := hupper
  obtain ⟨s', hs, hsagree⟩ := hstep
  obtain ⟨h0, h1, h2⟩ := bounds_sliceParts l' u' s'
  refine ⟨.mk span' (.slice l' u' s'), ?_, ?_⟩
  · rw [Expr.read, readParts_slice hl hu hs, ok_bind]
    simp only [h0, h1, h2]
    rfl
  · rw [Tree.alike_mk]
    simp only [Node.agree, hlagree, huagree, hsagree, Bool.and_true]

end Inner

end Python

end Rendition
