import Rendition.Proofs.Python.Imports
import Rendition.Proofs.Python.Lines

/-!
# Aliases are read back

The name that something is bound to is read as an expression and kept as its source text, which is
the text that it was rendered from.

## Theorems

* `exists_dotted_tree`: A name with points in it is the phrase of an expression.
* `yields_aliased`: An expression and the name behind it.
* `yields_item`: An item of a `with` statement is read back.
-/

namespace Rendition.Python

open Source Source.Lexeme Text

/-! ## Names -/

/-- Attributes of attributes. -/
def attributes (t : Tree) (names : List String) : Tree :=
  names.foldl (fun t name => .mk ⟨1, 0⟩ (.attr t name)) t

theorem phrase_attributes (names : List String) : ∀ t : Tree,
    phrase (attributes t names) = fun g =>
      phrase t g ++ names.flatMap fun name => [mark "." {}, word name {}] := by
  induction names with
  | nil =>
    intro t
    funext g
    exact (List.append_nil _).symm
  | cons name names ih =>
    intro t
    rw [attributes, List.foldl_cons]
    refine (ih _).trans ?_
    simp only [phrase_attr, List.append_assoc, List.flatMap_cons, List.cons_append, List.nil_append]

/-- No attribute of a name is an attribute of an integer. -/
theorem isExpression_attributes {names : List String} (h : ∀ name ∈ names, IsIdentifier name) :
    ∀ {t : Tree}, t.IsExpression Faithful → (∀ n, t.node ≠ .constant (.int n)) →
      (attributes t names).IsExpression Faithful := by
  induction names with
  | nil => exact fun ht _ => ht
  | cons name names ih =>
    intro t ht hint
    obtain ⟨hname, hnames⟩ := List.forall_mem_cons.mp h
    exact ih hnames (.attr hint ht hname) fun _ h => by cases h

/-- A name with points in it is the phrase of an expression. -/
theorem exists_dotted_tree {text : List Char} (h : IsDotted text) :
    ∃ t, t.IsExpression Faithful ∧ phrase t = dotted text := by
  obtain ⟨name, rest, hparts⟩ := exists_parts text
  rw [IsDotted, hparts] at h
  obtain ⟨hname, hrest⟩ := List.forall_mem_cons.mp h
  have hvariable : isVariable (String.ofList name) = true := by
    rw [isVariable, hname.2, Bool.not_false, Bool.true_or, Bool.true_or]
  refine ⟨attributes (.mk ⟨1, 0⟩ (.ident (String.ofList name))) (rest.map String.ofList),
    isExpression_attributes (List.forall_mem_map.mpr hrest) (.ident trivial hname.1 hvariable)
      (fun _ h => by cases h), ?_⟩
  rw [phrase_attributes, phrase_ident, dotted_eq hparts]
  simp only [List.flatMap_map, List.cons_append, List.nil_append]

/-! ## Aliases -/

/-- An expression and the name behind it. -/
theorem yields_aliased {t : Tree} (h : t.IsExpression Faithful) {name : String}
    (hname : IsDotted name.toList) {n : Nat}
    (hn : (aliased (phrase t) (some (dotted name.toList)) {}).length ≤ n) (f : Frame) :
    Yields f (Token.stops Level.any) (expressionAt (n + 1) f Level.any)
      (aliased (phrase t) (some (dotted name.toList)))
      fun e => ∃ span e', e = .aliased span e' name ∧ Denotes e' t := by
  intro s g ts us u hsees hu
  obtain ⟨last, hlast, hphrase⟩ := exists_dotted_tree hname
  have hstable := stable_phrase h
  have hstable' := stable_phrase hlast
  have hsize : size t ≤ n ∧ size last < n := by
    have hlength := hstable'.starts.length_eq .blank {}
    simp only [aliased, ← hphrase, List.length_append, List.length_cons] at hn
    simp only [size]
    omega
  simp only [aliased, ← hphrase, lay_append, lay, List.append_assoc, List.cons_append]
  generalize s.after (spell (phrase t g)) = s₁
  generalize s₁.after (word "as" .blank).chars = s₂
  obtain ⟨e', -, hparse'⟩ := hstable'.yields hsize.2 f Level.disjunction s₂ .blank ts us u hsees
    (Token.stops_of_any hu Level.disjunction)
  have hmoves : Moves (phrase last) := hstable'.starts.imp fun _ _ => rfl
  have hcovered := covered_phrase hmoves hparse' hsees
  rw [hphrase, written_dotted, ← hphrase] at hcovered
  obtain ⟨first, more, heq, hopening, hgap⟩ := hstable'.starts.exists_cons s₂ .blank ts
  rw [heq] at hcovered ⊢
  obtain ⟨e, he, hclause⟩ := hstable.yields_clause hsize.1 f Level.any s g _ (first :: more)
    ((word "as" .blank).token s₁) (sees_word Gap.flat_blank)
    (show endsClause (.bare .word "as") = true by decide)
  refine ⟨.aliased e.span e name, ⟨_, e, rfl, he.read⟩, ?_⟩
  rw [expressionAt_loose n (by decide), loose, run_bind, hclause]
  have hstep := looser_aliased (t := (word "as" .blank).token s₁) (e := e) rfl
    (sees_opening hopening (hgap ▸ Gap.flat_blank) more) hcovered
  refine extend_more hstep ?_ (extend_done (looser_none (Token.stops_iff.mp hu).2))
  have hlength := congrArg List.length heq
  have hle := hsees.length_le
  obtain ⟨kind, text, rest, hfirst, -⟩ := hstable'.starts
  rw [hfirst, lay, List.cons_append] at hlength
  simp only [List.length_append, List.length_cons] at hlength hle ⊢
  omega

/-- An item of a `with` statement is read as one like it. -/
def DenotesItem (e : Expr) (item : WithItem Tree) : Prop :=
  ∃ u, readItem e = .ok ⟨u, item.asName⟩ ∧ Tree.alike item.context u = true

theorem denotesItem_aliased {span : Span} {e : Expr} {t : Tree} (h : Denotes e t) (name : String) :
    DenotesItem (.aliased span e name) ⟨t, some name⟩ := by
  obtain ⟨u, hread, halike⟩ := h
  refine ⟨u, ?_, halike⟩
  rw [readItem, hread]
  rfl

/-- An operand is no alias. -/
theorem denotesItem_alone {e : Expr} {t : Tree} (h : Restores e t) : DenotesItem e ⟨t, none⟩ := by
  obtain ⟨u, hread, halike⟩ := h.read
  refine ⟨u, ?_, halike⟩
  have hoperand := h.operand
  cases e with
  | aliased => exact absurd hoperand Bool.false_ne_true
  | _ =>
    rw [readItem]
    · rw [hread]
      rfl
    · intro _ _ _ h
      cases h

/-- An item of a `with` statement is read back, and so is what a handler catches. -/
theorem yields_item {item : WithItem Tree} (h : item.context.IsExpression Faithful)
    (hname : ∀ name ∈ item.asName, IsDotted name.toList) {n : Nat}
    (hn : (itemPhrase item {}).length ≤ n) (f : Frame) :
    Yields f (Token.stops Level.any) (expressionAt (n + 1) f Level.any) (itemPhrase item)
      fun e => DenotesItem e item := by
  obtain ⟨t, _ | name⟩ := item
  · intro s g ts us u hsees hu
    have hsize : size t < n + 1 := by
      simp only [itemPhrase, aliased, Option.map_none, List.append_nil] at hn
      exact Nat.lt_succ_of_le hn
    obtain ⟨e, he, hparse⟩ := (stable_phrase h).yields hsize f Level.any s g ts us u hsees hu
    simp only [itemPhrase, aliased, Option.map_none, List.append_nil]
    exact ⟨e, denotesItem_alone he, hparse⟩
  · intro s g ts us u hsees hu
    obtain ⟨e, ⟨span, e', rfl, he⟩, hparse⟩ :=
      yields_aliased h (hname name rfl) hn f s g ts us u hsees hu
    exact ⟨_, denotesItem_aliased he name, hparse⟩

theorem starts_item {item : WithItem Tree} (h : item.context.IsExpression Faithful) :
    StartsWith Token.isOpening (itemPhrase item) :=
  (starts_phrase h).append _

end Rendition.Python
