import Rendition.Proofs.Decimal.Written
import Rendition.Proofs.Tree.Grammatical
import Rendition.Proofs.Tree.Likeness

/-!
# Legible trees

The expressions whose texts can be read in one way only. Names are identifiers and numbers are
finite, and where the text of a node would leave some of its parts out, or make it look like one of
its parts, the node is excluded: a chain of conditions joins at least two of them, a comparison
compares something, and what stands between the brackets of a subscript is no tuple of one element,
which is written like the element.

## Main definitions

* `Readable.Legible`: Expressions that can be read back from their texts.

## Theorems

* `Legible.regular`: A legible tree holds no value that is not a number.
* `Tree.erase_index`: An index is told by the indices in it.
-/

namespace Rendition

namespace Tree

/-- An index is a slice, or else it is its only bound. -/
theorem slice_or_bounds (i : Tree) :
    (∃ span lower upper step, i = .mk span (.slice lower upper step)) ∨ i.bounds = [i] := by
  rcases i with ⟨span, node⟩
  cases node with
  | slice lower upper step => exact .inl ⟨span, lower, upper, step, rfl⟩
  | _ => exact .inr rfl

/-- What holds between brackets is a tuple of indices, or else it is the only index. -/
theorem tuple_or_indices (index : Tree) :
    (∃ span first rest, index = .mk span (.tuple (first :: rest))) ∨ index.indices = [index] := by
  rcases index with ⟨span, node⟩
  cases node with
  | tuple items =>
    rcases items with _ | ⟨first, rest⟩
    · exact .inr rfl
    · exact .inl ⟨span, first, rest, rfl⟩
  | _ => exact .inr rfl

/-- A tree holds no value that is not a number if that is so of its bounds. -/
theorem regular_of_bounds {i : Tree} (h : ∀ e ∈ i.bounds, e.Regular) : i.Regular := by
  rcases slice_or_bounds i with ⟨span, lower, upper, step, rfl⟩ | hbounds
  · exact (regular_mk span _).mpr ⟨trivial, h⟩
  · exact h i (by rw [hbounds]; exact List.mem_cons_self)

theorem regular_of_indices {index : Tree} (h : ∀ i ∈ index.indices, i.Regular) :
    index.Regular := by
  rcases tuple_or_indices index with ⟨span, first, rest, rfl⟩ | hindices
  · exact (regular_mk span _).mpr ⟨trivial, h⟩
  · exact h index (by rw [hindices]; exact List.mem_cons_self)

/-- An index is told by the indices in it, unless it is a tuple of one element. -/
theorem erase_index {index index' : Tree} (hsingle : ∀ item, index.node ≠ .tuple [item])
    (hsingle' : ∀ item, index'.node ≠ .tuple [item])
    (h : index.indices.map erase = index'.indices.map erase) : index.erase = index'.erase := by
  rcases tuple_or_indices index with ⟨span, first, rest, rfl⟩ | hindices <;>
    rcases tuple_or_indices index' with ⟨span', first', rest', rfl⟩ | hindices'
  · rw [erase, erase, mapSpans_mk, mapSpans_mk]
    exact congrArg (fun items => Tree.mk ⟨0, 0⟩ (.tuple items)) h
  · rw [hindices'] at h
    rcases rest with _ | ⟨second, rest⟩
    · exact absurd rfl (hsingle first)
    · cases congrArg List.length h
  · rw [hindices] at h
    rcases rest' with _ | ⟨second, rest⟩
    · exact absurd rfl (hsingle' first')
    · cases congrArg List.length h
  · rw [hindices, hindices'] at h
    exact (List.cons.inj h).1

end Tree

namespace Python.Readable

/-- Expressions that can be read back from their texts. -/
inductive Legible : Tree → Prop
  | ident {span : Span} {id : String} (hid : Text.IsIdentifier id) : Legible (.mk span (.ident id))
  | constant {span : Span} {value : Literal} (hfinite : ∀ x, value = .float x → x.isFinite = true) :
    Legible (.mk span (.constant value))
  | binOp {span : Span} {left right : Tree} {op : Operator} (hleft : Legible left)
    (hright : Legible right) : Legible (.mk span (.binOp left op right))
  | unaryOp {span : Span} {op : UnaryOperator} {operand : Tree} (hoperand : Legible operand) :
    Legible (.mk span (.unaryOp op operand))
  | compare {span : Span} {left : Tree} {ops : List Comparison} {comparators : List Tree}
    (hops : ops ≠ []) (hlength : ops.length = comparators.length) (hleft : Legible left)
    (hcomparators : ∀ c ∈ comparators, Legible c) :
    Legible (.mk span (.compare left ops comparators))
  | boolOp {span : Span} {op : Connective} {values : List Tree} (hlength : 2 ≤ values.length)
    (hvalues : ∀ v ∈ values, Legible v) : Legible (.mk span (.boolOp op values))
  | call {span : Span} {func : Tree} {args : List Tree} {keywords : List (Keyword Tree)}
    (hfunc : Legible func) (hargs : ∀ a ∈ args, Legible a)
    (hnames : ∀ k ∈ keywords, Text.IsIdentifier k.name)
    (hkeywords : ∀ k ∈ keywords, Legible k.value) :
    Legible (.mk span (.call func args keywords))
  | attr {span : Span} {value : Tree} {name : String} (hvalue : Legible value)
    (hname : Text.IsIdentifier name) : Legible (.mk span (.attr value name))
  | subscript {span : Span} {value index : Tree} (hvalue : Legible value)
    (hsingle : ∀ item, index.node ≠ .tuple [item])
    (hindex : ∀ i ∈ index.indices, ∀ e ∈ i.bounds, Legible e) :
    Legible (.mk span (.subscript value index))
  | list {span : Span} {items : List Tree} (hitems : ∀ i ∈ items, Legible i) :
    Legible (.mk span (.list items))
  | tuple {span : Span} {items : List Tree} (hitems : ∀ i ∈ items, Legible i) :
    Legible (.mk span (.tuple items))
  | dict {span : Span} {entries : List (Tree × Tree)} (hkeys : ∀ e ∈ entries, Legible e.1)
    (hvalues : ∀ e ∈ entries, Legible e.2) : Legible (.mk span (.dict entries))
  | ifExp {span : Span} {test body orelse : Tree} (htest : Legible test) (hbody : Legible body)
    (horelse : Legible orelse) : Legible (.mk span (.ifExp test body orelse))
  | lambda {span : Span} {params : List String} {body : Tree}
    (hparams : ∀ p ∈ params, Text.IsIdentifier p) (hbody : Legible body) :
    Legible (.mk span (.lambda params body))

/-- A legible tree holds no value that is not a number. -/
theorem Legible.regular {t : Tree} (h : Legible t) : t.Regular := by
  induction h with
  | ident hid => exact (Tree.regular_mk _ _).mpr ⟨trivial, List.forall_mem_nil _⟩
  | @constant span value hfinite =>
    refine (Tree.regular_mk span _).mpr ⟨?_, List.forall_mem_nil _⟩
    cases value with
    | float x => exact isNaN_eq_false (hfinite x rfl)
    | _ => trivial
  | subscript hvalue hsingle hindex ihvalue ihindex =>
    have hregular := Tree.regular_of_indices fun i hi => Tree.regular_of_bounds (ihindex i hi)
    refine (Tree.regular_mk _ _).mpr ⟨trivial, ?_⟩
    simp only [Node.toList, List.forall_mem_cons, List.not_mem_nil, false_imp_iff, implies_true,
      and_true]
    exact ⟨ihvalue, hregular⟩
  | _ =>
    -- The other nodes have children that are legible themselves.
    refine (Tree.regular_mk _ _).mpr ⟨trivial, ?_⟩
    simp only [Node.toList, List.forall_mem_cons, List.forall_mem_append, List.forall_mem_map,
      List.forall_mem_flatMap, List.not_mem_nil, false_imp_iff, implies_true, and_true]
    grind

end Python.Readable

end Rendition
