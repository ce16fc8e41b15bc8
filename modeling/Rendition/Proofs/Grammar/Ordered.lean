import Rendition.Proofs.Grammar.Compound
import Rendition.Proofs.Grammar.Grown
import Rendition.Proofs.Source.Placed

/-!
# Trees in order

The trees that are read from a source text stand where tokens of it stand, and tokens stand in
order. So every node is inside the text and not before its parent, and what stands in a node follows
one another in the order in which it is written: the statements of a list do, and so do the children
of a node, except that the condition of a conditional expression comes first among them although it
is written second, and that arguments with a name come behind those without one.

## Main definitions

* `Node.blocks`: The lists of statements in a node.
* `Source.Ordered`: What stands in a tree is in order.

## Theorems

* `Course.Grown.pairwise`: Trees that follow one another along a course are in order.
* `Course.Grown.line_lt`: Behind the definition of a function the next tree is on a later line.
* `read_grown`: A source text is read as trees along the course of its tokens.
* `read_places`: The places of a tree are sound.
* `children_ordered_iff`: When the children of a node are in the order of the source.
-/

namespace Rendition

namespace Source

open Text (Holds Inside)

namespace Course

variable {c : Course} {text : List Char}

/-! ## Points in order -/

/-- A construct starts at a token. -/
theorem Stands.token {k : Nat} {s : Span} (h : c.Stands k s) :
    k % 3 = 1 ∧ ∃ t, c.tokens[k / 3]? = some t ∧ t.kind.isSolid ∧ t.span = s := by
  obtain ⟨t, ht, hsolid, hspan⟩ := h
  rcases front_cases ht with ⟨hmod, ht⟩ | ⟨-, u, -, -, rfl⟩
  · exact ⟨hmod, t, ht, hsolid, hspan⟩
  · cases hsolid

theorem Ends.token {k : Nat} (h : c.Ends k) :
    k % 3 = 1 ∧ ∃ t, c.tokens[k / 3]? = some t ∧ t.endsLine := by
  obtain ⟨t, ht, hends⟩ := h
  rcases front_cases ht with ⟨hmod, ht⟩ | ⟨-, u, -, -, rfl⟩
  · exact ⟨hmod, t, ht, hends⟩
  · cases hends

/-- Of two tokens the one at the lower point stands before the other. -/
theorem before (hcovers : Covers ⟨1, 0⟩ text c.tokens) {i j : Nat} (hij : i < j) {t u : Token}
    (ht : c.tokens[i]? = some t) (hu : c.tokens[j]? = some u) : t.Before u := by
  obtain ⟨hi, rfl⟩ := List.getElem?_eq_some_iff.mp ht
  obtain ⟨hj, rfl⟩ := List.getElem?_eq_some_iff.mp hu
  exact List.pairwise_iff_getElem.mp hcovers.pairwise i j hi hj hij

theorem Stands.holds (hcovers : Covers ⟨1, 0⟩ text c.tokens) {k : Nat} {s : Span}
    (h : c.Stands k s) : Holds text s := by
  obtain ⟨-, t, ht, hsolid, rfl⟩ := h.token
  exact hcovers.holds (List.mem_of_getElem? ht) hsolid

/-- Constructs at one point after another are in order. -/
theorem Stands.lt (hcovers : Covers ⟨1, 0⟩ text c.tokens) {k k' : Nat} {s s' : Span}
    (h : c.Stands k s) (h' : c.Stands k' s') (hlt : k < k') : s < s' := by
  obtain ⟨hk, t, ht, hsolid, rfl⟩ := h.token
  obtain ⟨hk', u, hu, -, rfl⟩ := h'.token
  exact (before hcovers (by omega) ht hu).lt hsolid

theorem Stands.le (hcovers : Covers ⟨1, 0⟩ text c.tokens) {k k' : Nat} {s s' : Span}
    (h : c.Stands k s) (h' : c.Stands k' s') (hle : k ≤ k') : s ≤ s' := by
  rcases Nat.eq_or_lt_of_le hle with rfl | hlt
  · obtain ⟨t, ht, -, rfl⟩ := h
    obtain ⟨u, hu, -, rfl⟩ := h'
    obtain rfl := Option.some.inj (ht.symm.trans hu)
    exact Span.le_refl _
  · exact Span.le_of_lt (h.lt hcovers h' hlt)

namespace Grown

variable {i j : Nat} {ts : List Tree}

/-- Trees between two points stand at points between them. -/
theorem stands (h : c.Grown i ts j) : ∀ t ∈ ts, ∃ k, i ≤ k ∧ c.Stands k t.span := by
  induction h with
  | nil => exact nofun
  | cons hi hspan _ _ hl _ _ _ ih =>
    refine List.forall_mem_cons.mpr ⟨⟨_, hi, hspan⟩, fun u hu => ?_⟩
    obtain ⟨k, hk, hu⟩ := ih u hu
    exact ⟨k, by omega, hu⟩

/-- Trees that follow one another along a course are in order. -/
theorem pairwise (hcovers : Covers ⟨1, 0⟩ text c.tokens) (h : c.Grown i ts j) :
    ts.Pairwise fun a b => a.span < b.span := by
  induction h with
  | nil => exact .nil
  | cons _ hspan _ _ hl _ hrest _ ih =>
    refine .cons (fun u hu => ?_) ih
    obtain ⟨k, hk, hu⟩ := hrest.stands u hu
    exact hspan.lt hcovers hu (by omega)

/-- What stands inside trees stands along the course too. -/
theorem descendants (h : c.Grown i ts j) : ∀ t ∈ ts, ∀ u ∈ t.descendants,
    ∃ k ps l, c.Stands k u.span ∧ u.node.Written ps ∧ c.Grown k ps l := by
  induction h with
  | nil => exact nofun
  | @cons i k l j t ps rest _ hspan hwritten hparts _ _ _ ihparts ih =>
    refine List.forall_mem_cons.mpr ⟨?_, ih⟩
    rcases t with ⟨span, node⟩
    rw [Tree.descendants_mk]
    refine List.forall_mem_cons.mpr ⟨⟨k, ps, l, hspan, hwritten, hparts⟩, fun u hu => ?_⟩
    obtain ⟨child, hchild, hu⟩ := List.mem_flatMap.mp hu
    exact ihparts child (hwritten.perm.symm.subset hchild) u hu

end Grown

end Course

/-! ## Source texts -/

/-- The course of tokens beside the same tokens. -/
def Course.same (tokens : List Token) (kinds : ∀ t ∈ tokens, t.kind ≠ .lineEnd) : Course where
  tokens := tokens
  move := id
  gap := (tokens.head?.map fun t => t.gap.mapSpans id).getD {}
  kinds := kinds
  continued t ht := by
    rw [Option.mem_def.mp ht]
    exact Gap.continuations_mapSpans id t.gap

/-- A source text is read as trees along the course of its tokens. -/
theorem read_grown {text : String} {tree : Tree} (h : read text = .ok tree) :
    ∃ c body j, Covers ⟨1, 0⟩ text.toList (Course.tokens c) ∧
      tree = .mk ⟨1, 0⟩ (.moduleDef body) ∧ Course.Grown c 1 body j := by
  obtain ⟨statements, body, hparse, hreads, rfl⟩ := read_eq_ok h
  have hcovers := covers_tokensWithin (text.toList.length + 1) [] ⟨1, 0⟩ text.toList
  let c := Course.same (tokenize text.toList) hcovers.kind_ne
  have hrel := Course.parseTokens?_at c.at_start
  rw [show parseTokens? c.tokens = some statements from hparse] at hrel
  generalize parseTokens? c.others = other at hrel
  cases hrel with
  | some hrow =>
    obtain ⟨j, hrow⟩ := hrow
    refine ⟨c, body, j, hcovers, rfl, Course.grown_of_forall₂ ?_ (Course.laid_stmts hrow)⟩
    exact List.forall₂_map_left_iff.mpr (hreads.imp fun s t h => h.grown)

/-- What stands in a tree is in order: as it is written, it follows one another, inside the text and
    not before the tree. -/
structure Ordered (text : List Char) (t : Tree) (ps : List Tree) : Prop where
  written : t.node.Written ps
  pairwise : ps.Pairwise fun a b => a.span < b.span
  inside : ∀ p ∈ ps, t.span ≤ p.span ∧ Inside text p.span

/-- What stands in each node of a tree that is read is in order. -/
theorem read_ordered {text : String} {tree : Tree} (h : read text = .ok tree) :
    ∀ t ∈ tree.descendants, ∃ ps, Ordered text.toList t ps := by
  obtain ⟨c, body, j, hcovers, rfl, hbody⟩ := read_grown h
  rw [Tree.descendants_mk]
  refine List.forall_mem_cons.mpr ⟨⟨body, .plain rfl, hbody.pairwise hcovers, ?_⟩, ?_⟩
  · -- The whole text starts where the first line does.
    intro p hp
    obtain ⟨k, -, hp⟩ := hbody.stands p hp
    have hinside := (hp.holds hcovers).inside
    refine ⟨?_, hinside⟩
    rcases Nat.eq_or_lt_of_le hinside.first with hline | hline
    · exact .inr ⟨hline, Nat.zero_le _⟩
    · exact .inl hline
  · intro t ht
    obtain ⟨child, hchild, ht⟩ := List.mem_flatMap.mp ht
    obtain ⟨k, ps, l, hspan, hwritten, hps⟩ := hbody.descendants child hchild t ht
    refine ⟨ps, hwritten, hps.pairwise hcovers, fun p hp => ?_⟩
    obtain ⟨m, hm, hp⟩ := hps.stands p hp
    exact ⟨hspan.le hcovers hp hm, (hp.holds hcovers).inside⟩

/-- The children of a node are in the order of the source unless the node is a conditional
    expression, whose condition comes first, or a call with an argument that has a name in front of
    one without. -/
theorem children_ordered_iff {text : String} {tree : Tree} (h : read text = .ok tree) {t : Tree}
    (ht : t ∈ tree.descendants) : (t.children.Pairwise fun a b => a.span ≤ b.span) ↔
      t.kind ≠ .ifExp ∧ ∀ func args keywords, t.node = .call func args keywords →
        ∀ arg ∈ args, ∀ keyword ∈ keywords, arg.span ≤ keyword.value.span := by
  obtain ⟨ps, hwritten, hpairwise, -⟩ := read_ordered h t ht
  rcases t with ⟨span, node⟩
  cases hwritten with
  | @ifExp test body orelse =>
    -- The condition is written behind what depends on it.
    have hlt : body.span < test.span := List.rel_of_pairwise_cons hpairwise (.head _)
    refine iff_of_false (fun hle => ?_) fun hne => hne.1 rfl
    exact Span.not_lt_of_le (List.rel_of_pairwise_cons hle (.head _)) hlt
  | @call func args rest keywords hargs hkeywords hperm =>
    obtain ⟨hfunc, hrest⟩ := List.pairwise_cons.mp hpairwise
    have hle := hrest.imp fun h => Span.le_of_lt h
    have hsplit : ((Tree.mk span (.call func args keywords)).children.Pairwise
        fun a b => a.span ≤ b.span) ↔
        ∀ arg ∈ args, ∀ keyword ∈ keywords, arg.span ≤ keyword.value.span := by
      rw [show (Tree.mk span (.call func args keywords)).children =
          func :: (args ++ keywords.map Keyword.value) from rfl, List.pairwise_cons,
        List.pairwise_append]
      refine ⟨fun h arg harg keyword hkeyword =>
        h.2.2.2 arg harg _ (List.mem_map_of_mem hkeyword), fun h =>
          ⟨fun p hp => Span.le_of_lt (hfunc p (hperm.symm.subset hp)), hle.sublist hargs,
            hle.sublist hkeywords, fun arg harg => List.forall_mem_map.mpr (h arg harg)⟩⟩
    rw [hsplit]
    refine ⟨fun h => ⟨nofun, fun func' args' keywords' heq => ?_⟩,
      fun h => h.2 func args keywords rfl⟩
    cases heq
    exact h
  | plain hlisted =>
    obtain ⟨hifExp, hcall⟩ := Node.isListed_iff.mp hlisted
    refine iff_of_true (hpairwise.imp fun h => Span.le_of_lt h)
      ⟨hifExp, fun func args keywords h => ?_⟩
    exact absurd (congrArg Node.kind h) hcall

end Source

end Rendition
