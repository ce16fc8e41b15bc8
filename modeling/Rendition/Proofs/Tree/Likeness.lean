import Mathlib
import Rendition.Proofs.Tree.Agreement
import Rendition.Proofs.Tree.Replaced
import Rendition.Proofs.Tree.Replacement

/-!
# When trees are alike

Trees are alike if they are equal up to places. Equality compares numbers as numbers, so it is no
equivalence: a tree that holds a value that is not a number is equal to nothing. Everything else is
as it should be, since equality comes down to equality of plain forms, where zeros have lost their
signs.

## Main definitions

* `Literal.Regular`, `Tree.Regular`: Constants and trees without a value that is not a number.
* `Literal.plain`, `Tree.plain`: Constants and trees with zeros that have no sign.
* `Tree.core`: What is left of a tree without places and without signs of zeros.

## Theorems

* `Node.agree_iff`: Nodes agree if they are regular and their plain forms are equal.
* `same_iff`: Trees are equal if they are regular and their plain forms are equal.
* `alike_eq_same`: Trees are alike if they are equal once all their places are.
* `alike_similarity`: What likeness is, and what it is like.
-/

namespace Rendition

/-- A number with a zero that has no sign. -/
def plainFloat (x : Float) : Float :=
  if x == 0 then 0 else x

theorem float_beq_iff (x y : Float) :
    (x == y) = true ↔ x.isNaN = false ∧ y.isNaN = false ∧ plainFloat x = plainFloat y := by
  have hplain : ∀ z : Float, z = 0 ∨ z = -0 ↔ (z == 0) = true := by
    intro z
    rw [Float.beq_iff_ne_nan_and_eq]
    have : (0 : Float) ≠ Float.nan := by decide
    have : (-0 : Float) ≠ Float.nan := by decide
    grind
  simp only [Float.isNaN_eq_decide_eq_nan, decide_eq_false_iff_not, plainFloat,
    @Float.beq_iff_ne_nan_and_eq x y]
  have hx := hplain x
  have hy := hplain y
  grind

namespace Literal

/-- Constants that are equal to themselves. -/
def Regular : Literal → Prop
  | float value => value.isNaN = false
  | _ => True

/-- A constant with a zero that has no sign. -/
def plain : Literal → Literal
  | float value => float (plainFloat value)
  | value => value

theorem agree_iff (a b : Literal) :
    a.agree b = true ↔ a.Regular ∧ b.Regular ∧ a.plain = b.plain := by
  cases a <;> cases b <;> simp [agree, Regular, plain, float_beq_iff]

end Literal

variable {α β γ : Type}

section

variable {r : α → β → Bool} {P : α → Prop} {Q : β → Prop} {f : α → γ} {g : β → γ}
  (h : ∀ a b, r a b = true ↔ P a ∧ Q b ∧ f a = g b)

include h

theorem agreeList_iff (as : List α) : ∀ bs : List β, agreeList r as bs = true ↔
    (∀ a ∈ as, P a) ∧ (∀ b ∈ bs, Q b) ∧ as.map f = bs.map g := by
  induction as with
  | nil => rintro (_ | ⟨b, bs⟩) <;> simp [agreeList]
  | cons a as ih =>
    rintro (_ | ⟨b, bs⟩)
    · simp [agreeList]
    · simp only [agreeList, Bool.and_eq_true, h, ih, List.forall_mem_cons, List.map_cons,
        List.cons.injEq, and_assoc, and_left_comm, and_comm]

theorem agreeOption_iff (a : Option α) (b : Option β) : agreeOption r a b = true ↔
    (∀ x ∈ a.toList, P x) ∧ (∀ y ∈ b.toList, Q y) ∧ a.map f = b.map g := by
  cases a <;> cases b <;> simp [agreeOption, h]

theorem agreeHandlers_iff (hs : List (Handler α)) (hs' : List (Handler β)) :
    agreeList (fun c c' => c.span == c'.span && c.name == c'.name &&
      agreeOption r c.exception c'.exception && agreeList r c.body c'.body) hs hs' = true ↔
      (∀ c ∈ hs, ∀ a ∈ c.toList, P a) ∧ (∀ c ∈ hs', ∀ b ∈ c.toList, Q b) ∧
        hs.map (Handler.map f) = hs'.map (Handler.map g) := by
  refine agreeList_iff (fun c c' => ?_) hs hs'
  simp only [Bool.and_eq_true, beq_iff_eq, agreeOption_iff h, agreeList_iff h, Handler.toList,
    Handler.map, List.forall_mem_append, Handler.mk.injEq, and_assoc, and_left_comm, and_comm]

theorem agreeItems_iff (is : List (WithItem α)) (is' : List (WithItem β)) :
    agreeList (fun i i' => i.asName == i'.asName && r i.context i'.context) is is' = true ↔
      (∀ i ∈ is, P i.context) ∧ (∀ i ∈ is', Q i.context) ∧
        is.map (WithItem.map f) = is'.map (WithItem.map g) := by
  refine agreeList_iff (fun i i' => ?_) is is'
  simp only [Bool.and_eq_true, beq_iff_eq, h, WithItem.map, WithItem.mk.injEq, and_assoc, and_comm]

theorem agreeKeywords_iff (ks : List (Keyword α)) (ks' : List (Keyword β)) :
    agreeList (fun k k' => k.name == k'.name && r k.value k'.value) ks ks' = true ↔
      (∀ k ∈ ks, P k.value) ∧ (∀ k ∈ ks', Q k.value) ∧
        ks.map (Keyword.map f) = ks'.map (Keyword.map g) := by
  refine agreeList_iff (fun k k' => ?_) ks ks'
  simp only [Bool.and_eq_true, beq_iff_eq, h, Keyword.map, Keyword.mk.injEq, and_assoc, and_comm]

theorem agreeEntries_iff (es : List (α × α)) (es' : List (β × β)) :
    agreeList (fun e e' => r e.1 e'.1 && r e.2 e'.2) es es' = true ↔
      (∀ e ∈ es, P e.1 ∧ P e.2) ∧ (∀ e ∈ es', Q e.1 ∧ Q e.2) ∧
        (es.map fun e => (f e.1, f e.2)) = es'.map fun e => (g e.1, g e.2) := by
  refine agreeList_iff (fun e e' => ?_) es es'
  simp only [Bool.and_eq_true, h, Prod.mk.injEq, and_assoc, and_left_comm]

end

namespace Node

/-- Nodes other than constants that differ from themselves. -/
def Regular : Node α → Prop
  | constant value => value.Regular
  | _ => True

/-- The node with a zero that has no sign. -/
def plain : Node α → Node α
  | constant value => constant value.plain
  | node => node

theorem kind_plain (node : Node α) : node.plain.kind = node.kind := by
  cases node <;> rfl

theorem plain_map (f : α → β) (node : Node α) : (node.map f).plain = node.plain.map f := by
  cases node <;> rfl

/-- Nodes agree if they are regular and have equal plain forms, where this is so for everything
    that could be their children. -/
theorem agree_iff {r : α → β → Bool} {P : α → Prop} {Q : β → Prop} {f : α → γ} {g : β → γ}
    (h : ∀ a b, r a b = true ↔ P a ∧ Q b ∧ f a = g b) (node : Node α) (node' : Node β) :
    node.agree (fun s s' => s == s') r node' = true ↔
      (node.Regular ∧ ∀ a ∈ node.toList, P a) ∧ (node'.Regular ∧ ∀ b ∈ node'.toList, Q b) ∧
        node.plain.map f = node'.plain.map g := by
  have hlist := agreeList_iff h
  have hoption := agreeOption_iff h
  have hhandlers := agreeHandlers_iff h
  have hitems := agreeItems_iff h
  have hkeywords := agreeKeywords_iff h
  have hentries := agreeEntries_iff h
  by_cases hkind : node.kind = node'.kind
  · cases node <;> cases node' <;> simp only [kind, reduceCtorEq] at hkind
    all_goals
      simp only [agree, Bool.and_eq_true, beq_iff_eq, h, hlist, hoption, hhandlers, hitems,
        hkeywords, hentries, Literal.agree_iff, Regular, plain, map, toList, true_and,
        List.forall_mem_cons, List.forall_mem_append, List.forall_mem_map, List.forall_mem_flatMap]
      grind
  · rw [agree_of_kind_ne _ _ hkind]
    refine iff_of_false Bool.false_ne_true fun hplain => hkind ?_
    have := congrArg kind hplain.2.2
    simpa only [kind_map, kind_plain] using this

theorem regular_map (f : α → β) (node : Node α) : (node.map f).Regular ↔ node.Regular := by
  cases node <;> rfl

theorem plain_mapSpans (f : Span → Span) (node : Node α) :
    (node.mapSpans f).plain = node.plain.mapSpans f := by
  cases node <;> rfl

theorem regular_mapSpans (f : Span → Span) (node : Node α) :
    (node.mapSpans f).Regular ↔ node.Regular := by
  cases node <;> rfl

/-- Agreement of nodes all of whose clauses stand at the places that `f` gives them. -/
theorem agree_mapSpans (spans : Span → Span → Bool) (r : α → β → Bool) (f : Span → Span)
    (node : Node α) (node' : Node β) : (node.mapSpans f).agree spans r (node'.mapSpans f) =
      node.agree (fun s s' => spans (f s) (f s')) r node' := by
  by_cases hkind : node.kind = node'.kind
  · cases node <;> cases node' <;> simp only [kind, reduceCtorEq] at hkind
    case tryStmt.tryStmt body handlers finalbody body' handlers' finalbody' =>
      simp only [mapSpans, agree, agreeList_map]
    all_goals rfl
  · rw [agree_of_kind_ne, agree_of_kind_ne _ _ hkind]
    simpa only [kind_mapSpans] using hkind

end Node

namespace Tree

/-- Trees without a value that is not a number. -/
def Regular (t : Tree) : Prop :=
  ∀ d ∈ t.descendants, ∀ value, d.node = .constant (.float value) → value.isNaN = false

/-- The tree with zeros that have no sign. -/
def plain (t : Tree) : Tree :=
  t.fold fun span node => mk span node.plain

theorem plain_mk (span : Span) (node : Node Tree) :
    plain (mk span node) = mk span (node.plain.map plain) := by
  rw [plain, fold_mk, Node.plain_map]
  rfl

theorem regular_mk (span : Span) (node : Node Tree) :
    Regular (mk span node) ↔ node.Regular ∧ ∀ c ∈ node.toList, Regular c := by
  have hroot : (∀ value, node = .constant (.float value) → value.isNaN = false) ↔
      node.Regular := by
    cases node with
    | constant value => cases value <;> simp [Node.Regular, Literal.Regular]
    | _ => simp [Node.Regular]
  simp only [Regular, descendants_mk, List.forall_mem_cons, node_mk, hroot, List.forall_mem_flatMap]

/-- Two trees are equal if their places are and their nodes agree. -/
theorem same_mk (span span' : Span) (node node' : Node Tree) :
    same (mk span node) (mk span' node') =
      (span == span' && node.agree (fun s s' => s == s') same node') := by
  have hmap := Node.agree_map (fun s s' => s == s') (fun (f : Tree → Bool) c => f c) same id
    node node'
  rw [show Node.map id node' = node' from Node.map_id node'] at hmap
  rw [same, fold_mk]
  exact congrArg (span == span' && ·) hmap

/-- Trees are equal if they are regular and have equal plain forms. -/
theorem same_iff (a : Tree) : ∀ b : Tree,
    a.same b = true ↔ a.Regular ∧ b.Regular ∧ a.plain = b.plain := by
  induction a using inductionOn with
  | step span node ih =>
    rintro ⟨span', node'⟩
    classical
    -- What is known of the children is all that the comparison of the nodes uses.
    have hchild : ∀ c ∈ node.toList, ∀ d, c.same d =
        decide (c.Regular ∧ d.Regular ∧ c.plain = d.plain) := fun c hc d =>
      Bool.eq_iff_iff.mpr ((ih c hc d).trans decide_eq_true_iff.symm)
    have hnodes := Node.agree_iff
      (r := fun c d => decide (Regular c ∧ Regular d ∧ plain c = plain d))
      (fun _ _ => decide_eq_true_iff) node node'
    rw [same_mk, Bool.and_eq_true, beq_iff_eq, Node.agree_congr _
      (fun c hc d _ => hchild c (Node.mem_of_mem_statements hc) d)
      (fun c hc d _ => hchild c (Node.mem_of_mem_expressions hc) d), hnodes, regular_mk, regular_mk,
      plain_mk, plain_mk, mk.injEq]
    grind

/-- Trees are alike if they are equal once all their places are the same. -/
theorem alike_eq_same (s : Span) (a : Tree) : ∀ b : Tree,
    a.alike b = (a.mapSpans fun _ => s).same (b.mapSpans fun _ => s) := by
  induction a using inductionOn with
  | step span node ih =>
    rintro ⟨span', node'⟩
    rw [alike_mk, mapSpans_mk, mapSpans_mk, same_mk, Node.agree_mapSpans, Node.agree_map]
    simp only [beq_self_eq_true, Bool.true_and]
    exact Node.agree_congr _ (fun c hc d _ => ih c (Node.mem_of_mem_statements hc) d)
      (fun c hc d _ => ih c (Node.mem_of_mem_expressions hc) d)

theorem regular_mapSpans (f : Span → Span) (t : Tree) : (t.mapSpans f).Regular ↔ t.Regular := by
  induction t using inductionOn with
  | step span node ih =>
    rw [mapSpans_mk, regular_mk, regular_mk, Node.regular_mapSpans, Node.regular_map,
      Node.toList_mapSpans, Node.toList_map, List.forall_mem_map]
    exact and_congr_right fun _ => forall₂_congr ih

/-- The tree with zeros that have no sign and with all places the same. -/
def core (t : Tree) : Tree :=
  t.erase.plain

/-- The core of a tree is what is left of its plain form. -/
theorem core_eq (t : Tree) : t.core = t.plain.erase := by
  have hplain : ∀ t : Tree, t.plain.erase =
      t.fold fun _ node => mk ⟨0, 0⟩ (node.plain.mapSpans fun _ => ⟨0, 0⟩) := by
    intro t
    induction t using inductionOn with
    | step span node ih =>
      rw [plain_mk, erase, mapSpans_mk, Node.map_map, ← Node.plain_map, fold_mk]
      exact congrArg (fun node => mk ⟨0, 0⟩ (node.plain.mapSpans fun _ => ⟨0, 0⟩))
        (Node.map_congr ih)
  rw [core, erase, plain, fold_mapSpans, hplain]
  simp only [Node.plain_mapSpans]

/-- Trees are alike if they are regular and have the same core. -/
theorem alike_iff (a b : Tree) :
    a.alike b = true ↔ a.Regular ∧ b.Regular ∧ a.core = b.core := by
  rw [alike_eq_same ⟨0, 0⟩, same_iff, regular_mapSpans, regular_mapSpans]
  rfl

/-- What likeness to other trees depends on, computed node by node. -/
theorem regular_eq_fold (t : Tree) :
    t.Regular = t.fold fun _ node => node.Regular ∧ ∀ holds ∈ node.toList, holds := by
  induction t using inductionOn with
  | step span node ih =>
    rw [fold_mk, Node.regular_map, Node.toList_map, List.forall_mem_map, regular_mk]
    exact propext (and_congr_right fun _ => forall₂_congr fun c hc => iff_of_eq (ih c hc))

/-- With a part replaced by one that is alike, a tree is alike to the trees it was alike to. -/
theorem alike_replaceAt {path : Position} {t d new : Tree} (hd : t.descend? path = some d)
    (h : d.alike new = true) (u : Tree) : (t.replaceAt path new).alike u = t.alike u := by
  obtain ⟨hregular, hnew, hcore⟩ := (alike_iff d new).mp h
  have hregular' : (t.replaceAt path new).Regular = t.Regular := by
    have hparts : new.Regular = d.Regular := propext (iff_of_true hnew hregular)
    rw [regular_eq_fold, regular_eq_fold] at hparts
    rw [regular_eq_fold, regular_eq_fold, fold_replaceAt _ hparts, replaceAt_self path hd]
  have hcore' : (t.replaceAt path new).core = t.core := by
    have hfold : ∀ v : Tree, v.core =
        v.fold fun _ node => mk ⟨0, 0⟩ (node.mapSpans fun _ => ⟨0, 0⟩).plain :=
      fun v => fold_mapSpans _ _ v
    rw [hfold, hfold] at hcore
    rw [hfold, hfold, fold_replaceAt _ hcore.symm, replaceAt_self path hd]
  rw [Bool.eq_iff_iff, alike_iff, alike_iff, hregular', hcore']

/-- Likeness is equality after all places of nodes and clauses were made the same. So it is
    symmetric and transitive, a tree is alike to itself if it holds no value that is not a number,
    equal trees are alike, and a part of a tree can be replaced by one that is alike: the tree is
    alike to the trees it was alike to before, itself among them. -/
theorem alike_similarity :
    (∀ s a b, alike a b = true ↔ same (mapSpans (fun _ => s) a) (mapSpans (fun _ => s) b) = true) ∧
    (∀ a b, alike a b = true → alike b a = true) ∧
    (∀ a b c, alike a b = true → alike b c = true → alike a c = true) ∧
    (∀ t, Regular t → alike t t = true) ∧
    (∀ a b, same a b = true → alike a b = true) ∧
    ∀ path t d new, descend? t path = some d → alike d new = true →
      descend? (replaceAt t path new) path = some new ∧
        (∀ u, alike (replaceAt t path new) u = alike t u) ∧
        (Regular t → alike t (replaceAt t path new) = true) := by
  have hsymm : ∀ a b, alike a b = true → alike b a = true := by
    intro a b h
    obtain ⟨ha, hb, hcore⟩ := (alike_iff a b).mp h
    exact (alike_iff b a).mpr ⟨hb, ha, hcore.symm⟩
  refine ⟨fun s a b => by rw [alike_eq_same s], hsymm, fun a b c hab hbc => ?_,
    fun t ht => (alike_iff t t).mpr ⟨ht, ht, rfl⟩, fun a b h => ?_,
    fun path t d new hd h => ⟨descend_replaceAt path hd, alike_replaceAt hd h, fun ht => ?_⟩⟩
  · obtain ⟨ha, -, hcore⟩ := (alike_iff a b).mp hab
    obtain ⟨-, hc, hcore'⟩ := (alike_iff b c).mp hbc
    exact (alike_iff a c).mpr ⟨ha, hc, hcore.trans hcore'⟩
  · obtain ⟨ha, hb, hplain⟩ := (same_iff a b).mp h
    exact (alike_iff a b).mpr ⟨ha, hb, by rw [core_eq, core_eq, hplain]⟩
  · refine hsymm _ _ ?_
    rw [alike_replaceAt hd h]
    exact (alike_iff t t).mpr ⟨ht, ht, rfl⟩

/-- A zero and a negative zero in another place are alike, and the one can be replaced by the other
    where a function returns it. -/
theorem alike_similarity_zero :
    let zero := mk ⟨2, 11⟩ (.constant (.float 0))
    let negative := mk ⟨7, 0⟩ (.constant (.float (-0)))
    let t := mk ⟨1, 0⟩ (.functionDef "f" ["x"] [mk ⟨2, 4⟩ (.returnStmt (some zero))])
    (alike zero negative = true ∧ alike negative zero = true ∧ alike negative negative = true) ∧
      (same zero zero = true ∧ alike zero zero = true) ∧
      (Regular t ∧ alike t t = true) ∧
      descend? t [0, 0] = some zero ∧
        descend? (replaceAt t [0, 0] negative) [0, 0] = some negative ∧
        alike (replaceAt t [0, 0] negative) t = alike t t ∧
        alike t (replaceAt t [0, 0] negative) = true := by
  intro zero negative t
  obtain ⟨-, hsymm, htrans, hself, hsame, hreplace⟩ := alike_similarity
  have hregular : Regular t := by
    refine ((alike_iff t t).mp ?_).1
    decide
  have hdescend : descend? t [0, 0] = some zero := rfl
  have hzero : alike zero negative = true := by decide
  obtain ⟨hthere, hsteady, halike⟩ := hreplace [0, 0] t zero negative hdescend hzero
  have hnegative := hsymm zero negative hzero
  exact ⟨⟨hzero, hnegative, htrans negative zero negative hnegative hzero⟩,
    ⟨by decide, hsame zero zero (by decide)⟩,
    ⟨hregular, hself t hregular⟩, hdescend, hthere, hsteady t, halike hregular⟩

end Tree

end Rendition
