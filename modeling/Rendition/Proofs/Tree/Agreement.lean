import Rendition.Proofs.Tree.Placement
import Rendition.Tree.Equality

/-!
# Agreement of nodes

Two nodes agree if they are of one kind, say the same, and have children that are related one by
one. What the children are replaced by, and how they are related, can be changed as long as it
comes to the same at every child.

## Theorems

* `Node.agree_map`: Agreement of nodes whose children were replaced.
* `Node.agree_congr`: Agreement under relations that come to the same.
* `Tree.alike_mk`: Trees are alike if their nodes agree and their children are alike.
-/

namespace Rendition

variable {α β γ δ : Type}

theorem agreeList_map (r : γ → δ → Bool) (f : α → γ) (g : β → δ) (as : List α) : ∀ bs : List β,
    agreeList r (as.map f) (bs.map g) = agreeList (fun a b => r (f a) (g b)) as bs := by
  induction as with
  | nil => rintro (_ | ⟨b, bs⟩) <;> rfl
  | cons a as ih =>
    rintro (_ | ⟨b, bs⟩)
    · rfl
    · simp only [List.map_cons, agreeList, ih]

theorem agreeOption_map (r : γ → δ → Bool) (f : α → γ) (g : β → δ) (a : Option α) (b : Option β) :
    agreeOption r (a.map f) (b.map g) = agreeOption (fun a b => r (f a) (g b)) a b := by
  cases a <;> cases b <;> rfl

/-- Lists agree under one relation as they do under another that is the same for their elements. -/
theorem agreeList_congr {r r' : α → β → Bool} {as : List α} {bs : List β}
    (h : ∀ a ∈ as, ∀ b ∈ bs, r a b = r' a b) : agreeList r as bs = agreeList r' as bs := by
  induction as generalizing bs with
  | nil => cases bs <;> rfl
  | cons a as ih =>
    cases bs with
    | nil => rfl
    | cons b bs =>
      have hrest := ih fun c hc d hd =>
        h c (List.mem_cons_of_mem a hc) d (List.mem_cons_of_mem b hd)
      simp only [agreeList, h a List.mem_cons_self b List.mem_cons_self, hrest]

theorem agreeOption_congr {r r' : α → β → Bool} {a : Option α} {b : Option β}
    (h : ∀ x ∈ a.toList, ∀ y ∈ b.toList, r x y = r' x y) :
    agreeOption r a b = agreeOption r' a b := by
  cases a <;> cases b <;>
    first | rfl | exact h _ List.mem_cons_self _ List.mem_cons_self

/-- Lists of things that can be told apart agree under equality if they are equal. -/
theorem agreeList_beq [BEq α] (as : List α) :
    ∀ bs : List α, agreeList (fun a b => a == b) as bs = (as == bs) := by
  induction as with
  | nil => rintro (_ | ⟨b, bs⟩) <;> rfl
  | cons a as ih =>
    rintro (_ | ⟨b, bs⟩)
    · rfl
    · simp only [agreeList, ih, List.cons_beq_cons]

attribute [local congr] agreeList_congr agreeOption_congr

namespace Node

variable (spans : Span → Span → Bool)

theorem agree_of_kind_ne (r : α → β → Bool) {node : Node α} {node' : Node β}
    (h : node.kind ≠ node'.kind) : node.agree spans r node' = false := by
  cases node <;> cases node' <;> first | rfl | exact absurd rfl h

/-- Agreement of nodes whose children were replaced. -/
theorem agree_map (r : γ → δ → Bool) (f : α → γ) (g : β → δ) (node : Node α) (node' : Node β) :
    (node.map f).agree spans r (node'.map g) =
      node.agree spans (fun a b => r (f a) (g b)) node' := by
  by_cases h : node.kind = node'.kind
  · cases node <;> cases node' <;> simp only [kind, reduceCtorEq] at h
    all_goals
      simp only [agree, map, agreeList_map, agreeOption_map, Handler.map, WithItem.map, Keyword.map]
  · rw [agree_of_kind_ne, agree_of_kind_ne _ _ h]
    simpa only [kind_map] using h

/-- Agreement under relations that come to the same at every child. -/
theorem agree_congr {r r' : α → β → Bool} {node : Node α} {node' : Node β}
    (hstatements : ∀ a ∈ node.statements, ∀ b ∈ node'.statements, r a b = r' a b)
    (hexpressions : ∀ a ∈ node.expressions, ∀ b ∈ node'.expressions, r a b = r' a b) :
    node.agree spans r node' = node.agree spans r' node' := by
  by_cases h : node.kind = node'.kind
  · -- Children that are absent, or that stand inside clauses, items, keywords and entries, are
    -- reached one by one; elsewhere the congruence rules for lists are enough.
    cases node <;> cases node' <;> simp only [kind, reduceCtorEq] at h
    case returnStmt.returnStmt => exact agreeOption_congr hexpressions
    case raiseStmt.raiseStmt => exact agreeOption_congr hexpressions
    case slice.slice lower upper step lower' upper' step' =>
      have hlower : agreeOption r lower lower' = agreeOption r' lower lower' :=
        agreeOption_congr fun a ha b hb =>
          hexpressions a (List.mem_append_left _ (List.mem_append_left _ ha))
            b (List.mem_append_left _ (List.mem_append_left _ hb))
      have hupper : agreeOption r upper upper' = agreeOption r' upper upper' :=
        agreeOption_congr fun a ha b hb =>
          hexpressions a (List.mem_append_left _ (List.mem_append_right _ ha))
            b (List.mem_append_left _ (List.mem_append_right _ hb))
      have hstep : agreeOption r step step' = agreeOption r' step step' :=
        agreeOption_congr fun a ha b hb =>
          hexpressions a (List.mem_append_right _ ha) b (List.mem_append_right _ hb)
      simp only [agree, hlower, hupper, hstep]
    case tryStmt.tryStmt body handlers finalbody body' handlers' finalbody' =>
      simp only [statements, List.mem_append, List.mem_flatMap] at hstatements
      simp only [expressions, List.mem_flatMap] at hexpressions
      have hbody : agreeList r body body' = agreeList r' body body' :=
        agreeList_congr fun a ha b hb => hstatements a (.inl (.inl ha)) b (.inl (.inl hb))
      have hfinal : agreeList r finalbody finalbody' = agreeList r' finalbody finalbody' :=
        agreeList_congr fun a ha b hb => hstatements a (.inr ha) b (.inr hb)
      simp only [agree]
      refine congrArg₂ and (congrArg₂ and hbody (agreeList_congr fun h hmem h' hmem' => ?_)) hfinal
      have hexception : agreeOption r h.exception h'.exception =
          agreeOption r' h.exception h'.exception :=
        agreeOption_congr fun a ha b hb => hexpressions a ⟨h, hmem, ha⟩ b ⟨h', hmem', hb⟩
      have hsuite : agreeList r h.body h'.body = agreeList r' h.body h'.body :=
        agreeList_congr fun a ha b hb =>
          hstatements a (.inl (.inr ⟨h, hmem, ha⟩)) b (.inl (.inr ⟨h', hmem', hb⟩))
      rw [hexception, hsuite]
    case withStmt.withStmt items body items' body' =>
      simp only [agree]
      refine congrArg₂ and (agreeList_congr fun i hi i' hi' => ?_) (agreeList_congr hstatements)
      rw [hexpressions i.context (List.mem_map_of_mem hi) i'.context (List.mem_map_of_mem hi')]
    case call.call func args keywords func' args' keywords' =>
      simp only [expressions, toList, List.mem_cons, List.mem_append] at hexpressions
      have hfunc : r func func' = r' func func' := hexpressions func (.inl rfl) func' (.inl rfl)
      have hargs : agreeList r args args' = agreeList r' args args' :=
        agreeList_congr fun a ha b hb => hexpressions a (.inr (.inl ha)) b (.inr (.inl hb))
      simp only [agree]
      refine congrArg₂ and (congrArg₂ and hfunc hargs) (agreeList_congr fun k hk k' hk' => ?_)
      rw [hexpressions k.value (.inr (.inr (List.mem_map_of_mem hk))) k'.value
        (.inr (.inr (List.mem_map_of_mem hk')))]
    case dict.dict entries entries' =>
      simp only [expressions, toList, List.mem_flatMap] at hexpressions
      refine agreeList_congr fun e he e' he' => ?_
      rw [hexpressions e.1 ⟨e, he, by simp⟩ e'.1 ⟨e', he', by simp⟩,
        hexpressions e.2 ⟨e, he, by simp⟩ e'.2 ⟨e', he', by simp⟩]
    all_goals
      simp only [statements, expressions, toList, List.mem_append, List.mem_cons,
        List.not_mem_nil] at hstatements hexpressions
      simp +contextual [agree, hstatements, hexpressions]
  · rw [agree_of_kind_ne _ _ h, agree_of_kind_ne _ _ h]

end Node

namespace Tree

/-- Trees are alike if their nodes agree and their children are alike. -/
theorem alike_mk (span span' : Span) (node node' : Node Tree) :
    alike (mk span node) (mk span' node') = node.agree (fun _ _ => true) alike node' := by
  have hmap := Node.agree_map (fun _ _ => true) (fun (f : Tree → Bool) c => f c) alike id node node'
  rw [show Node.map id node' = node' from Node.map_id node'] at hmap
  rw [alike, fold_mk]
  exact hmap

end Tree

end Rendition
