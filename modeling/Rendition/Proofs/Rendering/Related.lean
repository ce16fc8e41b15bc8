import Mathlib.Data.List.Forall2
import Rendition.Rendering.Rule

/-!
# Two renditions side by side

What a rendition depends on is said by running it twice: of two trees, in two states, or with two
settings. The two runs are related when they end in the same way with related results, and leave
related states behind. The rules of this module take such a pair of runs apart step by step.

## Main definitions

* `Paired`: Two results that are both values or both failures, and related.
* `Related`: Two computations with paired results from any two related states.

## Theorems

* `Related.bind`: Related computations one after another.
* `Related.runAll`: Related lists of children.
-/

namespace Rendition

variable {σ τ α β γ δ : Type}

/-- Lists that are related one by one are so by elements of theirs. -/
theorem forall₂_mem {R : α → β → Prop} {as : List α} {bs : List β} (h : List.Forall₂ R as bs) :
    List.Forall₂ (fun a b => a ∈ as ∧ b ∈ bs ∧ R a b) as bs := by
  induction h with
  | nil => exact .nil
  | cons hab _ ih =>
    refine .cons ⟨List.mem_cons_self, List.mem_cons_self, hab⟩ (ih.imp fun a b h => ?_)
    exact ⟨List.mem_cons_of_mem _ h.1, List.mem_cons_of_mem _ h.2.1, h.2.2⟩

theorem exists_of_forall₂ {R : α → β → Prop} {as : List α} {bs : List β}
    (h : List.Forall₂ R as bs) {a : α} (ha : a ∈ as) : ∃ b ∈ bs, R a b := by
  induction h with
  | nil => exact absurd ha List.not_mem_nil
  | cons hfirst hrest ih =>
    rcases List.mem_cons.mp ha with rfl | ha
    · exact ⟨_, List.mem_cons_self, hfirst⟩
    · obtain ⟨b, hb, hab⟩ := ih ha
      exact ⟨b, List.mem_cons_of_mem _ hb, hab⟩

/-- Two results that are related: two values, or two failures. -/
inductive Paired (E : Unimplemented → Unimplemented → Prop) (R : α → β → Prop) :
    Except Unimplemented α → Except Unimplemented β → Prop where
  | ok {a : α} {b : β} (h : R a b) : Paired E R (.ok a) (.ok b)
  | error {e e' : Unimplemented} (h : E e e') : Paired E R (.error e) (.error e')

theorem paired_iff {E : Unimplemented → Unimplemented → Prop} {R : α → β → Prop}
    {x : Except Unimplemented α} {y : Except Unimplemented β} :
    Paired E R x y ↔ (∃ a b, x = .ok a ∧ y = .ok b ∧ R a b) ∨
      ∃ e e', x = .error e ∧ y = .error e' ∧ E e e' := by
  constructor
  · rintro (h | h)
    · exact .inl ⟨_, _, rfl, rfl, h⟩
    · exact .inr ⟨_, _, rfl, rfl, h⟩
  · rintro (⟨a, b, rfl, rfl, h⟩ | ⟨e, e', rfl, rfl, h⟩)
    · exact .ok h
    · exact .error h

/-- Results that are paired by equality are the same. -/
theorem Paired.eq {x y : Except Unimplemented α} (h : Paired Eq Eq x y) : x = y := by
  cases h with
  | ok h => rw [h]
  | error h => rw [h]

/-- Two computations that give paired results from related states, and end in related states. -/
def Related (S : σ → τ → Prop) (E : Unimplemented → Unimplemented → Prop) (R : α → β → Prop)
    (x : Walk σ α) (y : Walk τ β) : Prop :=
  ∀ s t, S s t → Paired E R (x.run.run s).1 (y.run.run t).1 ∧ S (x.run.run s).2 (y.run.run t).2

namespace Related

variable {S : σ → τ → Prop} {E : Unimplemented → Unimplemented → Prop}
  {R : α → β → Prop} {R' : γ → δ → Prop}

theorem pure {a : α} {b : β} (h : R a b) :
    Related S E R (pure a : Walk σ α) (pure b : Walk τ β) :=
  fun _ _ hs => ⟨.ok h, hs⟩

theorem throw {e e' : Unimplemented} (h : E e e') :
    Related S E R (throwThe Unimplemented e : Walk σ α) (throwThe Unimplemented e' : Walk τ β) :=
  fun _ _ hs => ⟨.error h, hs⟩

/-- Related computations one after another. -/
theorem bind {x : Walk σ α} {y : Walk τ β} {f : α → Walk σ γ} {g : β → Walk τ δ}
    (hx : Related S E R x y) (hf : ∀ a b, R a b → Related S E R' (f a) (g b)) :
    Related S E R' (x >>= f) (y >>= g) := by
  intro s t hs
  have h := hx s t hs
  rw [Walk.run_bind, Walk.run_bind]
  rcases hrun : x.run.run s with ⟨result, s'⟩
  rcases hrun' : y.run.run t with ⟨result', t'⟩
  rw [hrun, hrun'] at h
  obtain ⟨hpaired, hs'⟩ := h
  -- Both runs go on, or both end here.
  cases hpaired with
  | ok hab => exact hf _ _ hab s' t' hs'
  | error he => exact ⟨.error he, hs'⟩

/-- Related lists of children. -/
theorem runAll {vs : List (Visit (Walk σ) α)} {ws : List (Visit (Walk τ) β)}
    (h : List.Forall₂ (fun v w => Related S E R v.run w.run) vs ws) :
    Related S E (List.Forall₂ R) (runAll vs) (runAll ws) := by
  -- A child is only rendered after those before it, and in the state that they leave.
  induction h with
  | nil =>
    rw [runAll_nil, runAll_nil]
    exact pure .nil
  | cons hfirst hrest ih =>
    rw [runAll_cons, runAll_cons]
    refine hfirst.bind fun a b hab => ?_
    exact ih.bind fun as bs habs => pure (.cons hab habs)

end Related

end Rendition
