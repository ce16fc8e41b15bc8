import Rendition.Proofs.Python.Operands

/-!
# Subscripts are read back

The indices of a subscript are read one after another. A slice is read from colon to colon; what
stands between them tells which of its bounds are there.

## Theorems

* `yields_index`: One index is read as a tree like it.
* `recovered_subscript`: A subscript is read back with its trailers.
-/

namespace Rendition.Python

open Source Source.Lexeme

section Indices

variable {n : Nat} {f : Frame} {ts us : List Token} {u : Token}

/-- The step of a slice is read, or nothing is. -/
theorem extend_slice_step (hsees : f.Sees ts (u :: us)) (hu : separates "]" u = true)
    {step : Option Tree} (hstep : ∀ t ∈ step, Stable t ∧ size t < n) (parts : List (Option Expr))
    (s : Span) : ∃ e colons, DenotesOption e step ∧
    extend (sliceStep (expressionAt n) f) (parts, 1) (lay s (stepPhrase step) ++ ts) =
      some ((parts ++ stepParts e, colons + 1), u :: us) := by
  obtain rfl := eq_of_separates hsees hu
  rcases step with _ | t
  · refine ⟨none, 0, denotesOption_none, ?_⟩
    rw [stepParts, List.append_nil]
    exact extend_done (sliceStep_done fun _ => isMark_separates hu ":" (by decide) (by decide))
  · obtain ⟨hstable, hsize⟩ := hstep t rfl
    obtain ⟨e, he, hparse⟩ :=
      hstable.yields hsize f Level.any (s.after (mark ":" {}).chars) {} _ _ _
      hsees (stops_of_separates (by decide) hu)
    refine ⟨some e, 1, denotesOption_some he.read, ?_⟩
    have hdone : extend (sliceStep (expressionAt n) f) (parts ++ stepParts (some e), 2) (u :: us) =
        some ((parts ++ stepParts (some e), 2), u :: us) :=
      extend_done (sliceStep_done fun h => absurd h (Nat.lt_irrefl 2))
    simp only [stepPhrase, lay, List.cons_append]
    obtain ⟨first, more, heq, hopening, hgap⟩ :=
      hstable.starts.exists_cons (s.after (mark ":" {}).chars) {} (u :: us)
    have hlength := congrArg List.length heq
    rw [heq] at hparse ⊢
    refine extend_more (sliceStep_bound (by decide) rfl (fun _ => rfl)
      (sees_opening hopening (hgap ▸ Gap.flat_empty) more) hopening hparse) ?_ hdone
    simp only [List.length_append, List.length_cons] at hlength ⊢
    omega

/-- The first colon of a slice and what stands behind it. -/
theorem extend_slice_upper (hsees : f.Sees ts (u :: us)) (hu : separates "]" u = true)
    {upper step : Option Tree} (hupper : ∀ t ∈ upper, Stable t ∧ size t < n)
    (hstep : ∀ t ∈ step, Stable t ∧ size t < n) (parts : List (Option Expr)) (s : Span) {g : Gap}
    (hg : parts ≠ [] → g.continuations = []) :
    ∃ e e' colons, DenotesOption e upper ∧ DenotesOption e' step ∧
    extend (sliceStep (expressionAt n) f) (parts, 0)
      (lay s (mark ":" g :: (optionalPhrase upper {} ++ stepPhrase step)) ++ ts) =
      some ((parts ++ none :: ((e.map some).toList ++ stepParts e'), colons + 1), u :: us) := by
  simp only [lay, lay_append, List.cons_append, List.append_assoc]
  generalize s.after (mark ":" g).chars = s₁
  generalize s₁.after (spell (optionalPhrase upper {})) = s₂
  -- What follows the upper bound is the second colon or the end of the slice.
  obtain ⟨v, vs, hnext, hflat, hv, hexpression⟩ : ∃ v vs, lay s₂ (stepPhrase step) ++ ts = v :: vs ∧
      f.Sees (v :: vs) (v :: vs) ∧ v.stops Level.any = true ∧ v.startsExpression = false := by
    rcases step with _ | t
    · obtain rfl := eq_of_separates hsees hu
      exact ⟨u, us, rfl, hsees, stops_of_separates (by decide) hu,
        eq_separates Token.startsExpression (fun _ => rfl) hu (by decide) (by decide)⟩
    · exact ⟨_, _, rfl, sees_mark Gap.flat_empty, Token.stops_of_isMark ":" rfl (by decide),
        rfl⟩
  rcases upper with _ | t
  · obtain ⟨e, colons, he, hmore⟩ := extend_slice_step hsees hu hstep (parts ++ [none]) s₂
    refine ⟨none, e, colons, denotesOption_none, he, ?_⟩
    rw [hnext, ← List.append_cons] at hmore
    rw [hnext]
    exact extend_more (sliceStep_open (by decide) rfl hg hflat hexpression) (Nat.lt_succ_self _)
      hmore
  · obtain ⟨hstable, hsize⟩ := hupper t rfl
    obtain ⟨e, he, hparse⟩ := hstable.yields hsize f Level.any s₁ {} _ _ _ hflat hv
    obtain ⟨e', colons, he', hmore⟩ :=
      extend_slice_step hsees hu hstep (parts ++ [none, some e]) s₂
    refine ⟨some e, e', colons, denotesOption_some he.read, he', ?_⟩
    obtain ⟨first, more, heq, hopening, hgap⟩ := hstable.starts.exists_cons s₁ {} (v :: vs)
    have hlength := congrArg List.length heq
    have hparts : parts ++ [none, some e] ++ stepParts e' =
        parts ++ none :: (((some e).map some).toList ++ stepParts e') := by
      simp only [Option.map_some, Option.toList_some, List.append_assoc, List.cons_append,
        List.nil_append]
    rw [hnext, hparts] at hmore
    rw [hnext]
    have hphrase : optionalPhrase (some t) {} = phrase t {} := rfl
    rw [hphrase, heq]
    rw [heq] at hparse
    refine extend_more (sliceStep_bound (by decide) rfl hg
      (sees_opening hopening (hgap ▸ Gap.flat_empty) more) hopening hparse) ?_ hmore
    simp only [List.length_append, List.length_cons] at hlength ⊢
    omega

/-- The tokens of a slice start with its lower bound, or with a colon. -/
theorem starts_index {i : Tree} (hbounds : ∀ e ∈ i.bounds, Stable e) :
    StartsWith (startsItem "]") (phrase i) := by
  have hopening (t : Token) (ht : t.isOpening = true) : startsItem "]" t = true :=
    startsItem_opening ht (by decide)
  rcases i with ⟨span, node⟩
  cases node with
  | slice lower upper step =>
    rw [phrase_slice]
    rcases lower with _ | l
    · exact ⟨.mark, ":", _, fun g => rfl, by decide⟩
    · obtain ⟨kind, text, rest, hfirst, htest⟩ := (hbounds l List.mem_cons_self).starts
      refine ⟨kind, text, rest ++ [mark ":" {}] ++ optionalPhrase upper {} ++ stepPhrase step,
        fun g => ?_, hopening _ htest⟩
      simp only [lowerPhrase, hfirst, List.cons_append]
  | _ => exact (hbounds _ (List.mem_singleton_self _)).starts.imp hopening

theorem size_le_bound {i e : Tree} (he : e ∈ i.bounds) : size e ≤ (phrase i {}).length := by
  rcases i with ⟨span, node⟩
  cases node with
  | slice lower upper step =>
    rw [phrase_slice, List.length_append, List.length_append]
    have hcases : e ∈ lower ∨ e ∈ upper ∨ e ∈ step := by
      simpa only [Tree.bounds, Tree.node_mk, List.mem_append, Option.mem_toList,
        Option.mem_def, or_assoc] using he
    rcases hcases with h | h | h
    · rw [Option.mem_def.mp h, lowerPhrase, List.length_append, size]
      omega
    · rw [Option.mem_def.mp h]
      change size e ≤ _ + size e + _
      omega
    · rw [Option.mem_def.mp h, stepPhrase, List.length_cons, size]
      omega
  | _ =>
    obtain rfl := List.mem_singleton.mp he
    exact Nat.le_refl _

/-- One index is read as a tree like it. -/
theorem yields_index {i : Tree} (hbounds : ∀ e ∈ i.bounds, Stable e ∧ size e < n) (f : Frame) :
    Yields f (separates "]") (index (expressionAt n) f) (phrase i) fun e => Denotes e i := by
  intro s g ts us u hsees hu
  have hcolon : u.isMark ":" = false := isMark_separates hu ":" (by decide) (by decide)
  rcases i with ⟨span, node⟩
  cases node with
  | slice lower upper step =>
    have hmem : ∀ e, e ∈ lower ∨ e ∈ upper ∨ e ∈ step → Stable e ∧ size e < n := by
      simpa only [Tree.bounds, Tree.node_mk, List.mem_append, Option.mem_toList,
        Option.mem_def, or_assoc]
        using hbounds
    have hupper : ∀ e ∈ upper, Stable e ∧ size e < n := fun e he => hmem e (.inr (.inl he))
    have hstep : ∀ e ∈ step, Stable e ∧ size e < n := fun e he => hmem e (.inr (.inr he))
    rw [phrase_slice]
    rcases lower with _ | l
    · obtain ⟨e, e', colons, he, he', hmore⟩ :=
        extend_slice_upper hsees hu hupper hstep [] s (g := g) (fun h => absurd rfl h)
      simp only [lowerPhrase, List.cons_append, List.nil_append, lay] at hmore ⊢
      exact ⟨.slice _ (sliceParts none e e'), denotes_slice span denotesOption_none he he',
        index_slice_open rfl hmore⟩
    · obtain ⟨hstable, hsize⟩ := hmem l (.inl rfl)
      simp only [lowerPhrase, List.append_assoc, List.cons_append, List.nil_append, lay_append]
      generalize s.after (spell (phrase l g)) = s₁
      obtain ⟨e₀, he₀, hparse⟩ := hstable.yields hsize f Level.any s g _ _ ((mark ":" {}).token s₁)
        (sees_mark Gap.flat_empty) (Token.stops_of_isMark ":" rfl (by decide))
      obtain ⟨e, e', colons, he, he', hmore⟩ :=
        extend_slice_upper hsees hu hupper hstep [some e₀] s₁ (g := {}) fun _ => rfl
      obtain ⟨first, more, heq, hopening, -⟩ := hstable.starts.exists_cons s g _
      rw [lay, List.cons_append] at hmore ⊢
      rw [heq] at hparse ⊢
      exact ⟨_, denotes_slice span (denotesOption_some he₀.read) he he',
        index_slice_bound hopening hparse hmore⟩
  | _ =>
    obtain ⟨hstable, hsize⟩ := hbounds _ (List.mem_singleton_self _)
    obtain ⟨e, he, hparse⟩ := hstable.yields hsize f Level.any s g ts us u hsees
      (stops_of_separates (by decide) hu)
    obtain ⟨first, more, heq, hopening, -⟩ := hstable.starts.exists_cons s g ts
    rw [heq] at hparse ⊢
    exact ⟨e, he.read, index_alone hopening hparse hcolon⟩

/-- What the further indices are read as. -/
theorem exists_indices {is : List Tree} {bs : List (Option Expr)}
    (h : List.Forall₂ (fun t b => ∃ e, b = some e ∧ Denotes e t) is bs) :
    List.Forall₂ (fun t e => Denotes e t) is (bs.filterMap id) := by
  induction h with
  | nil => exact .nil
  | cons h _ ih =>
    obtain ⟨e, rfl, he⟩ := h
    exact .cons he ih

/-- The indices of a subscript are read one after another. -/
theorem indices_row {i : Tree} {is : List Tree}
    (hbounds : ∀ j ∈ i :: is, ∀ e ∈ j.bounds, Stable e ∧ size e < n) (hsees : f.Sees ts us)
    (s : Span) : ∃ e es, List.Forall₂ (fun t e => Denotes e t) (i :: is) (e :: es) ∧
    indices (expressionAt n) f
      (lay s (mark "[" {} :: (row ((i :: is).map phrase) {} ++ [mark "]" {}])) ++ ts) =
      some ((e, es), us) := by
  have hrest := fun j hj => hbounds j (List.mem_cons_of_mem i hj)
  have hitem : ∀ j ∈ is, Yields f.inside (separates "]") (some <$> index (expressionAt n) f.inside)
      (phrase j) fun b => ∃ e, b = some e ∧ Denotes e j := by
    intro j hj s g ts us u hsees hu
    obtain ⟨e, he, hparse⟩ := yields_index (hrest j hj) f.inside s g ts us u hsees hu
    refine ⟨some e, ⟨e, rfl, he⟩, ?_⟩
    rw [run_map, hparse]
    rfl
  rw [lay, List.cons_append]
  generalize s.after (mark "[" {}).chars = s₁
  obtain ⟨c, mid, hrow, honward⟩ := row_onward "]" (fun _ => (none : Option Expr)) (by decide) hsees
    (fun j hj => starts_index fun e he => (hrest j hj e he).1) hitem i s₁ {}
  obtain ⟨e, he, hparse⟩ := yields_index (hbounds i List.mem_cons_self) f.inside s₁ {} _ _ c
    (honward.sees f.inside) honward.separates
  obtain ⟨bs, hbs, hmore⟩ := honward.more []
  refine ⟨e, bs.filterMap id, .cons he (exists_indices hbs), ?_⟩
  obtain ⟨kind, text, rest, hfirst, htest⟩ := starts_index fun e he =>
    (hbounds i List.mem_cons_self e he).1
  simp only [startsItem, Bool.and_eq_true, Bool.not_eq_true', decide_eq_false_iff_not] at htest
  have hflat : f.middle.Sees (lay s₁ (phrase i {}) ++ c :: mid)
      (lay s₁ (phrase i {}) ++ c :: mid) := by
    rw [hfirst]
    exact .flat Gap.flat_empty htest.2
  rw [hrow]
  exact indices_cons rfl hflat hparse hmore

theorem recovered_subscript (span : Span) {value index : Tree} (hvalue : Stable value)
    (hawait : ¬isAwait value) (hsingle : ∀ item, index.node ≠ .tuple [item])
    (hbounds : ∀ i ∈ index.indices, ∀ e ∈ i.bounds, Stable e) :
    Recovered (.mk span (.subscript value index)) := by
  intro n f s g ts us u hn hsees hstring hformat _
  have hphrase := phrase_subscript span value index
  have hsize : size value ≤ n ∧ ∀ i ∈ index.indices, ∀ e ∈ i.bounds, size e < n := by
    rw [size, hphrase, indexPhrase_eq] at hn
    simp only [List.length_append, List.length_cons] at hn
    refine ⟨by rw [size]; omega, fun i hi e he => ?_⟩
    have hlength :=
      length_le_row (List.mem_map_of_mem hi) (starts_index (hbounds i hi)).length_eq {}
    have hpart := size_le_bound he
    omega
  obtain ⟨i, is, hindices⟩ : ∃ i is, index.indices = i :: is := by
    rw [Tree.indices]
    split
    · exact ⟨_, _, rfl⟩
    · exact ⟨_, _, rfl⟩
  rw [hphrase, lay_append, List.append_assoc, indexPhrase_eq, hindices]
  rw [hindices] at hbounds hsize
  generalize s.after (spell (phrase value g)) = s₁
  obtain ⟨e', es, hes, hparse⟩ := indices_row
    (fun j hj e he => ⟨hbounds j hj e he, hsize.2 j hj e he⟩) hsees s₁
  rw [lay, List.cons_append] at hparse ⊢
  obtain ⟨e, he, hsigned⟩ := hvalue.recovered.marked hsize.1 f s g "[" Gap.flat_empty s₁ _
    fun h => absurd h hawait
  refine ⟨_, restores_subscript span he hsingle (hindices ▸ hes), fun r hr => hsigned r
    (extend_more (trailer_subscript rfl hparse) ?_ hr)⟩
  have hlength := hsees.length_le
  simp only [List.length_cons, List.length_append, lay_append, lay] at hlength ⊢
  omega

end Indices

end Rendition.Python
