import Rendition.Proofs.Python.Operands

/-!
# Collections are read back

Lists, tuples and dictionaries are read element by element. A tuple of one element is told from an
expression in parentheses by the comma behind the element.

## Theorems

* `recovered_list`, `recovered_tuple`, `recovered_dict`: A collection is read back with its
  trailers.
-/

namespace Rendition.Python

open Source Source.Lexeme

/-- What starts with an opening bracket is read back if it is as what the bracket starts. -/
theorem recovered_bracket {t : Tree} {text : String} {rest : List Lexeme}
    (hphrase : phrase t = fun g => mark text g :: rest)
    (hopening : (Token.bare .mark text).isOpening = true)
    (hatom : ∀ (n : Nat) (f : Frame) (s : Span) (g : Gap) (ts us : List Token), rest.length < n →
      f.Sees ts us → ∃ e, Restores e t ∧
        atom (expressionAt n) f (lay s (mark text g :: rest) ++ ts) = some (e, us)) :
    Recovered t := by
  intro n f s g ts us u hn hsees _ _ _
  have hsize : rest.length < n := by
    rw [size, hphrase, List.length_cons] at hn
    exact hn
  obtain ⟨e, he, hparse⟩ := hatom n f s g ts (u :: us) hsize hsees
  refine ⟨e, he, fun r hr => ?_⟩
  rw [hphrase]
  exact signed_of_atom (t := (mark text g).token s) hopening rfl hparse hr

section Elements

variable {n : Nat} {f : Frame} {ts us : List Token}

/-- An element of a collection is an expression. -/
theorem yields_element {t : Tree} (h : Stable t) (hn : size t < n) (closing : String)
    (hclosing : (Token.bare .mark closing).stops Level.any = true) (f : Frame) :
    Yields f (separates closing) (element (expressionAt n) f) (phrase t) fun e => Restores e t := by
  intro s g ts us u hsees hu
  obtain ⟨e, he, hparse⟩ :=
    h.yields hn f Level.any s g ts us u hsees (stops_of_separates hclosing hu)
  refine ⟨e, he, ?_⟩
  obtain ⟨first, more, heq, hopening, -⟩ := h.starts.exists_cons s g ts
  rw [heq] at hparse ⊢
  rw [element_plain (Token.isWord_opening hopening "yield" (by decide))
    (Token.isMark_opening hopening "*" (by decide))
    (Token.isMark_opening hopening "**" (by decide)),
    hparse]

theorem size_le_row {t : Tree} {items : List Tree} (ht : t ∈ items) (h : Stable t) (g : Gap) :
    size t ≤ (row (items.map phrase) g).length :=
  length_le_row (List.mem_map_of_mem ht) h.starts.length_eq g

/-- The elements of a collection behind its opening bracket. -/
theorem elements_row {first : Tree} {items : List Tree}
    (h : ∀ t ∈ first :: items, Stable t ∧ size t < n) (closing : String)
    (hne : ("," == closing) = false)
    (hclosing : (Token.bare .mark closing).stops Level.any = true)
    (hopening : (Token.bare .mark closing).isOpening = false) (hsees : f.Sees ts us) (s : Span) :
    ∃ e c mid t more,
      lay s (row ((first :: items).map phrase) {} ++ [mark closing {}]) ++ ts = t :: more ∧
      t.isOpening = true ∧ t.gap = {} ∧ Restores e first ∧
      element (expressionAt n) f.inside (t :: more) = some (e, c :: mid) ∧
      Onward f closing Continuation.toExpr (element (expressionAt n) f.inside)
        (fun t e => Restores e t) items us c mid := by
  have hrest := fun t ht => h t (List.mem_cons_of_mem first ht)
  obtain ⟨hstable, hsize⟩ := h first List.mem_cons_self
  obtain ⟨c, mid, hrow, honward⟩ := row_onward closing Continuation.toExpr hne hsees
    (fun t ht => (hrest t ht).1.starts.imp fun u hu => startsItem_opening hu hopening)
    (fun t ht => yields_element (hrest t ht).1 (hrest t ht).2 closing hclosing f.inside) first s {}
  obtain ⟨e, he, hparse⟩ := yields_element hstable hsize closing hclosing f.inside s {} _ _ c
    (honward.sees f.inside) honward.separates
  obtain ⟨t, more, heq, hfirst, hgap⟩ := hstable.starts.exists_cons s {} (c :: mid)
  rw [heq] at hparse
  exact ⟨e, c, mid, t, more, hrow.trans heq, hfirst, hgap, he, hparse, honward⟩

end Elements

/-- An operand can be the key of an entry. -/
theorem isBody_operand {e : Expr} (h : e.isOperand = true) : e.isBody = true := by
  cases e with
  | splat | other => exact absurd h Bool.false_ne_true
  | _ => rfl

section Collections

variable (span : Span)

theorem recovered_list {items : List Tree} (h : ∀ t ∈ items, Stable t) :
    Recovered (.mk span (.list items)) := by
  refine recovered_bracket (phrase_list span items) (by decide) fun n f s g ts us hn hsees => ?_
  rw [lay, List.cons_append, atom_bracket rfl]
  change ∃ e, _ ∧ bracketed (expressionAt n) f _ = _
  generalize s.after (mark "[" g).chars = s₁
  rcases items with _ | ⟨first, items⟩
  · exact ⟨_, restores_list span .nil, bracketed_nil rfl rfl (sees_mark Gap.flat_empty) hsees⟩
  · have hsize : ∀ t ∈ first :: items, Stable t ∧ size t < n := by
      intro t ht
      have hle := size_le_row ht (h t ht) {}
      rw [List.length_append] at hn
      exact ⟨h t ht, by omega⟩
    obtain ⟨e, c, mid, t, more, hlay, hopening, hgap, he, hparse, honward⟩ :=
      elements_row hsize "]" (by decide) (by decide) (by decide) hsees s₁
    obtain ⟨es, hes, hmore⟩ := honward.more [e]
    rw [hlay]
    exact ⟨_, restores_list span (.cons he hes), bracketed_cons rfl
      (Token.isMark_opening hopening "]" (by decide))
      (sees_opening hopening (hgap ▸ Gap.flat_empty) more) hparse
      (Bool.or_eq_true_iff.mp honward.separates) hmore⟩

theorem recovered_tuple {items : List Tree} (h : ∀ t ∈ items, Stable t) :
    Recovered (.mk span (.tuple items)) := by
  by_cases hsingle : items.length = 1
  · obtain ⟨single, rfl⟩ := List.length_eq_one_iff.mp hsingle
    have hstable := h single (List.mem_singleton_self single)
    refine recovered_bracket (phrase_tuple_single span single) (by decide)
      fun n f s g ts us hn hsees => ?_
    have hsize : size single < n := by
      simp only [List.length_append, List.length_singleton] at hn
      rw [size]
      omega
    rw [lay, List.cons_append, atom_bracket rfl]
    change ∃ e, _ ∧ parenthesized (expressionAt n) f _ = _
    simp only [lay_append, List.append_assoc, lay, List.cons_append, List.nil_append]
    generalize s.after (mark "(" g).chars = s₁
    generalize s₁.after (spell (phrase single {})) = s₂
    obtain ⟨e, he, hparse⟩ := yields_element hstable hsize ")" (by decide) f.inside
      s₁ {} _ _ ((mark "," {}).token s₂) (sees_mark Gap.flat_empty) rfl
    obtain ⟨first, more, heq, hopening, hgap⟩ := hstable.starts.exists_cons s₁ {} _
    rw [heq] at hparse ⊢
    exact ⟨_, restores_tuple span (.cons he .nil), parenthesized_tuple rfl
      (Token.isMark_opening hopening ")" (by decide))
      (sees_opening hopening (hgap ▸ Gap.flat_empty) more) hparse rfl
      (moreItems_comma_close rfl rfl rfl (sees_mark Gap.flat_empty) rfl rfl hsees)⟩
  · refine recovered_bracket (phrase_tuple span items hsingle) (by decide)
      fun n f s g ts us hn hsees => ?_
    rw [lay, List.cons_append, atom_bracket rfl]
    change ∃ e, _ ∧ parenthesized (expressionAt n) f _ = _
    generalize s.after (mark "(" g).chars = s₁
    rcases items with _ | ⟨first, items⟩
    · exact ⟨_, restores_tuple span .nil,
        parenthesized_nil rfl rfl (sees_mark Gap.flat_empty) hsees⟩
    · have hsize : ∀ t ∈ first :: items, Stable t ∧ size t < n := by
        intro t ht
        have hle := size_le_row ht (h t ht) {}
        rw [List.length_append] at hn
        exact ⟨h t ht, by omega⟩
      have hitems : items ≠ [] := fun hnil => hsingle (by rw [hnil]; rfl)
      obtain ⟨e, c, mid, t, more, hlay, hopening, hgap, he, hparse, honward⟩ :=
        elements_row hsize ")" (by decide) (by decide) (by decide) hsees s₁
      obtain ⟨es, hes, hmore⟩ := honward.more [e]
      rw [hlay]
      exact ⟨_, restores_tuple span (.cons he hes), parenthesized_tuple rfl
        (Token.isMark_opening hopening ")" (by decide))
        (sees_opening hopening (hgap ▸ Gap.flat_empty) more) hparse (honward.comma hitems) hmore⟩

/-! ## Dictionaries -/

/-- An entry of a dictionary is read back with its key. -/
def RestoresEntry (entry : Tree × Tree) (e : Expr × Option Expr) : Prop :=
  Denotes e.1 entry.1 ∧ ∃ v, e.2 = some v ∧ Denotes v entry.2

/-- The value of an entry behind its key. -/
theorem entryValue_colon {n : Nat} {value : Tree} (h : Stable value) (hn : size value < n)
    {f : Frame} {ts us : List Token} {u : Token} (hsees : f.Sees ts (u :: us))
    (hu : separates "\x7d" u = true) (key : Expr) (s : Span) : ∃ e, Denotes e value ∧
    entryValue (expressionAt n) f key (lay s (mark ":" {} :: phrase value .blank) ++ ts) =
      some ((key, some e), u :: us) := by
  rw [lay, List.cons_append]
  generalize s.after (mark ":" {}).chars = s₁
  obtain ⟨e, he, hparse⟩ := h.yields hn f Level.any s₁ .blank ts us u hsees
    (stops_of_separates (by decide) hu)
  obtain ⟨first, more, heq, hopening, hgap⟩ := h.starts.exists_cons s₁ .blank ts
  have hcolon : Source.mark f.middle ":" ((mark ":" {}).token s :: first :: more) =
      some (_, first :: more) :=
    Frame.Sees.mark (sees_opening hopening (hgap ▸ Gap.flat_blank) more) rfl
  refine ⟨e, he.read, ?_⟩
  rw [heq] at hparse ⊢
  simp only [entryValue, run_bind, run_discard, hcolon, Option.bind_some,
    hparse, run_pure]

theorem yields_entry {n : Nat} {entry : Tree × Tree} (hkey : Stable entry.1 ∧ size entry.1 < n)
    (hvalue : Stable entry.2 ∧ size entry.2 < n) (f : Frame) :
    Yields f (separates "\x7d") (Source.entry (expressionAt n) f) (entryPhrase entry)
      (RestoresEntry entry) := by
  intro s g ts us u hsees hu
  simp only [entryPhrase, lay_append, List.append_assoc]
  generalize s.after (spell (phrase entry.1 g)) = s₁
  obtain ⟨k, hk, hparse⟩ := hkey.1.yields hkey.2 f Level.any s g _ _ ((mark ":" {}).token s₁)
    (sees_mark Gap.flat_empty) (Token.stops_of_isMark ":" rfl (by decide))
  obtain ⟨e, he, hentry⟩ := entryValue_colon hvalue.1 hvalue.2 hsees hu k s₁
  refine ⟨(k, some e), ⟨hk.read, e, rfl, he⟩, ?_⟩
  obtain ⟨first, more, heq, hopening, -⟩ := hkey.1.starts.exists_cons s g _
  rw [lay, List.cons_append] at hentry ⊢
  rw [heq] at hparse ⊢
  simp only [Source.entry, run_bind, run_peek, Option.bind_some, run_ite,
    Token.isMark_opening hopening "**" (by decide), Bool.false_eq_true, if_false, hparse, hentry]

theorem starts_entry {entry : Tree × Tree} (hkey : Stable entry.1) :
    StartsWith Token.isOpening (entryPhrase entry) := by
  obtain ⟨kind, text, rest, hfirst, hopening⟩ := hkey.starts
  refine ⟨kind, text, rest ++ mark ":" {} :: phrase entry.2 .blank, fun g => ?_, hopening⟩
  rw [entryPhrase, hfirst, List.cons_append]

theorem recovered_dict {entries : List (Tree × Tree)} (hkeys : ∀ e ∈ entries, Stable e.1)
    (hvalues : ∀ e ∈ entries, Stable e.2) : Recovered (.mk span (.dict entries)) := by
  refine recovered_bracket (phrase_dict span entries) (by decide) fun n f s g ts us hn hsees => ?_
  rw [lay, List.cons_append, atom_bracket rfl]
  change ∃ e, _ ∧ braced (expressionAt n) f _ = _
  generalize s.after (mark "\x7b" g).chars = s₁
  rcases entries with _ | ⟨first, entries⟩
  · exact ⟨_, restores_dict span .nil, braced_nil rfl rfl (sees_mark Gap.flat_empty) hsees⟩
  · have hstarts := fun e he => starts_entry (hkeys e he)
    have hsize : ∀ e ∈ first :: entries, size e.1 < n ∧ size e.2 < n := by
      intro e he
      have hle := length_le_row (List.mem_map_of_mem he) (hstarts e he).length_eq {}
      have hvalue := (hvalues e he).starts.length_eq .blank {}
      simp only [entryPhrase, List.length_append, List.length_cons] at hle hn
      simp only [size]
      omega
    have hparts : ∀ e ∈ first :: entries,
        (Stable e.1 ∧ size e.1 < n) ∧ (Stable e.2 ∧ size e.2 < n) :=
      fun e he => ⟨⟨hkeys e he, (hsize e he).1⟩, hvalues e he, (hsize e he).2⟩
    have hrest := fun e he => hparts e (List.mem_cons_of_mem first he)
    obtain ⟨c, mid, hrow, honward⟩ := row_onward "\x7d" Continuation.toEntry (by decide) hsees
      (fun e he => (hstarts e (List.mem_cons_of_mem first he)).imp fun t ht =>
        startsItem_opening ht (by decide))
      (fun e he => yields_entry (hrest e he).1 (hrest e he).2 f.inside) first s₁ {}
    obtain ⟨⟨hkey, hkeySize⟩, hvalue, hvalueSize⟩ := hparts first List.mem_cons_self
    rw [hrow]
    simp only [entryPhrase, lay_append, List.append_assoc]
    generalize s₁.after (spell (phrase first.1 {})) = s₂
    obtain ⟨k, hk, hparse⟩ := yields_element hkey hkeySize ":" (by decide) f.inside
      s₁ {} _ _ ((mark ":" {}).token s₂) (sees_mark Gap.flat_empty) rfl
    obtain ⟨v, hv, hentry⟩ := entryValue_colon hvalue hvalueSize (honward.sees f.inside)
      honward.separates k s₂
    obtain ⟨es, hes, hmore⟩ := honward.more [(k, some v)]
    obtain ⟨t, more, heq, hopening, hgap⟩ := hkey.starts.exists_cons s₁ {} _
    rw [lay, List.cons_append] at hentry ⊢
    rw [heq] at hparse ⊢
    exact ⟨_, restores_dict span (.cons ⟨hk.read, v, rfl, hv⟩ hes), braced_cons rfl hopening
      (sees_opening hopening (hgap ▸ Gap.flat_empty) more) hparse rfl (isBody_operand hk.operand)
      hentry (Bool.or_eq_true_iff.mp honward.separates) hmore⟩

end Collections

end Rendition.Python
