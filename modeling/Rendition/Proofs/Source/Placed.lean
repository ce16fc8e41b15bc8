import Mathlib.Data.String.Basic
import Rendition.Proofs.Source.Covered
import Rendition.Proofs.Text.Lines

/-!
# Where tokens are

A place is the number of a line and of a byte in it, counted along the text. So places that are
found one after another are in order, a line feed makes the line a later one, and the character
behind a run of characters is in the line that its place names, behind as many bytes as it says.

The tokens that cover a text therefore stand in order. A token that a construct can start with takes
up characters, so the next one stands behind it; where a line ends in between, it is on a later
line.

## Main definitions

* `Text.Holds`: A place is one of a character that shows.
* `Text.Inside`: A place is inside a text.
* `Token.Before`: A token stands before another one.

## Theorems

* `Text.holds_after`: The place behind a run of characters is the one of the next character.
* `Covers.pairwise`: Tokens that cover a text stand in order.
* `Covers.holds`: A construct starts at the place of a character that shows.
-/

namespace Rendition

/-! ## The order of places -/

namespace Span

theorem le_refl (s : Span) : s ≤ s :=
  .inr ⟨rfl, Nat.le_refl _⟩

theorem le_of_lt {s s' : Span} (h : s < s') : s ≤ s' :=
  h.imp_right fun h => ⟨h.1, Nat.le_of_lt h.2⟩

theorem line_le {s s' : Span} (h : s ≤ s') : s.line ≤ s'.line := by
  rcases h with h | h
  · exact Nat.le_of_lt h
  · exact Nat.le_of_eq h.1

theorem le_trans {s s' s'' : Span} (h : s ≤ s') (h' : s' ≤ s'') : s ≤ s'' := by
  rcases h with h | ⟨hline, hcolumn⟩
  · exact .inl (Nat.lt_of_lt_of_le h (line_le h'))
  · rcases h' with h' | ⟨hline', hcolumn'⟩
    · exact .inl (hline ▸ h')
    · exact .inr ⟨hline.trans hline', Nat.le_trans hcolumn hcolumn'⟩

theorem lt_of_lt_of_le {s s' s'' : Span} (h : s < s') (h' : s' ≤ s'') : s < s'' := by
  rcases h with h | ⟨hline, hcolumn⟩
  · exact .inl (Nat.lt_of_lt_of_le h (line_le h'))
  · rcases h' with h' | ⟨hline', hcolumn'⟩
    · exact .inl (hline ▸ h')
    · exact .inr ⟨hline.trans hline', Nat.lt_of_lt_of_le hcolumn hcolumn'⟩

theorem not_lt_of_le {s s' : Span} (h : s ≤ s') : ¬ s' < s := by
  rintro (h' | ⟨hline, hcolumn⟩)
  · exact Nat.not_lt_of_le (line_le h) h'
  · rcases h with h | ⟨-, h⟩
    · omega
    · omega

theorem lt_next (s : Span) (c : Char) : s < s.next c := by
  rw [next]
  split
  · exact .inl (Nat.lt_succ_self _)
  · exact .inr ⟨rfl, Nat.lt_add_of_pos_right c.utf8Size_pos⟩

theorem le_after (s : Span) (text : List Char) : s ≤ s.after text := by
  induction text generalizing s with
  | nil => exact s.le_refl
  | cons c text ih => exact le_trans (le_of_lt (s.lt_next c)) (ih (s.next c))

theorem lt_after (s : Span) {text : List Char} (h : text ≠ []) : s < s.after text := by
  obtain ⟨c, rest, rfl⟩ := List.exists_cons_of_ne_nil h
  exact lt_of_lt_of_le (s.lt_next c) (le_after _ rest)

/-- Behind a line feed the line is a later one. -/
theorem line_lt_after (s : Span) {text : List Char} (h : '\n' ∈ text) :
    s.line < (s.after text).line := by
  obtain ⟨before, rest, rfl⟩ := List.append_of_mem h
  rw [after_append]
  refine Nat.lt_of_le_of_lt (line_le (s.le_after before)) ?_
  exact Nat.lt_of_lt_of_le (Nat.lt_succ_self _)
    (line_le (le_after ((s.after before).next '\n') rest))

/-- In one line the column counts bytes. -/
theorem after_line (s : Span) {text : List Char} (h : '\n' ∉ text) :
    s.after text = ⟨s.line, s.column + (String.ofList text).utf8ByteSize⟩ := by
  rw [String.utf8ByteSize_ofList]
  induction text generalizing s with
  | nil => rfl
  | cons c text ih =>
    rw [List.mem_cons, not_or] at h
    have hnext : s.next c = ⟨s.line, s.column + c.utf8Size⟩ := if_neg (Ne.symm h.1)
    rw [show s.after (c :: text) = (s.next c).after text from rfl, ih _ h.2, hnext,
      String.utf8Len]
    simp only [mk.injEq, true_and]
    omega

end Span

/-! ## The lines of a text -/

namespace Text

/-- A place is one of a character that shows: its line is one of the text, and the line goes on
    behind as many bytes as its column says. -/
def Holds (text : List Char) (s : Span) : Prop :=
  ∃ n before c rest, (lines text)[n]? = some (before ++ c :: rest) ∧ isBlank c = false ∧
    s = ⟨n + 1, (String.ofList before).utf8ByteSize⟩

/-- A place is inside a text: its line is one of the text, and its column is in the line. -/
structure Inside (text : List Char) (s : Span) : Prop where
  first : 1 ≤ s.line
  last : s.line ≤ (lines text).length
  column : ∀ line ∈ (lines text)[s.line - 1]?, s.column ≤ (String.ofList line).utf8ByteSize

theorem Holds.inside {text : List Char} {s : Span} (h : Holds text s) : Inside text s := by
  obtain ⟨n, before, c, rest, hline, -, rfl⟩ := h
  refine ⟨Nat.succ_pos n, (List.getElem?_eq_some_iff.mp hline).1, fun line hmem => ?_⟩
  obtain rfl := Option.some.inj (hline.symm.trans hmem)
  rw [String.ofList_append, String.utf8ByteSize_append]
  exact Nat.le_add_right _ _

/-- The first line holds what stands before the first line feed, up to a character that shows. -/
theorem lines_first {before : List Char} {c : Char} (hbefore : '\n' ∉ before)
    (hc : isBlank c = false) (rest : List Char) :
    ∃ more, (lines (before ++ c :: rest))[0]? = some (before ++ c :: more) := by
  have hfeed : c ≠ '\n' := fun h => absurd (h ▸ hc) (by decide)
  have hreturn : c ≠ '\r' := fun h => absurd (h ▸ hc) (by decide)
  by_cases hrest : '\n' ∈ rest
  · obtain ⟨line, later, rfl, hline⟩ := List.eq_append_cons_of_mem hrest
    have hfirst : '\n' ∉ before ++ c :: line := by simp [hbefore, hfeed.symm, hline]
    rw [show before ++ c :: (line ++ '\n' :: later) = before ++ c :: line ++ '\n' :: later by simp,
      lines_chomp hfirst, List.getElem?_cons_zero, chomp]
    split
    · next hlast =>
      -- The carriage return at the end of the line is not the character that shows.
      rcases List.eq_nil_or_concat line with rfl | ⟨init, d, rfl⟩
      · rw [List.getLast?_append_of_ne_nil _ (List.cons_ne_nil c []),
          List.getLast?_singleton] at hlast
        exact absurd (Option.some.inj hlast) hreturn
      · refine ⟨init, ?_⟩
        rw [List.concat_eq_append, ← List.cons_append, ← List.append_assoc, List.dropLast_concat]
    · exact ⟨line, rfl⟩
  · refine ⟨rest, ?_⟩
    rw [lines_last (by simp [hbefore, hfeed.symm, hrest]) (by simp), List.getElem?_cons_zero]

/-- The place behind a run of characters is the one of the next character. -/
theorem holds_after (before : List Char) {c : Char} (hc : isBlank c = false) (rest : List Char) :
    Holds (before ++ c :: rest) ((⟨1, 0⟩ : Span).after before) := by
  suffices h : ∀ (size m : Nat) (before : List Char), before.length ≤ size →
      ∃ n front more, (lines (before ++ c :: rest))[n]? = some (front ++ c :: more) ∧
        (⟨m, 0⟩ : Span).after before = ⟨m + n, (String.ofList front).utf8ByteSize⟩ by
    obtain ⟨n, front, more, hline, hspan⟩ := h _ 1 before (Nat.le_refl _)
    exact ⟨n, front, c, more, hline, hc, by rw [hspan, Nat.add_comm]⟩
  -- The induction is on the length, line by line.
  intro size
  induction size with
  | zero =>
    intro m before hsize
    obtain rfl := List.eq_nil_of_length_eq_zero (Nat.le_zero.mp hsize)
    obtain ⟨more, hmore⟩ := @lines_first [] c List.not_mem_nil hc rest
    exact ⟨0, [], more, hmore, rfl⟩
  | succ size ih =>
    intro m before hsize
    by_cases hfeed : '\n' ∈ before
    · obtain ⟨line, later, rfl, hline⟩ := List.eq_append_cons_of_mem hfeed
      rw [List.length_append, List.length_cons] at hsize
      obtain ⟨n, front, more, hmore, hspan⟩ := ih (m + 1) later (by omega)
      refine ⟨n + 1, front, more, ?_, ?_⟩
      · rw [List.append_assoc, List.cons_append, lines_chomp hline, List.getElem?_cons_succ]
        exact hmore
      · rw [Span.after_append, Span.after_line _ hline]
        exact hspan.trans (by rw [Nat.add_right_comm, Nat.add_assoc])
    · obtain ⟨more, hmore⟩ := lines_first hfeed hc rest
      refine ⟨0, before, more, hmore, ?_⟩
      rw [Span.after_line _ hfeed, Nat.zero_add]
      rfl

end Text

namespace Source

open Text (Holds)

/-- A token stands before another one: behind it if a construct can start with it, and on an earlier
    line if a line ends right before the other one. Nothing stands behind the last token. -/
structure Token.Before (a b : Token) : Prop where
  last : a.kind.isLast = false
  le : a.span ≤ b.span
  lt : a.kind.isSolid → a.span < b.span
  line : b.gap.breaksLine → b.kind.isLast = false → a.span.line < b.span.line

variable {span : Span} {text : List Char} {ts : List Token}

/-- What covers a text stands behind the place from which it does. -/
theorem Covers.behind (h : Covers span text ts) : ∀ t ∈ ts, span ≤ t.span ∧
    (t.gap.breaksLine → t.kind.isLast = false → span.line < t.span.line) := by
  induction h with
  | nil => exact nofun
  | last _ hspan hlast =>
    refine List.forall_mem_singleton.mpr ⟨hspan ▸ Span.le_after _ _, fun _ h => ?_⟩
    exact absurd (h.symm.trans hlast) Bool.false_ne_true
  | @cons span text rest t ts ht _ ih =>
    have hspan : span ≤ t.span := ht.span ▸ Span.le_after _ _
    refine List.forall_mem_cons.mpr ⟨⟨hspan, fun hbreaks _ => ?_⟩, fun u hu => ?_⟩
    · rw [ht.span]
      exact Span.line_lt_after _ (ht.breaks hbreaks)
    · have hle := Span.le_trans hspan (Span.le_after t.span t.text.toList)
      exact ⟨Span.le_trans hle (ih u hu).1,
        fun hbreaks hlast => Nat.lt_of_le_of_lt (Span.line_le hle) ((ih u hu).2 hbreaks hlast)⟩

/-- Tokens that cover a text stand in order. -/
theorem Covers.pairwise (h : Covers span text ts) : ts.Pairwise Token.Before := by
  induction h with
  | nil => exact .nil
  | last => exact List.pairwise_singleton _ _
  | cons ht hrest ih =>
    have hlast := (TokenKind.isInner_iff.mp ht.inner).1
    refine .cons (fun u hu => ⟨hlast, ?_, fun hsolid => ?_, fun hbreaks hlast => ?_⟩) ih
    · exact Span.le_trans (Span.le_after _ _) (hrest.behind u hu).1
    · exact Span.lt_of_lt_of_le (Span.lt_after _ (ht.visible hsolid).ne_nil) (hrest.behind u hu).1
    · exact Nat.lt_of_le_of_lt (Span.line_le (Span.le_after _ _))
        ((hrest.behind u hu).2 hbreaks hlast)

/-- The end of a statement is no token of a text. -/
theorem Covers.kind_ne (h : Covers span text ts) : ∀ t ∈ ts, t.kind ≠ .lineEnd := by
  induction h with
  | nil => exact nofun
  | last _ _ hlast =>
    refine List.forall_mem_singleton.mpr fun h => ?_
    rw [h] at hlast
    cases hlast
  | cons ht _ ih => exact List.forall_mem_cons.mpr ⟨(TokenKind.isInner_iff.mp ht.inner).2, ih⟩

/-- A token that a construct can start with starts with a character that shows, behind what the
    tokens before it cover. -/
theorem Covers.visible (h : Covers span text ts) : ∀ t ∈ ts, t.kind.isSolid →
    ∃ before c rest, text = before ++ c :: rest ∧ Text.isBlank c = false ∧
      t.span = span.after before := by
  induction h with
  | nil => exact nofun
  | last _ _ hlast =>
    refine List.forall_mem_singleton.mpr fun hsolid => ?_
    rcases TokenKind.isLast_iff.mp hlast with h | h <;> rw [h] at hsolid <;> cases hsolid
  | @cons span text rest t ts ht _ ih =>
    refine List.forall_mem_cons.mpr ⟨fun hsolid => ?_, fun u hu hsolid => ?_⟩
    · obtain ⟨c, more, heq, hc⟩ := ht.visible hsolid
      refine ⟨t.gap.text, c, more ++ rest, ?_, hc, ht.span⟩
      rw [ht.text, heq, List.cons_append]
    · obtain ⟨before, c, more, rfl, hc, hspan⟩ := ih u hu hsolid
      refine ⟨t.gap.text ++ (t.text.toList ++ before), c, more, ?_, hc, ?_⟩
      · rw [ht.text]
        simp only [List.append_assoc]
      · rw [hspan, ht.span, Span.after_append, Span.after_append]

theorem Covers.holds (h : Covers ⟨1, 0⟩ text ts) {t : Token} (ht : t ∈ ts)
    (hsolid : t.kind.isSolid) : Holds text t.span := by
  obtain ⟨before, c, rest, rfl, hc, hspan⟩ := h.visible t ht hsolid
  exact hspan ▸ Text.holds_after before hc rest

end Source

end Rendition
