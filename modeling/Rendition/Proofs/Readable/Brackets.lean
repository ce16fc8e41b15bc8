import Rendition.Proofs.Physl.Term

/-!
# Texts with brackets

A text in which every bracket is matched, and every quote opens a literal that ends, is a list of
characters, literals and groups, a group being what stands between two brackets. The text says which
list it is: a literal ends at the first quote that no backslash stands before, and a group at the
bracket that matches the one that it begins with.

## Main definitions

* `Readable.Glyph`: A character, a literal or a group.
* `Readable.spell`: The text of glyphs.
* `Readable.Sound`: Glyphs whose characters are no brackets and whose literals end where they should.

## Theorems

* `Sound.append_inj`: Glyphs can be told from what follows them.
* `Sound.eq_of_spell_eq`: No two lists of glyphs have the same text.
-/

namespace Rendition.Python.Readable

/-- The kinds of brackets. -/
inductive Bracket where
  | round | square | curly
  deriving DecidableEq

namespace Bracket

/-- The bracket that a group begins with. -/
def opening : Bracket → Char
  | round => '('
  | square => '['
  | curly => '\x7b'

/-- The bracket that a group ends with. -/
def closing : Bracket → Char
  | round => ')'
  | square => ']'
  | curly => '\x7d'

end Bracket

/-- Whether a character ends a group. -/
def closes (c : Char) : Bool :=
  [')', ']', '\x7d'].contains c

/-- Whether a character is a quote or a bracket. -/
def encloses (c : Char) : Bool :=
  ['"', '(', '[', '\x7b'].contains c || closes c

theorem Bracket.closes_closing (bracket : Bracket) : closes bracket.closing = true := by
  cases bracket <;> rfl

theorem Bracket.encloses_opening (bracket : Bracket) : encloses bracket.opening = true := by
  cases bracket <;> rfl

theorem Bracket.closes_opening (bracket : Bracket) : closes bracket.opening = false := by
  cases bracket <;> rfl

theorem Bracket.opening_inj {b b' : Bracket} (h : b.opening = b'.opening) : b = b' := by
  cases b <;> cases b' <;> first | rfl | cases h

theorem Bracket.opening_ne_quote (bracket : Bracket) : bracket.opening ≠ '"' := by
  cases bracket <;> decide

/-- A character, a literal between quotes, or what stands between two brackets. -/
inductive Glyph where
  | char (c : Char)
  | literal (inside : List Char)
  | group (bracket : Bracket) (inside : List Glyph)

mutual

/-- The text of a glyph. -/
def Glyph.spell : Glyph → List Char
  | .char c => [c]
  | .literal inside => '"' :: (inside ++ ['"'])
  | .group bracket inside => bracket.opening :: (spell inside ++ [bracket.closing])

/-- The text of glyphs. -/
def spell : List Glyph → List Char
  | [] => []
  | g :: rest => g.spell ++ spell rest

end

theorem spell_nil : spell [] = [] := by
  rw [spell]

theorem spell_char (c : Char) (rest : List Glyph) : spell (.char c :: rest) = c :: spell rest := by
  rw [spell, Glyph.spell, List.singleton_append]

theorem spell_literal (inside : List Char) (rest : List Glyph) :
    spell (.literal inside :: rest) = '"' :: (inside ++ '"' :: spell rest) := by
  rw [spell, Glyph.spell, List.cons_append, List.append_assoc, List.singleton_append]

theorem spell_group (bracket : Bracket) (inside rest : List Glyph) :
    spell (.group bracket inside :: rest) =
      bracket.opening :: (spell inside ++ bracket.closing :: spell rest) := by
  rw [spell, Glyph.spell, List.cons_append, List.append_assoc, List.singleton_append]

theorem spell_append (gs hs : List Glyph) : spell (gs ++ hs) = spell gs ++ spell hs := by
  induction gs with
  | nil => rw [List.nil_append, spell_nil, List.nil_append]
  | cons g gs ih => rw [List.cons_append, spell, spell, ih, List.append_assoc]

theorem spell_map_char (cs : List Char) : spell (cs.map .char) = cs := by
  induction cs with
  | nil => exact spell_nil
  | cons c cs ih => rw [List.map_cons, spell_char, ih]

theorem spell_intercalate (separator : List Glyph) (parts : List (List Glyph)) :
    spell (separator.intercalate parts) = (spell separator).intercalate (parts.map spell) := by
  induction parts with
  | nil => exact spell_nil
  | cons part parts ih =>
    rcases parts with _ | ⟨next, parts⟩
    · rw [List.intercalate_singleton, List.map_singleton, List.intercalate_singleton]
    · rw [List.intercalate_cons_cons, spell_append, spell_append, ih]
      simp only [List.map_cons, List.intercalate_cons_cons]

/-- Glyphs that can be read: characters are neither quotes nor brackets, and literals end at their
    last quote. -/
inductive Sound : List Glyph → Prop where
  | nil : Sound []
  | char {c : Char} {rest : List Glyph} (h : encloses c = false) (hrest : Sound rest) :
    Sound (.char c :: rest)
  | literal {inside : List Char} {rest : List Glyph} (h : Physl.Inside inside)
    (hrest : Sound rest) : Sound (.literal inside :: rest)
  | group {bracket : Bracket} {inside rest : List Glyph} (hinside : Sound inside)
    (hrest : Sound rest) : Sound (.group bracket inside :: rest)

theorem Sound.append {gs hs : List Glyph} (hgs : Sound gs) (hhs : Sound hs) : Sound (gs ++ hs) := by
  induction hgs with
  | nil => exact hhs
  | char h _ ih => exact .char h ih
  | literal h _ ih => exact .literal h ih
  | group hinside _ _ ih => exact .group hinside ih

theorem sound_map_char {cs : List Char} (h : ∀ c ∈ cs, encloses c = false) :
    Sound (cs.map .char) := by
  induction cs with
  | nil => exact .nil
  | cons c cs ih =>
    rw [List.forall_mem_cons] at h
    exact .char h.1 (ih h.2)

theorem sound_intercalate {separator : List Glyph} (hseparator : Sound separator)
    {parts : List (List Glyph)} (h : ∀ part ∈ parts, Sound part) :
    Sound (separator.intercalate parts) := by
  induction parts with
  | nil => exact .nil
  | cons part parts ih =>
    rw [List.forall_mem_cons] at h
    rcases parts with _ | ⟨next, parts⟩
    · rw [List.intercalate_singleton]
      exact h.1
    · rw [List.intercalate_cons_cons]
      exact (h.1.append hseparator).append (ih h.2)

/-- What follows glyphs: nothing, or the bracket that closes the group that they stand in. -/
def Closes (rest : List Char) : Prop :=
  ∀ c ∈ rest.head?, closes c = true

theorem closes_nil : Closes [] :=
  fun _ hc => nomatch hc

theorem closes_cons (bracket : Bracket) (rest : List Char) : Closes (bracket.closing :: rest) := by
  rintro _ ⟨⟩
  exact bracket.closes_closing

/-- The first character of glyphs does not end a group. -/
theorem Sound.not_closes {g : Glyph} {gs : List Glyph} (h : Sound (g :: gs))
    {rest rest' : List Char} (hrest : Closes rest) : spell (g :: gs) ++ rest' ≠ rest := by
  rintro rfl
  cases h with
  | @char c _ h =>
    rw [spell_char] at hrest
    have hclosed := hrest c rfl
    rw [encloses, hclosed, Bool.or_true] at h
    cases h
  | literal h =>
    rw [spell_literal] at hrest
    exact absurd (hrest '"' rfl) (by decide)
  | @group bracket _ _ hinside =>
    rw [spell_group] at hrest
    have hclosed := hrest bracket.opening rfl
    rw [bracket.closes_opening] at hclosed
    cases hclosed

/-- Glyphs can be told from what follows them. -/
theorem Sound.append_inj {gs hs : List Glyph} {rest rest' : List Char} (hgs : Sound gs)
    (hhs : Sound hs) (hrest : Closes rest) (hrest' : Closes rest')
    (h : spell gs ++ rest = spell hs ++ rest') : gs = hs ∧ rest = rest' := by
  -- A character is none that opens a literal or a group.
  have hplain : ∀ {c d : Char}, encloses c = false → encloses d = true → c ≠ d := by
    rintro c d hc hd rfl
    rw [hc] at hd
    cases hd
  have hnil : ∀ {hs : List Glyph} {rest rest' : List Char}, Sound hs → Closes rest →
      spell [] ++ rest = spell hs ++ rest' → [] = hs ∧ rest = rest' := by
    intro hs rest rest' hhs hrest h
    rw [spell_nil, List.nil_append] at h
    rcases hs with _ | ⟨g, hs⟩
    · exact ⟨rfl, by rw [h, spell_nil, List.nil_append]⟩
    · exact absurd h.symm (hhs.not_closes hrest)
  induction hgs generalizing hs rest rest' with
  | nil => exact hnil hhs hrest h
  | @char c gs hc _ ih =>
    cases hhs with
    | nil =>
      obtain ⟨hempty, -⟩ := hnil (.char hc ‹_›) hrest' h.symm
      cases hempty
    | @char d hs hd hhs =>
      rw [spell_char, spell_char, List.cons_append, List.cons_append, List.cons.injEq] at h
      obtain ⟨rfl, h⟩ := h
      obtain ⟨rfl, hrests⟩ := ih hhs hrest hrest' h
      exact ⟨rfl, hrests⟩
    | literal =>
      rw [spell_char, spell_literal] at h
      exact absurd (List.cons.inj h).1 (hplain hc (by decide))
    | group =>
      rw [spell_char, spell_group] at h
      exact absurd (List.cons.inj h).1 (hplain hc (Bracket.encloses_opening _))
  | @literal inside gs hinside hgs ih =>
    cases hhs with
    | nil =>
      obtain ⟨hempty, -⟩ := hnil (.literal hinside hgs) hrest' h.symm
      cases hempty
    | char hd =>
      rw [spell_literal, spell_char] at h
      exact absurd (List.cons.inj h).1.symm (hplain hd (by decide))
    | literal hinside' hhs =>
      simp only [spell_literal, List.cons_append, List.append_assoc, List.cons.injEq,
        true_and] at h
      obtain ⟨rfl, hafter⟩ := hinside.append_inj hinside' h
      obtain ⟨rfl, hrests⟩ := ih hhs hrest hrest' hafter
      exact ⟨rfl, hrests⟩
    | group =>
      rw [spell_literal, spell_group] at h
      exact absurd (List.cons.inj h).1.symm (Bracket.opening_ne_quote _)
  | @group bracket inside gs hinside hgs ihinside ih =>
    cases hhs with
    | nil =>
      obtain ⟨hempty, -⟩ := hnil (.group hinside hgs) hrest' h.symm
      cases hempty
    | char hd =>
      rw [spell_group, spell_char] at h
      exact absurd (List.cons.inj h).1.symm (hplain hd (Bracket.encloses_opening _))
    | literal =>
      rw [spell_group, spell_literal] at h
      exact absurd (List.cons.inj h).1 (Bracket.opening_ne_quote _)
    | group hinside' hhs =>
      simp only [spell_group, List.cons_append, List.append_assoc, List.cons.injEq] at h
      obtain ⟨hopening, h⟩ := h
      obtain rfl := Bracket.opening_inj hopening
      -- What stands between the brackets ends where the closing one stands.
      obtain ⟨rfl, hafter⟩ := ihinside hinside' (closes_cons _ _) (closes_cons _ _) h
      obtain ⟨rfl, hrests⟩ := ih hhs hrest hrest' (List.cons.inj hafter).2
      exact ⟨rfl, hrests⟩

/-- No two lists of glyphs have the same text. -/
theorem Sound.eq_of_spell_eq {gs hs : List Glyph} (hgs : Sound gs) (hhs : Sound hs)
    (h : spell gs = spell hs) : gs = hs :=
  (hgs.append_inj hhs closes_nil closes_nil (by rw [h])).1

end Rendition.Python.Readable
