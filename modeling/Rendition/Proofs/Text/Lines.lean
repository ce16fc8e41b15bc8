import Mathlib.Data.List.DropRight
import Rendition.Text.Lines

/-!
# Lines of a text

A text without carriage returns is its lines, each ended by a line feed, and lines put together are
told apart again.

## Main definitions

* `Text.Unbroken`: Texts without line ends.
* `Text.chomp`: A line without the carriage return that belongs to its end.
* `Text.linesBetween`: A range of lines, with the blank ones at its end.

## Theorems

* `lines_chomp`, `lines_last`: What the lines of a text are.
* `lines_joinLines`: Lines without line ends are the lines of the text that they make up.
* `unbroken_of_mem_lines`: The lines of a text without carriage returns hold no line ends.
* `lines_excerpt`: The text of an excerpt consists of the lines of the excerpt.
-/

namespace Rendition.Text

/-- Texts without line ends. -/
def Unbroken (text : List Char) : Prop :=
  ∀ c ∈ text, c ≠ '\n' ∧ c ≠ '\r'

instance (text : List Char) : Decidable (Unbroken text) :=
  List.decidableBAll (fun c => c ≠ '\n' ∧ c ≠ '\r') text

theorem unbroken_append {as bs : List Char} :
    Unbroken (as ++ bs) ↔ Unbroken as ∧ Unbroken bs := by
  simp only [Unbroken, List.forall_mem_append]

theorem unbroken_cons {c : Char} {cs : List Char} :
    Unbroken (c :: cs) ↔ (c ≠ '\n' ∧ c ≠ '\r') ∧ Unbroken cs := by
  simp only [Unbroken, List.forall_mem_cons]

theorem unbroken_nil : Unbroken [] :=
  fun _ hc => absurd hc List.not_mem_nil

/-- A line without the carriage return that belongs to its end. -/
def chomp (line : List Char) : List Char :=
  if line.getLast? = some '\r' then line.dropLast else line

theorem chomp_cons_cons (c d : Char) (line : List Char) :
    chomp (c :: d :: line) = c :: chomp (d :: line) := by
  rw [chomp, chomp, List.getLast?_cons_cons, List.dropLast_cons_cons]
  split <;> rfl

theorem chomp_unbroken {line : List Char} (h : Unbroken line) : chomp line = line :=
  if_neg fun hlast => (h '\r' (List.mem_of_getLast? hlast)).2 rfl

/-- A line goes on to the first line feed. -/
theorem lines_chomp {line : List Char} (h : '\n' ∉ line) (rest : List Char) :
    lines (line ++ '\n' :: rest) = chomp line :: lines rest := by
  induction line with
  | nil => rw [List.nil_append, lines, chomp, if_neg (by decide)]
  | cons c cs ih =>
    rw [List.mem_cons, not_or] at h
    obtain ⟨hc, hcs⟩ := h
    rcases cs with _ | ⟨d, cs⟩
    · -- A carriage return right before the line feed belongs to the end of the line.
      by_cases hreturn : c = '\r'
      · rw [hreturn, List.singleton_append, lines]
        rfl
      · rw [List.singleton_append, lines.eq_4 _ _ (fun heq => hc heq.symm)
          fun _ heq => absurd heq hreturn, lines, consLine, chomp, if_neg (by simpa using hreturn)]
    · have hnext : ∀ more, c = '\r' → d :: cs ++ '\n' :: rest ≠ '\n' :: more :=
        fun more _ heq => hcs ((List.cons.inj heq).1 ▸ List.mem_cons_self)
      rw [List.cons_append, lines.eq_4 _ _ (fun heq => hc heq.symm) hnext, ih hcs, consLine,
        chomp_cons_cons]

/-- A last line goes on to the end. -/
theorem lines_last {line : List Char} (h : '\n' ∉ line) (hne : line ≠ []) :
    lines line = [line] := by
  induction line with
  | nil => exact absurd rfl hne
  | cons c cs ih =>
    rw [List.mem_cons, not_or] at h
    obtain ⟨hc, hcs⟩ := h
    have hnext : ∀ rest, c = '\r' → cs ≠ '\n' :: rest :=
      fun rest _ heq => hcs (heq ▸ List.mem_cons_self)
    rw [lines.eq_4 _ _ (fun heq => hc heq.symm) hnext]
    rcases cs with _ | ⟨d, cs⟩
    · rw [lines, consLine]
    · rw [ih hcs (List.cons_ne_nil d cs), consLine]

theorem feed_not_mem {line : List Char} (h : Unbroken line) : '\n' ∉ line :=
  fun hmem => (h '\n' hmem).1 rfl

/-- A line end ends a line without line ends. -/
theorem lines_append {line : List Char} (h : Unbroken line) (rest : List Char) :
    lines (line ++ '\n' :: rest) = line :: lines rest := by
  rw [lines_chomp (feed_not_mem h), chomp_unbroken h]

theorem lines_unbroken {line : List Char} (h : Unbroken line) (hne : line ≠ []) :
    lines line = [line] :=
  lines_last (feed_not_mem h) hne

theorem joinLines_singleton (line : List Char) : joinLines [line] = line :=
  List.intercalate_singleton

theorem joinLines_cons {line : List Char} {rest : List (List Char)} (h : rest ≠ []) :
    joinLines (line :: rest) = line ++ '\n' :: joinLines rest := by
  obtain ⟨next, more, rfl⟩ := List.exists_cons_of_ne_nil h
  rw [joinLines, List.intercalate_cons_cons]
  simp only [List.append_assoc, List.singleton_append]
  rfl

theorem joinLines_append {as bs : List (List Char)} (has : as ≠ []) (hbs : bs ≠ []) :
    joinLines (as ++ bs) = joinLines as ++ '\n' :: joinLines bs := by
  induction as with
  | nil => exact absurd rfl has
  | cons line rest ih =>
    rcases rest with _ | ⟨next, rest⟩
    · rw [List.singleton_append, joinLines_cons hbs, joinLines_singleton]
    · rw [List.cons_append, joinLines_cons (by simp), ih (List.cons_ne_nil next rest),
        joinLines_cons (List.cons_ne_nil next rest), List.append_assoc, List.cons_append]

/-- Lines without line ends are the lines of the text that they make up, unless the last one is
    empty, which does not show. -/
theorem lines_joinLines {ls : List (List Char)} (h : ∀ line ∈ ls, Unbroken line)
    (hlast : ∀ line ∈ ls.getLast?, line ≠ []) : lines (joinLines ls) = ls := by
  induction ls with
  | nil => rfl
  | cons line rest ih =>
    have hline := h line List.mem_cons_self
    rcases rest with _ | ⟨next, rest⟩
    · rw [joinLines_singleton, lines_unbroken hline (hlast line rfl)]
    · rw [List.getLast?_cons_cons] at hlast
      rw [joinLines_cons (List.cons_ne_nil next rest), lines_append hline,
        ih (fun l hl => h l (List.mem_cons_of_mem line hl)) hlast]

theorem unbroken_consLine {c : Char} {ls : List (List Char)} (hc : c ≠ '\n' ∧ c ≠ '\r')
    (h : ∀ line ∈ ls, Unbroken line) : ∀ line ∈ consLine c ls, Unbroken line := by
  rcases ls with _ | ⟨first, ls⟩
  · exact List.forall_mem_singleton.mpr (unbroken_cons.mpr ⟨hc, unbroken_nil⟩)
  · obtain ⟨hfirst, hls⟩ := List.forall_mem_cons.mp h
    exact List.forall_mem_cons.mpr ⟨unbroken_cons.mpr ⟨hc, hfirst⟩, hls⟩

/-- The lines of a text without carriage returns hold no line ends. -/
theorem unbroken_of_mem_lines (text : List Char) : '\r' ∉ text →
    ∀ line ∈ lines text, Unbroken line := by
  induction text using lines.induct with
  | case1 => exact fun _ _ h => absurd h List.not_mem_nil
  | case2 rest ih =>
    intro h
    rw [lines]
    exact List.forall_mem_cons.mpr ⟨unbroken_nil, ih fun hr => h (List.mem_cons_of_mem _ hr)⟩
  | case3 rest ih => exact fun h => absurd List.mem_cons_self h
  | case4 c rest hline hreturn ih =>
    intro h
    obtain ⟨hc, hrest⟩ := not_or.mp (mt List.mem_cons.mpr h)
    rw [lines.eq_4 _ _ hline hreturn]
    exact unbroken_consLine ⟨hline, fun heq => hc heq.symm⟩ (ih hrest)

/-- The lines from number `first` up to but not including `stop`. -/
def linesBetween (text : List Char) (first : Nat) : Option Nat → List (List Char)
  | some stop => ((lines text).drop (first - 1)).take (stop - first)
  | none => (lines text).drop (first - 1)

theorem excerpt_eq (text : List Char) (first : Nat) (stop : Option Nat) :
    excerpt text first stop = (linesBetween text first stop).rdropWhile isBlankLine := by
  cases stop <;> rfl

theorem mem_lines_of_excerpt {text : List Char} {first : Nat} {stop : Option Nat}
    {line : List Char} (h : line ∈ excerpt text first stop) : line ∈ lines text := by
  rw [excerpt_eq] at h
  have hbetween := (List.rdropWhile_prefix isBlankLine _).subset h
  cases stop with
  | none => exact List.mem_of_mem_drop hbetween
  | some stop => exact List.mem_of_mem_drop (List.mem_of_mem_take hbetween)

/-- The text of an excerpt consists of the lines of the excerpt. -/
theorem lines_excerpt {text : List Char} (htext : '\r' ∉ text) (first : Nat) (stop : Option Nat) :
    lines (joinLines (excerpt text first stop)) = excerpt text first stop := by
  refine lines_joinLines (fun line hline => unbroken_of_mem_lines text htext line
    (mem_lines_of_excerpt hline)) ?_
  intro line hlast hempty
  -- The last line of an excerpt is not blank, so it is not empty.
  rw [excerpt_eq] at hlast
  have hne : (linesBetween text first stop).rdropWhile isBlankLine ≠ [] :=
    List.ne_nil_of_mem (List.mem_of_getLast? hlast)
  refine List.rdropWhile_last_not isBlankLine _ hne ?_
  rw [List.getLast?_eq_some_getLast hne, Option.mem_some_iff] at hlast
  rw [hlast, hempty]
  rfl

end Rendition.Text
