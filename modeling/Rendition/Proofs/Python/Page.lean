import Rendition.Proofs.Python.Lines

/-!
# The tokens of a rendition

The rendition of a module is the text of its lines, each ended, and the lexer cuts it into the
lexemes of these lines. The gap before the first lexeme of a line is the end of the line before it
with the blanks of its depth.

## Main definitions

* `Python.below`, `Python.page`: The lexemes of lines at a depth.

## Theorems

* `render_module`: What a module is rendered as.
* `tokenize_page`: The tokens of a rendition are the lexemes of its lines.
-/

namespace Rendition.Python

open Source Source.Lexeme Text

/-- The lexemes of lines below other lines. -/
def below (width depth : Nat) (ls : List Line) : List Lexeme :=
  ls.flatMap fun line => line.phrase (.line (width * (depth + line.depth)))

/-- The lexemes of lines, the first of which stands behind a gap. -/
def page (width depth : Nat) (g : Gap) : List Line → List Lexeme
  | [] => []
  | line :: rest => line.phrase g ++ below width depth rest

variable (width depth : Nat)

theorem below_cons (line : Line) (rest : List Line) : below width depth (line :: rest) =
    line.phrase (.line (width * (depth + line.depth))) ++ below width depth rest :=
  List.flatMap_cons

/-! ## The text of a module -/

/-- The characters of lines, each with its end. -/
def ended (ls : List Line) : List Char :=
  ls.flatMap fun line => line.text width ++ ['\n']

theorem ended_cons (line : Line) (rest : List Line) :
    ended width (line :: rest) = line.text width ++ '\n' :: ended width rest := by
  rw [ended, List.flatMap_cons, List.append_assoc, List.singleton_append]
  rfl

theorem spread_row (ls : List Line) :
    spread width (ls.map Line.row) = String.ofList (ended width ls) := by
  rw [spread, List.flatMap_map]
  rfl

section Render

variable {m : Type → Type} [Monad m] [LawfulMonad m] [MonadExceptOf Unimplemented m]

/-- A module is rendered as the lines of its statements, each with its end. -/
theorem render_module {span : Span} {body : List Tree} (h : ∀ t ∈ body, t.IsStatement Faithful) :
    (Tree.mk span (.moduleDef body)).render (m := m) (rule (blanks width)) =
      pure (String.ofList (ended width (body.flatMap lines))) := by
  have hrun := runAll_visit (m := m) (blanks width) fun t ht => run_lines (h t ht)
  have htext : String.join ((body.map fun t => stacked width (lines t)).map (· ++ "\n")) =
      String.ofList (ended width (body.flatMap lines)) := by
    have hne : [] ∉ (body.map lines).map (List.map Line.row) := by
      intro hmem
      obtain ⟨ls, hls, hnil⟩ := List.mem_map.mp hmem
      obtain ⟨t, ht, rfl⟩ := List.mem_map.mp hls
      exact (sheet_lines (h t ht)).1.ne_nil (List.map_eq_nil_iff.mp hnil)
    have hjoin := @join_printed width _ hne
    rw [← List.map_flatten, spread_row, ← List.flatMap_def] at hjoin
    rw [← hjoin]
    simp only [List.map_map, Function.comp_def, stacked_eq]
  have hrule : rule (m := m) (blanks width) span
      ((Node.moduleDef body).map (Tree.visit (rule (blanks width)))) =
      pure (some (String.join ((body.map fun t => stacked width (lines t)).map (· ++ "\n")))) := by
    simp only [rule, Node.map, hrun, pure_bind]
  rw [Tree.render, run_eq_pure hrule, htext]

end Render

/-! ## The tokens of a module -/

theorem spell_below {ls : List Line} (h : ∀ line ∈ ls, line.Sound) :
    spell (below width 0 ls) ++ ['\n'] = '\n' :: ended width ls := by
  induction ls with
  | nil => rfl
  | cons line rest ih =>
    have hline := h line List.mem_cons_self
    rw [below_cons, spell_append, List.append_assoc,
      ih fun l hl => h l (List.mem_cons_of_mem line hl), hline.moves, ended_cons, Nat.zero_add]
    rfl

theorem spell_page {ls : List Line} (h : Sheet ls) :
    spell (page width 0 {} ls) ++ ['\n'] = ended width ls := by
  obtain ⟨⟨p, rest, rfl⟩, hsound⟩ := h
  rw [page, spell_append, List.append_assoc,
    spell_below width fun l hl => hsound l (List.mem_cons_of_mem _ hl), ended_cons]
  rfl

theorem fits_below {ls : List Line} (h : ∀ line ∈ ls, line.Sound) :
    Fits (below width depth ls) '\n' ∧ Heads (below width depth ls) '\n' '\n' := by
  induction ls with
  | nil => exact ⟨fits_nil _, [], rfl⟩
  | cons line rest ih =>
    obtain ⟨hfits, hhead⟩ := ih fun l hl => h l (List.mem_cons_of_mem line hl)
    have hline := h line List.mem_cons_self
    rw [below_cons]
    exact ⟨fits_append (hline.fits _ (Gap.simple_line _) '\n' (by decide)) hhead hfits,
      heads_append (hline.moves _) '\n'⟩

theorem fits_page {g : Gap} (hg : g.Simple) {ls : List Line} (h : Sheet ls) :
    Fits (page width depth g ls) '\n' := by
  obtain ⟨⟨p, rest, rfl⟩, hsound⟩ := h
  obtain ⟨hfits, hhead⟩ :=
    fits_below width depth fun l hl => hsound l (List.mem_cons_of_mem _ hl)
  exact fits_append ((hsound _ List.mem_cons_self).fits g hg '\n' (by decide)) hhead hfits

/-- The end of the source behind the end of a line. -/
def finish : Lexeme :=
  ⟨.line 0, .sourceEnd, ""⟩

theorem tokensWithin_finish (fuel : Nat) (span : Span) :
    tokensWithin (fuel + 1) [] span ['\n'] = [finish.token span] := by
  rw [tokensWithin.eq_def]
  rfl

/-- The tokens of a rendition are the lexemes of its lines. -/
theorem tokenize_page {ls : List Line} (h : Sheet ls) :
    tokenize (ended width ls) = lay ⟨1, 0⟩ (page width 0 {} ls ++ [finish]) := by
  have hapart : Apart (page width 0 {} ls) ['\n'] := fits_page width 0 Gap.simple_empty h []
  have hlength := length_le_spell hapart
  obtain ⟨fuel, hfuel⟩ := Nat.exists_eq_add_of_le hlength
  have htext := spell_page width h
  have hsize : (ended width ls).length + 1 = (fuel + 1) + 1 + (page width 0 {} ls).length := by
    rw [← htext, List.length_append, List.length_singleton, hfuel]
    omega
  rw [tokenize, hsize, ← htext, tokensWithin_apart hapart, tokensWithin_finish, lay_append]
  rfl

end Rendition.Python
