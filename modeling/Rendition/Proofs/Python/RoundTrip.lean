import Rendition.Proofs.Grammar.ProperStmts
import Rendition.Proofs.Python.Statements
import Rendition.Proofs.Python.Wording

/-!
# Renditions are read back

The rendition of a module is cut into the lexemes of its lines, and these are read statement by
statement, up to the end of the source. What is read differs from what was rendered only by places.

## Theorems

* `statements_page`: The lines of statements are read as these statements.
* `read_render`: The rendition of a faithful module is read as a module like it.
* `read_render_of_read`: So is the rendition of what a source text is read as.
-/

namespace Rendition.Python

open Source Source.Lexeme

/-! ## Enough fuel -/

theorem length_lay (ls : List Lexeme) : ∀ s : Span, (lay s ls).length = ls.length := by
  induction ls with
  | nil => exact fun _ => rfl
  | cons l ls ih =>
    intro s
    rw [lay, List.length_cons, List.length_cons, ih]

theorem bounded_below (width depth : Nat) {ls : List Line} (h : ∀ line ∈ ls, Moves line.phrase) :
    Bounded (below width depth ls).length (below width depth ls).length ls := by
  induction ls with
  | nil => exact ⟨fun _ h => absurd h List.not_mem_nil, Nat.le_refl _⟩
  | cons line rest ih =>
    obtain ⟨hline, hrest⟩ := List.forall_mem_cons.mp h
    have hinner := ih hrest
    have hlength := hline.length_eq (.line (width * (depth + line.depth))) {}
    obtain ⟨kind, text, more, hfirst, -⟩ := hline
    have hpositive : 0 < (line.phrase {}).length := by
      rw [hfirst]
      exact Nat.zero_lt_succ _
    have hlines := hinner.lines
    rw [below_cons, List.length_append]
    refine ⟨List.forall_mem_cons.mpr ⟨by omega, fun l hl => ?_⟩, ?_⟩
    · have hphrase := hinner.phrases l hl
      omega
    · rw [List.length_cons]
      omega

/-- There are at least as many lexemes as any line has, and as there are lines. -/
theorem bounded_page (width depth : Nat) (g : Gap) {ls : List Line}
    (h : ∀ line ∈ ls, Moves line.phrase) :
    Bounded (page width depth g ls).length (page width depth g ls).length ls := by
  have hbelow := bounded_below width depth h
  cases ls with
  | nil => exact hbelow
  | cons line rest =>
    have hlength := (h line List.mem_cons_self).length_eq g (.line (width * (depth + line.depth)))
    rw [below_cons, List.length_append, ← hlength] at hbelow
    rw [page, List.length_append]
    exact hbelow

theorem Bounded.weaken {n n' fuel fuel' : Nat} {ls : List Line} (h : Bounded n fuel ls)
    (hn : n ≤ n') (hfuel : fuel ≤ fuel') : Bounded n' fuel' ls :=
  ⟨fun line hline => Nat.le_trans (h.phrases line hline) hn, Nat.le_trans h.lines hfuel⟩

/-! ## Modules -/

section Statements

variable {width n fuel : Nat} {body : List Tree}

/-- The end of the source ends all blocks. -/
theorem follows_finish (s : Span) : (finish.token s).Follows 0 :=
  ⟨⟨rfl, Nat.le_refl _, rfl⟩, fun _ _ _ => rfl⟩

/-- The lines of statements are read as these statements, up to the end of the source. -/
theorem statements_page (hwidth : 1 ≤ width) (hne : body ≠ [])
    (h : ∀ t ∈ body, ReadsLines (lines t) t) (hbound : Bounded n fuel (body.flatMap lines))
    (s : Span) : ∃ stmts v, List.Forall₂ (fun t stmt => DenotesStmt stmt t) body stmts ∧
      statements (phrases n) (suiteAt (phrases n) fuel)
        (lay s (page width 0 {} (body.flatMap lines) ++ [finish])) = some (stmts, [v]) := by
  obtain ⟨first, rest, rfl⟩ := List.exists_cons_of_ne_nil hne
  obtain ⟨hfirst, hrest⟩ := List.forall_mem_cons.mp h
  obtain ⟨p, more, hlines, -⟩ := hfirst.starts
  rw [List.flatMap_cons] at hbound
  have hlay : ∃ s₁ s₂, lay s (page width 0 {} ((first :: rest).flatMap lines) ++ [finish]) =
      lay s (page width 0 {} (lines first)) ++
        (lay s₁ (below width 0 (rest.flatMap lines)) ++ [finish.token s₂]) := by
    rw [List.flatMap_cons, hlines, page_append]
    simp only [lay_append, List.append_assoc]
    exact ⟨_, _, rfl⟩
  obtain ⟨s₁, s₂, hlay⟩ := hlay
  obtain ⟨u, us, hnext, hu, -, hmore⟩ := extend_statements hwidth hrest
    (hbound.sublist (List.sublist_append_right _ _)) 0 true (follows_finish s₂) (.inl rfl) [] s₁
  have hleads : Leads 0 {} := ⟨rfl, fun h => absurd h Bool.false_ne_true⟩
  obtain ⟨stmts, hstmts, hextend⟩ := extend_statement hwidth hfirst
    (hbound.sublist (List.sublist_append_left _ _)) hleads hu hmore s []
  refine ⟨stmts, finish.token s₂, hstmts, ?_⟩
  rw [hlay, hnext]
  have hkind : (finish.token s₂).kind = .sourceEnd := rfl
  have hgap : (finish.token s₂).gap.continuations = [] := rfl
  simp only [Nat.mul_zero, List.nil_append] at hextend
  simp only [statements, run_bind, block_eq, hextend, Option.bind_some, run_peek, hkind,
    decide_true, run_require, hgap, List.map_nil, List.append_nil, run_pure]

end Statements

/-- What a faithful module spells is read as a module like it. -/
theorem read_ended {width : Nat} (hwidth : 1 ≤ width) {body : List Tree}
    (h : ∀ t ∈ body, t.IsStatement Faithful) :
    ∃ us, readStatements (String.ofList (ended width (body.flatMap lines))) = .ok us ∧
      agreeList Tree.alike body us = true := by
  rcases body with _ | ⟨first, rest⟩
  · exact ⟨[], rfl, rfl⟩
  · have hreads : ∀ t ∈ first :: rest, ReadsLines (lines t) t :=
      fun t ht => (readsLines_statement (h t ht)).1
    have hsheet : Sheet ((first :: rest).flatMap lines) := by
      rw [List.flatMap_cons]
      refine sheet_append (sheet_lines (h first List.mem_cons_self)).1 fun line hline => ?_
      obtain ⟨t, ht, hline⟩ := List.mem_flatMap.mp hline
      exact (sheet_lines (h t (List.mem_cons_of_mem first ht))).1.sound line hline
    have hmoves : ∀ line ∈ (first :: rest).flatMap lines, Moves line.phrase := by
      intro line hline
      obtain ⟨t, ht, hline⟩ := List.mem_flatMap.mp hline
      exact (hreads t ht).moves line hline
    have htokens := tokenize_page width hsheet
    have hlength := congrArg List.length htokens
    rw [length_lay, List.length_append, List.length_singleton] at hlength
    have hbound : Bounded (tokenize (ended width ((first :: rest).flatMap lines))).length
        ((tokenize (ended width ((first :: rest).flatMap lines))).length + 1)
        ((first :: rest).flatMap lines) :=
      (bounded_page width 0 {} hmoves).weaken (by omega) (by omega)
    obtain ⟨stmts, v, hstmts, hparse⟩ :=
      statements_page hwidth (List.cons_ne_nil _ _) hreads hbound ⟨1, 0⟩
    obtain ⟨us, hread, halike⟩ := denotes_suite hstmts
    refine ⟨us, ?_, halike⟩
    have hparse? : parse? (ended width ((first :: rest).flatMap lines)) = some stmts := by
      rw [← htokens] at hparse
      rw [parse?, parseTokens?, StateT.run, hparse]
      rfl
    rw [readStatements, String.toList_ofList, hparse?]
    exact hread

/-- The rendition of a faithful module is read as a module like it: rendering loses nothing but
    places. -/
theorem read_render {body : List Tree} (h : ∀ t ∈ body, t.IsStatement Faithful) (span : Span)
    (function : SourceFunction) {config : Config} (hwidth : 1 ≤ config.width) :
    ∃ text u, renderer.render ⟨function, .mk span (.moduleDef body)⟩ config = .ok text ∧
      read text = .ok u ∧ (Tree.mk span (.moduleDef body)).alike u = true := by
  obtain ⟨us, hread, hagree⟩ := read_ended hwidth h
  have htext := (run_text (m := Except Unimplemented) (blanks config.width)
    (.mk span (.moduleDef body))).symm.trans (render_module config.width h)
  refine ⟨_, .mk ⟨1, 0⟩ (.moduleDef us), (render_text _ config).trans htext, ?_, ?_⟩
  · rw [Source.read, hread]
    rfl
  · rw [Tree.alike_mk]
    exact hagree

/-- What a source text is read as is grammatical, so it is rendered as a text that is read as a
    module like it if each node of it is faithful. -/
theorem read_render_of_read {text : String} {tree : Tree} (h : read text = .ok tree)
    (hfaithful : ∀ d ∈ tree.descendants, Faithful d.node) (function : SourceFunction)
    {config : Config} (hwidth : 1 ≤ config.width) :
    ∃ emitted u, renderer.render ⟨function, tree⟩ config = .ok emitted ∧
      read emitted = .ok u ∧ tree.alike u = true := by
  obtain ⟨body, rfl, hbody⟩ := read_grammatical h
  exact read_render (fun t ht => (hbody t ht).restrict (Tree.forall_child hfaithful ht)) ⟨1, 0⟩
    function hwidth

end Rendition.Python
