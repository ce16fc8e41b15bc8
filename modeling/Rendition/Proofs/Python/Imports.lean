import Rendition.Proofs.Python.Dotted
import Rendition.Proofs.Python.Sentences

/-!
# Imports are read back

The names of an import are read as the source text that they cover, which is the text that they
were rendered from.

## Theorems

* `dottedName_phrase`: A name with points in it is read up to its end.
* `covered_phrase`: The source text of a phrase is what it spells.
* `readsLine_import`, `readsLine_from`: Imports are read back.
-/

namespace Rendition.Python

open Source Source.Lexeme Text

/-! ## Source texts of phrases -/

theorem toList_excerpt (s : Span) (l : Lexeme) (ls : List Lexeme) :
    (Token.excerpt (lay s (l :: ls))).toList = l.text.toList ++ spell ls := by
  have hjoin : ∀ (ls : List Lexeme) (s : Span), (String.join ((lay s ls).map fun t =>
      String.ofList t.gap.text ++ t.text)).toList = spell ls := by
    intro ls
    induction ls with
    | nil => exact fun _ => rfl
    | cons l ls ih =>
      intro s
      rw [lay, List.map_cons, String.join_cons, String.toList_append, ih, String.toList_append,
        String.toList_ofList]
      rfl
  rw [lay, Token.excerpt, String.toList_append, hjoin]
  rfl

/-- A phrase whose first lexeme stands behind the gap of the phrase. -/
def Moves (p : Phrase) : Prop :=
  StartsWith (fun _ => true) p

/-- The source text of a phrase is what it spells. -/
theorem excerpt_phrase {p : Phrase} (h : Moves p) (s : Span) (g : Gap) :
    Token.excerpt (lay s (p g)) = written p := by
  obtain ⟨kind, text, rest, hfirst, -⟩ := h
  rw [← String.toList_inj, toList_written, hfirst, hfirst, toList_excerpt]
  rfl

/-- A parser that takes a phrase takes its source text. -/
theorem covered_phrase {α : Type} {q : Parser α} {p : Phrase} (h : Moves p) {s : Span} {g : Gap}
    {f : Frame} {ts us : List Token} {a : α} (hq : q (lay s (p g) ++ ts) = some (a, us))
    (hsees : f.Sees ts us) : covered q (lay s (p g) ++ ts) = some ((a, written p), us) := by
  rw [← excerpt_phrase h s g]
  exact covered_of hq hsees

/-! ## Names with points -/

/-- A point and the name behind it. -/
def pointStep (f : Frame) (_ : Unit) : Parser (Option Unit) := do
  if ← mark? f.middle "." then
    discard (identifier f)
    return some ()
  else return none

theorem dottedName_eq (f : Frame) :
    dottedName f = (discard (identifier f) >>= fun _ => extend (pointStep f) ()) := rfl

theorem identifier_word {f : Frame} {name : String} (h : isReserved name = false)
    {ts us : List Token} (hsees : f.Sees ts us) (g : Gap) (s : Span) :
    identifier f ((word name g).token s :: ts) = some ((word name g).token s, us) := by
  have hidentifier : ((word name g).token s).isIdentifier = true := by
    simp only [word, token, Token.isIdentifier, h, decide_true, Bool.not_false, Bool.and_self]
  simp only [identifier, run_bind, run_peek, Option.bind_some, hidentifier, run_require,
    hsees.shift]

section Names

variable {f : Frame} {ts us : List Token} {u : Token}

/-- The names behind the points are read one after another. -/
theorem extend_points (hsees : f.Sees ts (u :: us)) (hu : u.isMark "." = false)
    {parts : List String} (h : ∀ part ∈ parts, isReserved part = false) : ∀ s : Span, ∃ v vs,
    f.Sees (lay s (parts.flatMap fun part => [mark "." {}, word part {}]) ++ ts) (v :: vs) ∧
      extend (pointStep f) () (v :: vs) = some ((), u :: us) := by
  induction parts with
  | nil =>
    intro s
    refine ⟨u, us, hsees, extend_done ?_⟩
    simp only [pointStep, run_bind, mark?_of_ne hu, Option.bind_some, Bool.false_eq_true, if_false,
      run_pure]
  | cons part parts ih =>
    intro s
    simp only [List.flatMap_cons, List.cons_append, List.nil_append, lay]
    generalize s.after (mark "." {}).chars = s₁
    obtain ⟨v, vs, hseen, hmore⟩ := ih (fun p hp => h p (List.mem_cons_of_mem part hp))
      (s₁.after (word part {}).chars)
    have hlength := hseen.length_le
    have hstep (more : List Token) (hseen : f.Sees more (v :: vs)) :
        pointStep f () ((mark "." {}).token s :: (word part {}).token s₁ :: more) =
          some (some (), v :: vs) := by
      have hflat : f.middle.Sees ((word part {}).token s₁ :: more)
          ((word part {}).token s₁ :: more) := sees_word Gap.flat_empty
      have hpoint : ((mark "." {}).token s).isMark "." = true := rfl
      simp only [pointStep, run_bind, hflat.mark? hpoint, Option.bind_some, if_true, run_discard,
        identifier_word (h part List.mem_cons_self) hseen, run_pure]
    refine ⟨_, _, sees_mark Gap.flat_empty, extend_more (hstep _ hseen) ?_ hmore⟩
    simp only [List.length_cons] at hlength ⊢
    omega

/-- A name with points in it is read up to its end. -/
theorem dottedName_phrase (hsees : f.Sees ts (u :: us)) (hu : u.isMark "." = false)
    {text : List Char} (h : IsDotted text) (s : Span) (g : Gap) :
    dottedName f (lay s (dotted text g) ++ ts) = some ((), u :: us) := by
  obtain ⟨name, rest, hparts⟩ := exists_parts text
  rw [IsDotted, hparts] at h
  have hreserved : ∀ part ∈ rest.map String.ofList, isReserved part = false := by
    intro part hpart
    obtain ⟨chars, hchars, rfl⟩ := List.mem_map.mp hpart
    exact (h chars (List.mem_cons_of_mem name hchars)).2
  obtain ⟨v, vs, hseen, hmore⟩ := extend_points hsees hu hreserved
    (s.after (word (String.ofList name) g).chars)
  rw [List.flatMap_map] at hseen
  rw [dotted_eq hparts, dottedName_eq, lay, List.cons_append]
  simp only [run_bind, run_discard, identifier_word (h name List.mem_cons_self).2 hseen,
    Option.bind_some, hmore]

theorem moves_dotted (text : List Char) : Moves (dotted text) := by
  obtain ⟨name, rest, hparts⟩ := exists_parts text
  rw [dotted_eq hparts]
  exact ⟨.word, String.ofList name, _, fun _ => rfl, rfl⟩

theorem written_dotted (text : String) : written (dotted text.toList) = text := by
  rw [← String.toList_inj, toList_written, spell_dotted]

/-- Whether an imported name ends before a token. -/
def endsImported (t : Token) : Bool :=
  !t.isMark "." && !t.isWord "as"

theorem yields_imported {name : ImportedName} (hname : IsDotted name.name.toList)
    (hasName : ∀ asName ∈ name.asName, isReserved asName = false) (f : Frame) :
    Yields f endsImported (some <$> importedName f) (imported name) fun x => x = some name := by
  intro s g ts us u hsees hu
  simp only [endsImported, Bool.and_eq_true, Bool.not_eq_true'] at hu
  obtain ⟨text, asName⟩ := name
  refine ⟨_, rfl, ?_⟩
  rw [imported_eq hname]
  rcases asName with _ | asName
  · simp only [aliased, Option.map_none, List.append_nil]
    have hparse := covered_phrase (moves_dotted text.toList)
      (dottedName_phrase hsees hu.1 hname s g) hsees
    rw [written_dotted] at hparse
    simp only [run_map, importedName, run_bind, hparse, Option.bind_some, run_atWord, hu.2,
      Bool.false_eq_true, if_false, run_pure]
  · simp only [aliased, Option.map_some, lay_append, lay, List.append_assoc, List.cons_append,
      List.nil_append]
    generalize s.after (spell (dotted text.toList g)) = s₁
    generalize s₁.after (word "as" .blank).chars = s₂
    have has : f.Sees ((word "as" .blank).token s₁ :: (word asName .blank).token s₂ :: ts)
        ((word "as" .blank).token s₁ :: (word asName .blank).token s₂ :: ts) :=
      sees_word Gap.flat_blank
    have hflat : f.middle.Sees ((word asName .blank).token s₂ :: ts)
        ((word asName .blank).token s₂ :: ts) := sees_word Gap.flat_blank
    have hword : ((word "as" .blank).token s₁).isWord "as" = true := rfl
    have hparse := covered_phrase (moves_dotted text.toList)
      (dottedName_phrase has rfl hname s g) has
    rw [written_dotted] at hparse
    simp only [run_map, importedName, run_bind, hparse, Option.bind_some, run_atWord, hword,
      if_true,
      run_discard, hflat.shift, identifier_word (hasName asName rfl) hsees, run_pure]
    rfl

theorem starts_imported {name : ImportedName} (hname : IsDotted name.name.toList) :
    StartsWith (startsListed Token.isIdentifier) (imported name) := by
  obtain ⟨first, rest, hparts⟩ := exists_parts name.name.toList
  have hreserved : isReserved (String.ofList first) = false := by
    rw [IsDotted, hparts] at hname
    exact (hname first List.mem_cons_self).2
  rw [imported_eq hname, dotted_eq hparts]
  refine ⟨.word, String.ofList first, _, fun g => rfl, ?_⟩
  simp only [startsListed, Token.bare, Token.isIdentifier, hreserved, reduceCtorEq, decide_true,
    decide_false, Bool.not_false, Bool.and_self]

theorem isIdentifier_word {t : Token} (h : t.isIdentifier = true) :
    t.kind = .word ∧ isReserved t.text = false := by
  rw [Token.isIdentifier, Bool.and_eq_true, decide_eq_true_eq, Bool.not_eq_true'] at h
  exact h

/-- A frame shows a name on the same line as it is. -/
theorem sees_identifier {f : Frame} {t : Token} (h : t.isIdentifier = true) (hgap : t.gap.Flat)
    (ts : List Token) : f.Sees (t :: ts) (t :: ts) := by
  refine .flat hgap fun hend => ?_
  rw [Token.isIdentifier, hend] at h
  cases h

/-- Imported names are read one after another, up to the end of the line. -/
theorem importedNames_row {first : ImportedName} {names : List ImportedName}
    (h : ∀ name ∈ first :: names, IsDotted name.name.toList ∧
      ∀ asName ∈ name.asName, isReserved asName = false)
    (hsees : f.Sees ts (u :: us)) (hu : u.kind = .lineEnd) (s : Span) (g : Gap) :
    ∃ t more, lay s (row ((first :: names).map imported) g) ++ ts = t :: more ∧
      t.isIdentifier = true ∧ t.gap = g ∧
      importedNames f (t :: more) = some (first :: names, u :: us) := by
  have hstop : endsImported u = true := by
    rw [endsImported, Token.isMark_lineEnd hu, Token.isWord_lineEnd hu]
    rfl
  obtain ⟨bs, sep, hbs, hlisted⟩ := listed_row (fun _ => none) (fun _ => rfl) hsees
    (Token.isMark_lineEnd hu ",") hstop (fun _ => rfl)
    (fun name hname => starts_imported (h name (List.mem_cons_of_mem first hname)).1)
    (fun name hname => yields_imported (h name hname).1 (h name hname).2 f) s g
  obtain ⟨kind, text, rest, hfirst, htest⟩ := starts_imported (h first List.mem_cons_self).1
  simp only [List.map_cons, row, hfirst, List.cons_append, lay] at hlisted ⊢
  refine ⟨_, _, rfl, (Bool.and_eq_true_iff.mp htest).1, rfl, ?_⟩
  simp only [importedNames, run_bind, hlisted, Option.bind_some, run_pure,
    eq_map_of_forall₂ hbs, List.filterMap_map, Function.id_comp, List.filterMap_some]

/-! ## Modules -/

/-- One mark of points more. -/
def leadingStep (f : Frame) (count : Nat) : Parser (Option Nat) := do
  if (← atMark ".") || (← atMark "...") then
    discard (shift f)
    return some (count + 1)
  else return none

theorem moduleName_eq (f : Frame) : moduleName f =
    (extend (leadingStep f) 0 >>= fun points => do
      if points = 0 || (← peek).isIdentifier then dottedName f) := rfl

theorem leadingStep_none (hu : u.kind = .word) (count : Nat) :
    leadingStep f count (u :: us) = some (none, u :: us) := by
  have hmark (text : String) : u.isMark text = false := by
    rw [Token.isMark, hu]
    rfl
  simp only [leadingStep, run_bind, run_atMark, Option.bind_some, hmark, Bool.or_self,
    Bool.false_eq_true, if_false, run_pure]

theorem leadingStep_points {text : String} (htext : text = "." ∨ text = "...") {g : Gap} {s : Span}
    (hsees : f.Sees ts us) (count : Nat) :
    leadingStep f count ((mark text g).token s :: ts) = some (some (count + 1), us) := by
  have hmark :
      (((mark text g).token s).isMark "." || ((mark text g).token s).isMark "...") = true := by
    rcases htext with rfl | rfl <;> rfl
  simp only [leadingStep, run_bind, run_atMark, Option.bind_some, hmark, if_true, run_discard,
    hsees.shift, run_pure]

/-- Points are counted mark by mark. -/
theorem extend_leading (hsees : f.Sees (u :: us) (u :: us)) (hu : u.kind = .word) (n : Nat)
    (g : Gap) : g.Flat → ∀ (s : Span) (count : Nat),
      f.Sees (lay s (points n g) ++ u :: us) (lay s (points n g) ++ u :: us) ∧
      ∃ more, (n = 0 → more = 0) ∧ (n ≠ 0 → more ≠ 0) ∧
        extend (leadingStep f) count (lay s (points n g) ++ u :: us) =
          some (count + more, u :: us) := by
  induction n, g using points.induct with
  | case1 n g ih =>
    intro hg s count
    obtain ⟨hseen, more, -, -, hmore⟩ :=
      ih Gap.flat_empty (s.after (mark "..." g).chars) (count + 1)
    rw [points, lay, List.cons_append]
    refine ⟨sees_mark hg, more + 1, fun h => absurd h (Nat.succ_ne_zero _),
      fun _ => Nat.succ_ne_zero more, ?_⟩
    rw [← Nat.add_assoc, Nat.add_right_comm]
    exact extend_more (leadingStep_points (.inr rfl) hseen count) (Nat.lt_succ_self _) hmore
  | case2 n g hn ih =>
    intro hg s count
    obtain ⟨hseen, more, -, -, hmore⟩ := ih Gap.flat_empty (s.after (mark "." g).chars) (count + 1)
    rw [points]
    · rw [lay, List.cons_append]
      refine ⟨sees_mark hg, more + 1, fun h => absurd h (Nat.succ_ne_zero n),
        fun _ => Nat.succ_ne_zero more, ?_⟩
      rw [← Nat.add_assoc, Nat.add_right_comm]
      exact extend_more (leadingStep_points (.inl rfl) hseen count) (Nat.lt_succ_self _) hmore
    · exact hn
  | case3 g =>
    intro hg s count
    exact ⟨hsees, 0, fun _ => rfl, fun h => absurd rfl h, extend_done (leadingStep_none hu count)⟩

theorem starts_points {n : Nat} (hn : n ≠ 0) : StartsWith (fun t => t.kind = .mark) (points n) := by
  rcases n with _ | _ | _ | n
  · exact absurd rfl hn
  · exact ⟨_, _, _, fun g => rfl, rfl⟩
  · exact ⟨_, _, _, fun g => rfl, rfl⟩
  · exact ⟨_, _, _, fun g => rfl, rfl⟩

theorem StartsWith.append {test : Token → Bool} {p : Phrase} (h : StartsWith test p)
    (more : List Lexeme) :
    StartsWith test fun g => p g ++ more := by
  obtain ⟨kind, text, rest, hfirst, htest⟩ := h
  refine ⟨kind, text, rest ++ more, fun g => ?_, htest⟩
  simp only [hfirst, List.cons_append]

/-- Whether a token can start the name of a module that imports names of the language. -/
def startsModule (t : Token) : Bool :=
  !t.isWord "__future__" && !(t.kind = .lineEnd)

theorem starts_module {text : String} (h : IsModule text)
    (hfuture : (text.toList.splitOn '.').head? ≠ some "__future__".toList) :
    StartsWith startsModule (module text) := by
  have hmark (t : Token) (ht : decide (t.kind = .mark) = true) : startsModule t = true := by
    rw [startsModule, Token.isWord, of_decide_eq_true ht]
    rfl
  rcases module_cases h with ⟨n, hn, hmodule⟩ | ⟨hdotted, hmodule⟩ | ⟨n, name, hn, hdotted, hmodule⟩
  · rw [hmodule]
    exact (starts_points hn).imp hmark
  · obtain ⟨name, rest, hparts⟩ := exists_parts text.toList
    rw [hmodule, dotted_eq hparts]
    refine ⟨.word, String.ofList name, _, fun g => rfl, ?_⟩
    have hne : (String.ofList name == "__future__") = false := by
      refine beq_eq_false_iff_ne.mpr fun heq => hfuture ?_
      rw [hparts, ← heq, String.toList_ofList]
      rfl
    simp only [startsModule, Token.bare, Token.isWord, hne, Bool.and_false, reduceCtorEq,
      decide_false, Bool.not_false, Bool.and_self]
  · rw [hmodule]
    exact ((starts_points hn).append _).imp hmark

theorem written_module (text : String) : written (module text) = text := by
  rw [← String.toList_inj, toList_written, spell_module]

/-- The first token of a name. -/
theorem exists_dotted {text : List Char} (h : IsDotted text) (s : Span) (g : Gap)
    (ts : List Token) :
    ∃ t more, lay s (dotted text g) ++ ts = t :: more ∧ t.isIdentifier = true ∧ t.gap = g ∧
      t.kind = .word := by
  obtain ⟨name, rest, hparts⟩ := exists_parts text
  have hreserved : isReserved (String.ofList name) = false := by
    rw [IsDotted, hparts] at h
    exact (h name List.mem_cons_self).2
  rw [dotted_eq hparts]
  refine ⟨(word (String.ofList name) g).token s, _, rfl, ?_, rfl, rfl⟩
  simp only [word, token, Token.isIdentifier, hreserved, decide_true, Bool.not_false, Bool.and_self]

/-- The module that names are imported from, in front of the word `import`. -/
theorem moduleName_phrase {text : String} (h : IsModule text) (hsees : f.Sees (u :: us) (u :: us))
    (hu : u.isWord "import" = true) (s : Span) {g : Gap} (hg : g.Flat) :
    moduleName f (lay s (module text g) ++ u :: us) = some ((), u :: us) := by
  have hkind := (Token.isWord_bare hu).1
  have hidentifier : u.isIdentifier = false := by
    rw [Token.isIdentifier, hkind, (Token.isWord_bare hu).2]
    decide
  have hpoint : u.isMark "." = false := by
    rw [Token.isMark, hkind]
    rfl
  rcases module_cases h with ⟨n, hn, hmodule⟩ | ⟨hdotted, hmodule⟩ | ⟨n, name, hn, hdotted, hmodule⟩
  · obtain ⟨-, more, -, hmore, hextend⟩ := extend_leading hsees hkind n g hg s 0
    rw [Nat.zero_add] at hextend
    simp only [hmodule, moduleName_eq, run_bind, hextend, Option.bind_some, run_peek, hmore hn,
      hidentifier, decide_false, Bool.or_self, Bool.false_eq_true, if_false, run_pure]
  · rw [hmodule]
    obtain ⟨t, more, heq, hname, -, hword⟩ := exists_dotted hdotted s g (u :: us)
    have hparse := dottedName_phrase hsees hpoint hdotted s g
    rw [heq] at hparse ⊢
    simp only [moduleName_eq, run_bind, extend_done (leadingStep_none hword 0), Option.bind_some,
      run_peek, decide_true, Bool.true_or, if_true, hparse]
  · simp only [hmodule, lay_append, List.append_assoc]
    generalize s.after (spell (points n g)) = s₁
    obtain ⟨t, more, heq, hname, hgap, hword⟩ := exists_dotted hdotted s₁ {} (u :: us)
    have hparse := dottedName_phrase hsees hpoint hdotted s₁ {}
    rw [heq] at hparse ⊢
    have hflat : f.Sees (t :: more) (t :: more) := by
      refine .flat (hgap ▸ Gap.flat_empty) ?_
      rw [hword]
      decide
    obtain ⟨-, count, -, -, hextend⟩ := extend_leading hflat hword n g hg s 0
    simp only [moduleName_eq, run_bind, hextend, Option.bind_some, run_peek, hname, Bool.or_true,
      if_true, hparse]

end Names

/-! ## Lines -/

theorem denotes_importStmt (span place : Span) (source : Option String) (name : ImportedName)
    (names : List ImportedName) : DenotesStmt (.importStmt place source name names)
      (.mk span (.importStmt source (name :: names))) := by
  refine ⟨_, rfl, ?_⟩
  rw [Tree.alike_mk]
  simp only [Node.agree, beq_self_eq_true, Bool.and_self]

section Lines

variable (span : Span) {names : List ImportedName}

/-- Imported names that are not all names of a module. -/
theorem isDotted_imported (h : ∀ name ∈ names, IsImported name) (hstar : ⟨"*", none⟩ ∉ names) :
    ∀ name ∈ names, IsDotted name.name.toList ∧
      ∀ asName ∈ name.asName, isReserved asName = false := by
  intro name hname
  rcases h name hname with rfl | ⟨hdotted, hasName⟩
  · exact absurd hname hstar
  · exact ⟨hdotted, fun asName hmem => (hasName asName hmem).2⟩

theorem readsLine_import (hne : names ≠ []) (h : ∀ name ∈ names, IsImported name)
    (hstar : ⟨"*", none⟩ ∉ names) :
    ReadsLine (fun g => word "import" g :: row (names.map imported) .blank)
      (.mk span (.importStmt none names)) := by
  obtain ⟨first, names, rfl⟩ := List.exists_cons_of_ne_nil hne
  intro n margin suite s g ts v hn hbreaks harrow
  rw [lay, List.cons_append]
  obtain ⟨t, more, heq, hname, hgap, hparse⟩ := importedNames_row (f := .statement margin)
    (isDotted_imported h hstar) (.ended rfl hbreaks) rfl (s.after (word "import" g).chars) .blank
  rw [heq]
  exact ⟨_, denotes_importStmt span _ none first names, statementLine_simple
    (compound?_keyword rfl (show "import" ∈ simpleWords by decide))
    (simple_import rfl (sees_identifier hname (hgap ▸ Gap.flat_blank) more) hparse)⟩

/-- All names of a module, or some of them by name. -/
theorem readsLine_from {source : String} (hne : names ≠ []) (h : ∀ name ∈ names, IsImported name)
    (hstar : ⟨"*", none⟩ ∈ names → names = [⟨"*", none⟩]) (hmodule : IsModule source)
    (hfuture : (source.toList.splitOn '.').head? ≠ some "__future__".toList) :
    ReadsLine (fun g => word "from" g :: module source .blank ++
      word "import" .blank :: row (names.map imported) .blank)
      (.mk span (.importStmt (some source) names)) := by
  intro n margin suite s g ts v hn hbreaks harrow
  simp only [lay_append, lay, List.append_assoc, List.cons_append]
  generalize s.after (word "from" g).chars = s₁
  generalize s₁.after (spell (module source .blank)) = s₂
  generalize s₂.after (word "import" .blank).chars = s₃
  -- The first token of the module, from which on its source text is taken.
  obtain ⟨kind, text, more, hfirst, htest⟩ := starts_module hmodule hfuture
  simp only [startsModule, Bool.and_eq_true, Bool.not_eq_true', decide_eq_false_iff_not] at htest
  have hmoves : Moves (module source) := ⟨kind, text, more, hfirst, rfl⟩
  have hparse (rest : List Token) : (Frame.statement margin).middle.Sees
        (lay s₁ (module source .blank) ++ (word "import" .blank).token s₂ :: rest)
        (lay s₁ (module source .blank) ++ (word "import" .blank).token s₂ :: rest) ∧
      covered (moduleName (Frame.statement margin).middle)
        (lay s₁ (module source .blank) ++ (word "import" .blank).token s₂ :: rest) =
        some (((), source), (word "import" .blank).token s₂ :: rest) := by
    have himport : (Frame.statement margin).middle.Sees ((word "import" .blank).token s₂ :: rest)
        ((word "import" .blank).token s₂ :: rest) := sees_word Gap.flat_blank
    have hcovered := covered_phrase hmoves
      (moduleName_phrase hmodule himport rfl s₁ Gap.flat_blank) himport
    rw [written_module] at hcovered
    refine ⟨?_, hcovered⟩
    rw [hfirst]
    exact .flat Gap.flat_blank htest.2
  have hend : (Frame.statement margin).Sees (v :: ts) (v.lineEnd :: v :: ts) := .ended rfl hbreaks
  have hkeyword : ((word "from" g).token s).text ∈ simpleWords :=
    show "from" ∈ simpleWords by decide
  by_cases hmem : ⟨"*", none⟩ ∈ names
  · obtain rfl := hstar hmem
    obtain ⟨hsees, hcovered⟩ := hparse ((mark "*" .blank).token s₃ :: v :: ts)
    rw [hfirst] at hsees hcovered
    have hrow : lay s₃ (row ([⟨"*", none⟩].map imported) .blank) ++ v :: ts =
        (mark "*" .blank).token s₃ :: v :: ts := rfl
    rw [hrow, hfirst]
    exact ⟨_, denotes_importStmt span _ (some source) ⟨"*", none⟩ [],
      statementLine_simple (compound?_keyword rfl hkeyword)
        (simple_from_star rfl hsees htest.1 hcovered rfl (sees_mark Gap.flat_blank) rfl hend)⟩
  · obtain ⟨first, names, rfl⟩ := List.exists_cons_of_ne_nil hne
    obtain ⟨t, more, heq, hname, hgap, hnames⟩ := importedNames_row (f := .statement margin)
      (isDotted_imported h hmem) hend rfl s₃ .blank
    obtain ⟨hsees, hcovered⟩ := hparse (t :: more)
    have hmark (text : String) : t.isMark text = false := by
      rw [Token.isMark, (isIdentifier_word hname).1]
      rfl
    rw [hfirst] at hsees hcovered
    rw [heq, hfirst]
    exact ⟨_, denotes_importStmt span _ (some source) first names,
      statementLine_simple (compound?_keyword rfl hkeyword)
        (simple_from_names rfl hsees htest.1 hcovered rfl
          (sees_identifier hname (hgap ▸ Gap.flat_blank) more) (hmark "*") (hmark "(") hnames)⟩

end Lines

end Rendition.Python
