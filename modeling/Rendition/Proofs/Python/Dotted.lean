import Rendition.Proofs.Python.Level

/-!
# Names with points in them

Modules, imported names and aliases are texts of the source in a tree. A text that is made up of
names and points is spelled by the phrase for it, and the lexer finds the lexemes of the phrase.
Points in a row are the one case in which a lexeme depends on more than the next character: two
points are two lexemes, but three are one.

## Theorems

* `whole_dotted`, `whole_module`, `whole_imported`: The lexer finds the lexemes.
* `spell_dotted`, `spell_module`, `written_imported`: The phrases spell the texts.
-/

namespace Rendition.Python

open Source Source.Lexeme Text

theorem intercalate_cons {α : Type} (x : α) (as : List α) (rest : List (List α)) :
    [x].intercalate (as :: rest) = as ++ rest.flatMap fun bs => x :: bs := by
  induction rest generalizing as with
  | nil => rw [List.intercalate_singleton, List.flatMap_nil, List.append_nil]
  | cons bs rest ih =>
    rw [List.intercalate_cons_cons, ih, List.flatMap_cons, List.append_assoc,
      List.singleton_append, List.cons_append]

/-! ## Names -/

/-- The parts of a name are the lexemes between its points. -/
theorem dotted_eq {text name : List Char} {rest : List (List Char)}
    (h : text.splitOn '.' = name :: rest) : dotted text = fun g =>
      word (String.ofList name) g ::
        rest.flatMap fun part => [mark "." {}, word (String.ofList part) {}] := by
  funext g
  simp only [dotted, h, List.map_cons, List.flatMap_map]

theorem exists_parts (text : List Char) : ∃ name rest, text.splitOn '.' = name :: rest :=
  List.exists_cons_of_ne_nil (List.splitOn_ne_nil '.' text)

theorem spell_dotted (text : List Char) : spell (dotted text {}) = text := by
  obtain ⟨name, rest, h⟩ := exists_parts text
  have hrest : spell (rest.flatMap fun part => [mark "." {}, word (String.ofList part) {}]) =
      rest.flatMap fun part => '.' :: part := by
    rw [spell, List.flatMap_assoc, List.flatMap_def, List.flatMap_def]
    refine congrArg List.flatten (List.map_congr_left fun part _ => ?_)
    simp only [List.flatMap_cons, List.flatMap_nil, chars_mark, chars_word, String.toList_ofList,
      List.append_nil]
    rfl
  have hjoin : List.intercalate ['.'] (text.splitOn '.') = text := List.intercalate_splitOn '.'
  conv => rhs; rw [← hjoin, h, intercalate_cons]
  rw [dotted_eq h, spell_cons, chars_word, String.toList_ofList, hrest]

theorem spelled_dotted {text : List Char} (h : IsDotted text) : Spelled ends (dotted text) := by
  obtain ⟨name, rest, hparts⟩ := exists_parts text
  rw [IsDotted, hparts] at h
  have hname := (h name List.mem_cons_self).1
  have hrest : ∀ part ∈ rest, IsName (String.ofList part) :=
    fun part hpart => (h part (List.mem_cons_of_mem name hpart)).1
  rw [dotted_eq hparts]
  refine ⟨fun g => spell_cons_gap .., fun g hg c hc => ?_⟩
  have htail : Fits (rest.flatMap fun part => [mark "." {}, word (String.ofList part) {}]) c ∧
      ∃ d, Heads (rest.flatMap fun part => [mark "." {}, word (String.ofList part) {}]) c d ∧
        ends d = true := by
    clear h hparts
    induction rest with
    | nil => exact ⟨fits_nil c, c, ⟨[], rfl⟩, hc⟩
    | cons part rest ih =>
      obtain ⟨hfits, d, hhead, hd⟩ := ih fun q hq => hrest q (List.mem_cons_of_mem part hq)
      obtain ⟨hfits', hhead'⟩ := fits_point (hrest part List.mem_cons_self) hfits hhead hd
      exact ⟨hfits', '.', hhead', by decide⟩
  obtain ⟨hfits, d, hhead, hd⟩ := htail
  exact fits_cons (leads_word hg.plain hname hd) hhead hfits

theorem level_dotted {text : List Char} (h : IsDotted text) : Level (dotted text) := by
  obtain ⟨name, rest, hparts⟩ := exists_parts text
  rw [IsDotted, hparts] at h
  rw [dotted_eq hparts]
  intro g hg
  refine inline_cons.mpr ⟨inline_word hg (unbroken_name (h name List.mem_cons_self).1),
    inline_flatMap fun part hpart => ?_⟩
  exact inline_cons.mpr ⟨by decide, inline_cons.mpr ⟨inline_word unbroken_empty
    (unbroken_name (h part (List.mem_cons_of_mem name hpart)).1), inline_nil⟩⟩

theorem head_dotted {text : List Char} (h : IsDotted text) (c : Char) :
    ∃ d, Heads (dotted text {}) c d ∧ startsName d = true := by
  obtain ⟨name, rest, hparts⟩ := exists_parts text
  rw [IsDotted, hparts] at h
  obtain ⟨d, ds, hname, hd, -⟩ := (h name List.mem_cons_self).1
  rw [dotted_eq hparts]
  exact ⟨d, ⟨_, by rw [spell_cons, chars_word, hname]; rfl⟩, hd⟩

theorem isDotted_ne_nil {text : List Char} (h : IsDotted text) : text ≠ [] := by
  rintro rfl
  obtain ⟨d, ds, htext, -⟩ := (h [] (by decide)).1
  cases htext

theorem whole_dotted {text : List Char} (h : IsDotted text) : Whole ends (dotted text) :=
  ⟨spelled_dotted h, level_dotted h, by rw [spell_dotted]; exact isDotted_ne_nil h⟩

/-! ## Points -/

theorem spell_points (n : Nat) : spell (points n {}) = List.replicate n '.' := by
  induction n using Nat.strongRecOn with
  | ind n ih =>
    rcases n with _ | _ | _ | n
    · rfl
    · rfl
    · rfl
    · rw [points, spell_cons, ih n (by omega)]
      rfl

theorem spell_points_gap {n : Nat} (hn : n ≠ 0) (g : Gap) :
    spell (points n g) = g.text ++ spell (points n {}) := by
  rcases n with _ | _ | _ | n
  · exact absurd rfl hn
  · exact spell_cons_gap ..
  · exact spell_cons_gap ..
  · exact spell_cons_gap ..

theorem level_points {n : Nat} : Level (points n) := by
  intro g hg
  induction n, g using points.induct with
  | case1 g n ih => exact inline_cons.mpr ⟨inline_mark hg (by decide), ih unbroken_empty⟩
  | case2 g n hn ih =>
    rw [points]
    · exact inline_cons.mpr ⟨inline_mark hg (by decide), ih unbroken_empty⟩
    · exact hn
  | case3 g => exact inline_nil

/-- Three points are one mark, whatever follows. -/
theorem leads_points {g : Gap} (hg : g.Plain) (c : Char) (rest : List Char) :
    (mark "..." g).Leads (c :: rest) := by
  have hshort : ∀ m ∈ marks, m.toList.length ≤ 3 := by decide
  refine leads_mark hg (by decide) ⟨fun m hm => Bool.eq_false_iff.mpr fun hprefix => ?_,
    fun h => absurd h (by decide)⟩ rest
  have hlength := (List.isPrefixOf_iff_prefix.mp hprefix).length_le
  have hlong : ("...".toList ++ [c]).length = 4 := by rw [List.length_append]; rfl
  rw [hlong] at hlength
  exact absurd (Nat.le_trans hlength (hshort m hm)) (by decide)

/-- Two points are two marks if no third one follows. -/
theorem leads_twoPoints {g : Gap} (hg : g.Plain) {c : Char} (hc : c ≠ '.') (rest : List Char) :
    (mark "." g).Leads ('.' :: c :: rest) := by
  have hmarks : ∀ m ∈ marks, m.toList = ['.', '.', '.'] ∨ m.toList = ['.'] ∨
      m.toList.head?.any (· != '.') = true := by decide
  have hprefix : ∀ m ∈ marks,
      m.toList.isPrefixOf ('.' :: '.' :: c :: rest) = m.toList.isPrefixOf ['.'] := by
    intro m hm
    rcases hmarks m hm with h | h | h
    · simp only [h, List.isPrefixOf, beq_self_eq_true, Bool.and_false,
        beq_eq_false_iff_ne.mpr hc.symm, Bool.false_and]
    · simp only [h, List.isPrefixOf, beq_self_eq_true, Bool.true_and]
    · rcases hlist : m.toList with _ | ⟨d, ds⟩
      · rw [hlist] at h
        cases h
      · rw [hlist] at h
        have hd : (d == '.') = false := by
          rw [beq_eq_false_iff_ne]
          exact bne_iff_ne.mp h
        simp only [List.isPrefixOf, hd, Bool.false_and]
  have hlongest : longestMark? ('.' :: '.' :: c :: rest) = some "." := by
    have hself : marks.find? (fun m => m.toList.isPrefixOf ['.']) = some "." := by decide
    rw [longestMark?, ← hself]
    exact find?_congr hprefix
  have hrun := decimalRun_eq_nil (c := '.') (by decide) ('.' :: c :: rest)
  have hrun' := decimalRun_eq_nil (c := '.') (by decide) (c :: rest)
  have hname : Text.startsName '.' = false := by decide
  have hfloat : Number.float? ('.' :: '.' :: c :: rest) = none := by
    simp only [Number.float?, hrun, hrun', List.length_nil, List.drop_zero, and_self, if_true,
      ne_eq, not_true, if_false]
  have hinteger : Number.integer? ('.' :: '.' :: c :: rest) = none := by
    simp only [Number.integer?, hrun, if_true]
    rfl
  have htext : (mark "." g).text.toList = ['.'] := by
    change ".".toList = ['.']
    decide
  refine leads_code hg ?_ ?_ (open?_eq_none ?_) ?_ ⟨TokenKind.noConfusion,
    TokenKind.noConfusion⟩
  · intro d hd
    rw [htext] at hd
    cases hd
    decide
  · rw [htext]
    decide
  · intro d hd
    rw [htext, List.singleton_append, List.dropWhile_cons_of_neg (by decide)] at hd
    cases hd
    decide
  · rw [htext, List.singleton_append]
    simp only [codeToken, hname, Bool.false_eq_true, if_false, hfloat, hinteger, hlongest]
    rfl

/-- The lexer finds points in front of everything that can follow them. -/
theorem fits_points {c : Char} (hpoint : c ≠ '.') (hmark : continuesMark c = false)
    (hdigit : c.isDigit = false) : ∀ (n : Nat) {g : Gap}, g.Simple → Fits (points n g) c := by
  have hlast {g : Gap} (hg : g.Simple) : Fits [mark "." g] c :=
    fits_singleton (leads_mark hg.plain (by decide)
      (stands_of_continuesMark (by decide) hmark fun _ => hdigit))
  intro n
  induction n using Nat.strongRecOn with
  | ind n ih =>
    intro g hg
    rcases n with _ | _ | _ | n
    · exact fits_nil c
    · exact hlast hg
    · exact fun rest => ⟨leads_twoPoints hg.plain hpoint rest, hlast Gap.simple_empty rest⟩
    · obtain ⟨d, hd⟩ := exists_heads (points n {}) c
      exact fits_cons (leads_points hg.plain d) hd
        (ih n (by omega) Gap.simple_empty)

/-! ## Modules -/

theorem takeWhile_points (text : List Char) : text.takeWhile (· = '.') =
    List.replicate (text.takeWhile (· = '.')).length '.' :=
  List.eq_replicate_iff.mpr
    ⟨rfl, fun c hc => of_decide_eq_true (List.all_eq_true.mp List.all_takeWhile c hc)⟩

theorem spell_module (text : String) : spell (module text {}) = text.toList := by
  have hsplit := List.takeWhile_append_dropWhile (p := fun c => decide (c = '.')) (l := text.toList)
  simp only [module]
  split
  · rename_i habsolute
    rw [List.isEmpty_iff] at habsolute
    rw [spell_points, ← takeWhile_points, ← List.append_nil (List.takeWhile _ _), ← habsolute,
      hsplit]
  · split
    · rename_i hrelative
      rw [List.isEmpty_iff] at hrelative
      rw [spell_dotted, ← List.nil_append (List.dropWhile _ _), ← hrelative, hsplit]
    · rw [spell_append, spell_points, spell_dotted, ← takeWhile_points, hsplit]

/-- What ends the text of a module. -/
def endsModule (c : Char) : Bool :=
  c = ' '

/-- The phrase of a module: points, a name, or both. -/
theorem module_cases {text : String} (h : IsModule text) :
    (∃ n, n ≠ 0 ∧ module text = points n) ∨
      (IsDotted text.toList ∧ module text = dotted text.toList) ∨
      ∃ n name, n ≠ 0 ∧ IsDotted name ∧ module text = fun g => points n g ++ dotted name {} := by
  obtain ⟨hne, habsolute⟩ := h
  have hsplit := List.takeWhile_append_dropWhile (p := fun c => decide (c = '.')) (l := text.toList)
  have hcount (hrelative : text.toList.takeWhile (· = '.') ≠ []) :
      (text.toList.takeWhile (· = '.')).length ≠ 0 := by
    rw [ne_eq, List.length_eq_zero_iff]
    exact hrelative
  by_cases hrelative : text.toList.takeWhile (· = '.') = []
  · -- Without points the name is the whole text, which is not empty.
    rw [hrelative, List.nil_append] at hsplit
    rw [hsplit] at habsolute
    have hne' : text.toList ≠ [] := fun h => hne (String.toList_eq_nil_iff.mp h)
    refine .inr (.inl ⟨habsolute.resolve_left hne', ?_⟩)
    funext g
    simp only [module, hsplit, hrelative, List.isEmpty_nil, if_true,
      List.isEmpty_eq_false_iff.mpr hne', Bool.false_eq_true, if_false]
  · rcases habsolute with hempty | hname
    · refine .inl ⟨_, hcount hrelative, ?_⟩
      funext g
      simp only [module, hempty, List.isEmpty_nil, if_true]
    · have hne' := isDotted_ne_nil hname
      refine .inr (.inr ⟨_, _, hcount hrelative, hname, ?_⟩)
      funext g
      simp only [module, List.isEmpty_eq_false_iff.mpr hne', List.isEmpty_eq_false_iff.mpr hrelative,
        Bool.false_eq_true, if_false]

theorem spelled_module {text : String} (h : IsModule text) :
    Spelled endsModule (module text) := by
  have hpoints {n : Nat} (hn : n ≠ 0) : Spelled endsModule (points n) := by
    refine ⟨spell_points_gap hn, fun g hg c hc => ?_⟩
    obtain rfl : c = ' ' := of_decide_eq_true hc
    exact fits_points (by decide) (by decide) (by decide) n hg
  have hname {name : List Char} (hname : IsDotted name) : Spelled endsModule (dotted name) := by
    refine (spelled_dotted hname).weaken fun c hc => ?_
    obtain rfl : c = ' ' := of_decide_eq_true hc
    decide
  rcases module_cases h with ⟨n, hn, hmodule⟩ | ⟨hdotted, hmodule⟩ | ⟨n, name, hn, hdotted, hmodule⟩
  · rw [hmodule]
    exact hpoints hn
  · rw [hmodule]
    exact hname hdotted
  · rw [hmodule]
    refine ⟨fun g => ?_, fun g hg c hc => ?_⟩
    · rw [spell_append, spell_append, spell_points_gap hn, List.append_assoc]
    · obtain ⟨d, hhead, hd⟩ := head_dotted hdotted c
      have hopens : opens d = true := by simp [opens, hd]
      have hdigit : d.isDigit = false := Bool.eq_false_iff.mpr fun hdigit => by
        rw [startsName_of_isDigit hdigit] at hd
        cases hd
      have hpoint : d ≠ '.' := by
        rintro rfl
        exact absurd hd (by decide)
      exact fits_append (fits_points hpoint (continuesMark_opens hopens) hdigit n hg) hhead
        ((hname hdotted).fits {} Gap.simple_empty c hc)

theorem level_module {text : String} (h : IsModule text) : Level (module text) := by
  rcases module_cases h with ⟨n, hn, hmodule⟩ | ⟨hdotted, hmodule⟩ | ⟨n, name, hn, hdotted, hmodule⟩
  · rw [hmodule]
    exact level_points
  · rw [hmodule]
    exact level_dotted hdotted
  · rw [hmodule]
    exact fun g hg => inline_append.mpr ⟨level_points g hg, level_dotted hdotted {} unbroken_empty⟩

theorem whole_module {text : String} (h : IsModule text) : Whole endsModule (module text) := by
  refine ⟨spelled_module h, level_module h, ?_⟩
  rw [spell_module]
  exact fun hempty => h.1 (String.toList_eq_nil_iff.mp hempty)

/-! ## Aliases -/

theorem spelled_aliased {p : Phrase} {asName : Option Phrase} (hp : Spelled closes p)
    (hname : ∀ q ∈ asName, Spelled ends q) : Spelled closes (aliased p asName) := by
  have has : IsName "as" := isName_reserved (by decide)
  rcases asName with _ | q
  · refine ⟨fun g => ?_, fun g hg c hc => ?_⟩
    · simp only [aliased, List.append_nil, hp.moves g]
    · simp only [aliased, List.append_nil]
      exact hp.fits g hg c hc
  · have hq := hname q rfl
    refine ⟨fun g => ?_, fun g hg c hc => ?_⟩
    · simp only [aliased, spell_append, hp.moves g, List.append_assoc]
    · refine fits_append (hp.fits g hg ' ' (by decide)) ⟨_, rfl⟩ ?_
      exact fits_cons (leads_word Gap.plain_blank has (by decide)) (hq.heads_blank c)
        (hq.fits .blank Gap.simple_blank c (closes_ends hc))

theorem level_aliased {p : Phrase} {asName : Option Phrase} (hp : Level p)
    (hname : ∀ q ∈ asName, Level q) : Level (aliased p asName) := by
  intro g hg
  rcases asName with _ | q
  · exact inline_append.mpr ⟨hp g hg, inline_nil⟩
  · exact inline_append.mpr ⟨hp g hg, inline_cons.mpr ⟨by decide,
      hname q rfl .blank unbroken_blank⟩⟩

theorem whole_aliased {p : Phrase} {asName : Option Phrase} (hp : Whole closes p)
    (hname : ∀ q ∈ asName, Whole ends q) : Whole closes (aliased p asName) := by
  refine ⟨spelled_aliased hp.toSpelled fun q hq => (hname q hq).toSpelled,
    level_aliased hp.level fun q hq => (hname q hq).level, ?_⟩
  simp only [aliased, spell_append]
  exact List.append_ne_nil_of_left_ne_nil hp.ne _

theorem written_aliased {p : Phrase} {asName : Option String} {bind : String → Phrase}
    (hblank : ∀ name ∈ asName, spell (bind name .blank) = ' ' :: name.toList) :
    written (aliased p (asName.map bind)) = withAlias (written p) asName := by
  rw [← String.toList_inj, toList_written]
  rcases asName with _ | name
  · simp only [aliased, Option.map_none, withAlias, List.append_nil, toList_written]
  · simp only [aliased, Option.map_some, withAlias, String.toList_append, toList_written,
      spell_append, spell_cons, chars_word_blank, hblank name rfl, List.append_assoc]
    rfl

/-- A star is no name. -/
theorem imported_eq {name : ImportedName} (h : IsDotted name.name.toList) : imported name =
    aliased (dotted name.name.toList) (name.asName.map fun asName g => [word asName g]) := by
  have hne : name.name ≠ "*" := by
    intro hstar
    rw [hstar] at h
    obtain ⟨d, ds, htext, hd, -⟩ := (h ['*'] (by decide)).1
    cases htext
    exact absurd hd (by decide)
  rw [imported, if_neg hne]

theorem whole_imported {name : ImportedName} (h : IsImported name) :
    Whole closesSlice (imported name) := by
  rcases h with rfl | ⟨hname, hasName⟩
  · refine ⟨⟨fun g => spell_cons_gap .., fun g hg c hc => ?_⟩,
      fun g hg => inline_cons.mpr ⟨inline_mark hg (by decide), inline_nil⟩, List.cons_ne_nil _ _⟩
    rw [closesSlice, Bool.and_eq_true, Bool.not_eq_true'] at hc
    exact fits_singleton (leads_operator hg.plain (by decide) (by decide) hc.2)
  · rw [imported_eq hname]
    refine (whole_aliased ((whole_dotted hname).weaken fun _ => closes_ends) ?_).weaken
      fun c hc => (Bool.and_eq_true_iff.mp hc).1
    intro q hq
    obtain ⟨asName, hmem, rfl⟩ := Option.map_eq_some_iff.mp hq
    exact whole_single (hasName asName hmem).1

theorem written_imported {name : ImportedName} (h : IsImported name) :
    written (imported name) = withAlias name.name name.asName := by
  rcases h with rfl | ⟨hname, hasName⟩
  · rfl
  · have hblank : ∀ asName ∈ name.asName,
        spell [word asName Gap.blank] = ' ' :: asName.toList := by
      intro asName _
      rw [spell_cons, spell_nil, chars_word_blank, List.append_nil]
    rw [imported_eq hname, written_aliased hblank]
    congr 1
    rw [← String.toList_inj, toList_written, spell_dotted]

end Rendition.Python
