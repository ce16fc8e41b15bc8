import Rendition.Proofs.Physl.Congruence
import Rendition.Proofs.Physl.Lockstep
import Rendition.Proofs.Physl.Pieces

/-!
# Places are a decoration

A rendition for which places are asked for differs from the one without in its places only: it
succeeds and fails in the same cases, and taking the places away leaves the text of the other. They
are where they should be: a name that is applied carries one, and each is the place of a node.

The proof carries the pieces of the annotated text along. They are read off the text again whatever
follows, as long as it is no digit; and a text that is put together from others goes on with a
parenthesis, a comma or the end of a line.

## Main definitions

* `Physl.Tagged`: The pieces before a parenthesis end with a word and a place.
* `Physl.Reading`: Pieces that their text is read as.
* `Physl.Annotated`: A text with places and the same text without.
* `Physl.Decorated`: What the places are to a text.

## Theorems

* `Reading.apply`, `Reading.append`: How pieces are put together.
* `congruence_annotated`: Applications keep texts annotated.
* `render_annotated`: Renditions with and without places.
-/

namespace Rendition.Physl

/-- Pieces after which a word can begin: there are none, or the last is a delimiter. -/
def Settled (ps : List Piece) : Prop :=
  ∀ p ∈ ps.getLast?, ∃ c, p = .char c ∧ delimits c = true

/-- Pieces that end with a word and one place. -/
def Tagged (ps : List Piece) : Prop :=
  ∃ before word line column, ps = before ++ word.map Piece.char ++ [.place line column] ∧
    IsWord word ∧ Settled before

/-- Pieces of which those before every opening parenthesis end with a word and one place. -/
def Called (ps : List Piece) : Prop :=
  ∀ front rest, ps = front ++ .char '(' :: rest → Tagged front

/-- Pieces that their text is read as, with places among the given ones. -/
structure Reading (places : Span → Prop) (ps : List Piece) : Prop where
  reads : ∀ rest, (∀ c ∈ rest.head?, c.isDigit = false) →
    pieces (spell ps ++ rest) = ps ++ pieces rest
  called : Called ps
  places : ∀ line column, .place line column ∈ ps → ∃ span, places span ∧
    line = (toString span.line).toList ∧ column = (toString span.column).toList

/-- The pieces of a name with its place. -/
def named (word : List Char) (span : Span) : List Piece :=
  word.map Piece.char ++ [.place (toString span.line).toList (toString span.column).toList]

theorem tagged_named {word : List Char} (hword : IsWord word) (span : Span) :
    Tagged (named word span) :=
  ⟨[], word, (toString span.line).toList, (toString span.column).toList, rfl, hword,
    by simp [Settled]⟩

theorem Settled.append {ps qs : List Piece} (hp : Settled ps) (hq : Settled qs) :
    Settled (ps ++ qs) := by
  intro p h
  -- The last piece is the last of the second pieces, if there are any.
  rw [List.getLast?_append, Option.mem_def, Option.or_eq_some_iff] at h
  rcases h with h | ⟨-, h⟩
  · exact hq p h
  · exact hp p h

theorem Tagged.behind {ps qs : List Piece} (hp : Settled ps) (hq : Tagged qs) :
    Tagged (ps ++ qs) := by
  obtain ⟨before, word, line, column, rfl, hword, hbefore⟩ := hq
  refine ⟨ps ++ before, word, line, column, ?_, hword, hp.append hbefore⟩
  simp only [List.append_assoc]

theorem called_of_not_mem {ps : List Piece} (h : .char '(' ∉ ps) : Called ps := by
  rintro front rest rfl
  exact absurd (List.mem_append_right _ List.mem_cons_self) h

/-- A word can begin after delimiters. -/
theorem settled_chars {ps : List Piece} {text : List Char} (hne : text ≠ [])
    (h : ∀ c ∈ text, delimits c = true) : Settled (ps ++ text.map Piece.char) := by
  intro p hmem
  have hlast : (text.map Piece.char).getLast? ≠ none := by
    simpa only [ne_eq, List.getLast?_eq_none_iff, List.map_eq_nil_iff] using hne
  rw [List.getLast?_append_of_ne_nil _ (by simpa using hne), List.getLast?_map, Option.mem_def,
    Option.map_eq_some_iff] at hmem
  obtain ⟨c, hc, rfl⟩ := hmem
  exact ⟨c, rfl, h c (List.mem_of_getLast? hc)⟩

/-- A parenthesis stands in the first pieces or in those that follow. -/
theorem Called.append {ps qs : List Piece} (hp : Called ps)
    (hq : ∀ front rest, qs = front ++ .char '(' :: rest → Tagged (ps ++ front)) :
    Called (ps ++ qs) := by
  intro front rest h
  rcases List.append_eq_append_iff.mp h with ⟨middle, rfl, hrest⟩ | ⟨middle, rfl, hrest⟩
  · exact hq middle rest hrest
  -- Otherwise it stands in the first pieces, unless it is the very first of the others.
  · rcases middle with _ | ⟨p, middle⟩
    · have := hq [] rest hrest.symm
      simpa only [List.append_nil] using this
    · obtain ⟨rfl, -⟩ := List.cons.inj hrest
      exact hp front middle rfl

theorem Called.append_of_not_mem {ps qs : List Piece} (hp : Called ps) (h : .char '(' ∉ qs) :
    Called (ps ++ qs) :=
  hp.append fun front rest hq => absurd (by simp [hq]) h

namespace Reading

variable {places : Span → Prop} {ps qs : List Piece}

/-- Characters that begin neither literals nor places nor arguments. -/
theorem chars {text : List Char} (h : ∀ c ∈ text, c ≠ '$' ∧ c ≠ '"' ∧ c ≠ '(') :
    Reading places (text.map Piece.char) where
  reads rest _ := by
    rw [spell_chars, pieces_chars fun c hc => ⟨(h c hc).2.1, (h c hc).1⟩]
  called := by
    refine called_of_not_mem fun hmem => ?_
    obtain ⟨c, hc, hparen⟩ := List.mem_map.mp hmem
    exact (h c hc).2.2 (Piece.char.inj hparen)
  places line column hmem := by
    obtain ⟨c, -, hplace⟩ := List.mem_map.mp hmem
    cases hplace

/-- A word with a place behind it. -/
theorem tag {word : List Char} (hword : IsWord word) {span : Span} (hspan : places span) :
    Reading places (named word span) where
  reads rest hrest := by
    have hnumber (n : Nat) : (toString n).toList ≠ [] ∧
        ∀ d ∈ (toString n).toList, d.isDigit = true := by
      rw [Source.Lexeme.toList_toString_nat]
      exact ⟨Nat.toDigits_ne_nil, Source.Lexeme.digits_toDigits n⟩
    have hplace := pieces_place (hnumber span.line).1 (hnumber span.column).1
      (hnumber span.line).2 (hnumber span.column).2 hrest
    rw [named, spell_append, spell_chars, List.append_assoc, pieces_word hword, List.append_assoc]
    simpa only [spell_cons, spell_nil, Piece.spell, List.append_nil, List.cons_append,
      List.append_assoc, List.nil_append, List.append_cancel_left_eq] using hplace
  called := by
    refine called_of_not_mem fun hmem => ?_
    rcases List.mem_append.mp hmem with hmem | hmem
    · obtain ⟨c, hc, hparen⟩ := List.mem_map.mp hmem
      obtain rfl := Piece.char.inj hparen
      exact absurd (hword.2 _ hc).2.2 (by decide)
    · cases List.mem_singleton.mp hmem
  places line column hmem := by
    rcases List.mem_append.mp hmem with hmem | hmem
    · obtain ⟨c, -, hplace⟩ := List.mem_map.mp hmem
      cases hplace
    · obtain ⟨rfl, rfl⟩ := Piece.place.inj (List.mem_singleton.mp hmem)
      exact ⟨span, hspan, rfl, rfl⟩

/-- A literal, whatever it holds. -/
theorem quote (text : String) : ∃ inside, (Text.quote text).toList = '"' :: inside ∧
    Reading places [.literal inside] := by
  obtain ⟨inside, hquote, hpieces⟩ := pieces_quote text
  refine ⟨inside, hquote, ⟨fun rest _ => ?_, ?_, ?_⟩⟩
  · rw [hquote] at hpieces
    simpa only [spell_cons, spell_nil, Piece.spell, List.append_nil, List.singleton_append] using
      hpieces rest
  · exact called_of_not_mem (by simp)
  · intro line column hmem
    cases List.mem_singleton.mp hmem

/-- Pieces with delimiters between them. -/
theorem append {d : Char} {ds : List Char} (hdelimits : ∀ c ∈ d :: ds, delimits c = true ∧ c ≠ '(')
    (hp : Reading places ps) (hq : Reading places qs) :
    Reading places (ps ++ ((d :: ds).map Piece.char ++ qs)) where
  reads rest hrest := by
    -- The first delimiter ends a number at the end of the first pieces.
    have hd := (hdelimits d List.mem_cons_self).1
    have hhead : ∀ c ∈ (d :: (ds ++ (spell qs ++ rest))).head?, c.isDigit = false := by
      rintro c ⟨⟩
      exact (ne_of_delimits hd).2.2
    have hseparator := pieces_chars (fun c hc =>
      ⟨(ne_of_delimits (hdelimits c hc).1).1, (ne_of_delimits (hdelimits c hc).1).2.1⟩)
      (spell qs ++ rest)
    rw [List.cons_append] at hseparator
    rw [spell_append, spell_append, spell_chars, List.append_assoc, List.append_assoc,
      List.cons_append, hp.reads _ hhead, hseparator, hq.reads rest hrest, List.append_assoc,
      List.append_assoc]
  called := by
    have hnone : .char '(' ∉ (d :: ds).map Piece.char := by
      intro hmem
      obtain ⟨c, hc, hparen⟩ := List.mem_map.mp hmem
      exact (hdelimits c hc).2 (Piece.char.inj hparen)
    -- A word can begin after the delimiters, so what is tagged stays so behind them.
    have hsettled : Settled (ps ++ (d :: ds).map Piece.char) :=
      settled_chars (List.cons_ne_nil d ds) fun c hc => (hdelimits c hc).1
    rw [← List.append_assoc]
    exact (hp.called.append_of_not_mem hnone).append fun front rest h =>
      (hq.called front rest h).behind hsettled
  places line column hmem := by
    rcases List.mem_append.mp hmem with hmem | hmem
    · exact hp.places line column hmem
    rcases List.mem_append.mp hmem with hmem | hmem
    · obtain ⟨c, -, hplace⟩ := List.mem_map.mp hmem
      cases hplace
    · exact hq.places line column hmem

/-- A word with a place applied to what stands between the parentheses. -/
theorem apply {word : List Char} (hword : IsWord word) {span : Span} (hspan : places span)
    (hp : Reading places ps) :
    Reading places (named word span ++ .char '(' :: (ps ++ [.char ')'])) where
  reads rest hrest := by
    -- Both parentheses end a number in front of them.
    have hopen : ∀ c ∈ ('(' :: (spell ps ++ ')' :: rest)).head?, c.isDigit = false := by
      rintro c ⟨⟩
      rfl
    have hclose : ∀ c ∈ (')' :: rest).head?, c.isDigit = false := by
      rintro c ⟨⟩
      rfl
    have hinner : pieces ('(' :: (spell ps ++ ')' :: rest)) =
        .char '(' :: (ps ++ .char ')' :: pieces rest) := by
      rw [pieces_delimiter (by decide), hp.reads _ hclose, pieces_delimiter (by decide)]
    have houter := (tag hword hspan).reads _ hopen
    rw [hinner] at houter
    simpa only [spell_append, spell_cons, spell_nil, Piece.spell, List.append_nil, List.cons_append,
      List.nil_append, List.append_assoc] using houter
  called := by
    -- The parenthesis of the application is the one for which the word and the place are there;
    -- those of the arguments have theirs further on.
    have hhead : Called (named word span ++ [.char '(']) := by
      refine (tag hword hspan).called.append fun front rest h => ?_
      rcases front with _ | ⟨p, front⟩
      · rw [List.append_nil]
        exact tagged_named hword span
      · simp at h
    have hsettled : Settled (named word span ++ [.char '(']) :=
      settled_chars (List.cons_ne_nil '(' []) (by simp [delimits])
    have hclose : Piece.char '(' ∉ [Piece.char ')'] := by simp
    have hcalled := (hhead.append fun front rest h =>
      (hp.called front rest h).behind hsettled).append_of_not_mem hclose
    simpa only [List.append_assoc, List.cons_append, List.nil_append] using hcalled
  places line column hmem := by
    rcases List.mem_append.mp hmem with hmem | hmem
    · exact (tag hword hspan).places line column hmem
    · refine hp.places line column ?_
      simpa using hmem

end Reading

/-! ## Texts with and without places -/

/-- A text with places among the given ones, and the same text without. -/
def Annotated (places : Span → Prop) (text text' : String) : Prop :=
  ∃ ps, Reading places ps ∧ text.toList = spell ps ∧ text'.toList = bare ps

section

variable {places : Span → Prop}

theorem annotated_unadorned {text : String} (h : Unadorned text.toList) :
    Annotated places text text :=
  ⟨text.toList.map Piece.char, .chars fun c hc => ne_of_isPlain (h c hc), (spell_chars _).symm,
    (bare_chars _).symm⟩

theorem annotated_constantText (value : Literal) :
    Annotated places (constantText value) (constantText value) := by
  -- A text becomes a literal, in which nothing is read as a place. Other constants are plain.
  by_cases h : ∃ text, value = .str text
  · obtain ⟨text, rfl⟩ := h
    obtain ⟨inside, hquote, hreading⟩ := @Reading.quote places text
    refine ⟨[.literal inside], hreading, ?_, ?_⟩
    · simpa [constantText, Piece.spell] using hquote
    · simpa [constantText, Piece.bare, Piece.spell] using hquote
  · exact annotated_unadorned (unadorned_constantText fun text htext => h ⟨text, htext⟩)

theorem annotated_tag {name : String} {span : Span} (hname : IsWord name.toList)
    (hspan : places span) : Annotated places (tag true name span) (tag false name span) := by
  refine ⟨_, .tag hname hspan, ?_, ?_⟩
  · simp [tag, named, Piece.spell]
  · simp [tag, named, Piece.bare]

/-- Texts with delimiters between them. -/
theorem annotated_intercalate (separator : String) {d : Char} {ds : List Char}
    (hseparator : separator.toList = d :: ds)
    (hdelimits : ∀ c ∈ d :: ds, delimits c = true ∧ c ≠ '(') {texts texts' : List String}
    (h : List.Forall₂ (Annotated places) texts texts') :
    Annotated places (separator.intercalate texts) (separator.intercalate texts') := by
  induction h with
  | nil => exact annotated_unadorned (List.forall_mem_nil _)
  | cons hfirst hrest ih =>
    cases hrest with
    | nil => simpa only [String.intercalate_singleton] using hfirst
    | cons hsecond hrest =>
      -- The rest is joined already.
      obtain ⟨ps, hps, htext, htext'⟩ := hfirst
      obtain ⟨qs, hqs, hjoined, hjoined'⟩ := ih
      refine ⟨_, hps.append hdelimits hqs, ?_, ?_⟩
      · rw [String.intercalate_cons_cons, String.toList_append, String.toList_append, htext,
          hseparator, hjoined, spell_append, spell_append, spell_chars, List.append_assoc]
      · rw [String.intercalate_cons_cons, String.toList_append, String.toList_append, htext',
          hseparator, hjoined', bare_append, bare_append, bare_chars, List.append_assoc]

theorem annotated_apply {name : String} {span : Span} {texts texts' : List String}
    (hname : IsWord name.toList) (hspan : places span)
    (h : List.Forall₂ (Annotated places) texts texts') :
    Annotated places (apply true name span texts) (apply false name span texts') := by
  have hseparator : ", ".toList = ',' :: [' '] := by decide
  obtain ⟨ps, hps, htext, htext'⟩ := annotated_intercalate ", " hseparator (by simp [delimits]) h
  refine ⟨_, hps.apply hname hspan, ?_, ?_⟩
  · simp [apply, tag, named, htext, Piece.spell]
  · simp [apply, tag, named, htext', Piece.bare, Piece.spell]

theorem isWord_primitives : ∀ name ∈ primitives, IsWord name.toList := by
  decide

/-- Applications and lines keep texts annotated. -/
theorem congruence_annotated : Congruence true false (Annotated places)
    (fun name => IsWord name.toList) places where
  primitive := isWord_primitives
  constant := annotated_constantText
  tag := annotated_tag
  apply := annotated_apply
  lines h := by
    have hseparator : "\n".toList = '\n' :: [] := by decide
    exact annotated_intercalate "\n" hseparator (by simp [delimits]) h

end

/-! ## Renditions with and without places -/

/-- What the places in the rendition of a tree are. Without them it is the bare text, what is
    applied carries one, and each belongs to a node of the tree. -/
structure Decorated (tree : Tree) (text bare : String) : Prop where
  strip : Physl.strip text.toList = bare.toList
  applied : Called (pieces text.toList)
  places : ∀ line column, .place line column ∈ pieces text.toList → ∃ d ∈ tree.descendants,
    line = (toString d.span.line).toList ∧ column = (toString d.span.column).toList

theorem Annotated.decorated {tree : Tree} {text bare : String}
    (h : Annotated (fun span => ∃ d ∈ tree.descendants, d.span = span) text bare) :
    Decorated tree text bare := by
  obtain ⟨ps, hps, htext, hbare⟩ := h
  -- At the end of the text no digit follows.
  have hpieces : pieces text.toList = ps := by
    have hreads := hps.reads [] (by simp)
    rwa [List.append_nil, pieces_nil, List.append_nil, ← htext] at hreads
  refine ⟨?_, ?_, ?_⟩
  · rw [strip, hpieces, hbare]
  · rw [hpieces]
    exact hps.called
  · rw [hpieces]
    intro line column hmem
    obtain ⟨_, ⟨d, hd, rfl⟩, hline, hcolumn⟩ := hps.places line column hmem
    exact ⟨d, hd, hline, hcolumn⟩

/-- Renditions of a tree with and without places are put together alike. -/
theorem similar_annotated {tree : Tree}
    (h : ∀ d ∈ tree.descendants, ∀ name ∈ identifiers d.node, IsWord name.toList) :
    Similar true false Eq (Annotated fun span => ∃ d ∈ tree.descendants, d.span = span)
      fun same u v => same = true ∧ u = v ∧ ∀ d ∈ u.descendants, d ∈ tree.descendants where
  refuses := by
    rintro same u v ⟨-, rfl, -⟩
    rfl
  binding := by
    rintro same u v ⟨-, rfl, -⟩
    rfl
  name h _ := h.1
  parts := by
    rintro same ⟨span, node⟩ v ⟨rfl, rfl, hu⟩
    refine List.forall₂_same.mpr fun part hpart => ⟨Bool.true_or _, rfl, fun d hd => ?_⟩
    exact hu d (mem_descendants_parts hpart hd)
  failure := by
    rintro same u v ⟨-, rfl, -⟩
    rfl
  assemble := by
    rintro same u v fresh texts texts' ⟨-, rfl, hu⟩ htexts
    exact congruence_annotated.assemble (fun d hd => ⟨h d (hu d hd), d, hu d hd, rfl⟩) fresh htexts

/-- Places are a decoration: where every name is a word, the rendition with places fails as the one
    without does, or its text is the text of the other with places in it. -/
theorem render_annotated {tree : Tree}
    (h : ∀ d ∈ tree.descendants, ∀ name ∈ identifiers d.node, IsWord name.toList)
    (f : SourceFunction) (on off : Config) (hon : on.annotates = true)
    (hoff : off.annotates = false) :
    (∃ e, renderer.render ⟨f, tree⟩ on = .error e ∧ renderer.render ⟨f, tree⟩ off = .error e) ∨
    ∃ text bare, renderer.render ⟨f, tree⟩ on = .ok text ∧
      renderer.render ⟨f, tree⟩ off = .ok bare ∧ Decorated tree text bare := by
  have hrenders := fun E R Q => @paired_render E R Q ⟨f, tree⟩ ⟨f, tree⟩ on off
  simp only [hon, hoff] at hrenders
  have hpaired := hrenders _ _ _ (similar_annotated h) ⟨rfl, rfl, fun _ hd => hd⟩
  rcases paired_iff.mp hpaired with ⟨text, bare, htext, hbare, hannotated⟩ |
    ⟨e, _, herror, herror', rfl⟩
  · exact .inr ⟨text, bare, htext, hbare, hannotated.decorated⟩
  · exact .inl ⟨e, herror, herror'⟩

/-- A literal that looks like a place stays. -/
theorem render_annotated_call :
    renderer.render ⟨⟨"f", "", 1⟩, .mk ⟨1, 0⟩ (.call (.mk ⟨1, 0⟩ (.ident "f"))
        [.mk ⟨1, 2⟩ (.constant (.str "a$1$2"))] [])⟩ { annotatePositions := some true } =
      .ok "f$1$0(\"a$1$2\")" ∧
    renderer.render ⟨⟨"f", "", 1⟩, .mk ⟨1, 0⟩ (.call (.mk ⟨1, 0⟩ (.ident "f"))
        [.mk ⟨1, 2⟩ (.constant (.str "a$1$2"))] [])⟩ {} = .ok "f(\"a$1$2\")" ∧
    Decorated (.mk ⟨1, 0⟩ (.call (.mk ⟨1, 0⟩ (.ident "f"))
        [.mk ⟨1, 2⟩ (.constant (.str "a$1$2"))] []))
      "f$1$0(\"a$1$2\")" "f(\"a$1$2\")" := by
  have hwords : ∀ d ∈ (Tree.mk ⟨1, 0⟩ (.call (.mk ⟨1, 0⟩ (.ident "f"))
      [.mk ⟨1, 2⟩ (.constant (.str "a$1$2"))] [])).descendants,
      ∀ name ∈ identifiers d.node, IsWord name.toList := by
    simp only [Tree.descendants_mk, Node.toList, List.flatMap_cons, List.flatMap_nil, Tree.node_mk,
      List.forall_mem_cons, List.append_nil, identifiers, List.map_nil, List.not_mem_nil,
      IsEmpty.forall_iff, implies_true, true_and]
    decide
  rcases render_annotated hwords ⟨"f", "", 1⟩ { annotatePositions := some true } {} rfl rfl with
    ⟨e, herror, -⟩ | ⟨text, bare, htext, hbare, hdecorated⟩
  · cases herror
  · obtain rfl : "f$1$0(\"a$1$2\")" = text := Except.ok.inj htext
    obtain rfl : "f(\"a$1$2\")" = bare := Except.ok.inj hbare
    exact ⟨htext, hbare, hdecorated⟩

end Rendition.Physl
