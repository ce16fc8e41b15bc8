import Rendition.Proofs.Physl.Annotation
import Rendition.Proofs.Physl.Term

/-!
# The tokens of a PhySL text

A text is read as words, literals and the delimiters between them. A word goes on for as long as
there are characters that neither delimit nor begin a literal or a place, so the tokens of a text
that is put together from others are theirs, with the delimiters in between. This is how two
renditions are compared that differ in some of the words.

## Main definitions

* `Physl.Token`: A word, a literal, a place or a delimiter.
* `Physl.tokens`: The tokens of a text.
* `Physl.Lexed`: A text whose tokens are the given ones wherever it stands.
* `Physl.Renamed`: Two texts that agree in their tokens except that one name is another.

## Theorems

* `lexed_word`, `lexed_literal`: The tokens of what texts are made of.
* `Lexed.behind`: The tokens of a text and of one behind a delimiter.
* `Renamed.apply`: Applications keep texts renamed.
* `congruence_renamed`: So does every way of putting texts together.
-/

namespace Rendition.Physl

/-- A token of a text. -/
inductive Token where
  | word (text : List Char)
  | literal (inside : List Char)
  | place (line column : List Char)
  | delimiter (c : Char)
  deriving DecidableEq

/-- The tokens behind a character that belongs to a word: it belongs to the word that follows, if
    one does. -/
def Token.extend (c : Char) : List Token → List Token
  | .word text :: ts => .word (c :: text) :: ts
  | ts => .word [c] :: ts

/-- The tokens of a piece and of what follows it. -/
def Piece.glue : Piece → List Token → List Token
  | .char c, ts => if delimits c then .delimiter c :: ts else Token.extend c ts
  | .literal inside, ts => .literal inside :: ts
  | .place line column, ts => .place line column :: ts

/-- The tokens of a text. -/
def tokens (text : List Char) : List Token :=
  (pieces text).foldr Piece.glue []

theorem tokens_nil : tokens [] = [] := by
  rw [tokens, pieces_nil, List.foldr_nil]

theorem tokens_delimiter {c : Char} (h : delimits c = true) (rest : List Char) :
    tokens (c :: rest) = .delimiter c :: tokens rest := by
  rw [tokens, pieces_delimiter h, List.foldr_cons, Piece.glue, if_pos h, tokens]

/-! ## Texts in front of a delimiter -/

/-- A text that ends, or goes on with a delimiter. -/
def Delimited (rest : List Char) : Prop :=
  ∀ c ∈ rest.head?, delimits c = true

theorem delimited_nil : Delimited [] := fun c hc => by cases hc

theorem delimited_cons {c : Char} (h : delimits c = true) (rest : List Char) :
    Delimited (c :: rest) := by
  rintro _ ⟨⟩
  exact h

/-- A text whose tokens are the given ones in front of the end and of every delimiter. -/
def Lexed (text : List Char) (ts : List Token) : Prop :=
  ∀ rest, Delimited rest → tokens (text ++ rest) = ts ++ tokens rest

theorem Lexed.tokens_eq {text : List Char} {ts : List Token} (h : Lexed text ts) :
    tokens text = ts := by
  have := h [] delimited_nil
  rwa [List.append_nil, tokens_nil, List.append_nil] at this

theorem lexed_nil : Lexed [] [] :=
  fun _ _ => rfl

/-- A word is one token. -/
theorem lexed_word {word : List Char} (h : IsWord word) : Lexed word [.word word] := by
  intro rest hrest
  -- What follows does not begin with a word, so the last character begins one.
  have hlast : ∀ c, Token.extend c (tokens rest) = .word [c] :: tokens rest := by
    intro c
    rcases rest with _ | ⟨d, rest⟩
    · rw [tokens_nil]
      rfl
    · rw [tokens_delimiter (hrest d rfl)]
      rfl
  have hall : (word.map Piece.char).foldr Piece.glue (tokens rest) =
      word.foldr Token.extend (tokens rest) := by
    rw [List.foldr_map]
    refine List.foldr_ext _ _ _ fun c hc ts => ?_
    rw [Piece.glue, (h.2 c hc).2.2, if_neg Bool.false_ne_true]
  have hword : ∀ {word : List Char}, word ≠ [] →
      word.foldr Token.extend (tokens rest) = .word word :: tokens rest := by
    intro word hne
    induction word with
    | nil => exact absurd rfl hne
    | cons c word ih =>
      rw [List.foldr_cons]
      rcases word with _ | ⟨d, word⟩
      · exact hlast c
      · rw [ih (List.cons_ne_nil d word)]
        rfl
  rw [tokens, pieces_word h, List.foldr_append, ← tokens, hall, hword h.1]
  rfl

/-- A quoted text is one token. -/
theorem lexed_literal (text : String) :
    ∃ inside, Lexed (Text.quote text).toList [.literal inside] := by
  obtain ⟨inside, -, hpieces⟩ := pieces_quote text
  refine ⟨inside, fun rest _ => ?_⟩
  rw [tokens, hpieces, List.foldr_cons]
  rfl

/-- The tokens of a text and of one behind a delimiter. -/
theorem Lexed.behind {as bs : List Char} {ts us : List Token} {c : Char} (has : Lexed as ts)
    (hc : delimits c = true) (hbs : Lexed bs us) :
    Lexed (as ++ c :: bs) (ts ++ .delimiter c :: us) := by
  intro rest hrest
  rw [List.append_assoc, List.cons_append, has _ (delimited_cons hc _), tokens_delimiter hc,
    hbs rest hrest, List.append_assoc, List.cons_append]

/-! ## Texts that differ in a name -/

/-- Two tokens are the same, or the first is one word and the second another. -/
def Token.Renamed (p q : String) (a b : Token) : Prop :=
  a = b ∨ a = .word p.toList ∧ b = .word q.toList

/-- Two texts agree in their tokens except that one name may be another. -/
def Renamed (p q : String) (text text' : List Char) : Prop :=
  ∃ ts ts', Lexed text ts ∧ Lexed text' ts' ∧ List.Forall₂ (Token.Renamed p q) ts ts'

namespace Renamed

variable {p q : String} {as as' bs bs' : List Char}

theorem tokens (h : Renamed p q as bs) :
    List.Forall₂ (Token.Renamed p q) (tokens as) (tokens bs) := by
  obtain ⟨ts, us, hts, hus, hsame⟩ := h
  rwa [hts.tokens_eq, hus.tokens_eq]

theorem nil : Renamed p q [] [] :=
  ⟨[], [], lexed_nil, lexed_nil, .nil⟩

/-- Two names are renamed if they are the same, or the two names in question. -/
theorem name {name name' : String} (hname : IsWord name.toList) (hname' : IsWord name'.toList)
    (h : name = name' ∨ name = p ∧ name' = q) : Renamed p q name.toList name'.toList := by
  refine ⟨_, _, lexed_word hname, lexed_word hname', .cons ?_ .nil⟩
  rcases h with rfl | ⟨rfl, rfl⟩
  · exact .inl rfl
  · exact .inr ⟨rfl, rfl⟩

theorem constant (value : Literal) :
    Renamed p q (constantText value).toList (constantText value).toList := by
  have hplain : (∀ text, value ≠ .str text) → constantText value ≠ "" →
      Renamed p q (constantText value).toList (constantText value).toList := by
    intro htext hne
    have hword : IsWord (constantText value).toList := by
      have hbare := IsBare.of_unadorned (mt String.toList_eq_nil_iff.mp hne)
        (unadorned_constantText htext)
      exact ⟨hbare.1, fun c hc => ⟨(ne_of_isPlain (unadorned_constantText htext c hc)).1,
        hbare.2 c hc⟩⟩
    exact name hword hword (.inl rfl)
  cases value with
  | none => exact hplain (fun text h => by cases h) (by decide)
  | bool value => exact hplain (fun text h => by cases h) (by cases value <;> decide)
  | int value => exact hplain (fun text h => by cases h) (text_int_ne_empty value)
  | float value => exact hplain (fun text h => by cases h) (text_float_ne_empty value)
  | str text =>
    obtain ⟨inside, hlexed⟩ := lexed_literal text
    exact ⟨_, _, hlexed, hlexed, .cons (.inl rfl) .nil⟩

/-- Texts with a delimiter between them. -/
theorem behind {c : Char} (has : Renamed p q as as') (hc : delimits c = true)
    (hbs : Renamed p q bs bs') : Renamed p q (as ++ c :: bs) (as' ++ c :: bs') := by
  obtain ⟨ts, ts', hts, hts', hsame⟩ := has
  obtain ⟨us, us', hus, hus', hsame'⟩ := hbs
  exact ⟨_, _, hts.behind hc hus, hts'.behind hc hus',
    List.rel_append hsame (.cons (.inl rfl) hsame')⟩

/-- Texts with delimiters between them. -/
theorem intercalate {c : Char} {cs : List Char} (hcs : (c :: cs).all delimits = true)
    {texts texts' : List (List Char)} (h : List.Forall₂ (Renamed p q) texts texts') :
    Renamed p q ((c :: cs).intercalate texts) ((c :: cs).intercalate texts') := by
  rw [List.all_eq_true] at hcs
  -- The delimiters after the first stand behind nothing.
  have hblank : ∀ {cs as as' : List Char}, (∀ d ∈ cs, delimits d = true) →
      Renamed p q as as' → Renamed p q (cs ++ as) (cs ++ as') := by
    intro cs as as' hcs has
    induction cs with
    | nil => exact has
    | cons d cs ih =>
      obtain ⟨hd, hcs⟩ := List.forall_mem_cons.mp hcs
      exact nil.behind hd (ih hcs)
  obtain ⟨hc, hcs⟩ := List.forall_mem_cons.mp hcs
  induction h with
  | nil => exact nil
  | cons hfirst hrest ih =>
    cases hrest with
    | nil => simpa only [List.intercalate_singleton] using hfirst
    | cons hsecond hrest =>
      rw [List.intercalate_cons_cons, List.intercalate_cons_cons, List.append_assoc,
        List.append_assoc]
      exact hfirst.behind hc (hblank hcs ih)

/-- An application, of a name that may be another. -/
theorem apply {name name' : String} {span : Span} {texts texts' : List String}
    (hname : Renamed p q name.toList name'.toList)
    (h : List.Forall₂ (fun text text' : String => Renamed p q text.toList text'.toList)
      texts texts') :
    Renamed p q (apply false name span texts).toList
      (Physl.apply false name' span texts').toList := by
  have hinner : Renamed p q ([',', ' '].intercalate (texts.map String.toList))
      ([',', ' '].intercalate (texts'.map String.toList)) := by
    refine intercalate (by decide) ?_
    rwa [List.forall₂_map_left_iff, List.forall₂_map_right_iff]
  have happlied := hname.behind (c := '(') (by decide) (hinner.behind (c := ')') (by decide) nil)
  simpa [Physl.apply, tag, String.toList_intercalate] using happlied

end Renamed

/-- Every way of putting texts together keeps them renamed. -/
theorem congruence_renamed (p q : String) : Congruence false false
    (fun text text' => Renamed p q text.toList text'.toList) (fun name => IsWord name.toList)
    fun _ => True where
  primitive := isWord_primitives
  constant := .constant
  tag hname _ := .name hname hname (.inl rfl)
  apply hname _ := .apply (.name hname hname (.inl rfl))
  lines h := by
    rw [String.toList_intercalate, String.toList_intercalate]
    refine .intercalate (by decide) ?_
    rwa [List.forall₂_map_left_iff, List.forall₂_map_right_iff]

end Rendition.Physl
