import Rendition.Proofs.Physl.Pieces

/-!
# Terms

PhySL is a language of terms: a term is a word, a literal between double quotes, or the application
of a word to terms, which stand between parentheses with commas between them. The text of a term can
be read in one way only, because a word ends where a parenthesis, a comma, a quote or a blank
stands, and a literal ends at the first quote that no backslash stands before. So nothing that
stands inside a literal can be taken for a delimiter, and what follows a term does not change how it
is read.

## Main definitions

* `Physl.Term`: Words, literals and applications.
* `Physl.IsBare`: Texts that end at the next delimiter or quote.
* `Physl.Inside`: Texts that can stand between the quotes of a literal.
* `Physl.Term.Sound`: Terms whose words are bare and whose literals end at their last quote.

## Theorems

* `Term.text_append_inj`: A term can be told from what follows it.
* `Term.Sound.eq_of_text_eq`: No two terms have the same text.
* `Term.Sound.feed_not_mem`: The text of a term stands on one line.
-/

namespace Rendition.Physl

/-- A term of the language. -/
inductive Term where
  | word (name : String)
  /-- A literal, with what stands between its quotes. -/
  | literal (inside : String)
  | app (head : String) (args : List Term)

namespace Term

mutual

/-- The text of a term. -/
def text : Term → String
  | word name => name
  | literal inside => "\"" ++ inside ++ "\""
  | app head args => head ++ "(" ++ ", ".intercalate (texts args) ++ ")"

/-- The texts of several terms. -/
def texts : List Term → List String
  | [] => []
  | t :: rest => t.text :: texts rest

end

theorem texts_eq_map (ts : List Term) : texts ts = ts.map text := by
  induction ts with
  | nil => rfl
  | cons t rest ih => rw [texts, ih, List.map_cons]

theorem text_app (head : String) (args : List Term) :
    (app head args).text = head ++ "(" ++ ", ".intercalate (args.map text) ++ ")" := by
  rw [text, texts_eq_map]

end Term

/-! ## Words and literals -/

/-- A text that ends at the next delimiter or quote: it is not empty and holds none of them. -/
def IsBare (text : List Char) : Prop :=
  text ≠ [] ∧ ∀ c ∈ text, c ≠ '"' ∧ delimits c = false

instance (text : List Char) : Decidable (IsBare text) :=
  decidable_of_iff (text ≠ [] ∧ (text.all fun c => c ≠ '"' && !delimits c) = true)
    (by simp [IsBare])

/-- Whether a bare text ends before a character. -/
def endsBare (c : Char) : Bool :=
  c = '"' || delimits c

theorem IsBare.append {as bs : List Char} (has : IsBare as)
    (hbs : ∀ c ∈ bs, c ≠ '"' ∧ delimits c = false) : IsBare (as ++ bs) :=
  ⟨List.append_ne_nil_of_left_ne_nil has.1 bs, List.forall_mem_append.mpr ⟨has.2, hbs⟩⟩

theorem IsBare.of_unadorned {text : List Char} (hne : text ≠ []) (h : Unadorned text) :
    IsBare text := by
  refine ⟨hne, fun c hc =>
    ⟨(ne_of_isPlain (h c hc)).2.1, Bool.eq_false_iff.mpr fun hdelimits => ?_⟩⟩
  have hplain := h c hc
  simp only [delimits, Char.isWhitespace, Bool.or_eq_true, decide_eq_true_eq] at hdelimits
  rcases hdelimits with ((rfl | rfl) | rfl) | ((rfl | rfl) | rfl) | rfl <;>
    exact absurd hplain (by decide)

theorem IsBare.endsBare_eq_false {text : List Char} (h : IsBare text) :
    ∀ c ∈ text, endsBare c = false := by
  intro c hc
  obtain ⟨hquote, hdelimits⟩ := h.2 c hc
  simp only [endsBare, hquote, hdelimits, decide_false, Bool.or_self]

/-- A bare text can be told from what follows it, if that begins with a delimiter or quote. -/
theorem IsBare.append_inj {as bs rest rest' : List Char} (has : IsBare as) (hbs : IsBare bs)
    (hrest : ∀ c ∈ rest.head?, endsBare c = true) (hrest' : ∀ c ∈ rest'.head?, endsBare c = true)
    (h : as ++ rest = bs ++ rest') : as = bs ∧ rest = rest' := by
  have htake : ∀ {text rest : List Char}, IsBare text → (∀ c ∈ rest.head?, endsBare c = true) →
      (text ++ rest).takeWhile (!endsBare ·) = text := by
    intro text rest htext hrest
    rw [List.takeWhile_append_of_pos fun c hc => by
      rw [htext.endsBare_eq_false c hc, Bool.not_false]]
    rcases rest with _ | ⟨c, rest⟩
    · exact List.append_nil text
    · rw [List.takeWhile_cons, hrest c rfl]
      exact List.append_nil text
  have heq : as = bs := by rw [← htake has hrest, h, htake hbs hrest']
  exact ⟨heq, List.append_cancel_left (heq ▸ h)⟩

/-- A text that can stand between the quotes of a literal: a backslash takes the character behind it
    along, and there is no other quote, and no line feed. -/
inductive Inside : List Char → Prop where
  | nil : Inside []
  | char {c : Char} {rest : List Char} (hquote : c ≠ '"') (hslash : c ≠ '\\') (hfeed : c ≠ '\n')
    (hrest : Inside rest) : Inside (c :: rest)
  | escape {c : Char} {rest : List Char} (hfeed : c ≠ '\n') (hrest : Inside rest) :
    Inside ('\\' :: c :: rest)

theorem Inside.literal_eq {inside : List Char} (h : Inside inside) (rest : List Char) :
    literal (inside ++ '"' :: rest) = (inside ++ ['"'], rest) := by
  induction h with
  | nil => rfl
  | char hquote hslash hfeed hrest ih =>
    rw [List.cons_append, literal, ih]
    · rfl
    · exact hquote
    · rintro d rest' rfl
      exact (hslash rfl).elim
  | escape hfeed hrest ih =>
    rw [List.cons_append, List.cons_append, literal, ih]
    rfl

/-- What stands between quotes can be told from what follows. -/
theorem Inside.append_inj {as bs rest rest' : List Char} (has : Inside as) (hbs : Inside bs)
    (h : as ++ '"' :: rest = bs ++ '"' :: rest') : as = bs ∧ rest = rest' := by
  have hliteral := has.literal_eq rest
  rw [h, hbs.literal_eq rest'] at hliteral
  obtain ⟨hinside, hrest⟩ := Prod.mk.inj hliteral
  exact ⟨(List.append_cancel_right hinside).symm, hrest.symm⟩

theorem Inside.feed_not_mem {inside : List Char} (h : Inside inside) : '\n' ∉ inside := by
  induction h with
  | nil => exact List.not_mem_nil
  | char hquote hslash hfeed hrest ih =>
    rw [List.mem_cons, not_or]
    exact ⟨hfeed.symm, ih⟩
  | escape hfeed hrest ih =>
    rw [List.mem_cons, List.mem_cons, not_or, not_or]
    exact ⟨by decide, hfeed.symm, ih⟩

/-- What a text is written as can stand between quotes. -/
theorem inside_quoted (text : List Char) : Inside (text.flatMap Text.quoteChar) := by
  induction text with
  | nil => exact .nil
  | cons c text ih =>
    rw [List.flatMap_cons]
    rcases Text.quoteChar_cases c with ⟨d, hd, hc, -⟩ | ⟨hc, hquote, hslash, hfeed, -⟩
    · have hescaped : d ≠ '\n' := by
        rintro rfl
        exact absurd hd (by decide)
      rw [hc]
      exact .escape hescaped ih
    · rw [hc]
      exact .char hquote hslash hfeed ih

/-! ## Reading terms -/

namespace Term

/-- The terms that can be read: words are bare, and literals end at their last quote. -/
inductive Sound : Term → Prop where
  | word {name : String} (h : IsBare name.toList) : Sound (.word name)
  | literal {inside : String} (h : Inside inside.toList) : Sound (.literal inside)
  | app {head : String} {args : List Term} (h : IsBare head.toList)
    (hargs : ∀ t ∈ args, Sound t) : Sound (.app head args)

theorem toList_literal (inside : String) :
    (literal inside).text.toList = '"' :: (inside.toList ++ ['"']) := by
  rw [text, String.toList_append, String.toList_append]
  rfl

/-- What stands between the parentheses of an application, and the closing one. -/
def inner (args : List Term) : List Char :=
  [',', ' '].intercalate (args.map fun t => t.text.toList) ++ [')']

theorem toList_app (head : String) (args : List Term) :
    (app head args).text.toList = head.toList ++ '(' :: inner args := by
  rw [text_app, String.toList_append, String.toList_append, String.toList_append,
    String.toList_intercalate, List.map_map, inner, List.append_assoc, List.append_assoc]
  rfl

theorem inner_singleton (t : Term) : inner [t] = t.text.toList ++ [')'] := by
  rw [inner, List.map_cons, List.map_nil, List.intercalate_singleton]

theorem inner_cons_cons (t u : Term) (rest : List Term) :
    inner (t :: u :: rest) = t.text.toList ++ ',' :: ' ' :: inner (u :: rest) := by
  simp only [inner, List.map_cons, List.intercalate_cons_cons, List.append_assoc, List.cons_append,
    List.nil_append]

/-- The text of a term begins with a character of a word or with a quote. -/
theorem Sound.exists_head {t : Term} (h : t.Sound) :
    ∃ c cs, t.text.toList = c :: cs ∧ delimits c = false := by
  have hbare : ∀ {name : String} (rest : List Char), IsBare name.toList →
      ∃ c cs, name.toList ++ rest = c :: cs ∧ delimits c = false := by
    intro name rest hname
    obtain ⟨c, cs, hcs⟩ := List.exists_cons_of_ne_nil hname.1
    refine ⟨c, cs ++ rest, by rw [hcs, List.cons_append], (hname.2 c ?_).2⟩
    rw [hcs]
    exact List.mem_cons_self
  cases h with
  | word h =>
    have := hbare [] h
    rwa [List.append_nil] at this
  | literal h => exact ⟨'"', _, toList_literal _, by decide⟩
  | app h hargs =>
    rw [toList_app]
    exact hbare _ h

/-- What may follow a term: nothing, a comma or a closing parenthesis. -/
def Follows (rest : List Char) : Prop :=
  ∀ c ∈ rest.head?, c = ',' ∨ c = ')'

theorem Follows.endsBare {rest : List Char} (h : Follows rest) :
    ∀ c ∈ rest.head?, endsBare c = true := by
  intro c hc
  rcases h c hc with rfl | rfl <;> decide

theorem follows_cons {c : Char} (h : c = ',' ∨ c = ')') (rest : List Char) :
    Follows (c :: rest) := by
  rintro _ ⟨⟩
  exact h

/-- Terms that can each be told from what follows can be told from what follows all of them. -/
theorem inner_append_inj {ts us : List Term} (hus : ∀ u ∈ us, u.Sound) {rest rest' : List Char}
    (hts : ∀ t ∈ ts, t.Sound ∧ ∀ {u : Term} {rest rest' : List Char}, u.Sound → Follows rest →
      Follows rest' → t.text.toList ++ rest = u.text.toList ++ rest' → t = u ∧ rest = rest')
    (h : inner ts ++ rest = inner us ++ rest') : ts = us ∧ rest = rest' := by
  -- No term begins with the parenthesis that ends the list.
  have hclosed : ∀ {t : Term} {ts : List Term} {rest rest' : List Char}, t.Sound →
      inner [] ++ rest ≠ inner (t :: ts) ++ rest' := by
    intro t ts rest rest' ht heq
    obtain ⟨c, cs, hcs, hdelimits⟩ := ht.exists_head
    have hhead : ')' = c := by
      cases ts with
      | nil =>
        rw [inner_singleton, hcs] at heq
        exact (List.cons.inj heq).1
      | cons u us =>
        rw [inner_cons_cons, hcs] at heq
        exact (List.cons.inj heq).1
    subst hhead
    cases hdelimits
  induction ts generalizing us with
  | nil =>
    cases us with
    | nil => exact ⟨rfl, List.append_cancel_left h⟩
    | cons u us => exact absurd h (hclosed (hus u List.mem_cons_self))
  | cons t ts ih =>
    obtain ⟨⟨ht, htell⟩, hts'⟩ := List.forall_mem_cons.mp hts
    cases us with
    | nil => exact absurd h.symm (hclosed ht)
    | cons u us =>
      obtain ⟨hu, hus'⟩ := List.forall_mem_cons.mp hus
      rcases ts with _ | ⟨t', ts⟩ <;> rcases us with _ | ⟨u', us⟩
      all_goals
        simp only [inner_singleton, inner_cons_cons, List.append_assoc, List.cons_append,
          List.nil_append] at h
        obtain ⟨rfl, hrest⟩ := htell hu (follows_cons (by decide) _) (follows_cons (by decide) _) h
      · exact ⟨rfl, (List.cons.inj hrest).2⟩
      · cases hrest
      · cases hrest
      · have hinner := (List.cons.inj (List.cons.inj hrest).2).2
        obtain ⟨hargs, hrest⟩ := ih hus' hts' hinner
        exact ⟨by rw [hargs], hrest⟩

/-- A term can be told from what follows it. -/
theorem Sound.append_inj {t u : Term} {rest rest' : List Char} (ht : t.Sound) (hu : u.Sound)
    (hrest : Follows rest) (hrest' : Follows rest')
    (h : t.text.toList ++ rest = u.text.toList ++ rest') : t = u ∧ rest = rest' := by
  -- A word ends before a parenthesis as before what follows a term, and it holds no quote.
  have hparen : ∀ text : List Char, ∀ c ∈ ('(' :: text).head?, endsBare c = true := by
    rintro text _ ⟨⟩
    decide
  have hquote : ∀ {name : String} {rest rest' : List Char}, IsBare name.toList →
      name.toList ++ rest ≠ '"' :: rest' := by
    intro name rest rest' hname heq
    obtain ⟨c, cs, hcs⟩ := List.exists_cons_of_ne_nil hname.1
    rw [hcs] at heq
    exact (hname.2 c (by rw [hcs]; exact List.mem_cons_self)).1 (List.cons.inj heq).1
  have hopen : ∀ {text rest : List Char}, Follows rest → '(' :: text ≠ rest := by
    rintro text _ hfollows rfl
    exact absurd (hfollows '(' rfl) (by decide)
  induction ht generalizing u rest rest' with
  | @word name hname =>
    cases hu with
    | @word name' hname' =>
      obtain ⟨heq, hrest⟩ := hname.append_inj hname' hrest.endsBare hrest'.endsBare h
      exact ⟨by rw [String.toList_inj.mp heq], hrest⟩
    | literal hinside =>
      rw [toList_literal] at h
      exact absurd h (hquote hname)
    | app hhead hargs =>
      rw [toList_app, List.append_assoc] at h
      obtain ⟨-, hrest'⟩ := hname.append_inj hhead hrest.endsBare (hparen _) h
      exact absurd hrest'.symm (hopen hrest)
  | @literal inside hinside =>
    rw [toList_literal] at h
    cases hu with
    | word hname' => exact absurd h.symm (hquote hname')
    | @literal inside' hinside' =>
      rw [toList_literal, List.cons_append, List.cons_append, List.append_assoc,
        List.append_assoc] at h
      obtain ⟨heq, hrest⟩ := hinside.append_inj hinside' (List.cons.inj h).2
      exact ⟨by rw [String.toList_inj.mp heq], hrest⟩
    | app hhead hargs =>
      rw [toList_app, List.append_assoc] at h
      exact absurd h.symm (hquote hhead)
  | @app head args hhead hargs ih =>
    rw [toList_app, List.append_assoc] at h
    cases hu with
    | word hname' =>
      obtain ⟨-, hrest⟩ := hhead.append_inj hname' (hparen _) hrest'.endsBare h
      exact absurd hrest (hopen hrest')
    | literal hinside' =>
      rw [toList_literal] at h
      exact absurd h (hquote hhead)
    | @app head' args' hhead' hargs' =>
      rw [toList_app, List.append_assoc] at h
      obtain ⟨heq, hinner⟩ := hhead.append_inj hhead' (hparen _) (hparen _) h
      obtain ⟨rfl, hrest⟩ := inner_append_inj hargs'
        (fun t ht => ⟨hargs t ht, fun hu hrest hrest' h => ih t ht hu hrest hrest' h⟩)
        (List.cons.inj hinner).2
      exact ⟨by rw [String.toList_inj.mp heq], hrest⟩

/-- No two terms have the same text. -/
theorem Sound.eq_of_text_eq {t u : Term} (ht : t.Sound) (hu : u.Sound) (h : t.text = u.text) :
    t = u := by
  have hnil : Follows [] := fun c hc => by cases hc
  exact (ht.append_inj hu hnil hnil (by rw [h])).1

/-- The text of a term stands on one line. -/
theorem Sound.feed_not_mem {t : Term} (h : t.Sound) : '\n' ∉ t.text.toList := by
  have hbare : ∀ {name : List Char}, IsBare name → '\n' ∉ name := fun hname hmem =>
    absurd (hname.2 '\n' hmem).2 (by decide)
  induction h with
  | word hname => exact hbare hname
  | literal hinside =>
    rw [toList_literal, List.mem_cons, List.mem_append, List.mem_singleton, not_or, not_or]
    exact ⟨by decide, hinside.feed_not_mem, by decide⟩
  | @app head args hhead hargs ih =>
    have hinner : ∀ {ts : List Term}, (∀ t ∈ ts, '\n' ∉ t.text.toList) → '\n' ∉ inner ts := by
      intro ts hts
      induction ts with
      | nil => decide
      | cons t ts ih =>
        obtain ⟨ht, hts⟩ := List.forall_mem_cons.mp hts
        have hrest := ih hts
        rcases ts with _ | ⟨u, ts⟩
        · rw [inner_singleton, List.mem_append, not_or]
          exact ⟨ht, by decide⟩
        · rw [inner_cons_cons, List.mem_append, List.mem_cons, List.mem_cons, not_or, not_or,
            not_or]
          exact ⟨ht, by decide, by decide, hrest⟩
    rw [toList_app, List.mem_append, List.mem_cons, not_or, not_or]
    exact ⟨hbare hhead, by decide, hinner ih⟩

end Term

end Rendition.Physl
