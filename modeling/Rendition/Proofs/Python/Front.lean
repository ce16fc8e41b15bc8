import Mathlib.Data.List.Forall2
import Rendition.Proofs.Grammar.Levels
import Rendition.Proofs.Python.Phrase

/-!
# How phrases start, and lists of them

The phrase of an expression starts with a name, a literal or a bracket, and no word follows a name
directly. So the first token tells which way the grammar goes, and a list of phrases between
brackets is read phrase by phrase.

## Main definitions

* `Python.StartsWith`: A phrase whose first lexeme satisfies a test.
* `Python.Yields`: A parser gives something for a phrase in front of certain tokens.

## Theorems

* `starts_phrase`: How the phrases of expressions start.
* `moreItems_row`, `listed_row`: Lists with and without brackets are read item by item.
-/

namespace Rendition

namespace Source

open Token

theorem Gap.flat_blank : Gap.Flat .blank :=
  ⟨rfl, rfl, rfl⟩

end Source

namespace Python

open Source Source.Lexeme

/-! ## The first lexeme -/

/-- A phrase whose first lexeme stands behind the gap of the phrase and satisfies a test. -/
def StartsWith (test : Token → Bool) (p : Phrase) : Prop :=
  ∃ kind text rest, (∀ g, p g = ⟨g, kind, text⟩ :: rest) ∧ test (.bare kind text) = true

theorem StartsWith.imp {test test' : Token → Bool} {p : Phrase} (h : StartsWith test p)
    (himp : ∀ t, test t = true → test' t = true) : StartsWith test' p := by
  obtain ⟨kind, text, rest, heq, htest⟩ := h
  exact ⟨kind, text, rest, heq, himp _ htest⟩

/-- The length of a phrase does not depend on its gap. -/
theorem StartsWith.length_eq {test : Token → Bool} {p : Phrase} (h : StartsWith test p)
    (g g' : Gap) :
    (p g).length = (p g').length := by
  obtain ⟨kind, text, rest, heq, -⟩ := h
  rw [heq g, heq g', List.length_cons, List.length_cons]

/-- The first token of a phrase. -/
theorem StartsWith.exists_cons {p : Phrase} (h : StartsWith Token.isOpening p) (s : Span) (g : Gap)
    (ts : List Token) :
    ∃ t more, lay s (p g) ++ ts = t :: more ∧ t.isOpening = true ∧ t.gap = g := by
  obtain ⟨kind, text, rest, heq, hopening⟩ := h
  exact ⟨(Lexeme.mk g kind text).token s, _, by rw [heq, lay, List.cons_append], hopening, rfl⟩

/-- A frame shows the first token of an operand on the same line as it is. -/
theorem sees_opening {f : Frame} {t : Token} (h : t.isOpening = true) (hgap : t.gap.Flat)
    (ts : List Token) : f.Sees (t :: ts) (t :: ts) :=
  .flat hgap (Token.kind_opening h).1

/-- The phrase of an operand: it starts with a name, a literal or a bracket, and what follows a name
    directly is a point or a bracket. -/
structure Opens (p : Phrase) (kind : TokenKind) (text : String) (rest : List Lexeme) : Prop where
  eq : ∀ g, p g = ⟨g, kind, text⟩ :: rest
  opening : (Token.bare kind text).isOpening = true
  second : kind = .word → ∀ l ∈ rest.head?, ∃ m ∈ [".", "(", "["], l = mark m {}

theorem Opens.starts {p : Phrase} {kind : TokenKind} {text : String} {rest : List Lexeme}
    (h : Opens p kind text rest) : StartsWith Token.isOpening p :=
  ⟨kind, text, rest, h.eq, h.opening⟩

/-- A point or a bracket may follow an operand. -/
theorem Opens.append {p : Phrase} {kind : TokenKind} {text : String} {rest : List Lexeme}
    (h : Opens p kind text rest) {more : List Lexeme}
    (hmore : ∀ l ∈ more.head?, ∃ m ∈ [".", "(", "["], l = mark m {}) :
    Opens (fun g => p g ++ more) kind text (rest ++ more) := by
  refine ⟨fun g => by rw [h.eq, List.cons_append], h.opening, fun hword => ?_⟩
  rcases rest with _ | ⟨l, rest⟩
  · exact hmore
  · exact h.second hword

theorem opens_single {kind : TokenKind} {text : String}
    (h : (Token.bare kind text).isOpening = true) :
    Opens (fun g => [⟨g, kind, text⟩]) kind text [] :=
  ⟨fun _ => rfl, h, fun _ l hl => absurd hl (Option.not_mem_none l)⟩

theorem opens_mark {text : String} (h : (Token.bare .mark text).isOpening = true)
    (rest : List Lexeme) : Opens (fun g => mark text g :: rest) .mark text rest :=
  ⟨fun _ => rfl, h, fun hkind => TokenKind.noConfusion hkind⟩

theorem opens_enclosed (inner : List Lexeme) :
    Opens (enclosed inner) .mark "(" (inner ++ [mark ")" {}]) :=
  opens_mark (by decide) _

/-- How the phrases of expressions start. -/
theorem opens_phrase {ok : Node Tree → Prop} {t : Tree} (h : t.IsExpression ok) :
    ∃ kind text rest, Opens (phrase t) kind text rest := by
  induction h with
  | @ident span id hok hname hvariable =>
    have hopening : (Token.bare .word id).isOpening = true := by
      simp only [Token.bare, Token.isOpening, hvariable, Bool.true_or]
    exact ⟨.word, id, [], by rw [phrase_ident]; exact opens_single hopening⟩
  | @constant span value hok hint =>
    have hconstant : ∃ kind text, (∀ g, constant value g = ⟨g, kind, text⟩) ∧
        (Token.bare kind text).isOpening = true := by
      rcases value with _ | (_ | _) | n | x | text
      · exact ⟨.word, "None", fun _ => rfl, by decide⟩
      · exact ⟨.word, "False", fun _ => rfl, by decide⟩
      · exact ⟨.word, "True", fun _ => rfl, by decide⟩
      · exact ⟨.integer, toString n, fun _ => rfl, rfl⟩
      · exact ⟨.float, Style.source.text x, fun _ => rfl, rfl⟩
      · exact ⟨.string, Text.quote text, fun _ => rfl, rfl⟩
    obtain ⟨kind, text, heq, hopening⟩ := hconstant
    refine ⟨kind, text, [], ?_⟩
    rw [phrase_constant]
    simp only [heq]
    exact opens_single hopening
  | binOp => exact ⟨_, _, _, by rw [phrase_binOp]; exact opens_enclosed _⟩
  | unaryOp => exact ⟨_, _, _, by rw [phrase_unaryOp]; exact opens_enclosed _⟩
  | compare => exact ⟨_, _, _, by rw [phrase_compare]; exact opens_enclosed _⟩
  | @boolOp span op values hok hlength hvalues ih =>
    rcases values with _ | ⟨first, rest⟩
    · exact absurd hlength (by decide)
    · exact ⟨_, _, _, by rw [phrase_boolOp]; exact opens_enclosed _⟩
  | @call span func args keywords hok hfunc hargs hnames hkeywords ihfunc ihargs ih =>
    obtain ⟨kind, text, rest, hopens⟩ := ihfunc
    rw [phrase_call]
    exact ⟨kind, text, _, hopens.append fun l hl => ⟨"(", by decide, (Option.some.inj hl).symm⟩⟩
  | @attr span value name hok hvalue hname ih =>
    obtain ⟨kind, text, rest, hopens⟩ := ih
    rw [phrase_attr]
    exact ⟨kind, text, _, hopens.append fun l hl => ⟨".", by decide, (Option.some.inj hl).symm⟩⟩
  | @subscript span value index hok hvalue hindex ihvalue ih =>
    obtain ⟨kind, text, rest, hopens⟩ := ihvalue
    rw [phrase_subscript]
    exact ⟨kind, text, _, hopens.append fun l hl => ⟨"[", by decide, (Option.some.inj hl).symm⟩⟩
  | list => exact ⟨_, _, _, by rw [phrase_list]; exact opens_mark (by decide) _⟩
  | @tuple span items hok hitems ih =>
    by_cases hsingle : items.length = 1
    · obtain ⟨single, rfl⟩ := List.length_eq_one_iff.mp hsingle
      exact ⟨_, _, _, by rw [phrase_tuple_single]; exact opens_enclosed _⟩
    · exact ⟨_, _, _, by rw [phrase_tuple span items hsingle]; exact opens_enclosed _⟩
  | dict => exact ⟨_, _, _, by rw [phrase_dict]; exact opens_mark (by decide) _⟩
  | ifExp => exact ⟨_, _, _, by rw [phrase_ifExp]; exact opens_enclosed _⟩
  | lambda => exact ⟨_, _, _, by rw [phrase_lambda]; exact opens_enclosed _⟩

theorem starts_phrase {ok : Node Tree → Prop} {t : Tree} (h : t.IsExpression ok) :
    StartsWith Token.isOpening (phrase t) := by
  obtain ⟨kind, text, rest, hopens⟩ := opens_phrase h
  exact hopens.starts

/-! ## Lists of phrases -/

/-- A parser gives something for a phrase in front of certain tokens, as a frame shows them. -/
def Yields {α : Type} (f : Frame) (stop : Token → Bool) (parser : Parser α) (p : Phrase)
    (what : α → Prop) : Prop :=
  ∀ (s : Span) (g : Gap) (ts us : List Token) (u : Token), f.Sees ts (u :: us) → stop u = true →
    ∃ a, what a ∧ parser (lay s (p g) ++ ts) = some (a, u :: us)

/-- Fewer tokens may follow. -/
theorem Yields.weaken {α : Type} {f : Frame} {stop stop' : Token → Bool} {parser : Parser α}
    {p : Phrase} {what : α → Prop} (h : Yields f stop parser p what)
    (hstop : ∀ t, stop' t = true → stop t = true) : Yields f stop' parser p what :=
  fun s g ts us u hsees hu => h s g ts us u hsees (hstop u hu)

/-- What is determined by each item is determined by the list. -/
theorem eq_map_of_forall₂ {α β : Type} {f : α → β} {as : List α} {bs : List β}
    (h : List.Forall₂ (fun a b => b = f a) as bs) : bs = as.map f := by
  induction h with
  | nil => rfl
  | cons h _ ih => rw [h, ih, List.map_cons]

section Lists

variable {α ι : Type} {f : Frame} {stop : Token → Bool} {closing : String}
  {item : Parser α} {p : ι → Phrase} {what : ι → α → Prop}
  {as : List ι}

/-- Whether an item of a list with brackets ends before a token. -/
def separates (closing : String) (t : Token) : Bool :=
  t.isMark "," || t.isMark closing

/-- Whether an item of a list with brackets can start with a token. -/
def startsItem (closing : String) (t : Token) : Bool :=
  !t.isMark closing && !(t.kind = .lineEnd)

theorem startsItem_opening {t : Token} (h : t.isOpening = true)
    (hclosing : (Token.bare .mark closing).isOpening = false) : startsItem closing t = true := by
  rw [startsItem, Token.isMark_opening h closing hclosing, decide_eq_false (Token.kind_opening h).1]
  rfl

/-- A frame shows a mark on the same line as it is. -/
theorem sees_mark {f : Frame} {text : String} {g : Gap} (hg : g.Flat) {s : Span}
    {ts : List Token} : f.Sees ((mark text g).token s :: ts) ((mark text g).token s :: ts) :=
  .flat hg fun hkind => TokenKind.noConfusion hkind

/-- A frame shows a word on the same line as it is. -/
theorem sees_word {f : Frame} {text : String} {g : Gap} (hg : g.Flat) {s : Span}
    {ts : List Token} : f.Sees ((word text g).token s :: ts) ((word text g).token s :: ts) :=
  .flat hg fun hkind => TokenKind.noConfusion hkind

theorem isMark_mark (text text' : String) (g : Gap) (s : Span) :
    ((mark text g).token s).isMark text' = (text == text') := rfl

theorem separates_comma (closing : String) (s : Span) :
    separates closing ((mark "," {}).token s) = true := rfl

theorem separates_closing (closing : String) (s : Span) :
    separates closing ((mark closing {}).token s) = true := by
  rw [separates, isMark_mark, isMark_mark, beq_self_eq_true, Bool.or_true]

theorem isMark_separates {closing : String} {t : Token} (h : separates closing t = true)
    (text : String) (hcomma : ("," == text) = false) (hclosing : (closing == text) = false) :
    t.isMark text = false := by
  rcases Bool.or_eq_true_iff.mp h with h | h
  · exact Token.isMark_of_isMark h text hcomma
  · exact Token.isMark_of_isMark h text hclosing

theorem kind_separates {closing : String} {t : Token} (h : separates closing t = true) :
    t.kind = .mark := by
  rcases Bool.or_eq_true_iff.mp h with h | h <;> exact (Token.isMark_bare h).1

/-- Frames show what separates items as it is. -/
theorem eq_of_separates {closing : String} {f : Frame} {u : Token} {ts us : List Token}
    (hsees : f.Sees ts (u :: us)) (hu : separates closing u = true) : ts = u :: us := by
  refine hsees.eq_of_kind ?_
  rw [kind_separates hu]
  decide

/-- A test that looks at kind and text only tells a comma and a closing bracket. -/
theorem eq_separates {α : Type} (test : Token → α)
    (hbare : ∀ t, test t = test (.bare t.kind t.text)) {closing : String} {t : Token} {a : α}
    (h : separates closing t = true) (hcomma : test (.bare .mark ",") = a)
    (hclosing : test (.bare .mark closing) = a) : test t = a := by
  rcases Bool.or_eq_true_iff.mp h with h | h
  · exact (Token.eq_of_isMark test hbare h).trans hcomma
  · exact (Token.eq_of_isMark test hbare h).trans hclosing

/-- An expression ends before a comma and a closing bracket. -/
theorem stops_of_separates {closing : String}
    (hclosing : (Token.bare .mark closing).stops Level.any = true) {t : Token}
    (h : separates closing t = true) : t.stops Level.any = true :=
  eq_separates (Token.stops Level.any) (fun _ => rfl) h (by decide) hclosing

/-- The further items of a list between brackets are read one after another. -/
theorem moreItems_row (continuation : Continuation → α) (hne : ("," == closing) = false)
    {us ts : List Token} (hsees : f.Sees ts us)
    (hstarts : ∀ a ∈ as, StartsWith (startsItem closing) (p a))
    (hitem : ∀ a ∈ as, Yields f.inside (separates closing) item (p a) (what a)) :
    ∀ (items : List α) (s : Span),
    ∃ bs, List.Forall₂ what as bs ∧ moreItems f closing continuation item items
      (lay s ((as.flatMap fun a => mark "," {} :: p a .blank) ++ [mark closing {}]) ++ ts) =
      some (items ++ bs, us) := by
  induction as with
  | nil =>
    intro items s
    refine ⟨[], .nil, ?_⟩
    rw [List.append_nil]
    exact moreItems_close (by rw [isMark_mark, beq_self_eq_true]) rfl hsees
  | cons a as ih =>
    intro items s
    obtain ⟨kind, text, rest, hfirst, htest⟩ := hstarts a List.mem_cons_self
    simp only [startsItem, Bool.and_eq_true, Bool.not_eq_true', decide_eq_false_iff_not] at htest
    -- What follows the item is a comma or the closing bracket.
    obtain ⟨m, more, htail, hm, hgap, hkind⟩ : ∃ m more,
        (as.flatMap fun a => mark "," {} :: p a .blank) ++ [mark closing {}] = m :: more ∧
        (∀ s, separates closing (m.token s) = true) ∧ m.gap.Flat ∧ m.kind ≠ .lineEnd := by
      have hmark : TokenKind.mark ≠ .lineEnd := by decide
      rcases as with _ | ⟨b, as⟩
      · exact ⟨_, _, rfl, separates_closing closing, Gap.flat_empty, hmark⟩
      · exact ⟨_, _, rfl, separates_comma closing, Gap.flat_empty, hmark⟩
    have hsees (s' : Span) (more' : List Token) : f.inside.Sees (m.token s' :: more')
        (m.token s' :: more') := .flat hgap hkind
    have hrow (s' s'' : Span) (more' : List Token) :=
      hitem a List.mem_cons_self s' .blank _ _ _ (hsees s'' more') (hm s'')
    rw [List.flatMap_cons, List.cons_append, List.cons_append, List.append_assoc, htail]
    rw [htail] at ih
    simp only [lay, lay_append, List.cons_append, List.append_assoc] at ih ⊢
    obtain ⟨b, hb, hparse⟩ := hrow _ _ _
    obtain ⟨bs, hbs, hrest⟩ := ih (fun a' ha' => hstarts a' (List.mem_cons_of_mem a ha'))
      (fun a' ha' => hitem a' (List.mem_cons_of_mem a ha')) (items ++ [b]) _
    refine ⟨b :: bs, .cons hb hbs, ?_⟩
    rw [hfirst] at hparse ⊢
    simp only [lay, List.cons_append] at hparse ⊢
    rw [← List.append_cons] at hrest
    refine moreItems_next (by rw [isMark_mark, beq_self_eq_true]) (by rw [isMark_mark, hne]) rfl
      (.flat Gap.flat_blank htest.2) htest.1 rfl hparse ?_ hrest
    simp only [List.length_append, List.length_cons]
    omega

/-- What stands behind the first item of a list between brackets: a comma or the closing bracket,
    from which the further items are read. -/
structure Onward (f : Frame) (closing : String)
    (continuation : Continuation → α) (item : Parser α) (what : ι → α → Prop) (as : List ι)
    (us : List Token) (t : Token) (ts : List Token) : Prop where
  sees : ∀ f : Frame, f.Sees (t :: ts) (t :: ts)
  continuations : t.gap.continuations = []
  separates : separates closing t = true
  comma : as ≠ [] → t.isMark "," = true
  more : ∀ items, ∃ bs, List.Forall₂ what as bs ∧
    moreItems f closing continuation item items (t :: ts) = some (items ++ bs, us)

/-- The first item of a list between brackets and what stands behind it. -/
theorem row_onward (closing : String) (continuation : Continuation → α)
    (hne : ("," == closing) = false)
    {us ts : List Token} (hsees : f.Sees ts us)
    (hstarts : ∀ a ∈ as, StartsWith (startsItem closing) (p a))
    (hitem : ∀ a ∈ as, Yields f.inside (separates closing) item (p a) (what a)) (first : ι)
    (s : Span) (g : Gap) :
    ∃ t mid, lay s (row ((first :: as).map p) g ++ [mark closing {}]) ++ ts =
      lay s (p first g) ++ t :: mid ∧
      Onward f closing continuation item what as us t mid := by
  have hmore := moreItems_row continuation hne hsees hstarts hitem
  have hrow : row ((first :: as).map p) g ++ [mark closing {}] =
      p first g ++ ((as.flatMap fun a => mark "," {} :: p a .blank) ++ [mark closing {}]) := by
    rw [List.map_cons, row, List.flatMap_map, List.append_assoc]
  rw [hrow, lay_append, List.append_assoc]
  rcases as with _ | ⟨a, as⟩
  · exact ⟨_, _, rfl, fun _ => sees_mark Gap.flat_empty, rfl, separates_closing closing _,
      fun h => absurd rfl h, fun items => hmore items _⟩
  · exact ⟨_, _, rfl, fun _ => sees_mark Gap.flat_empty, rfl, separates_comma closing _,
      fun _ => rfl, fun items => hmore items _⟩

/-- Whether an item of a list without brackets can start with a token. -/
def startsListed (starts : Token → Bool) (t : Token) : Bool :=
  starts t && !(t.kind = .lineEnd)

/-- The further items of a list without brackets are read one after another, where nothing goes on
    with the list behind them. -/
theorem extend_listed_row {starts : Token → Bool} (continuation : Continuation → α)
    (hcomma : ∀ s, stop ((mark "," {}).token s) = true) {us ts : List Token} {u : Token}
    (hsees : f.Sees ts (u :: us)) (hu : u.isMark "," = false) (hstop : stop u = true)
    (hbare : ∀ t, starts t = starts (.bare t.kind t.text))
    (hstarts : ∀ a ∈ as, StartsWith (startsListed starts) (p a))
    (hitem : ∀ a ∈ as, Yields f stop item (p a) (what a)) :
    ∀ s : Span, ∃ v vs,
      f.Sees (lay s (as.flatMap fun a => mark "," {} :: p a .blank) ++ ts) (v :: vs) ∧
      stop v = true ∧ ∀ items separated, ∃ bs sep, List.Forall₂ what as bs ∧
      extend (listedStep f "," continuation starts item) (items, separated, false) (v :: vs) =
        some ((items ++ bs, sep, false), u :: us) := by
  induction as with
  | nil =>
    intro s
    refine ⟨u, us, hsees, hstop, fun items separated => ⟨[], separated, .nil, ?_⟩⟩
    rw [List.append_nil]
    exact extend_listed_done separated hu
  | cons a as ih =>
    intro s
    obtain ⟨kind, text, rest, hfirst, htest⟩ := hstarts a List.mem_cons_self
    simp only [startsListed, Bool.and_eq_true, Bool.not_eq_true', decide_eq_false_iff_not] at htest
    rw [List.flatMap_cons, List.cons_append]
    simp only [lay, lay_append, List.cons_append, List.append_assoc]
    generalize s.after (mark "," {}).chars = s₁
    generalize s₁.after (spell (p a .blank)) = s₂
    obtain ⟨v, vs, hseen, hv, hmore⟩ := ih (fun a' ha' => hstarts a' (List.mem_cons_of_mem a ha'))
      (fun a' ha' => hitem a' (List.mem_cons_of_mem a ha')) s₂
    obtain ⟨b, hb, hparse⟩ := hitem a List.mem_cons_self s₁ .blank _ _ _ hseen hv
    refine ⟨_, _, sees_mark Gap.flat_empty, hcomma s, fun items separated => ?_⟩
    obtain ⟨bs, sep, hbs, hrest⟩ := hmore (items ++ [b]) true
    refine ⟨b :: bs, sep, .cons hb hbs, ?_⟩
    have hlength := hseen.length_le
    rw [hfirst] at hparse ⊢
    simp only [lay, List.cons_append] at hparse ⊢
    rw [← List.append_cons] at hrest
    refine extend_listed_next separated (by rw [isMark_mark, beq_self_eq_true]) rfl
      (.flat Gap.flat_blank htest.2) ?_ rfl hparse ?_ hrest
    · rw [hbare]
      exact htest.1
    · simp only [List.length_append, List.length_cons] at hlength ⊢
      omega

/-- A list without brackets is read item by item. -/
theorem listed_row {starts : Token → Bool} (continuation : Continuation → α)
    (hcomma : ∀ s, stop ((mark "," {}).token s) = true) {us ts : List Token} {u : Token}
    (hsees : f.Sees ts (u :: us)) (hu : u.isMark "," = false) (hstop : stop u = true)
    (hbare : ∀ t, starts t = starts (.bare t.kind t.text))
    (hstarts : ∀ a ∈ as, StartsWith (startsListed starts) (p a)) {first : ι}
    (hitem : ∀ a ∈ first :: as, Yields f stop item (p a) (what a)) (s : Span) (g : Gap) :
    ∃ bs sep, List.Forall₂ what (first :: as) bs ∧
      listed f "," continuation starts item (lay s (row ((first :: as).map p) g) ++ ts) =
        some ((bs, sep), u :: us) := by
  have hrow : row ((first :: as).map p) g =
      p first g ++ as.flatMap fun a => mark "," {} :: p a .blank := by
    rw [List.map_cons, row, List.flatMap_map]
  obtain ⟨v, vs, hseen, hv, hmore⟩ := extend_listed_row continuation hcomma hsees hu hstop hbare
    hstarts (fun a ha => hitem a (List.mem_cons_of_mem first ha)) (s.after (spell (p first g)))
  obtain ⟨b, hb, hparse⟩ := hitem first List.mem_cons_self s g _ _ _ hseen hv
  obtain ⟨bs, sep, hbs, hrest⟩ := hmore [b] false
  refine ⟨b :: bs, sep, .cons hb hbs, ?_⟩
  rw [hrow, lay_append, List.append_assoc, listed_eq]
  simp only [run_bind, hparse, Option.bind_some, hrest, run_pure, List.singleton_append]

end Lists

end Python

end Rendition
