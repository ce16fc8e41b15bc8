import Rendition.Proofs.Python.Aliases
import Rendition.Proofs.Python.Headed

/-!
# Statements with items are read back

Parentheses behind the word `with` belong to the statement if they hold several items in front of
the colon. What an expression starts with is no such list: there is only one expression between the
parentheses, or something else than the colon follows.

## Main definitions

* `Python.Guarded`: The parentheses of an expression are not taken for those of the items.

## Theorems

* `guarded_phrase`: Only a tuple of several elements in front of the colon is taken for items.
* `readsHead_withStmt`: The head of a `with` statement is read back.
-/

namespace Rendition.Python

open Source Source.Lexeme Text

/-- Whether a tree is a tuple of several elements. -/
def isSeveral (t : Tree) : Prop :=
  ∃ first second rest, t.node = .tuple (first :: second :: rest)

/-- The parentheses of an expression are not taken for those of several items, unless it is a tuple
    of several elements in front of a colon. -/
def Guarded (t : Tree) : Prop :=
  ∀ (n : Nat) (f : Frame) (s : Span) (g : Gap) (ts us : List Token) (u : Token), size t ≤ n →
    f.Sees ts (u :: us) → (isSeveral t → u.isMark ":" = false) →
    enclosedItems (expressionAt n) f (lay s (phrase t g) ++ ts) = none

/-- What starts with another token than a parenthesis. -/
theorem guarded_of_starts {t : Tree} (h : StartsWith (fun c => !c.isMark "(") (phrase t)) :
    Guarded t := by
  intro n f s g ts us u _ _ _
  obtain ⟨kind, text, rest, hfirst, hmark⟩ := h
  rw [hfirst, lay, List.cons_append]
  exact enclosedItems_mark (Bool.not_eq_true' _ ▸ hmark)

/-- What stands in front of a trailer. -/
theorem Guarded.append {t value : Tree} (h : Guarded value) {l : Lexeme} {ls : List Lexeme}
    (hphrase : phrase t = fun g => phrase value g ++ l :: ls) (hflat : l.gap.Flat)
    (hkind : l.kind = .mark) (htext : (l.text == ":") = false) : Guarded t := by
  intro n f s g ts us u hn _ _
  have hsize : size value ≤ n := by
    rw [size, hphrase, List.length_append] at hn
    exact le_of_add_le_left hn
  simp only [hphrase, lay_append, lay, List.append_assoc, List.cons_append]
  refine h n f s g _ _ (l.token (s.after (spell (phrase value g)))) hsize (.flat hflat ?_)
    fun _ => ?_
  · rw [show (l.token (s.after (spell (phrase value g)))).kind = l.kind from rfl, hkind]
    decide
  · rw [Token.isMark, show (l.token (s.after (spell (phrase value g)))).text = l.text from rfl,
      htext, Bool.and_false]

/-! ## Parentheses -/

section Enclosed

variable {t : Tree} {inner : List Lexeme} (hphrase : phrase t = enclosed inner)

include hphrase

/-- Parentheses around one expression, or none. -/
theorem guarded_of_few (hstarts : ∀ (f : Frame) (s s' : Span) (ts : List Token),
      f.inside.Sees (lay s inner ++ (mark ")" {}).token s' :: ts)
        (lay s inner ++ (mark ")" {}).token s' :: ts))
    (h : ∀ (n : Nat) (f : Frame) (s s' : Span) (ts : List Token), inner.length < n →
      itemList (expressionAt n) f (lay s inner ++ (mark ")" {}).token s' :: ts) = none ∨
      ∃ e rest, itemList (expressionAt n) f (lay s inner ++ (mark ")" {}).token s' :: ts) =
        some ([e], rest)) : Guarded t := by
  intro n f s g ts us u hn _ _
  have hlength : inner.length < n := by
    rw [size, hphrase, enclosed, List.length_cons, List.length_append, List.length_cons] at hn
    omega
  rw [hphrase]
  simp only [enclosed, lay, lay_append, List.append_assoc, List.cons_append, List.nil_append]
  exact enclosedItems_few rfl (hstarts f _ _ ts) (h n f.inside _ _ ts hlength)

/-- Parentheses around an expression that they belong to. -/
theorem guarded_of_between (h : Between inner t) : Guarded t := by
  obtain ⟨kind, text, more, rfl, hstarts⟩ := h.starts
  simp only [startsBetween, Bool.not_eq_true', Bool.or_eq_false_iff, decide_eq_false_iff_not]
    at hstarts
  refine guarded_of_few hphrase (fun f s s' ts => .flat Gap.flat_empty hstarts.2) ?_
  intro n f s s' ts hlength
  obtain ⟨e, -, hparse⟩ := h.read n f s s' ts hlength
  have hitem : (some <$> expressionAt n f Level.any : Parser (Option Expr))
      (lay s (⟨{}, kind, text⟩ :: more) ++ (mark ")" {}).token s' :: ts) =
      some (some e, (mark ")" {}).token s' :: ts) := by
    rw [run_map, hparse]
    rfl
  exact .inr ⟨e, _, itemList_of [e] (listed_alone hitem rfl)⟩

end Enclosed

/-- A parser of items that may be absent. -/
theorem Yields.some {α : Type} {f : Frame} {stop : Token → Bool} {parser : Parser α} {p : Phrase}
    {what : α → Prop} (h : Yields f stop parser p what) :
    Yields f stop (Option.some <$> parser) p fun b => ∃ a, b = Option.some a ∧ what a := by
  intro s g ts us u hsees hu
  obtain ⟨a, ha, hparse⟩ := h s g ts us u hsees hu
  refine ⟨Option.some a, ⟨a, rfl, ha⟩, ?_⟩
  rw [run_map, hparse]
  rfl

theorem exists_map_some {α β : Type} {r : α → β → Prop} {as : List α} {bs : List (Option β)}
    (h : List.Forall₂ (fun a b => ∃ b', b = some b' ∧ r a b') as bs) :
    ∃ cs : List β, bs = cs.map some ∧ List.Forall₂ r as cs := by
  induction h with
  | nil => exact ⟨[], rfl, .nil⟩
  | cons h _ ih =>
    obtain ⟨c, rfl, hc⟩ := h
    obtain ⟨cs, rfl, hcs⟩ := ih
    exact ⟨c :: cs, rfl, .cons hc hcs⟩

theorem startsListed_opening {t : Token} (h : t.isOpening = true) :
    startsListed Token.startsExpression t = true := by
  rw [startsListed, Token.startsExpression_opening h, decide_eq_false (Token.kind_opening h).1]
  rfl

/-- Several items are read one after another, up to a token that no expression goes on with. -/
theorem itemList_row {ι : Type} {first : ι} {as : List ι} {p : ι → Phrase} {what : ι → Expr → Prop}
    {n : Nat} {f : Frame} (hstarts : ∀ a ∈ as, StartsWith Token.isOpening (p a))
    (h : ∀ a ∈ first :: as, Yields f (Token.stops Level.any) (expressionAt n f Level.any) (p a)
      (what a)) {ts us : List Token} {u : Token} (hsees : f.Sees ts (u :: us))
    (hu : u.stops Level.any = true) (hcomma : u.isMark "," = false) (s : Span) (g : Gap) :
    ∃ es, List.Forall₂ what (first :: as) es ∧
      itemList (expressionAt n) f (lay s (row ((first :: as).map p) g) ++ ts) =
        some (es, u :: us) := by
  obtain ⟨bs, sep, hbs, hlisted⟩ := listed_row (fun _ => none)
    (fun _ => Token.stops_of_isMark "," rfl (by decide)) hsees hcomma hu (fun _ => rfl)
    (fun a ha => (hstarts a ha).imp fun _ => startsListed_opening) (fun a ha => (h a ha).some) s g
  obtain ⟨es, rfl, hes⟩ := exists_map_some hbs
  exact ⟨es, hes, itemList_of es hlisted⟩

theorem guarded_tuple (span : Span) {items : List Tree} (h : ∀ i ∈ items, Stable i) :
    Guarded (.mk span (.tuple items)) := by
  have hstarts {t : Tree} (ht : Stable t) (more : List Lexeme) (f : Frame) (s s' : Span)
      (ts : List Token) :
      f.inside.Sees (lay s (phrase t {} ++ more) ++ (mark ")" {}).token s' :: ts)
        (lay s (phrase t {} ++ more) ++ (mark ")" {}).token s' :: ts) := by
    obtain ⟨kind, text, rest, hfirst, hopening⟩ := ht.starts
    rw [hfirst]
    exact .flat Gap.flat_empty (Token.kind_opening hopening).1
  rcases items with _ | ⟨first, _ | ⟨second, rest⟩⟩
  · refine guarded_of_few (phrase_tuple span [] (by decide))
      (fun f s s' ts => sees_mark Gap.flat_empty) ?_
    intro n f s s' ts _
    exact .inl (itemList_none (expressionAt_none rfl rfl n Level.any))
  · have hfirst := h first List.mem_cons_self
    refine guarded_of_few (phrase_tuple_single span first) (hstarts hfirst _) ?_
    intro n f s s' ts hlength
    have hsize : size first < n := by
      rw [List.length_append] at hlength
      rw [size]
      omega
    rw [lay_append, List.append_assoc]
    generalize s.after (spell (phrase first {})) = s₁
    obtain ⟨_, ⟨e, rfl, -⟩, hparse⟩ := (hfirst.yields hsize f Level.any).some s {} _ _
      ((mark "," {}).token s₁) (sees_mark Gap.flat_empty)
      (Token.stops_of_isMark "," rfl (by decide))
    exact .inr ⟨e, _, itemList_of [e] (listed_trailing hparse rfl rfl
      (sees_mark Gap.flat_empty) rfl)⟩
  · intro n f s g ts us u hn hsees hcolon
    have hphrase := phrase_tuple span (first :: second :: rest)
      (Nat.succ_ne_succ_iff.mpr (Nat.succ_ne_zero _))
    have hsize : ∀ i ∈ first :: second :: rest, size i < n := by
      intro i hi
      have hlength := length_le_row (List.mem_map_of_mem hi) (h i hi).starts.length_eq {}
      rw [size, hphrase, enclosed, List.length_cons, List.length_append] at hn
      rw [size]
      omega
    rw [hphrase]
    simp only [enclosed, lay, lay_append, List.append_assoc, List.cons_append, List.nil_append]
    generalize s.after (mark "(" g).chars = s₁
    generalize s₁.after (spell (row _ {})) = s₂
    obtain ⟨es, -, hitems⟩ := itemList_row (f := f.inside)
      (fun i hi => (h i (List.mem_cons_of_mem first hi)).starts)
      (fun i hi => (h i hi).yields (hsize i hi) f.inside Level.any)
      (sees_mark Gap.flat_empty) (stops_close Level.any s₂) rfl s₁ {}
    refine enclosedItems_open rfl ?_ hitems rfl hsees (hcolon ⟨first, second, rest, rfl⟩)
    obtain ⟨kind, text, more, hfirst, hopening⟩ := (h first List.mem_cons_self).starts
    rw [List.map_cons, row, hfirst]
    exact .flat Gap.flat_empty (Token.kind_opening hopening).1

/-- The parentheses of an expression are not taken for those of the items, unless it is a tuple of
    several elements in front of the colon. -/
theorem guarded_phrase {t : Tree} (h : t.IsExpression Faithful) : Guarded t := by
  induction h with
  | @ident span id hok hname hvariable =>
    exact guarded_of_starts ⟨.word, id, [], fun g => by rw [phrase_ident]; rfl, rfl⟩
  | @constant span value hok hint =>
    refine guarded_of_starts ?_
    rw [phrase_constant]
    rcases value with _ | (_ | _) | n | x | text <;> exact ⟨_, _, [], fun g => rfl, rfl⟩
  | @binOp span left right op hok hleft hright ihleft ihright =>
    exact guarded_of_between (phrase_binOp span left right op)
      (between_binOp span (stable_phrase hleft) (stable_phrase hright) hok)
  | @unaryOp span op operand hok hoperand ih =>
    exact guarded_of_between (phrase_unaryOp span op operand)
      (between_unaryOp span (stable_phrase hoperand))
  | @compare span left ops comparators hok hops hlength hleft hcomparators ihleft ih =>
    exact guarded_of_between (phrase_compare span left ops comparators) (between_compare span hops
      hlength (stable_phrase hleft) fun c hc => stable_phrase (hcomparators c hc))
  | @boolOp span op values hok hlength hvalues ih =>
    rcases values with _ | ⟨first, _ | ⟨second, rest⟩⟩
    · exact absurd hlength (by decide)
    · exact absurd hlength (Nat.not_succ_le_self 1)
    · exact guarded_of_between (phrase_boolOp span op first (second :: rest))
        (between_boolOp span fun v hv => stable_phrase (hvalues v hv))
  | @call span func args keywords hok hfunc hargs hnames hkeywords ihfunc ihargs ih =>
    exact ihfunc.append (phrase_call span func args keywords) Gap.flat_empty rfl (by decide)
  | @attr span value name hok hvalue hname ih =>
    exact ih.append (phrase_attr span value name) Gap.flat_empty rfl (by decide)
  | @subscript span value index hok hvalue hindex ihvalue ih =>
    exact ihvalue.append (phrase_subscript span value index) Gap.flat_empty rfl (by decide)
  | @list span items hok hitems ih =>
    exact guarded_of_starts ⟨_, _, _, fun g => by rw [phrase_list]; rfl, by decide⟩
  | @tuple span items hok hitems ih =>
    exact guarded_tuple span fun i hi => stable_phrase (hitems i hi)
  | @dict span entries hok hkeys hvalues ihkeys ihvalues =>
    exact guarded_of_starts ⟨_, _, _, fun g => by rw [phrase_dict]; rfl, by decide⟩
  | @ifExp span test body orelse hok htest hbody horelse ihtest ihbody ihorelse =>
    exact guarded_of_between (phrase_ifExp span test body orelse) (between_ifExp span
      (stable_phrase htest) (stable_phrase hbody) (stable_phrase horelse))
  | @lambda span params body hok hparams hbody ih =>
    exact guarded_of_between (phrase_lambda span params body)
      (between_lambda span (fun p hp => (hparams p hp).2) (stable_phrase hbody))

/-! ## Statements -/

section Statements

variable (span : Span) {body : List Tree}

theorem denotes_withStmt {item : WithItem Tree} {items : List (WithItem Tree)} {e : Expr}
    {es : List Expr} {stmts : List Stmt} {place : Span}
    (hitems : List.Forall₂ (fun item e => DenotesItem e item) (item :: items) (e :: es))
    (hbody : DenotesSuite stmts body) :
    DenotesStmt (.withStmt place e es stmts) (.mk span (.withStmt (item :: items) body)) := by
  obtain ⟨us, hreads, halikes⟩ := hbody
  obtain ⟨⟨u, hread, halike⟩, hrest⟩ := List.forall₂_cons.mp hitems
  obtain ⟨vs, hmap, hagree⟩ : ∃ vs : List (WithItem Tree), es.mapM readItem = .ok vs ∧
      agreeList (fun i i' => i.asName == i'.asName && Tree.alike i.context i'.context) items vs =
        true := by
    clear hitems
    induction hrest with
    | nil => exact ⟨[], rfl, rfl⟩
    | @cons item e items es h _ ih =>
      obtain ⟨v, hread', halike'⟩ := h
      obtain ⟨vs, hmap, hagree⟩ := ih
      refine ⟨⟨v, item.asName⟩ :: vs, ?_, ?_⟩
      · rw [List.mapM_cons, hread', ok_bind, hmap]
        rfl
      · simp only [agreeList, beq_self_eq_true, halike', hagree, Bool.and_true]
  refine ⟨.mk place (.withStmt (⟨u, item.asName⟩ :: vs) us), ?_, ?_⟩
  · simp only [Stmt.read, hreads, hread, hmap, ok_bind]
    rfl
  · rw [Tree.alike_mk]
    simp only [Node.agree, agreeList, beq_self_eq_true, halike, hagree, halikes, Bool.and_true]

/-- What stands behind the expression of an item. -/
theorem exists_behind_item {item : WithItem Tree} {rest : List (WithItem Tree)}
    (hsingle : item.asName = none → rest = [] → ¬isSeveral item.context) (s s' : Span)
    (g : Gap) (mid : List Token) (f : Frame) : ∃ u us,
    lay s (row ((item :: rest).map itemPhrase) g) ++ (mark ":" {}).token s' :: mid =
      lay s (phrase item.context g) ++ u :: us ∧ f.Sees (u :: us) (u :: us) ∧
      (isSeveral item.context → u.isMark ":" = false) := by
  obtain ⟨t, _ | name⟩ := item
  · have hphrase : itemPhrase ⟨t, none⟩ g = phrase t g := List.append_nil _
    rcases rest with _ | ⟨second, rest⟩
    · rw [List.map_cons, List.map_nil, row, List.flatMap_nil, List.append_nil, hphrase]
      exact ⟨_, _, rfl, sees_mark Gap.flat_empty, fun h => absurd h (hsingle rfl rfl)⟩
    · rw [List.map_cons, List.map_cons, row, List.flatMap_cons, hphrase, lay_append,
        List.append_assoc, List.cons_append, lay, List.cons_append]
      exact ⟨_, _, rfl, sees_mark Gap.flat_empty, fun _ => rfl⟩
  · have hphrase : itemPhrase ⟨t, some name⟩ g =
        phrase t g ++ word "as" .blank :: dotted name.toList .blank := rfl
    rw [List.map_cons, row, hphrase, List.append_assoc, lay_append, List.append_assoc,
      List.cons_append, lay, List.cons_append]
    exact ⟨_, _, rfl, sees_word Gap.flat_blank, fun _ => rfl⟩

theorem readsHead_withStmt {items : List (WithItem Tree)} (hne : items ≠ [])
    (hitems : ∀ i ∈ items, i.context.IsExpression Faithful)
    (hnames : ∀ i ∈ items, ∀ name ∈ i.asName, IsDotted name.toList)
    (hsingle : ∀ context, items = [⟨context, none⟩] → ¬isSeveral context) :
    ReadsHead (fun g => word "with" g :: row (items.map itemPhrase) .blank) body
      (.mk span (.withStmt items body)) := by
  intro n margin suite s s' g mid ts stmts v hn hv hstmts hsuite
  obtain ⟨item, rest, rfl⟩ := List.exists_cons_of_ne_nil hne
  have hsize : ∀ i ∈ item :: rest, (itemPhrase i {}).length ≤ n := by
    intro i hi
    have hlength := length_le_row (List.mem_map_of_mem hi) (starts_item (hitems i hi)).length_eq
      .blank
    rw [List.length_cons] at hn
    omega
  rw [lay, List.cons_append]
  generalize s.after (word "with" g).chars = s₁
  obtain ⟨es, hes, hlist⟩ := itemList_row
    (fun i hi => starts_item (hitems i (List.mem_cons_of_mem item hi)))
    (fun i hi => yields_item (hitems i hi) (hnames i hi) (hsize i hi) (.head margin))
    (sees_colon margin s' mid) (stops_colon s') rfl s₁ .blank
  have hlast : item.asName = none → rest = [] → ¬isSeveral item.context :=
    fun hnone hnil => hsingle item.context (by rw [← hnone, hnil])
  obtain ⟨u, us, hbehind, hsees, hcolon⟩ :=
    exists_behind_item hlast s₁ s' .blank mid (.head margin)
  have hfirst := hitems item List.mem_cons_self
  have hcontext : size item.context ≤ n + 1 := by
    have hlength : (phrase item.context {} ++ _).length ≤ n := hsize item List.mem_cons_self
    rw [List.length_append] at hlength
    rw [size]
    omega
  have hplain : enclosedItems (expressionAt (n + 1)) (.head margin)
      (lay s₁ (row ((item :: rest).map itemPhrase) .blank) ++ (mark ":" {}).token s' :: mid) =
        none := by
    rw [hbehind]
    exact guarded_phrase hfirst (n + 1) (.head margin) s₁ .blank _ us u hcontext hsees hcolon
  obtain ⟨e, es, rfl⟩ : ∃ e es', es = e :: es' := by
    cases hes with
    | cons => exact ⟨_, _, rfl⟩
  have hwith := (withItems_plain (p := phrases n) hplain).trans hlist
  obtain ⟨first, more, heq, hopening, hgap⟩ :=
    (starts_phrase hfirst).exists_cons s₁ .blank (u :: us)
  rw [hbehind, heq] at hwith ⊢
  exact ⟨_, denotes_withStmt span hes hstmts, statementLine_compound (compound?_with rfl
    (sees_opening hopening (hgap ▸ Gap.flat_blank) more) hwith hsuite)⟩

end Statements

end Rendition.Python
