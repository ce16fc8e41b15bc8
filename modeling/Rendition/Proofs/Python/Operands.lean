import Rendition.Proofs.Grammar.Enclosure
import Rendition.Proofs.Python.Front
import Rendition.Proofs.Python.Restored

/-!
# Operands are read back

A name, a literal or a bracket is read as an operand together with all trailers behind it: the
attributes, arguments and indices. So an operand is read back in front of whatever its own trailers
would go on to, and a trailer of an operand is again one.

## Main definitions

* `Python.Recovered`: The phrase of an expression is read as an operand.
* `Python.Stable`: It also starts like one.

## Theorems

* `recovered_ident`, `recovered_constant`: Names and literals.
* `recovered_attr`, `recovered_call`: An operand with one more trailer.
* `arguments_row`: Arguments are read one after another.
-/

namespace Rendition.Python

open Source Source.Lexeme

/-- The number of lexemes of an expression. It bounds how deep the expression is nested. -/
def size (t : Tree) : Nat :=
  (phrase t {}).length

/-- The phrase of an expression is read as an operand, whatever trailers follow it. -/
def Recovered (t : Tree) : Prop :=
  ∀ (n : Nat) (f : Frame) (s : Span) (g : Gap) (ts us : List Token) (u : Token), size t ≤ n →
    f.Sees ts (u :: us) → u.kind ≠ .string → u.kind ≠ .formatOpen →
    (isAwait t → u.startsOperand = false) →
    ∃ e, Restores e t ∧ ∀ r, extend (trailer (expressionAt n) f) e (u :: us) = some r →
      signed (expressionAt n) f (lay s (phrase t g) ++ ts) = some r

/-- A mark goes on with no literal. -/
theorem Recovered.marked {t : Tree} (h : Recovered t) {n : Nat} (hn : size t ≤ n) (f : Frame)
    (s : Span) (g : Gap) (text : String) {g' : Gap} (hg : g'.Flat) (s' : Span) (ts : List Token)
    (hawait : isAwait t → ((mark text g').token s').startsOperand = false) :
    ∃ e, Restores e t ∧ ∀ r,
      extend (trailer (expressionAt n) f) e ((mark text g').token s' :: ts) = some r →
      signed (expressionAt n) f (lay s (phrase t g) ++ (mark text g').token s' :: ts) = some r :=
  h n f s g _ ts _ hn (sees_mark hg) (fun hkind => TokenKind.noConfusion hkind)
    (fun hkind => TokenKind.noConfusion hkind) hawait

theorem kind_endsOperand {u : Token} (h : u.startsOperand = false) :
    u.kind ≠ .string ∧ u.kind ≠ .formatOpen := by
  rw [Token.startsOperand] at h
  constructor <;> intro hkind <;> rw [hkind] at h <;> cases h

/-- In front of a token that goes on with nothing, an operand is an expression of any level. -/
theorem Recovered.yields {t : Tree} (h : Recovered t)
    (hstarts : StartsWith Token.isOpening (phrase t)) {n : Nat} (hn : size t < n) (f : Frame)
    (level : Nat) :
    Yields f (Token.stops level) (expressionAt n f level) (phrase t) fun e => Restores e t := by
  intro s g ts us u hsees hu
  obtain ⟨n, rfl⟩ := Nat.exists_eq_succ_of_ne_zero (Nat.ne_zero_of_lt hn)
  obtain ⟨hends, -⟩ := Token.stops_iff.mp hu
  obtain ⟨hoperand, -⟩ := Token.endsOperand_iff.mp hends
  obtain ⟨hstring, hformat⟩ := kind_endsOperand hoperand
  obtain ⟨e, he, hsigned⟩ :=
    h n f s g ts us u (Nat.le_of_lt_succ hn) hsees hstring hformat fun _ => hoperand
  refine ⟨e, he, ?_⟩
  have hparse := hsigned _ (extend_done (trailer_ends hends))
  obtain ⟨kind, text, rest, hfirst, hopening⟩ := hstarts
  rw [hfirst] at hparse ⊢
  exact expressionAt_alone hparse (Token.isWord_opening hopening "lambda" (by decide))
    (Token.isWord_opening hopening "not" (by decide)) hu

/-! ## Names and literals -/

section Single

variable (span : Span)

/-- An operand of one token other than a string. -/
theorem recovered_token {node : Node Tree} {kind : TokenKind} {text : String}
    (hphrase : phrase (.mk span node) = fun g => [⟨g, kind, text⟩])
    (hopening : (Token.bare kind text).isOpening = true)
    (hawait : (Token.bare kind text).isWord "await" = false) {e : Span → Expr}
    (hatom : ∀ expr f t ts us, t.kind = kind → t.text = text → f.Sees ts us →
      atom expr f (t :: ts) = some (e t.span, us))
    (he : ∀ s, Restores (e s) (.mk span node)) : Recovered (.mk span node) := by
  intro n f s g ts us u hn hsees hstring hformat _
  refine ⟨e (s.after g.text), he _, fun r hr => ?_⟩
  rw [hphrase]
  exact signed_of_atom (t := token s ⟨g, kind, text⟩) hopening hawait
    (hatom _ f _ ts _ rfl rfl hsees) hr

theorem recovered_ident {id : String} (hvariable : isVariable id = true) :
    Recovered (.mk span (.ident id)) := by
  have hopening : (Token.bare .word id).isOpening = true := by
    simp only [Token.bare, Token.isOpening, hvariable, Bool.true_or]
  by_cases h : id = "await"
  · subst h
    intro n f s g ts us u hn hsees hstring hformat hawait
    refine ⟨.ident (s.after g.text) "await", restores_ident span _, fun r hr => ?_⟩
    rw [phrase_ident]
    exact signed_await (t := (word "await" g).token s) hopening rfl hsees (hawait rfl) hr
  · have hne : ∀ text, isVariable text = false → (id == text) = false := by
      intro text htext
      rw [beq_eq_false_iff_ne]
      rintro rfl
      rw [hvariable] at htext
      cases htext
    refine recovered_token span (phrase_ident span id) hopening (beq_eq_false_iff_ne.mpr h)
      (e := fun s => .ident s id)
      (fun expr f t ts us hkind htext hsees => ?_) fun s => restores_ident span id
    simp only [atom, run_bind, run_peek, Option.bind_some, hkind, htext, run_ite,
      hne "True" (by decide), hne "False" (by decide), hne "None" (by decide), Bool.or_self,
      Bool.false_eq_true, if_false, hvariable, run_require, run_discard, hsees.shift, run_pure]

theorem recovered_constant {value : Literal} (hok : Faithful (.constant value))
    (hint : ∀ n, value = .int n → 0 ≤ n ∧ n < Word.signedBound) :
    Recovered (.mk span (.constant value)) := by
  rcases value with _ | value | n | x | text
  · refine recovered_token span (phrase_constant span _) (by decide) (by decide)
      (fun expr f t ts us hkind htext hsees => ?_)
      fun s => restores_constant span (e := .nothing s) rfl rfl rfl
    simp only [atom, run_bind, run_peek, Option.bind_some, hkind, htext, run_ite, run_discard,
      hsees.shift, run_pure]
    rfl
  · have hword : phrase (.mk span (.constant (.bool value))) = fun g =>
        [⟨g, .word, if value then "True" else "False"⟩] := by
      rw [phrase_constant]
      cases value <;> rfl
    refine recovered_token span hword (by cases value <;> decide) (by cases value <;> decide)
      (fun expr f t ts us hkind htext hsees => ?_)
      fun s => restores_constant span (e := .truth s value) rfl (beq_self_eq_true value) rfl
    have hvalue : (t.text == "True") = value := by
      rw [htext]
      cases value <;> decide
    have hname : (t.text == "True" || t.text == "False") = true := by
      rw [htext]
      cases value <;> decide
    simp only [atom, run_bind, run_peek, Option.bind_some, hkind, hname, if_true, run_ite,
      run_discard, hsees.shift, run_pure]
    rw [hvalue]
  · have hread (s : Span) :
        Expr.read (.integer s (toString n)) = .ok (.mk s (.constant (.int n))) := by
      obtain ⟨hnonneg, hbound⟩ := hint n rfl
      rw [Expr.read, readInteger, integerValue?_toString hnonneg hbound]
    refine recovered_token span (phrase_constant span _) rfl rfl
      (fun expr f t ts us hkind htext hsees => ?_)
      fun s => restores_constant span (hread s) (beq_self_eq_true n) rfl
    simp only [atom, run_bind, run_peek, Option.bind_some, hkind, htext, run_discard, hsees.shift,
      run_pure]
  · obtain ⟨y, hy, hxy⟩ := hok
    have hread (s : Span) : Expr.read (.float s (Style.source.text x)) =
        .ok (.mk s (.constant (.float y))) := by
      rw [Expr.read, readFloat, hy]
    refine recovered_token span (phrase_constant span _) rfl rfl
      (fun expr f t ts us hkind htext hsees => ?_)
      fun s => restores_constant span (hread s) hxy rfl
    simp only [atom, run_bind, run_peek, Option.bind_some, hkind, htext, run_discard, hsees.shift,
      run_pure]
  · have hread (s : Span) : Expr.read (.string s (Text.quote text)) =
        .ok (.mk s (.constant (.str text))) := by
      rw [Expr.read, stringValue_quote]
      rfl
    intro n f s g ts us u hn hsees hstring hformat _
    refine ⟨.string (s.after g.text) (Text.quote text),
      restores_constant span (hread _) (beq_self_eq_true text) rfl, fun r hr => ?_⟩
    rw [phrase_constant]
    exact signed_of_atom (t := (constant (.str text) g).token s) rfl rfl
      (atom_string rfl hsees hstring hformat) hr

end Single

/-! ## Trailers -/

section Trailers

variable (span : Span)

theorem recovered_attr {value : Tree} (h : Recovered value) {name : String}
    (hname : isReserved name = false) : Recovered (.mk span (.attr value name)) := by
  intro n f s g ts us u hn hsees hstring hformat _
  have hphrase := phrase_attr span value name
  have hsize : size value ≤ n := by
    rw [size, hphrase, List.length_append] at hn
    exact le_of_add_le_left hn
  simp only [hphrase, lay_append, lay, List.append_assoc, List.cons_append, List.nil_append]
  generalize s.after (spell (phrase value g)) = s₁
  generalize s₁.after (mark "." {}).chars = s₂
  obtain ⟨e, he, hsigned⟩ := h.marked hsize f s g "." Gap.flat_empty s₁ _ fun _ => rfl
  have hidentifier : ((word name {}).token s₂).isIdentifier = true := by
    simp only [word, token, Token.isIdentifier, hname, decide_true, Bool.not_false, Bool.and_self]
  refine ⟨_, restores_attr span he name, fun r hr => hsigned r (extend_more
    (trailer_attr rfl hidentifier (sees_word Gap.flat_empty) hsees) ?_ hr)⟩
  have hlength := hsees.length_le
  simp only [List.length_cons] at hlength ⊢
  omega

/-- What stands between the parentheses of a call: expressions, some of them with a name. -/
def argumentPhrase (arg : Option String × Tree) : Phrase :=
  match arg with
  | (none, t) => phrase t
  | (some name, t) => fun g => word name g :: mark "=" {} :: phrase t {}

/-- An argument is read back with its name. -/
def RestoresArgument (arg : Option String × Tree) (e : Option String × Expr) : Prop :=
  e.1 = arg.1 ∧ Denotes e.2 arg.2

theorem yields_positional {t : Tree} (hopens : ∃ kind text rest, Opens (phrase t) kind text rest)
    (h : Recovered t) {n : Nat} (hn : size t < n) (f : Frame) :
    Yields f (separates ")") (argument (expressionAt n) f) (phrase t)
      (RestoresArgument (none, t)) := by
  obtain ⟨kind, text, rest, hopens⟩ := hopens
  intro s g ts us u hsees hu
  obtain ⟨e, he, hparse⟩ := h.yields hopens.starts hn f Level.any s g ts us u hsees
    (stops_of_separates (by decide) hu)
  obtain rfl := eq_of_separates hsees hu
  refine ⟨(none, e), ⟨rfl, he.read⟩, ?_⟩
  rw [hopens.eq] at hparse ⊢
  refine argument_plain hopens.opening (fun hword c hc => ?_) hparse
  rcases rest with _ | ⟨l, rest⟩
  · obtain rfl := Option.some.inj hc
    exact isMark_separates hu "=" (by decide) (by decide)
  · obtain rfl := Option.some.inj hc
    obtain ⟨m, hm, rfl⟩ := hopens.second hword l rfl
    have hequals : ∀ m ∈ [".", "(", "["], (m == "=") = false := by decide
    exact hequals m hm

theorem yields_named {t : Tree} (hstarts : StartsWith Token.isOpening (phrase t)) (h : Recovered t)
    {name : String} (hname : isVariable name = true) {n : Nat} (hn : size t < n) (f : Frame) :
    Yields f (separates ")") (argument (expressionAt n) f) (argumentPhrase (some name, t))
      (RestoresArgument (some name, t)) := by
  intro s g ts us u hsees hu
  simp only [argumentPhrase, lay, List.cons_append]
  generalize s.after (word name g).chars = s₁
  generalize s₁.after (mark "=" {}).chars = s₂
  obtain ⟨e, he, hparse⟩ := h.yields hstarts hn f Level.any s₂ {} ts us u hsees
    (stops_of_separates (by decide) hu)
  obtain ⟨kind, text, rest, hfirst, hopening⟩ := hstarts
  refine ⟨(some name, e), ⟨rfl, he.read⟩, ?_⟩
  rw [hfirst] at hparse ⊢
  exact argument_named rfl hname rfl (sees_mark Gap.flat_empty)
    (.flat Gap.flat_empty (Token.kind_opening hopening).1) hparse

theorem starts_named {name : String} (hname : isVariable name = true) (t : Tree) :
    StartsWith Token.isOpening (argumentPhrase (some name, t)) := by
  refine ⟨.word, name, _, fun g => rfl, ?_⟩
  simp only [Token.bare, Token.isOpening, hname, Bool.true_or]

/-- An expression that is read back wherever it stands. -/
structure Stable (t : Tree) : Prop where
  recovered : Recovered t
  opens : ∃ kind text rest, Opens (phrase t) kind text rest

theorem Stable.starts {t : Tree} (h : Stable t) : StartsWith Token.isOpening (phrase t) := by
  obtain ⟨kind, text, rest, hopens⟩ := h.opens
  exact hopens.starts

theorem Stable.yields {t : Tree} (h : Stable t) (hn : size t < n) (f : Frame) (level : Nat) :
    Yields f (Token.stops level) (expressionAt n f level) (phrase t) fun e => Restores e t :=
  h.recovered.yields h.starts hn f level

theorem starts_argument {arg : Option String × Tree} (h : Stable arg.2)
    (hname : ∀ name ∈ arg.1, isVariable name = true) :
    StartsWith Token.isOpening (argumentPhrase arg) := by
  obtain ⟨_ | name, t⟩ := arg
  · exact h.starts
  · exact starts_named (hname name rfl) t

theorem size_le_argument (arg : Option String × Tree) :
    size arg.2 ≤ (argumentPhrase arg {}).length := by
  obtain ⟨_ | name, t⟩ := arg
  · exact Nat.le_refl _
  · simp only [argumentPhrase, List.length_cons, size]
    omega

/-- The arguments of a call, and the bases of a class, are read one after another. -/
theorem arguments_row {as : List (Option String × Tree)} (has : ∀ a ∈ as, Stable a.2)
    (hnames : ∀ a ∈ as, ∀ name ∈ a.1, isVariable name = true) {n : Nat}
    (hn : ∀ a ∈ as, size a.2 < n) {f : Frame} {ts us : List Token} (hsees : f.Sees ts us)
    (s : Span) (g : Gap) : ∃ es, List.Forall₂ RestoresArgument as es ∧
    arguments (expressionAt n) f
      (lay s (enclosed (row (as.map argumentPhrase) {}) g) ++ ts) =
      some ((s.after g.text, some es), us) := by
  have hstarts : ∀ a ∈ as, StartsWith Token.isOpening (argumentPhrase a) :=
    fun a ha => starts_argument (has a ha) (hnames a ha)
  have hyields : ∀ a ∈ as, Yields f.inside (separates ")") (argument (expressionAt n) f.inside)
      (argumentPhrase a) (RestoresArgument a) := by
    rintro ⟨_ | name, t⟩ ha
    · exact yields_positional (has _ ha).opens (has _ ha).recovered (hn _ ha) f.inside
    · exact yields_named (has _ ha).starts (has _ ha).recovered (hnames _ ha name rfl) (hn _ ha)
        f.inside
  rcases as with _ | ⟨a, as⟩
  · refine ⟨[], .nil, ?_⟩
    exact arguments_nil (t := (mark "(" g).token s) rfl rfl (sees_mark Gap.flat_empty) hsees
  · obtain ⟨c, mid, hrow, honward⟩ := row_onward ")" Continuation.toArgument (by decide)
      hsees (fun b hb => (hstarts b (List.mem_cons_of_mem a hb)).imp fun t ht =>
        startsItem_opening ht (by decide))
      (fun b hb => hyields b (List.mem_cons_of_mem a hb)) a (s.after (mark "(" g).chars) {}
    obtain ⟨e, he, hparse⟩ := hyields a List.mem_cons_self (s.after (mark "(" g).chars) {} _ _ _
      (honward.sees f.inside) honward.separates
    obtain ⟨es, hes, hmore⟩ := honward.more [e]
    refine ⟨e :: es, .cons he hes, ?_⟩
    simp only [enclosed, lay, List.cons_append, hrow]
    obtain ⟨kind, text, rest, hfirst, hopening⟩ := hstarts a List.mem_cons_self
    rw [hfirst] at hparse ⊢
    exact arguments_cons rfl hopening (.flat Gap.flat_empty (Token.kind_opening hopening).1) hparse
      (Bool.or_eq_true_iff.mp honward.separates) hmore

/-- The arguments of a call, those without a name first. -/
def callArguments (args : List Tree) (keywords : List (Keyword Tree)) :
    List (Option String × Tree) :=
  args.map (fun t => (none, t)) ++ keywords.map fun k => (some k.name, k.value)

theorem map_callArguments (args : List Tree) (keywords : List (Keyword Tree)) :
    (callArguments args keywords).map argumentPhrase =
      args.map phrase ++ keywords.map keywordPhrase := by
  rw [callArguments, List.map_append, List.map_map, List.map_map]
  rfl

theorem forall_callArguments {P : Option String × Tree → Prop} {args : List Tree}
    {keywords : List (Keyword Tree)} (hargs : ∀ t ∈ args, P (none, t))
    (hkeywords : ∀ k ∈ keywords, P (some k.name, k.value)) :
    ∀ a ∈ callArguments args keywords, P a :=
  List.forall_mem_append.mpr ⟨List.forall_mem_map.mpr hargs, List.forall_mem_map.mpr hkeywords⟩

/-- What the arguments of a call are read as, those without a name first. -/
theorem exists_callArguments {args : List Tree} {keywords : List (Keyword Tree)}
    {es : List (Option String × Expr)}
    (h : List.Forall₂ RestoresArgument (callArguments args keywords) es) :
    ∃ es₁ es₂, es = es₁ ++ es₂ ∧
      List.Forall₂ (fun t arg => arg.1 = none ∧ Denotes arg.2 t) args es₁ ∧
      List.Forall₂ (fun k arg => arg.1 = some k.name ∧ Denotes arg.2 k.value) keywords es₂ := by
  have hargs := (List.forall₂_take_append es _ _ h.flip).flip
  have hkeywords := (List.forall₂_drop_append es _ _ h.flip).flip
  exact ⟨_, _, (List.take_append_drop _ es).symm, List.forall₂_map_left_iff.mp hargs,
    List.forall₂_map_left_iff.mp hkeywords⟩

/-- A part of a row is shorter than the row. -/
theorem length_le_row {ps : List Phrase} {p : Phrase} (hp : p ∈ ps)
    (hlength : ∀ g g', (p g).length = (p g').length) (g : Gap) :
    (p {}).length ≤ (row ps g).length := by
  rcases ps with _ | ⟨first, rest⟩
  · cases hp
  · rw [row, List.length_append]
    rcases List.mem_cons.mp hp with rfl | hp
    · rw [hlength {} g]
      exact Nat.le_add_right _ _
    · have hmem : mark "," {} :: p .blank ∈ rest.map fun q => mark "," {} :: q .blank :=
        List.mem_map_of_mem hp
      have hle := (List.sublist_flatten_of_mem hmem).length_le
      rw [← List.flatMap_def, List.length_cons, hlength .blank {}] at hle
      omega

theorem recovered_call {func : Tree} {args : List Tree} {keywords : List (Keyword Tree)}
    (hfunc : Stable func) (hawait : ¬isAwait func) (hargs : ∀ a ∈ args, Stable a)
    (hnames : ∀ k ∈ keywords, isVariable k.name = true)
    (hkeywords : ∀ k ∈ keywords, Stable k.value) :
    Recovered (.mk span (.call func args keywords)) := by
  intro n f s g ts us u hn hsees hstring hformat _
  have hphrase := phrase_call span func args keywords
  have hstable := forall_callArguments (P := fun a => Stable a.2) hargs hkeywords
  have hvariable : ∀ a ∈ callArguments args keywords, ∀ name ∈ a.1, isVariable name = true :=
    forall_callArguments (fun _ _ name hname => absurd hname (Option.not_mem_none name))
      fun k hk name hname => by
      rw [← Option.some.inj hname]
      exact hnames k hk
  have hsize : size func ≤ n ∧ ∀ a ∈ callArguments args keywords, size a.2 < n := by
    rw [size, hphrase, ← map_callArguments, List.length_append] at hn
    simp only [enclosed, List.length_cons, List.length_append] at hn
    refine ⟨by rw [size]; omega, fun a ha => ?_⟩
    have hmem : argumentPhrase a ∈ (callArguments args keywords).map argumentPhrase :=
      List.mem_map_of_mem ha
    have hlength :=
      length_le_row hmem (starts_argument (hstable a ha) (hvariable a ha)).length_eq {}
    have hpart : size a.2 ≤ (argumentPhrase a {}).length := size_le_argument a
    omega
  simp only [hphrase, ← map_callArguments, lay_append, List.append_assoc]
  generalize s.after (spell (phrase func g)) = s₁
  obtain ⟨es, hes, hparse⟩ := arguments_row hstable hvariable hsize.2 hsees s₁ {}
  obtain ⟨es₁, es₂, rfl, hargs', hkeywords'⟩ := exists_callArguments hes
  simp only [enclosed, lay, List.cons_append] at hparse ⊢
  obtain ⟨e, he, hsigned⟩ := hfunc.recovered.marked hsize.1 f s g "(" Gap.flat_empty s₁ _
    fun h => absurd h hawait
  refine ⟨_, restores_call span he hargs' hkeywords', fun r hr => hsigned r (extend_more
    (trailer_call rfl hparse) ?_ hr)⟩
  have hlength := hsees.length_le
  simp only [List.length_cons, List.length_append, lay_append, lay] at hlength ⊢
  omega

end Trailers

end Rendition.Python
