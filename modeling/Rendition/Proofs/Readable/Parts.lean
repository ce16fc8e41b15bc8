import Rendition.Proofs.Readable.Kinds
import Rendition.Proofs.Source.Quoted

/-!
# The parts of a figure

Lists of glyphs are taken apart again at what separates their parts. Each part is told from the
others because it does not hold the glyph that separates them.

## Theorems

* `intercalate_inj`: Parts joined by a separator are told by its first element.
* `listed_inj`, `spaced_inj`: Parts between commas, and words between blanks.
* `chain_inj`: Operators and operands after an operand.
* `connected_inj`: Values and the connective between them.
* `unary_inj`: An operator and the operand after it.
* `lambdaHead_inj`: The parameters of a function without a name.
* `constant_inj`: Constants with the same figure.
-/

namespace Rendition.Python.Readable

variable {α β γ : Type}

/-! ## Lists -/

/-- Lists that agree up to an element agree up to its first occurrence. -/
theorem append_cons_inj {x : α} {as as' bs bs' : List α} (has : x ∉ as) (has' : x ∉ as')
    (h : as ++ x :: bs = as' ++ x :: bs') : as = as' ∧ bs = bs' := by
  induction as generalizing as' with
  | nil =>
    rcases as' with _ | ⟨a', as'⟩
    · exact ⟨rfl, (List.cons.inj h).2⟩
    · obtain ⟨rfl, -⟩ := List.cons.inj h
      exact absurd List.mem_cons_self has'
  | cons a as ih =>
    rw [List.mem_cons, not_or] at has
    rcases as' with _ | ⟨a', as'⟩
    · exact absurd (List.cons.inj h).1.symm has.1
    · rw [List.mem_cons, not_or] at has'
      obtain ⟨rfl, htail⟩ := List.cons.inj h
      obtain ⟨rfl, hrest⟩ := ih has.2 has'.2 htail
      exact ⟨rfl, hrest⟩

/-- Lists that agree from an element on agree from its last occurrence on. -/
theorem append_cons_inj_right {x : α} {as as' bs bs' : List α} (hbs : x ∉ bs) (hbs' : x ∉ bs')
    (h : as ++ x :: bs = as' ++ x :: bs') : as = as' ∧ bs = bs' := by
  have hreverse := congrArg List.reverse h
  simp only [List.reverse_append, List.reverse_cons, List.append_assoc, List.singleton_append]
    at hreverse
  obtain ⟨htail, hhead⟩ := append_cons_inj (mt List.mem_reverse.mp hbs)
    (mt List.mem_reverse.mp hbs') hreverse
  exact ⟨List.reverse_inj.mp hhead, List.reverse_inj.mp htail⟩

/-- Parts joined by a separator are told by its first element, which none of them holds. -/
theorem intercalate_inj {x : α} {separator : List α} {as bs : List (List α)} (hne : as ≠ [])
    (hne' : bs ≠ []) (has : ∀ a ∈ as, x ∉ a) (hbs : ∀ b ∈ bs, x ∉ b)
    (h : (x :: separator).intercalate as = (x :: separator).intercalate bs) : as = bs := by
  induction as generalizing bs with
  | nil => exact absurd rfl hne
  | cons a as ih =>
    obtain ⟨b, bs, rfl⟩ := List.exists_cons_of_ne_nil hne'
    rw [List.forall_mem_cons] at has hbs
    rcases as with _ | ⟨a', as⟩ <;> rcases bs with _ | ⟨b', bs⟩
    · rw [List.intercalate_singleton, List.intercalate_singleton] at h
      rw [h]
    · rw [List.intercalate_singleton, List.intercalate_cons_cons] at h
      exact absurd (h ▸ by simp) has.1
    · rw [List.intercalate_singleton, List.intercalate_cons_cons] at h
      exact absurd (h ▸ by simp) hbs.1
    · rw [List.intercalate_cons_cons, List.intercalate_cons_cons, List.append_assoc,
        List.append_assoc, List.cons_append, List.cons_append] at h
      obtain ⟨rfl, hrest⟩ := append_cons_inj has.1 hbs.1 h
      rw [ih (List.cons_ne_nil a' as) (List.cons_ne_nil b' bs) has.2 hbs.2
        (List.append_cancel_left hrest)]

/-- What follows from one function for two elements follows for lists of elements. -/
theorem map_eq_of_map_eq {f : α → β} {g : α → γ} {as bs : List α}
    (h : ∀ a ∈ as, ∀ b ∈ bs, f a = f b → g a = g b) (hmap : as.map f = bs.map f) :
    as.map g = bs.map g := by
  induction as generalizing bs with
  | nil =>
    obtain rfl := List.map_eq_nil_iff.mp hmap.symm
    rfl
  | cons a as ih =>
    rcases bs with _ | ⟨b, bs⟩
    · cases hmap
    · obtain ⟨hfirst, hrest⟩ := List.cons.inj hmap
      rw [List.map_cons, List.map_cons, h a List.mem_cons_self b List.mem_cons_self hfirst]
      rw [ih (fun a ha b hb => h a (List.mem_cons_of_mem _ ha) b (List.mem_cons_of_mem _ hb)) hrest]

/-- Elements of which something holds come before elements of which it does not. -/
theorem append_inj_of_forall {α : Type} {p : α → Prop} {as as' bs bs' : List α}
    (has : ∀ a ∈ as, p a) (has' : ∀ a ∈ as', p a) (hbs : ∀ b ∈ bs, ¬p b) (hbs' : ∀ b ∈ bs', ¬p b)
    (h : as ++ bs = as' ++ bs') : as = as' ∧ bs = bs' := by
  classical
  have hfilter : ∀ {as bs : List α}, (∀ a ∈ as, p a) → (∀ b ∈ bs, ¬p b) →
      (as ++ bs).filter (fun a => decide (p a)) = as := by
    intro as bs has hbs
    rw [List.filter_append, List.filter_eq_self.mpr fun a ha => decide_eq_true (has a ha),
      List.filter_eq_nil_iff.mpr fun b hb => by simpa using hbs b hb, List.append_nil]
  obtain rfl : as = as' := by rw [← hfilter has hbs, h, hfilter has' hbs']
  exact ⟨rfl, List.append_cancel_left h⟩

/-! ## Parts between commas and blanks -/

/-- Parts between commas, which are not empty and hold no commas themselves. -/
theorem listed_inj {items items' : List (List Glyph)}
    (h : ∀ item ∈ items, item ≠ [] ∧ .char ',' ∉ item)
    (h' : ∀ item ∈ items', item ≠ [] ∧ .char ',' ∉ item) (heq : listed items = listed items') :
    items = items' := by
  -- Only no items at all are written as nothing.
  have hnil : ∀ {items : List (List Glyph)}, (∀ item ∈ items, item ≠ [] ∧ .char ',' ∉ item) →
      listed items = [] → items = [] := by
    intro items h hlisted
    rcases items with _ | ⟨first, _ | ⟨second, rest⟩⟩
    · rfl
    · rw [listed_singleton] at hlisted
      exact absurd hlisted (h first List.mem_cons_self).1
    · rw [listed_cons] at hlisted
      exact absurd hlisted (List.append_ne_nil_of_right_ne_nil _ (List.cons_ne_nil _ _))
  by_cases hempty : items = []
  · subst hempty
    exact (hnil h' heq.symm).symm
  · refine intercalate_inj hempty (fun hempty' => hempty (hnil h ?_))
      (fun item hitem => (h item hitem).2) (fun item hitem => (h' item hitem).2) heq
    rw [heq, hempty']
    rfl

/-- Words between blanks. -/
theorem spaced_inj {part part' : List Glyph} {parts parts' : List (List Glyph)}
    (h : ∀ p ∈ part :: parts, .char ' ' ∉ p) (h' : ∀ p ∈ part' :: parts', .char ' ' ∉ p)
    (heq : spaced (part :: parts) = spaced (part' :: parts')) : part :: parts = part' :: parts' :=
  intercalate_inj (List.cons_ne_nil _ _) (List.cons_ne_nil _ _) h h' heq

theorem not_mem_listed {c : Char} (hcomma : c ≠ ',') (hblank : c ≠ ' ')
    {items : List (List Glyph)} (h : ∀ item ∈ items, .char c ∉ item) : .char c ∉ listed items := by
  induction items with
  | nil => exact List.not_mem_nil
  | cons first rest ih =>
    rw [List.forall_mem_cons] at h
    rcases rest with _ | ⟨second, rest⟩
    · rw [listed_singleton]
      exact h.1
    · rw [listed_cons]
      simp only [List.mem_append, List.mem_cons, Glyph.char.injEq, hcomma, hblank, not_or,
        false_or]
      exact ⟨h.1, ih h.2⟩

theorem group_inj {bracket bracket' : Bracket} {inside inside' : List Glyph}
    (h : [Glyph.group bracket inside] = [Glyph.group bracket' inside']) : inside = inside' := by
  cases h
  rfl

/-- An operand is told from the group behind it. -/
theorem append_group_inj {gs gs' inside inside' : List Glyph} {bracket bracket' : Bracket}
    (h : gs ++ [.group bracket inside] = gs' ++ [.group bracket' inside']) :
    gs = gs' ∧ inside = inside' := by
  obtain ⟨hgs, hgroup⟩ := List.append_inj' h rfl
  exact ⟨hgs, group_inj hgroup⟩

/-! ## Operators -/

theorem symbol_inj {op op' : Operator} (h : word op.symbol = word op'.symbol) : op = op' := by
  have := word_inj h
  cases op <;> cases op' <;> first | rfl | exact absurd this (by decide)

theorem connective_inj {op op' : Connective} (h : word op.symbol = word op'.symbol) :
    op = op' := by
  have := word_inj h
  cases op <;> cases op' <;> first | rfl | exact absurd this (by decide)

/-- Values between connectives. -/
theorem connected_inj {op op' : Connective} {items items' : List (List Glyph)}
    (hlength : 2 ≤ items.length) (hlength' : 2 ≤ items'.length)
    (h : ∀ item ∈ items, .char ' ' ∉ item) (h' : ∀ item ∈ items', .char ' ' ∉ item)
    (heq : (.char ' ' :: (word op.symbol ++ [.char ' '])).intercalate items =
      (.char ' ' :: (word op'.symbol ++ [.char ' '])).intercalate items') :
    op = op' ∧ items = items' := by
  have hblank : ∀ op : Connective, .char ' ' ∉ word op.symbol :=
    fun op => blank_not_mem_word (by cases op <;> decide)
  have hfirst : ∀ (op : Connective) {items : List (List Glyph)}, 2 ≤ items.length →
      ∃ first rest, first ∈ items ∧
        (.char ' ' :: (word op.symbol ++ [.char ' '])).intercalate items =
          first ++ .char ' ' :: (word op.symbol ++ .char ' ' :: rest) := by
    intro op items hlength
    rcases items with _ | ⟨first, _ | ⟨second, rest⟩⟩
    · cases hlength
    · exact absurd hlength (by simp)
    · refine ⟨first, (.char ' ' :: (word op.symbol ++ [.char ' '])).intercalate (second :: rest),
        List.mem_cons_self, ?_⟩
      rw [List.intercalate_cons_cons, List.append_assoc, List.cons_append, List.append_assoc,
        List.singleton_append]
  -- The connective stands between the first two blanks.
  have hop : op = op' := by
    obtain ⟨first, rest, hmem, hitems⟩ := hfirst op hlength
    obtain ⟨first', rest', hmem', hitems'⟩ := hfirst op' hlength'
    rw [hitems, hitems'] at heq
    have hrest := (append_cons_inj (h first hmem) (h' first' hmem') heq).2
    exact connective_inj (append_cons_inj (hblank op) (hblank op') hrest).1
  have hne : ∀ {items : List (List Glyph)}, 2 ≤ items.length → items ≠ [] := by
    rintro _ hlength rfl
    cases hlength
  subst hop
  exact ⟨rfl, intercalate_inj (hne hlength) (hne hlength') h h' heq⟩

/-- An operator is told from the operand after it. -/
theorem unary_inj {op op' : UnaryOperator} {gs gs' : List Glyph}
    (h : word op.symbol ++ ((if op = .not then [.char ' '] else []) ++ gs) =
      word op'.symbol ++ ((if op' = .not then [.char ' '] else []) ++ gs')) :
    op = op' ∧ gs = gs' := by
  have hop : op = op' := by
    have hhead := congrArg List.head? h
    cases op <;> cases op' <;> first | rfl | cases hhead
  subst hop
  exact ⟨rfl, List.append_cancel_left (List.append_cancel_left h)⟩

/-- The words of an operator are told from the operand after them, which is no `not`. -/
theorem words_inj {op op' : Comparison} {operand operand' : List Glyph}
    {rest rest' : List (List Glyph)} (h : operand ≠ word "not") (h' : operand' ≠ word "not")
    (heq : op.words.map word ++ operand :: rest = op'.words.map word ++ operand' :: rest') :
    op = op' ∧ operand = operand' ∧ rest = rest' := by
  have hword : ∀ {a b : String}, word a = word b ↔ a = b := ⟨word_inj, congrArg word⟩
  -- Only `is` is the beginning of another operator.
  cases op <;> cases op' <;>
    simp only [Comparison.words, List.map_cons, List.map_nil, List.cons_append, List.nil_append,
      List.cons.injEq, hword, String.reduceEq, false_and, true_and] at heq <;>
    first
      | exact ⟨rfl, heq⟩
      | exact absurd heq.1 h
      | exact absurd heq.1.symm h'

/-- Operators and operands after an operand. -/
theorem chain_inj {ops ops' : List Comparison} {operands operands' : List (List Glyph)}
    (hlength : ops.length = operands.length) (hlength' : ops'.length = operands'.length)
    (h : ∀ operand ∈ operands, operand ≠ word "not")
    (h' : ∀ operand ∈ operands', operand ≠ word "not")
    (heq : chain ops operands = chain ops' operands') : ops = ops' ∧ operands = operands' := by
  have hnil : ∀ (op : Comparison) (ops : List Comparison) (operand : List Glyph)
      (operands : List (List Glyph)), chain (op :: ops) (operand :: operands) ≠ [] :=
    fun _ _ _ _ => List.append_ne_nil_of_right_ne_nil _ (List.cons_ne_nil _ _)
  induction ops generalizing operands ops' operands' with
  | nil =>
    obtain rfl := List.length_eq_zero_iff.mp hlength.symm
    rcases ops' with _ | ⟨op', ops'⟩ <;> rcases operands' with _ | ⟨operand', operands'⟩
    · exact ⟨rfl, rfl⟩
    · cases hlength'
    · cases hlength'
    · exact absurd heq.symm (hnil _ _ _ _)
  | cons op ops ih =>
    obtain ⟨operand, operands, rfl⟩ := List.exists_cons_of_length_eq_add_one hlength.symm
    rcases ops' with _ | ⟨op', ops'⟩ <;> rcases operands' with _ | ⟨operand', operands'⟩
    · exact absurd heq (hnil _ _ _ _)
    · cases hlength'
    · cases hlength'
    · rw [List.forall_mem_cons] at h h'
      obtain ⟨rfl, rfl, hrest⟩ := words_inj h.1 h'.1 heq
      obtain ⟨rfl, rfl⟩ :=
        ih (Nat.succ.inj hlength) (Nat.succ.inj hlength') h.2 h'.2 hrest
      exact ⟨rfl, rfl⟩

/-! ## Names and constants -/

theorem not_mem_name {name : String} (h : Text.IsIdentifier name) {c : Char}
    (hc : Text.continuesName c = false) : .char c ∉ word name := by
  intro hmem
  obtain ⟨d, hd, hchar⟩ := mem_word.mp hmem
  cases hchar
  rw [continuesName_of_isName h.1 _ hd] at hc
  cases hc

theorem listing_inj {names names' : List String} (h : ∀ name ∈ names, Text.IsIdentifier name)
    (h' : ∀ name ∈ names', Text.IsIdentifier name) (heq : listing names = listing names') :
    names = names' := by
  have hword : ∀ {names : List String}, (∀ name ∈ names, Text.IsIdentifier name) →
      ∀ item ∈ names.map word, item ≠ [] ∧ .char ',' ∉ item := by
    intro names h
    rw [List.forall_mem_map]
    intro name hname
    refine ⟨fun hempty => ?_, fun hcomma => ?_⟩
    · obtain ⟨⟨c, cs, hcs, -⟩, -⟩ := h name hname
      rw [word, hcs] at hempty
      cases hempty
    · exact not_mem_name (h name hname) (by decide) hcomma
  have hwords : names.map word = names'.map word := by
    refine listed_inj (hword h) (hword h') ?_
    rw [← word_listing, ← word_listing, heq]
  exact List.map_injective_iff.mpr (fun a b => word_inj) hwords

/-- The parameters of a function without a name. -/
theorem lambdaHead_inj {params params' : List String} (h : ∀ p ∈ params, Text.IsIdentifier p)
    (h' : ∀ p ∈ params', Text.IsIdentifier p) (heq : lambdaHead params = lambdaHead params') :
    params = params' := by
  -- With parameters there is a blank behind the keyword.
  have hlonger : ∀ params : List String, "lambda" ≠ "lambda " ++ listing params := by
    intro params heq
    have hlength := congrArg String.length heq
    rw [String.length_append, show "lambda".length = 6 from rfl, show "lambda ".length = 7 from rfl]
      at hlength
    omega
  rw [lambdaHead, lambdaHead] at heq
  split at heq <;> split at heq
  next hnone hnone' => rw [List.isEmpty_iff.mp hnone, List.isEmpty_iff.mp hnone']
  next => exact absurd heq (hlonger params')
  next => exact absurd heq.symm (hlonger params)
  next => exact listing_inj h h' ((String.append_right_inj _).mp heq)

/-- The parameters of a function without a name hold no colon. -/
theorem not_mem_lambdaHead {params : List String} (h : ∀ p ∈ params, Text.IsIdentifier p) :
    .char ':' ∉ word (lambdaHead params) := by
  have hhead : ∀ {text : String}, ':' ∉ text.toList → .char ':' ∉ word text := by
    intro text htext hmem
    obtain ⟨c, hc, hcolon⟩ := mem_word.mp hmem
    cases hcolon
    exact htext hc
  rw [lambdaHead]
  split
  · exact hhead (by decide)
  · rw [word_append, List.mem_append, not_or, word_listing]
    exact ⟨hhead (by decide), not_mem_listed (by decide) (by decide)
      (List.forall_mem_map.mpr fun p hp => not_mem_name (h p hp) (by decide))⟩

/-- A float is written with a point or an exponent, which no integer is written with. -/
theorem constantText_int_ne_float (n : Int) {x : Float} (hx : x.isFinite = true) :
    constantText (.int n) ≠ constantText (.float x) := by
  intro h
  have hdigits := Source.Lexeme.digits_toDigits n.natAbs
  have hint : ∀ c ∈ (constantText (.int n)).toList, c.isDigit = true ∨ c = '-' := by
    intro c hc
    rw [toList_int] at hc
    split at hc
    · exact (List.mem_cons.mp hc).symm.imp_left (hdigits c)
    · exact .inl (hdigits c hc)
  obtain ⟨c, hc, hmark⟩ : ∃ c ∈ (constantText (.float x)).toList, c = '.' ∨ c = 'e' := by
    obtain ⟨text, d, hd, htext⟩ := exists_numeral hx
    obtain ⟨c, hc, hmark⟩ := hd.exists_mark
    refine ⟨c, ?_, hmark⟩
    rcases htext with htext | htext <;> rw [htext]
    · exact hc
    · exact List.mem_cons_of_mem _ hc
  rw [← h] at hc
  rcases hint c hc with hdigit | rfl
  · rcases hmark with rfl | rfl <;> cases hdigit
  · exact absurd hmark (by decide)

theorem constantText_int_inj {m n : Int}
    (h : constantText (.int m) = constantText (.int n)) : m = n := by
  have hdigits : ∀ {m n : Nat}, Nat.toDigits 10 m = Nat.toDigits 10 n → m = n := by
    intro m n h
    rw [← Decimal.natOfDigits_toDigits m, h, Decimal.natOfDigits_toDigits]
  have hminus : ∀ {m n : Nat}, '-' :: Nat.toDigits 10 m ≠ Nat.toDigits 10 n := by
    intro m n h
    exact absurd (Source.Lexeme.digits_toDigits n '-' (h ▸ List.mem_cons_self)) (by decide)
  have htext := congrArg String.toList h
  rw [toList_int, toList_int] at htext
  split at htext <;> split at htext
  next hm hn =>
    have := hdigits (List.cons.inj htext).2
    omega
  next => exact absurd htext hminus
  next => exact absurd htext.symm hminus
  next hm hn =>
    have := hdigits htext
    omega

/-- Constants with the same figure. -/
theorem constant_inj {value value' : Literal}
    (hfinite : ∀ x, value = .float x → x.isFinite = true)
    (hfinite' : ∀ x, value' = .float x → x.isFinite = true)
    (h : depict (.constant value) = depict (.constant value')) : value = value' := by
  have hliteral : ∀ {inside : List Char} {text : String}, [.literal inside] ≠ word text := by
    intro inside text h
    obtain ⟨c, -, hc⟩ := mem_word.mp (h ▸ List.mem_cons_self : Glyph.literal inside ∈ word text)
    exact Glyph.literal_ne_char inside c hc.symm
  by_cases hstr : ∃ text, value = .str text <;> by_cases hstr' : ∃ text, value' = .str text
  · obtain ⟨text, rfl⟩ := hstr
    obtain ⟨text', rfl⟩ := hstr'
    have hinside : text.toList.flatMap Text.quoteChar = text'.toList.flatMap Text.quoteChar := by
      simpa only [depict, List.cons.injEq, Glyph.literal.injEq, and_true] using h
    have htext := congrArg Text.unescape hinside
    rw [Text.unescape_quoted, Text.unescape_quoted] at htext
    rw [String.toList_inj.mp htext]
  · obtain ⟨text, rfl⟩ := hstr
    rw [depict_constant (not_exists.mp hstr')] at h
    exact absurd h hliteral
  · obtain ⟨text', rfl⟩ := hstr'
    rw [depict_constant (not_exists.mp hstr)] at h
    exact absurd h.symm hliteral
  rw [depict_constant (not_exists.mp hstr), depict_constant (not_exists.mp hstr')] at h
  have htext := word_inj h
  -- A number begins like one, and the names of constants do not.
  have hnumber := congrArg startsNumber htext
  cases value with
  | none =>
    cases value' with
    | none => rfl
    | bool b => cases b <;> exact absurd htext (by decide)
    | int n => exact absurd (hnumber.trans (startsNumber_int n)) (by decide)
    | float y => exact absurd (hnumber.trans (startsNumber_float (hfinite' y rfl))) (by decide)
    | str text => exact absurd ⟨text, rfl⟩ hstr'
  | bool a =>
    cases value' with
    | none => cases a <;> exact absurd htext (by decide)
    | bool b => cases a <;> cases b <;> first | rfl | exact absurd htext (by decide)
    | int n =>
      rw [startsNumber_int] at hnumber
      cases a <;> exact absurd hnumber (by decide)
    | float y =>
      rw [startsNumber_float (hfinite' y rfl)] at hnumber
      cases a <;> exact absurd hnumber (by decide)
    | str text => exact absurd ⟨text, rfl⟩ hstr'
  | int m =>
    rw [startsNumber_int] at hnumber
    cases value' with
    | none => exact absurd hnumber (by decide)
    | bool b => cases b <;> exact absurd hnumber (by decide)
    | int n => rw [constantText_int_inj htext]
    | float y => exact absurd htext (constantText_int_ne_float m (hfinite' y rfl))
    | str text => exact absurd ⟨text, rfl⟩ hstr'
  | float x =>
    rw [startsNumber_float (hfinite x rfl)] at hnumber
    cases value' with
    | none => exact absurd hnumber (by decide)
    | bool b => cases b <;> exact absurd hnumber (by decide)
    | int n => exact absurd htext.symm (constantText_int_ne_float n (hfinite x rfl))
    | float y => rw [text_inj (hfinite x rfl) (hfinite' y rfl) htext]
    | str text => exact absurd ⟨text, rfl⟩ hstr'
  | str text => exact absurd ⟨text, rfl⟩ hstr

end Rendition.Python.Readable
