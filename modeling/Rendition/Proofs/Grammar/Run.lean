import Rendition.Proofs.Grammar.Course

/-!
# Parsers along two courses

The same parser, or two that differ in places only, run on the two lists of tokens of a course: both
fail, or both stop at one point with results that are related. One rule for each way of putting
parsers together takes such a relation from the parts to the whole, so that the grammar can be
followed definition by definition.

## Main definitions

* `Course.Run`: Two parsers that run alike from a point, with what holds of their results.
* `Course.Took`: A token was taken.
* `Course.Follows`, `Course.Steady`: A parser never goes back, and its result holds no places.

## Theorems

* `Run.bind`, `Run.ite`, `Run.extend`: Parsers put together.
* `Run.covered`: The source text that two parsers take is the same.
-/

namespace Rendition.Source.Course

variable {c : Course} {α β γ δ : Type} {k : Nat}

/-- Two parsers run alike from a point: both fail, or both stop at one point with related
    results. -/
def Run (c : Course) (k : Nat) (p : Parser α) (q : Parser β) (post : Nat → α → β → Prop) : Prop :=
  ∀ ts us, c.At k ts us →
    Option.Rel (fun r s => ∃ j, c.At j r.2 s.2 ∧ post j r.1 s.1) (p ts) (q us)

namespace Run

variable {p : Parser α} {q : Parser β} {post : Nat → α → β → Prop}

theorem pure {a : α} {b : β} (h : post k a b) : c.Run k (pure a) (pure b) post :=
  fun _ _ hat => .some ⟨k, hat, h⟩

theorem failure : c.Run k (failure : Parser α) (failure : Parser β) post :=
  fun _ _ _ => .none

/-- Two parsers that run alike fail both, or both find something and stop at one point. -/
theorem outcome (h : c.Run k p q post) {ts us : List Token} (hat : c.At k ts us) :
    p ts = none ∧ q us = none ∨ ∃ a ts' b us' j, p ts = some (a, ts') ∧ q us = some (b, us') ∧
      c.At j ts' us' ∧ post j a b := by
  have hrun := h ts us hat
  rcases hp : p ts with _ | ⟨a, ts'⟩ <;> rcases hq : q us with _ | ⟨b, us'⟩ <;>
    rw [hp, hq] at hrun
  · exact .inl ⟨rfl, rfl⟩
  · cases hrun
  · cases hrun
  · obtain ⟨j, hj, hpost⟩ : ∃ j, c.At j ts' us' ∧ post j a b := by cases hrun; assumption
    exact .inr ⟨a, ts', b, us', j, rfl, rfl, hj, hpost⟩

theorem mono {P : Nat → α → β → Prop} (h : c.Run k p q P) (hpost : ∀ j a b, P j a b → post j a b) :
    c.Run k p q post := by
  intro ts us hat
  obtain ⟨hp, hq⟩ | ⟨a, ts', b, us', j, hp, hq, hj, hP⟩ := h.outcome hat
  · rw [hp, hq]
    exact .none
  · rw [hp, hq]
    exact .some ⟨j, hj, hpost j a b hP⟩

/-- Points are counted from one. -/
theorem of_pos (h : 1 ≤ k → c.Run k p q post) : c.Run k p q post :=
  fun ts us hat => h hat.pos ts us hat

theorem bind {M : Nat → α → β → Prop} {post : Nat → γ → δ → Prop} {f : α → Parser γ}
    {g : β → Parser δ} (h : c.Run k p q M)
    (hfg : ∀ j a b, M j a b → c.Run j (f a) (g b) post) : c.Run k (p >>= f) (q >>= g) post := by
  intro ts us hat
  change Option.Rel _ ((p ts).bind fun r => f r.1 r.2) ((q us).bind fun s => g s.1 s.2)
  obtain ⟨hp, hq⟩ | ⟨a, ts', b, us', j, hp, hq, hj, hmid⟩ := h.outcome hat
  · rw [hp, hq]
    exact .none
  · rw [hp, hq]
    exact hfg j a b hmid ts' us' hj

theorem map {f : α → γ} {g : β → δ} {post : Nat → γ → δ → Prop}
    (h : c.Run k p q fun j a b => post j (f a) (g b)) : c.Run k (f <$> p) (g <$> q) post :=
  h.bind fun _ _ _ hpost => pure hpost

theorem discard (h : c.Run k p q post) :
    c.Run k (discard p) (discard q) fun j _ _ => ∃ a b, post j a b :=
  h.bind fun _ a b hpost => pure ⟨a, b, hpost⟩

theorem ite {P : Prop} [Decidable P] {p' : Parser α} {q' : Parser β}
    (h : P → c.Run k p q post) (h' : ¬P → c.Run k p' q' post) :
    c.Run k (if P then p else p') (if P then q else q') post := by
  split
  · next hP => exact h hP
  · next hP => exact h' hP

/-- One parser where another fails. -/
theorem orElse {p' : Parser α} {q' : Parser β} (h : c.Run k p q post)
    (h' : c.Run k p' q' post) : c.Run k (p <|> p') (q <|> q') post := by
  intro ts us hat
  change Option.Rel _ ((p ts).orElse fun _ => p' ts) ((q us).orElse fun _ => q' us)
  obtain ⟨hp, hq⟩ | ⟨a, ts', b, us', j, hp, hq, hj, hpost⟩ := h.outcome hat
  · rw [hp, hq]
    exact h' ts us hat
  · rw [hp, hq]
    exact .some ⟨j, hj, hpost⟩

/-- What one step of a repetition does: it ends, or goes on with what it adds. -/
abbrev Stepped (I final : Nat → α → β → Prop) (a : α) (b : β) (j : Nat) :
    Option α → Option β → Prop
  | none, none => final j a b
  | some a', some b' => I j a' b'
  | _, _ => False

/-- A step that is repeated until it has nothing to add. -/
theorem extend_until {step : α → Parser (Option α)} {step' : β → Parser (Option β)} {a : α} {b : β}
    {I final : Nat → α → β → Prop} (h : I k a b)
    (hstep : ∀ j a b, I j a b → c.Run j (step a) (step' b) (Stepped I final a b)) :
    c.Run k (extend step a) (extend step' b) final := by
  have hwithin : ∀ fuel k a b, I k a b →
      c.Run k (extendWithin step fuel a) (extendWithin step' fuel b) final := by
    intro fuel
    induction fuel with
    | zero => exact fun _ _ _ _ => failure
    | succ fuel ih =>
      intro k a b h
      refine (hstep k a b h).bind ?_
      rintro j (_ | r) (_ | s) hstepped
      · exact pure hstepped
      · cases hstepped
      · cases hstepped
      · exact ih j r s hstepped
  intro ts us hat
  rw [Source.extend, Source.extend, hat.length_eq]
  exact hwithin _ k a b h ts us hat

/-- A step that is repeated as long as it has something to add. -/
theorem extend {step : α → Parser (Option α)} {step' : β → Parser (Option β)} {a : α} {b : β}
    {I : Nat → α → β → Prop} (h : I k a b)
    (hstep : ∀ j a b, I j a b → c.Run j (step a) (step' b) fun l r s =>
      r.isSome = s.isSome ∧ I l (r.getD a) (s.getD b)) :
    c.Run k (extend step a) (extend step' b) I := by
  refine extend_until (I := I) h fun j a b hinv => (hstep j a b hinv).mono ?_
  rintro l (_ | r) (_ | s) ⟨hsome, hinv⟩
  · exact hinv
  · cases hsome
  · cases hsome
  · exact hinv

end Run

/-! ## Looking at tokens -/

/-- The token at a point was taken. -/
structure Took (c : Course) (k j : Nat) (t u : Token) : Prop where
  front : c.front k = some t
  twin : u = c.twin k t
  le : k ≤ j
  lt : t.kind ≠ .lineEnd → k < j

theorem Took.stands {j : Nat} {t u : Token} (h : c.Took k j t u) (ht : t.kind.isSolid) :
    c.Stands k t.span :=
  ⟨t, h.front, ht, rfl⟩

theorem Took.lt_of_isSolid {j : Nat} {t u : Token} (h : c.Took k j t u) (ht : t.kind.isSolid) :
    k < j :=
  h.lt fun hkind => by
    rw [hkind] at ht
    cases ht

theorem Took.eq_of_front {j : Nat} {t u v : Token} (h : c.Took k j t u)
    (hv : c.front k = some v) : t = v :=
  Option.some.inj (h.front.symm.trans hv)

/-- The token at the front was looked at. -/
def Looked (c : Course) (k : Nat) (test : Token → Bool) (j : Nat) (a b : Bool) : Prop :=
  k = j ∧ b = a ∧ a = (c.front k).any test

theorem exists_of_any {test : Token → Bool} (h : (c.front k).any test = true) :
    ∃ t, c.front k = some t ∧ test t = true := by
  rcases ht : c.front k with _ | t
  · rw [ht] at h
    cases h
  · rw [ht] at h
    exact ⟨t, rfl, h⟩

theorem isSolid_of_isMark {t : Token} {text : String} (h : t.isMark text = true) :
    t.kind.isSolid := by
  rw [show t.kind = .mark from of_decide_eq_true (Bool.and_eq_true_iff.mp h).1]
  rfl

theorem isSolid_of_isWord {t : Token} {text : String} (h : t.isWord text = true) :
    t.kind.isSolid := by
  rw [show t.kind = .word from of_decide_eq_true (Bool.and_eq_true_iff.mp h).1]
  rfl

theorem run_peek : c.Run k peek peek fun j t u => k = j ∧ c.front k = some t ∧ u = c.twin k t := by
  rintro _ _ ⟨hpos, ⟨hnone, rfl, rfl⟩ | ⟨t, ht, rfl, rfl⟩⟩
  · exact .none
  · exact .some ⟨k, ⟨hpos, .inr ⟨t, ht, rfl, rfl⟩⟩, rfl, ht, rfl⟩

/-- A token is taken, and the next one is not yet exposed. -/
theorem run_takeToken : c.Run k takeToken takeToken fun j t u =>
    c.front k = some t ∧ u = c.twin k t ∧ j = next k := by
  rintro _ _ ⟨hpos, ⟨hnone, rfl, rfl⟩ | ⟨t, ht, rfl, rfl⟩⟩
  · exact .none
  · exact .some ⟨next k, at_next hpos, ht, rfl, rfl⟩

theorem run_exposeNext (hk : 1 < k) (f : Frame) (quote : Bool) :
    c.Run k (exposeNext f quote) (exposeNext f quote) fun j _ _ => k ≤ j + 1 := by
  intro ts us hat
  obtain ⟨j, hj, hat'⟩ := hat.expose hk f quote
  exact .some ⟨j, hat', hj⟩

/-- A token is taken, and the next one is exposed. -/
theorem run_take (f : Frame) (quote : Bool) :
    c.Run k (do let t ← takeToken; exposeNext f quote; return t)
      (do let t ← takeToken; exposeNext f quote; return t) (c.Took k) := by
  refine .of_pos fun hpos => run_takeToken.bind ?_
  rintro _ t _ ⟨ht, rfl, rfl⟩
  refine (run_exposeNext (by rw [next]; omega) f quote).bind fun j _ _ hj => .pure ?_
  have hkind := front_kind ht
  rw [next] at hj
  exact ⟨ht, rfl, by omega, fun hne => by have := mt hkind.mpr hne; omega⟩

theorem run_shift (f : Frame) : c.Run k (shift f) (shift f) (c.Took k) :=
  run_take f false

theorem run_shiftOperator (f : Frame) : c.Run k (shiftOperator f) (shiftOperator f) (c.Took k) :=
  run_take f true

theorem run_look {test : Token → Bool} (htest : ∀ t, test (c.twin k t) = test t) :
    c.Run k (fun ts => some (match ts with | [] => false | t :: _ => test t, ts))
      (fun ts => some (match ts with | [] => false | t :: _ => test t, ts)) (c.Looked k test) := by
  rintro _ _ ⟨hpos, ⟨hnone, rfl, rfl⟩ | ⟨t, ht, rfl, rfl⟩⟩
  · exact .some ⟨k, ⟨hpos, .inl ⟨hnone, rfl, rfl⟩⟩, rfl, rfl, by rw [hnone]; rfl⟩
  · exact .some ⟨k, ⟨hpos, .inr ⟨t, ht, rfl, rfl⟩⟩, rfl, htest t, by rw [ht]; rfl⟩

theorem run_atMark (text : String) :
    c.Run k (atMark text) (atMark text) (c.Looked k (·.isMark text)) :=
  run_look fun _ => rfl

theorem run_atWord (text : String) :
    c.Run k (atWord text) (atWord text) (c.Looked k (·.isWord text)) :=
  run_look fun _ => rfl

theorem run_atKind (kind : TokenKind) :
    c.Run k (atKind kind) (atKind kind) (c.Looked k fun t => t.kind = kind) :=
  run_look fun _ => rfl

/-- The token after the one at the front is never the first one. -/
theorem run_second {test : Token → Bool} (htest : ∀ t, test (t.mapSpans c.move) = test t) :
    c.Run k (second test) (second test) fun j a b => k = j ∧ b = a := by
  rintro _ _ ⟨hpos, ⟨hnone, rfl, rfl⟩ | ⟨t, ht, rfl, rfl⟩⟩
  · exact .some ⟨k, ⟨hpos, .inl ⟨hnone, rfl, rfl⟩⟩, rfl, rfl⟩
  · refine .some ⟨k, ⟨hpos, .inr ⟨t, ht, rfl, rfl⟩⟩, rfl, ?_⟩
    rcases c.tokens.drop ((k + 2) / 3) with _ | ⟨u, rest⟩
    · rfl
    · exact htest u

theorem run_require {a b : Bool} (h : b = a) :
    c.Run k (require a) (require b) fun j _ _ => k = j ∧ a = true := by
  subst h
  cases b
  · exact .failure
  · exact .pure ⟨rfl, rfl⟩

theorem run_continuations : c.Run k continuations continuations fun j a b =>
    k = j ∧ b = a.map (Continuation.mapSpans c.move) := by
  rintro _ _ ⟨hpos, ⟨hnone, rfl, rfl⟩ | ⟨t, ht, rfl, rfl⟩⟩
  · exact .some ⟨k, ⟨hpos, .inl ⟨hnone, rfl, rfl⟩⟩, rfl, rfl⟩
  · exact .some ⟨k, ⟨hpos, .inr ⟨t, ht, rfl, rfl⟩⟩, rfl, continuations_twin hpos ht⟩

/-- The token at the front is looked at. -/
theorem Run.front {f : Token → Parser α} {g : Token → Parser β} {post : Nat → α → β → Prop}
    (hfg : ∀ t, c.front k = some t → c.Run k (f t) (g (c.twin k t)) post) :
    c.Run k (peek >>= f) (peek >>= g) post :=
  run_peek.bind fun j t u h => by
    obtain ⟨rfl, ht, rfl⟩ := h
    exact hfg t ht

/-- What is required holds along both courses. -/
theorem Run.require {a b : Bool} (h : b = a) {f : Unit → Parser α} {g : Unit → Parser β}
    {post : Nat → α → β → Prop} (hfg : a = true → c.Run k (f ()) (g ()) post) :
    c.Run k (Source.require a >>= f) (Source.require b >>= g) post :=
  (run_require h).bind fun j _ _ h => by
    obtain ⟨rfl, ha⟩ := h
    exact hfg ha

/-- The line continuations before the token at the front are looked at. -/
theorem Run.continued {f : List Continuation → Parser α} {g : List Continuation → Parser β}
    {post : Nat → α → β → Prop} (hfg : ∀ cs, c.Run k (f cs)
      (g (cs.map (Continuation.mapSpans c.move))) post) :
    c.Run k (continuations >>= f) (continuations >>= g) post :=
  run_continuations.bind fun j cs _ h => by
    obtain ⟨rfl, rfl⟩ := h
    exact hfg cs

theorem run_continued? : c.Run k continued? continued? fun j a b =>
    k = j ∧ b = a.map c.move := by
  refine .continued fun cs => ?_
  refine .pure ⟨rfl, ?_⟩
  cases cs <;> rfl

/-- A token is taken that something is required of. -/
theorem run_required {p : Parser Bool} {test : Token → Bool} (h : c.Run k p p (c.Looked k test))
    (f : Frame) : c.Run k (do require (← p); shiftOperator f)
      (do require (← p); shiftOperator f) fun j t u => c.Took k j t u ∧ test t = true := by
  refine h.bind ?_
  rintro _ _ found ⟨rfl, rfl, hlooked⟩
  refine .require rfl fun hrequired => ?_
  obtain ⟨t, ht, htest⟩ := exists_of_any (hlooked.symm.trans hrequired)
  exact (run_shiftOperator f).mono fun j v u htook => ⟨htook, htook.eq_of_front ht ▸ htest⟩

theorem run_mark (f : Frame) (text : String) :
    c.Run k (mark f text) (mark f text) fun j t u => c.Took k j t u ∧ t.isMark text :=
  run_required (run_atMark text) f

theorem run_word (f : Frame) (text : String) :
    c.Run k (word f text) (word f text) fun j t u => c.Took k j t u ∧ t.isWord text :=
  run_required (run_atWord text) f

theorem run_mark? (f : Frame) (text : String) :
    c.Run k (mark? f text) (mark? f text) fun j a b => b = a ∧ k ≤ j := by
  refine (run_atMark text).bind ?_
  rintro _ _ found ⟨rfl, rfl, -⟩
  refine .ite (fun _ => ?_) fun _ => .pure ⟨rfl, Nat.le_refl k⟩
  refine (run_shiftOperator f).discard.bind ?_
  rintro j _ _ ⟨t, u, htook⟩
  exact .pure ⟨rfl, htook.le⟩

/-- A word is taken that only says what comes next. -/
theorem Run.afterWord (f : Frame) (text : String) {g : Unit → Parser α} {h : Unit → Parser β}
    {post : Nat → α → β → Prop} (hgh : ∀ j t, c.front k = some t → t.isWord text → k < j →
      c.Run j (g ()) (h ()) post) :
    c.Run k (Functor.discard (word f text) >>= g) (Functor.discard (word f text) >>= h) post :=
  (run_word f text).discard.bind fun j _ _ hj => by
    obtain ⟨t, u, htook, hword⟩ := hj
    exact hgh j t htook.front hword (htook.lt_of_isSolid (isSolid_of_isWord hword))

/-! ## Parsers that never go back -/

/-- A parser never goes back. -/
def Follows (c : Course) (p : Parser α) : Prop :=
  ∀ k, c.Run k p p fun j _ _ => k ≤ j

/-- A parser never goes back, and its result holds no places. -/
def Steady (c : Course) (p : Parser α) : Prop :=
  ∀ k, c.Run k p p fun j a b => b = a ∧ k ≤ j

theorem follows_of_run {p : Parser α} {post : Nat → Nat → α → α → Prop}
    (h : ∀ k, c.Run k p p (post k)) (hpost : ∀ {k j a b}, post k j a b → k ≤ j) : c.Follows p :=
  fun k => (h k).mono fun _ _ _ => hpost

theorem Steady.follows {p : Parser α} (h : c.Steady p) : c.Follows p :=
  follows_of_run h And.right

/-- What a parser that is discarded takes does not matter, but where it ends. -/
theorem Run.pass {p : Parser α} (h : c.Follows p) {f : Unit → Parser β} {g : Unit → Parser γ}
    {post : Nat → β → γ → Prop} (hfg : ∀ j, k ≤ j → c.Run j (f ()) (g ()) post) :
    c.Run k (Functor.discard p >>= f) (Functor.discard p >>= g) post :=
  (h k).discard.bind fun j _ _ hj => by
    obtain ⟨-, -, hj⟩ := hj
    exact hfg j hj

/-- The result of a steady parser is the same along both courses. -/
theorem Run.step {p : Parser α} (h : c.Steady p) {f : α → Parser β} {g : α → Parser γ}
    {post : Nat → β → γ → Prop} (hfg : ∀ j a, k ≤ j → c.Run j (f a) (g a) post) :
    c.Run k (p >>= f) (p >>= g) post :=
  (h k).bind fun j a b hab => by
    obtain ⟨rfl, hj⟩ := hab
    exact hfg j b hj

/-- A token that a construct can start with is taken. -/
theorem Run.past {t : Token} (ht : c.front k = some t) (hsolid : t.kind.isSolid)
    {p : Parser Token} (h : c.Run k p p (c.Took k)) {f : Unit → Parser β} {g : Unit → Parser γ}
    {post : Nat → β → γ → Prop} (hfg : ∀ j, k < j → c.Run j (f ()) (g ()) post) :
    c.Run k (Functor.discard p >>= f) (Functor.discard p >>= g) post :=
  h.discard.bind fun j _ _ htook => by
    obtain ⟨v, u, htook⟩ := htook
    obtain rfl := htook.eq_of_front ht
    exact hfg j (htook.lt_of_isSolid hsolid)

section Steady

variable {p : Parser α}

theorem Steady.pure (a : α) : c.Steady (pure a) :=
  fun k => .pure ⟨rfl, Nat.le_refl k⟩

theorem Steady.failure : c.Steady (failure : Parser α) :=
  fun _ => .failure

theorem Steady.bind (h : c.Steady p) {f : α → Parser β} (hf : ∀ a, c.Steady (f a)) :
    c.Steady (p >>= f) :=
  fun _ => .step h fun j a hj => (hf a j).mono fun _ _ _ ⟨hab, hl⟩ => ⟨hab, Nat.le_trans hj hl⟩

theorem Follows.discard (h : c.Follows p) : c.Steady (discard p) :=
  fun k => (h k).discard.mono fun _ _ _ ⟨_, _, hj⟩ => ⟨rfl, hj⟩

theorem Steady.ite {P : Prop} [Decidable P] {q : Parser α} (hp : c.Steady p) (hq : c.Steady q) :
    c.Steady (if P then p else q) :=
  fun k => .ite (fun _ => hp k) fun _ => hq k

theorem Steady.map (h : c.Steady p) (f : α → β) : c.Steady (f <$> p) :=
  h.bind fun a => .pure (f a)

theorem Steady.extend {step : α → Parser (Option α)} (h : ∀ a, c.Steady (step a)) (a : α) :
    c.Steady (extend step a) := by
  intro k
  refine .extend ⟨rfl, Nat.le_refl k⟩ ?_
  rintro j _ a ⟨rfl, hj⟩
  refine (h a j).mono ?_
  rintro l _ r ⟨rfl, hl⟩
  exact ⟨rfl, rfl, Nat.le_trans hj hl⟩

/-- A token may be looked at by a parser that does not depend on its place and its gap. -/
theorem Steady.token {p : Parser Token}
    (h : ∀ k, c.Run k p p fun j t u => u = c.twin k t ∧ k ≤ j) {f : Token → Parser α}
    (hmoved : ∀ k t, f (c.twin k t) = f t) (hf : ∀ t, c.Steady (f t)) : c.Steady (p >>= f) := by
  intro k
  refine (h k).bind ?_
  rintro j t _ ⟨rfl, hj⟩
  rw [hmoved]
  exact (hf t j).mono fun _ _ _ ⟨hab, hl⟩ => ⟨hab, Nat.le_trans hj hl⟩

theorem steady_atMark (text : String) : c.Steady (atMark text) :=
  fun _ => (run_atMark text).mono fun _ _ _ ⟨hj, hab, _⟩ => ⟨hab, Nat.le_of_eq hj⟩

theorem steady_atWord (text : String) : c.Steady (atWord text) :=
  fun _ => (run_atWord text).mono fun _ _ _ ⟨hj, hab, _⟩ => ⟨hab, Nat.le_of_eq hj⟩

theorem steady_atKind (kind : TokenKind) : c.Steady (atKind kind) :=
  fun _ => (run_atKind kind).mono fun _ _ _ ⟨hj, hab, _⟩ => ⟨hab, Nat.le_of_eq hj⟩

theorem steady_second {test : Token → Bool} (htest : ∀ t, test (t.mapSpans c.move) = test t) :
    c.Steady (second test) :=
  fun _ => (run_second htest).mono fun _ _ _ ⟨hj, hab⟩ => ⟨hab, Nat.le_of_eq hj⟩

theorem steady_require (condition : Bool) : c.Steady (require condition) :=
  fun _ => (run_require rfl).mono fun _ _ _ ⟨hj, _⟩ => ⟨rfl, Nat.le_of_eq hj⟩

theorem steady_mark? (f : Frame) (text : String) : c.Steady (mark? f text) :=
  fun _ => run_mark? f text

theorem follows_shift (f : Frame) : c.Follows (shift f) :=
  follows_of_run (fun _ => run_shift f) Took.le

theorem follows_shiftOperator (f : Frame) : c.Follows (shiftOperator f) :=
  follows_of_run (fun _ => run_shiftOperator f) Took.le

theorem follows_mark (f : Frame) (text : String) : c.Follows (mark f text) :=
  follows_of_run (fun _ => run_mark f text) fun h => h.1.le

theorem follows_word (f : Frame) (text : String) : c.Follows (word f text) :=
  follows_of_run (fun _ => run_word f text) fun h => h.1.le

theorem follows_takeToken : c.Follows takeToken :=
  follows_of_run (fun _ => run_takeToken) fun ⟨_, _, hj⟩ => by
    rw [hj, next]
    omega

/-- The end of a line is passed, and the next line begins. -/
theorem steady_passLine (f : Frame) (a : α) :
    c.Steady (do discard takeToken; exposeNext f false; return a) := by
  refine fun k => .of_pos fun hpos => run_takeToken.discard.bind ?_
  rintro _ _ _ ⟨-, -, -, -, rfl⟩
  have hnext : k < next k := by rw [next]; omega
  exact (run_exposeNext (by omega) f false).bind fun j _ _ hj => .pure ⟨rfl, by omega⟩

/-- A parser may look at the token at the front without depending on its place and its gap. -/
theorem Steady.peek {f : Token → Parser α} (hmoved : ∀ k t, f (c.twin k t) = f t)
    (hf : ∀ t, c.Steady (f t)) : c.Steady (peek >>= f) :=
  .token (fun _ => run_peek.mono fun _ _ _ ⟨hj, _, hu⟩ => ⟨hu, Nat.le_of_eq hj⟩) hmoved hf

end Steady

/-! ## Source texts -/

theorem excerpt_cons (t : Token) (ts : List Token) : Token.excerpt (t :: ts) =
    t.text ++ String.join (ts.map fun u => String.ofList u.gap.text ++ u.text) := rfl

/-- Tokens at other places cover the same text. -/
theorem At.excerpt_take {ts us : List Token} (h : c.At k ts us) (n : Nat) :
    Token.excerpt (us.take n) = Token.excerpt (ts.take n) := by
  obtain ⟨-, ⟨-, rfl, rfl⟩ | ⟨t, -, rfl, rfl⟩⟩ := h
  · rfl
  · cases n with
    | zero => rfl
    | succ n =>
      rw [List.take_succ_cons, List.take_succ_cons, excerpt_cons, excerpt_cons, ← List.map_take,
        List.map_map]
      rfl

/-- What remains besides the end of a statement is as long along both courses. -/
theorem At.rest_length {ts us : List Token} (h : c.At k ts us) :
    (match us with
      | t :: rest => if t.kind = TokenKind.lineEnd then rest else us
      | [] => []).length =
    (match ts with
      | t :: rest => if t.kind = TokenKind.lineEnd then rest else ts
      | [] => []).length := by
  obtain ⟨-, ⟨-, rfl, rfl⟩ | ⟨t, -, rfl, rfl⟩⟩ := h
  · rfl
  · have hkind : (c.twin k t).kind = t.kind := rfl
    simp only [hkind]
    split <;> simp only [List.length_cons, List.length_map]

/-- Two parsers that run alike take the same source text. -/
theorem Run.covered {p : Parser α} {q : Parser β} {post : Nat → α → β → Prop}
    (h : c.Run k p q post) :
    c.Run k (covered p) (covered q) fun j r s => s.2 = r.2 ∧ post j r.1 s.1 := by
  intro ts us hat
  change Option.Rel _ ((p ts).bind fun r => some ((r.1, Token.excerpt _), r.2))
    ((q us).bind fun s => some ((s.1, Token.excerpt _), s.2))
  obtain ⟨hp, hq⟩ | ⟨a, ts', b, us', j, hp, hq, hj, hpost⟩ := h.outcome hat
  · rw [hp, hq]
    exact .none
  · rw [hp, hq]
    refine .some ⟨j, hj, ?_, hpost⟩
    -- As much remains along both courses, so as many tokens were taken.
    change Token.excerpt _ = Token.excerpt _
    rw [hat.length_eq]
    exact (congrArg (fun n => Token.excerpt (us.take (ts.length - n))) hj.rest_length).trans
      (hat.excerpt_take _)

theorem Steady.covered {p : Parser α} (h : c.Steady p) : c.Steady (covered p) :=
  fun k => (h k).covered.mono fun _ _ _ ⟨htext, hab, hj⟩ => ⟨Prod.ext hab htext, hj⟩

end Rendition.Source.Course
