import Rendition.Source.Cursor

/-!
# What parsers take

A parser is run on tokens that are known, one step after another. What a frame shows of the next
tokens is simple where all gaps are: a token on the same line, or the end of a statement where a
line ends.

## Main definitions

* `Frame.Sees`: What a frame shows of the tokens that follow.
* `moreStep`, `listedStep`: One step of the parsers of lists.

## Theorems

* `extend_done`, `extend_more`, `extend_last`: A repetition, step after step.
* `moreItems_next`, `extend_listed_next`: A list goes on with an item.
* `covered_of`: The source text that a parser takes is that of the tokens that it takes.
-/

namespace Rendition.Source

/-! ## One step after another -/

section Run

variable {α β : Type} {ts rest : List Token}

theorem run_bind (p : Parser α) (q : α → Parser β) (ts : List Token) :
    (p >>= q) ts = (p ts).bind fun r => q r.1 r.2 := rfl

theorem run_map (f : α → β) (p : Parser α) (ts : List Token) :
    (f <$> p) ts = (p ts).bind fun r => some (f r.1, r.2) := rfl

theorem run_pure (a : α) (ts : List Token) : (pure a : Parser α) ts = some (a, ts) := rfl

theorem run_discard (p : Parser α) (ts : List Token) :
    discard p ts = (p ts).bind fun r => some ((), r.2) := rfl

theorem run_ite {c : Prop} [Decidable c] (p q : Parser α) (ts : List Token) :
    (if c then p else q) ts = if c then p ts else q ts := by
  split <;> rfl

theorem run_orElse (p q : Parser α) (ts : List Token) :
    (p <|> q) ts = (p ts).orElse fun _ => q ts := rfl

theorem run_failure (ts : List Token) : (failure : Parser α) ts = none := rfl

theorem run_require (ts : List Token) : require true ts = some ((), ts) := rfl

variable (t : Token)

theorem run_peek (rest : List Token) : peek (t :: rest) = some (t, t :: rest) := rfl

theorem run_takeToken (rest : List Token) : takeToken (t :: rest) = some (t, rest) := rfl

theorem run_atMark (text : String) (rest : List Token) :
    atMark text (t :: rest) = some (t.isMark text, t :: rest) := rfl

theorem run_atWord (text : String) (rest : List Token) :
    atWord text (t :: rest) = some (t.isWord text, t :: rest) := rfl

theorem run_atKind (kind : TokenKind) (rest : List Token) :
    atKind kind (t :: rest) = some (decide (t.kind = kind), t :: rest) := rfl

theorem run_second (test : Token → Bool) (u : Token) (rest : List Token) :
    second test (t :: u :: rest) = some (test u, t :: u :: rest) := rfl

theorem run_continuations (rest : List Token) :
    continuations (t :: rest) = some (t.gap.continuations, t :: rest) := rfl

theorem run_continued? (rest : List Token) : continued? (t :: rest) =
    some (t.gap.continuations.head?.map Continuation.span, t :: rest) := rfl

end Run

/-! ## What a frame shows -/

/-- A gap inside a line, without comments and line continuations. -/
structure Gap.Flat (g : Gap) : Prop where
  inLine : g.breaksLine = false
  comment : g.commentIndent = none
  continuations : g.continuations = []

theorem Gap.flat_empty : Gap.Flat {} :=
  ⟨rfl, rfl, rfl⟩

namespace Frame

/-- What a frame shows of the tokens that follow: a token on the same line as it is, or the end of
    the statement in front of the first token of the next line. -/
inductive Sees (f : Frame) : List Token → List Token → Prop
  | flat {t : Token} {rest : List Token} (hgap : t.gap.Flat) (hkind : t.kind ≠ .lineEnd) :
    Sees f (t :: rest) (t :: rest)
  | ended {t : Token} {rest : List Token} (hnewline : f.newline = true)
    (hbreaks : t.gap.breaksLine = true) : Sees f (t :: rest) (t.lineEnd :: t :: rest)

namespace Sees

variable {f : Frame} {ts us : List Token}

theorem expose (h : f.Sees ts us) (quote : Bool) : f.expose quote ts = us := by
  cases h with
  | flat hgap hkind =>
    simp only [Frame.expose, leaves, hgap.inLine, hgap.comment, Bool.and_false, Bool.false_and,
      Bool.or_false, Bool.false_eq_true, if_false]
  | ended hnewline hbreaks =>
    simp only [Frame.expose, hnewline, hbreaks, Bool.and_true, if_true]

theorem shift (h : f.Sees ts us) (t : Token) : Source.shift f (t :: ts) = some (t, us) :=
  congrArg (fun us => some (t, us)) (h.expose false)

theorem shiftOperator (h : f.Sees ts us) (t : Token) :
    Source.shiftOperator f (t :: ts) = some (t, us) :=
  congrArg (fun us => some (t, us)) (h.expose true)

theorem mark (h : f.Sees ts us) {t : Token} {text : String} (ht : t.isMark text = true) :
    Source.mark f text (t :: ts) = some (t, us) := by
  rw [Source.mark, run_bind, run_atMark, ht]
  exact h.shiftOperator t

theorem word (h : f.Sees ts us) {t : Token} {text : String} (ht : t.isWord text = true) :
    Source.word f text (t :: ts) = some (t, us) := by
  rw [Source.word, run_bind, run_atWord, ht]
  exact h.shiftOperator t

/-- Unless it is the end of a statement, what is shown is what there is. -/
theorem eq_of_kind {u : Token} (h : f.Sees ts (u :: us)) (hu : u.kind ≠ .lineEnd) :
    ts = u :: us := by
  cases h with
  | flat => rfl
  | ended => exact absurd rfl hu

/-- There are no line continuations in front of what is shown. -/
theorem continuations (h : f.Sees ts us) : Source.continuations us = some ([], us) := by
  cases h with
  | flat hgap => rw [run_continuations, hgap.continuations]
  | ended => rfl

theorem continued? (h : f.Sees ts us) : Source.continued? us = some (none, us) := by
  rw [Source.continued?, run_bind, h.continuations]
  rfl

theorem mark? (h : f.Sees ts us) {t : Token} {text : String} (ht : t.isMark text = true) :
    Source.mark? f text (t :: ts) = some (true, us) := by
  simp only [Source.mark?, run_bind, run_atMark, ht, Option.bind_some, if_true, run_discard,
    h.shiftOperator, run_pure]

end Sees

end Frame

theorem mark?_of_ne {t : Token} {text : String} (ht : t.isMark text = false) (f : Frame)
    (ts : List Token) : mark? f text (t :: ts) = some (false, t :: ts) := by
  simp only [mark?, run_bind, run_atMark, ht, Option.bind_some, Bool.false_eq_true, if_false,
    run_pure]

theorem mark_of_ne {t : Token} {text : String} (ht : t.isMark text = false) (f : Frame)
    (ts : List Token) : mark f text (t :: ts) = none := by
  rw [mark, run_bind, run_atMark, ht]
  rfl

theorem Frame.Sees.length_le {f : Frame} {ts us : List Token} (h : f.Sees ts us) :
    us.length ≤ ts.length + 1 := by
  cases h with
  | flat => exact Nat.le_succ _
  | ended => exact Nat.le_refl _

/-! ## Repetition -/

section Extend

variable {α : Type} {step : α → Parser (Option α)} {a b : α} {ts mid rest : List Token}
  {r : α × List Token}

/-- More repetitions than are needed change nothing. -/
theorem extendWithin_mono {fuel : Nat} : ∀ {a ts}, extendWithin step fuel a ts = some r →
    ∀ more, fuel ≤ more → extendWithin step more a ts = some r := by
  induction fuel with
  | zero =>
    intro _ _ h
    cases h
  | succ fuel ih =>
    intro a ts h more hmore
    obtain ⟨more, rfl⟩ := Nat.exists_eq_succ_of_ne_zero (Nat.ne_zero_of_lt hmore)
    rw [extendWithin, run_bind] at h ⊢
    rcases hstep : step a ts with _ | ⟨_ | b, mid⟩
    · rw [hstep] at h
      cases h
    · rw [hstep] at h
      exact h
    · rw [hstep] at h
      exact ih h more (Nat.le_of_succ_le_succ hmore)

/-- A step that has nothing to add is not repeated. -/
theorem extend_done (h : step a ts = some (none, rest)) : extend step a ts = some (a, rest) := by
  rw [extend, extendWithin, run_bind, h]
  rfl

/-- After a step that adds something it goes on. -/
theorem extend_more (h : step a ts = some (some b, mid)) (hlt : mid.length < ts.length)
    (hrest : extend step b mid = some r) : extend step a ts = some r := by
  rw [extend, extendWithin, run_bind, h]
  exact extendWithin_mono hrest _ hlt

/-- The last step may leave as many tokens as there were, with the end of a statement in front. -/
theorem extend_last (h : step a ts = some (some b, mid)) (hne : ts ≠ [])
    (hdone : step b mid = some (none, rest)) : extend step a ts = some (b, rest) := by
  obtain ⟨n, hn⟩ := Nat.exists_eq_succ_of_ne_zero (mt List.length_eq_zero_iff.mp hne)
  rw [extend, hn, extendWithin, run_bind, h]
  simp only [Option.bind_some]
  rw [extendWithin, run_bind, hdone]
  rfl

end Extend

/-! ## Lists -/

section Lists

variable {α : Type} {f : Frame} {closing separator : String} {continuation : Continuation → α}
  {starts : Token → Bool} {item : Parser α} {a : α} {items bs : List α} {c t u : Token}
  {ts mid us : List Token}

/-- One more item of a list with brackets, or its end. -/
def moreStep (f : Frame) (closing : String) (continuation : Continuation → α) (item : Parser α)
    (state : List α × Bool) : Parser (Option (List α × Bool)) := do
  let (items, closed) := state
  if closed then return none
  let items := items ++ (← continuations).map continuation
  if ← atMark closing then
    discard (shift f)
    return some (items, true)
  else
    discard (mark f.inside ",")
    let items := items ++ (← continuations).map continuation
    if ← atMark closing then
      discard (shift f)
      return some (items, true)
    else return some (items ++ [← item], false)

theorem moreItems_eq (items : List α) : moreItems f closing continuation item items = do
    let (items, _) ← extend (moreStep f closing continuation item) (items, false)
    return items := rfl

/-- Nothing follows the closing bracket. -/
theorem moreStep_closed : moreStep f closing continuation item (items, true) us =
    some (none, us) := rfl

/-- A list ends at its closing bracket. -/
theorem moreItems_close (hc : c.isMark closing = true) (hgap : c.gap.continuations = [])
    (hsees : f.Sees ts us) :
    moreItems f closing continuation item items (c :: ts) = some (items, us) := by
  rw [moreItems_eq, run_bind, extend_last (b := (items, true)) ?_ (List.cons_ne_nil _ _)
    moreStep_closed]
  · rfl
  · simp only [moreStep, Bool.false_eq_true, if_false, run_bind, run_pure, run_continuations, hgap,
      List.map_nil, List.append_nil, Option.bind_some, run_atMark, hc, if_true, run_discard,
      hsees.shift]

/-- A comma may stand in front of the closing bracket. -/
theorem moreItems_comma_close (hcomma : t.isMark "," = true) (hopen : t.isMark closing = false)
    (hgap : t.gap.continuations = []) (hflat : f.inside.Sees (c :: ts) (c :: ts))
    (hc : c.isMark closing = true) (hgap' : c.gap.continuations = []) (hsees : f.Sees ts us) :
    moreItems f closing continuation item items (t :: c :: ts) = some (items, us) := by
  rw [moreItems_eq, run_bind, extend_last (b := (items, true)) ?_ (List.cons_ne_nil _ _)
    moreStep_closed]
  · rfl
  · simp only [moreStep, Bool.false_eq_true, if_false, run_bind, run_pure, run_continuations, hgap,
      hgap', List.map_nil, List.append_nil, Option.bind_some, run_atMark, hopen, hc, if_true,
      run_discard, hflat.mark hcomma, hsees.shift]

/-- A list goes on with another item behind a comma. -/
theorem moreItems_next (hcomma : c.isMark "," = true) (hopen : c.isMark closing = false)
    (hgap : c.gap.continuations = []) (hflat : f.inside.Sees (t :: ts) (t :: ts))
    (ht : t.isMark closing = false) (hgap' : t.gap.continuations = [])
    (hitem : item (t :: ts) = some (a, mid)) (hlength : mid.length ≤ ts.length + 1)
    (hrest : moreItems f closing continuation item (items ++ [a]) mid = some (bs, us)) :
    moreItems f closing continuation item items (c :: t :: ts) = some (bs, us) := by
  rw [moreItems_eq, run_bind] at hrest ⊢
  obtain ⟨⟨state, us'⟩, hextend, hstate⟩ := Option.bind_eq_some_iff.mp hrest
  have hmid : mid.length < (c :: t :: ts).length := by
    simp only [List.length_cons]
    omega
  rw [extend_more (b := (items ++ [a], false)) ?_ hmid hextend]
  · exact hstate
  · simp only [moreStep, Bool.false_eq_true, if_false, run_bind, run_pure, run_continuations, hgap,
      hgap', List.map_nil, List.append_nil, Option.bind_some, run_atMark, hopen, ht, run_discard,
      hflat.mark hcomma, hitem, run_ite]

/-- A list between brackets may be empty. -/
theorem itemsUntil_nil (hc : c.isMark closing = true) (hgap : c.gap.continuations = [])
    (hsees : f.Sees ts us) :
    itemsUntil f closing continuation item (c :: ts) = some ([], us) := by
  simp only [itemsUntil, run_bind, run_continuations, hgap, Option.bind_some, run_atMark, hc,
    if_true, run_discard, hsees.shift, run_pure, List.map_nil]

theorem itemsUntil_cons (ht : t.isMark closing = false) (hgap : t.gap.continuations = [])
    (hitem : item (t :: ts) = some (a, mid))
    (hrest : moreItems f closing continuation item [a] mid = some (bs, us)) :
    itemsUntil f closing continuation item (t :: ts) = some (bs, us) := by
  simp only [itemsUntil, run_bind, run_continuations, hgap, Option.bind_some, run_atMark, ht,
    Bool.false_eq_true, if_false, hitem, List.map_nil, List.nil_append, hrest]

/-- One more separator of a list, and the item behind it. -/
def listedStep (f : Frame) (separator : String) (continuation : Continuation → α)
    (starts : Token → Bool) (item : Parser α) (state : List α × Bool × Bool) :
    Parser (Option (List α × Bool × Bool)) := do
  let (items, _, ended) := state
  if ended then return none
  else if ← atMark separator then
    let before := (← continuations).map continuation
    discard (shiftOperator f)
    if starts (← peek) then
      let after := (← continuations).map continuation
      return some (items ++ before ++ after ++ [← item], true, false)
    else return some (items ++ before, true, true)
  else return none

theorem listed_eq : listed f separator continuation starts item = do
    let first ← item
    let (items, separated, _) ← extend (listedStep f separator continuation starts item)
      ([first], false, false)
    return (items, separated) := rfl

/-- A list ends where no separator follows. -/
theorem extend_listed_done (separated : Bool) (hu : u.isMark separator = false) :
    extend (listedStep f separator continuation starts item) (items, separated, false) (u :: us) =
      some ((items, separated, false), u :: us) := by
  refine extend_done ?_
  simp only [listedStep, run_bind, run_ite, run_atMark, Option.bind_some, hu, Bool.false_eq_true,
    if_false, run_pure]

/-- A list may end behind a separator. -/
theorem extend_listed_trailing (separated : Bool) (ht : t.isMark separator = true)
    (hgap : t.gap.continuations = []) (hsees : f.Sees ts (u :: us)) (hu : starts u = false) :
    extend (listedStep f separator continuation starts item) (items, separated, false) (t :: ts) =
      some ((items, true, true), u :: us) := by
  have hdone : listedStep f separator continuation starts item (items, true, true) (u :: us) =
      some (none, u :: us) := rfl
  refine extend_last (b := (items, true, true)) ?_ (List.cons_ne_nil _ _) hdone
  simp only [listedStep, Bool.false_eq_true, if_false, run_bind, run_ite, run_atMark,
    Option.bind_some, ht, if_true, run_continuations, hgap, List.map_nil, List.append_nil,
    run_discard, hsees.shiftOperator, run_peek, hu, run_pure]

/-- A list goes on with another item behind a separator. -/
theorem extend_listed_next {r : (List α × Bool × Bool) × List Token} (separated : Bool)
    (hc : c.isMark separator = true) (hgap : c.gap.continuations = [])
    (hflat : f.Sees (t :: ts) (t :: ts)) (ht : starts t = true) (hgap' : t.gap.continuations = [])
    (hitem : item (t :: ts) = some (a, mid)) (hlength : mid.length ≤ ts.length + 1)
    (hrest : extend (listedStep f separator continuation starts item) (items ++ [a], true, false)
      mid = some r) :
    extend (listedStep f separator continuation starts item) (items, separated, false)
      (c :: t :: ts) = some r := by
  have hmid : mid.length < (c :: t :: ts).length := by
    simp only [List.length_cons]
    omega
  refine extend_more (b := (items ++ [a], true, false)) ?_ hmid hrest
  simp only [listedStep, Bool.false_eq_true, if_false, run_bind, run_ite, run_atMark,
    Option.bind_some, hc, if_true, run_continuations, hgap, hgap', List.map_nil, List.append_nil,
    run_discard, hflat.shiftOperator, run_peek, ht, hitem, run_pure]

/-- An item without a separator behind it is the only one of its list. -/
theorem listed_alone (hitem : item ts = some (a, u :: us)) (hu : u.isMark separator = false) :
    listed f separator continuation starts item ts = some (([a], false), u :: us) := by
  rw [listed_eq, run_bind, hitem]
  simp only [Option.bind_some, run_bind, extend_listed_done false hu, run_pure]

/-- An item behind which nothing follows the separator is the only one, too. -/
theorem listed_trailing (hitem : item ts = some (a, c :: mid)) (hc : c.isMark separator = true)
    (hgap : c.gap.continuations = []) (hsees : f.Sees mid (u :: us)) (hu : starts u = false) :
    listed f separator continuation starts item ts = some (([a], true), u :: us) := by
  rw [listed_eq, run_bind, hitem]
  simp only [Option.bind_some, run_bind, extend_listed_trailing false hc hgap hsees hu, run_pure]

end Lists

/-! ## Source texts -/

/-- The source text that a parser takes is that of the tokens that it takes. -/
theorem covered_of {α : Type} {p : Parser α} {as ts us : List Token} {a : α} {f : Frame}
    (h : p (as ++ ts) = some (a, us)) (hsees : f.Sees ts us) :
    covered p (as ++ ts) = some ((a, Token.excerpt as), us) := by
  have htake : (as ++ ts).take ((as ++ ts).length - ts.length) = as := by
    rw [List.length_append, Nat.add_sub_cancel, List.take_left]
  have hrun {rest : List Token} (hrest : rest = ts) :
      some ((a, Token.excerpt ((as ++ ts).take ((as ++ ts).length - rest.length))), us) =
        some ((a, Token.excerpt as), us) := by
    rw [hrest, htake]
  rw [covered]
  change (p (as ++ ts)).bind _ = _
  rw [h]
  cases hsees with
  | flat hgap hkind => exact hrun (if_neg hkind)
  | ended hnewline hbreaks => exact hrun rfl

end Rendition.Source
