import Rendition.Proofs.Grammar.Sequence
import Rendition.Proofs.Source.Words
import Rendition.Proofs.Tree.Grammatical

/-!
# What parsers find along a course

Some of what the grammar promises concerns a construct alone and not where it stands: which names it
has, and of which kinds its parts are. Here a parser is followed along one course, from what it
finds first to what it makes of that. That it stops at a point of the course is known already, so
whatever a construct leaves behind nothing of is passed over.

## Main definitions

* `Course.Remains`: A list of tokens remains at a point of a course.
* `Course.Finds`: All that a parser finds satisfies a condition.
* `Course.Named`: The words of a course are names.

## Theorems

* `Finds.bind`, `Finds.step`, `Finds.extend`: Parsers put together.
* `finds_listed`, `finds_moreItems`, `finds_itemsUntil`: Lists of items that satisfy a condition.
* `finds_identifier`: What names attributes, functions and parameters.
-/

namespace Rendition.Source.Course

variable {c : Course} {α β : Type}

/-- A list of tokens remains at some point of a course. -/
def Remains (c : Course) (ts : List Token) : Prop :=
  ∃ k us, c.At k ts us

/-- All that a parser finds along a course satisfies a condition. -/
def Finds (c : Course) (P : α → Prop) (p : Parser α) : Prop :=
  ∀ ts, c.Remains ts → ∀ a rest, p ts = some (a, rest) → P a ∧ c.Remains rest

/-- What is known of two parsers that run alike holds of what the first one finds. -/
theorem finds_of_run {p : Parser α} {q : Parser β} {post : Nat → Nat → α → β → Prop} {P : α → Prop}
    (h : ∀ k, c.Run k p q (post k)) (hpost : ∀ {k j a b}, post k j a b → P a) : c.Finds P p := by
  rintro ts ⟨k, us, hat⟩ a rest hp
  obtain ⟨hnone, -⟩ | ⟨a', ts', b, us', j, hsome, -, hj, hab⟩ := (h k).outcome hat
  · rw [hnone] at hp
    cases hp
  · rw [hsome] at hp
    cases hp
    exact ⟨hpost hab, j, us', hj⟩

theorem Follows.finds {p : Parser α} (h : c.Follows p) : c.Finds (fun _ => True) p :=
  finds_of_run h fun _ => trivial

namespace Finds

variable {p : Parser α} {P Q : α → Prop} {R : β → Prop}

theorem pure {a : α} (h : P a) : c.Finds P (pure a) := by
  rintro ts hts _ _ ⟨⟩
  exact ⟨h, hts⟩

theorem failure : c.Finds P (failure : Parser α) := by
  rintro ts - a rest ⟨⟩

theorem mono (h : c.Finds P p) (hPQ : ∀ a, P a → Q a) : c.Finds Q p := by
  intro ts hts a rest hp
  obtain ⟨ha, hrest⟩ := h ts hts a rest hp
  exact ⟨hPQ a ha, hrest⟩

theorem bind (h : c.Finds P p) {f : α → Parser β} (hf : ∀ a, P a → c.Finds R (f a)) :
    c.Finds R (p >>= f) := by
  intro ts hts b rest heq
  obtain ⟨⟨a, ts'⟩, hp, hb⟩ := Option.bind_eq_some_iff.mp heq
  obtain ⟨ha, hts'⟩ := h ts hts a ts' hp
  exact hf a ha ts' hts' b rest hb

theorem map (h : c.Finds P p) {f : α → β} (hf : ∀ a, P a → R (f a)) : c.Finds R (f <$> p) :=
  h.bind fun a ha => .pure (hf a ha)

/-- What a parser finds does not matter to what follows. -/
theorem step (h : c.Follows p) {f : α → Parser β} (hf : ∀ a, c.Finds R (f a)) :
    c.Finds R (p >>= f) :=
  h.finds.bind fun a _ => hf a

/-- What is discarded leaves nothing behind. -/
theorem pass (h : c.Follows p) {f : Unit → Parser β} (hf : c.Finds R (f ())) :
    c.Finds R (discard p >>= f) :=
  .step h.discard.follows fun _ => hf

theorem require {condition : Bool} {f : Unit → Parser β}
    (hf : condition = true → c.Finds R (f ())) : c.Finds R (Source.require condition >>= f) := by
  cases condition with
  | false => exact .failure
  | true => exact hf rfl

theorem ite {D : Prop} [Decidable D] {q : Parser α} (h : D → c.Finds P p) (h' : ¬D → c.Finds P q) :
    c.Finds P (if D then p else q) := by
  split
  · next hD => exact h hD
  · next hD => exact h' hD

theorem orElse {q : Parser α} (h : c.Finds P p) (h' : c.Finds P q) : c.Finds P (p <|> q) := by
  intro ts hts a rest heq
  change (p ts).orElse (fun _ => q ts) = some (a, rest) at heq
  rcases hp : p ts with _ | ⟨b, ts'⟩
  · rw [hp] at heq
    exact h' ts hts a rest heq
  · rw [hp] at heq
    cases heq
    exact h ts hts a rest hp

/-- The token at the front is looked at. -/
theorem front {f : Token → Parser β} (hf : ∀ k t, c.front k = some t → c.Finds R (f t)) :
    c.Finds R (peek >>= f) := by
  have hpeek : c.Finds (fun t => ∃ k, c.front k = some t) peek :=
    finds_of_run (fun k => run_peek) fun {k _ _ _} h => ⟨k, h.2.1⟩
  refine hpeek.bind fun t ht => ?_
  obtain ⟨k, ht⟩ := ht
  exact hf k t ht

/-- A condition is kept by a step that is repeated. -/
theorem extend {step : α → Parser (Option α)} {a : α} (h : P a)
    (hstep : ∀ a, P a → c.Finds (fun r => ∀ b ∈ r, P b) (step a)) : c.Finds P (extend step a) := by
  have hwithin : ∀ fuel a, P a → c.Finds P (extendWithin step fuel a) := by
    intro fuel
    induction fuel with
    | zero => exact fun _ _ => .failure
    | succ fuel ih =>
      refine fun a h => (hstep a h).bind ?_
      rintro (_ | b) hb
      · exact .pure h
      · exact ih b (hb b rfl)
  exact fun ts => hwithin _ a h ts

end Finds

/-! ## Lists -/

theorem follows_continuations : c.Follows continuations :=
  follows_of_run (fun _ => run_continuations) fun h => Nat.le_of_eq h.1

theorem follows_continued? : c.Follows continued? :=
  follows_of_run (fun _ => run_continued?) fun h => Nat.le_of_eq h.1

section Lists

variable {P : α → Prop} {item : Parser α} {continuation : Continuation → α}

/-- Line continuations among items. -/
theorem forall_mem_continued (hcontinuation : ∀ x, P (continuation x)) {as : List α}
    (h : ∀ a ∈ as, P a) (cs : List Continuation) : ∀ a ∈ as ++ cs.map continuation, P a :=
  List.forall_mem_append.mpr ⟨h, List.forall_mem_map.mpr fun x _ => hcontinuation x⟩

theorem forall_mem_concat {as : List α} (h : ∀ a ∈ as, P a) {b : α} (hb : P b) :
    ∀ a ∈ as ++ [b], P a :=
  List.forall_mem_append.mpr ⟨h, List.forall_mem_singleton.mpr hb⟩

variable (hcontinuation : ∀ x, P (continuation x)) (hitem : c.Finds P item)

include hcontinuation hitem

theorem finds_listed (f : Frame) (separator : String) (starts : Token → Bool) :
    c.Finds (fun r => ∀ a ∈ r.1, P a) (listed f separator continuation starts item) := by
  refine hitem.bind fun first hfirst => ?_
  refine Finds.bind (P := fun r => ∀ a ∈ r.1, P a)
    (.extend (List.forall_mem_singleton.mpr hfirst) ?_) fun r hr => .pure hr
  rintro ⟨items, separated, ended⟩ hitems
  refine .ite (fun _ => .pure fun r hr => by cases hr) fun _ => ?_
  refine .step (steady_atMark separator).follows fun _ => .ite (fun _ => ?_)
    fun _ => .pure fun r hr => by cases hr
  refine .step follows_continuations fun before => .pass (follows_shiftOperator f) ?_
  have hbefore := forall_mem_continued hcontinuation hitems before
  refine .front fun _ t _ => .ite (fun _ => ?_)
    fun _ => .pure fun r hr => by cases hr; exact hbefore
  refine .step follows_continuations fun after => hitem.bind fun next hnext => .pure fun r hr => ?_
  cases hr
  exact forall_mem_concat (forall_mem_continued hcontinuation hbefore after) hnext

theorem finds_moreItems (f : Frame) (closing : String) {items : List α} (h : ∀ a ∈ items, P a) :
    c.Finds (fun r => ∀ a ∈ r, P a) (moreItems f closing continuation item items) := by
  refine Finds.bind (P := fun r => ∀ a ∈ r.1, P a) (.extend h ?_) fun r hr => .pure hr
  rintro ⟨items, closed⟩ hitems
  refine .ite (fun _ => .pure fun r hr => by cases hr) fun _ => .step follows_continuations
    fun before => ?_
  have hbefore := forall_mem_continued hcontinuation hitems before
  have hclosed : ∀ {as : List α}, (∀ a ∈ as, P a) → c.Finds
      (fun r => ∀ b ∈ r, ∀ a ∈ b.1, P a) (do discard (shift f); return some (as, true)) :=
    fun has => .pass (follows_shift f) (.pure fun r hr => by cases hr; exact has)
  refine .step (steady_atMark closing).follows fun _ => .ite (fun _ => hclosed hbefore) fun _ => ?_
  refine .pass (follows_mark f.inside ",") (.step follows_continuations fun after => ?_)
  have hafter := forall_mem_continued hcontinuation hbefore after
  refine .step (steady_atMark closing).follows fun _ => .ite (fun _ => hclosed hafter) fun _ => ?_
  refine hitem.bind fun next hnext => .pure fun r hr => ?_
  cases hr
  exact forall_mem_concat hafter hnext

theorem finds_itemsUntil (f : Frame) (closing : String) :
    c.Finds (fun r => ∀ a ∈ r, P a) (itemsUntil f closing continuation item) := by
  refine .step follows_continuations fun before => ?_
  have hbefore := forall_mem_continued hcontinuation (List.forall_mem_nil P) before
  refine .step (steady_atMark closing).follows fun _ => .ite (fun _ => ?_) fun _ => ?_
  · exact .pass (follows_shift f) (.pure hbefore)
  · exact hitem.bind fun first hfirst =>
      finds_moreItems hcontinuation hitem f closing (forall_mem_concat hbefore hfirst)

end Lists

/-! ## Names -/

/-- The words among the tokens of a course are names. -/
def Named (c : Course) : Prop :=
  ∀ t ∈ c.tokens, t.Named

/-- A word at a point is a name. -/
theorem Named.isName (h : c.Named) {k : Nat} {t : Token} (ht : c.front k = some t)
    (hkind : t.kind = .word) : Text.IsName t.text := by
  rcases front_cases ht with ⟨-, htoken⟩ | ⟨-, u, -, -, rfl⟩
  · exact h t (List.mem_of_getElem? htoken) hkind
  · cases hkind

theorem Named.isIdentifier (h : c.Named) {k : Nat} {t : Token} (ht : c.front k = some t)
    (hidentifier : t.isIdentifier = true) : Text.IsIdentifier t.text := by
  obtain ⟨hkind, hreserved⟩ := Bool.and_eq_true_iff.mp hidentifier
  exact ⟨h.isName ht (of_decide_eq_true hkind), Bool.not_eq_true' _ |>.mp hreserved⟩

theorem finds_identifier (h : c.Named) (f : Frame) :
    c.Finds (fun t => Text.IsIdentifier t.text) (identifier f) := by
  have hrun : ∀ k, c.Run k (identifier f) (identifier f) fun _ t _ => Text.IsIdentifier t.text := by
    intro k
    refine .front fun t ht => .require rfl fun hidentifier => ?_
    refine (run_shift f).mono fun j u _ htook => ?_
    obtain rfl := htook.eq_of_front ht
    exact h.isIdentifier ht hidentifier
  exact finds_of_run hrun id

end Rendition.Source.Course
