import Rendition.Proofs.Source.Moved
import Rendition.Source.Cursor

/-!
# Two courses through tokens

Parsers are followed on two lists of tokens at once: the tokens of a text, and the same tokens at
other places with another gap before the first one. Wherever a parser stands in the first list, it
stands at the same point of the second. The points are numbered: token `i` has the number
`3 * i + 1`, the end of a statement that is exposed before it has `3 * i`, and where the token is
out of place and nothing can be read, the point is `3 * i + 2`.

What a parser makes of the first list is laid out along these points: each construct starts at one
of them, its parts follow one another from there on, and the next construct starts behind them.

## Main definitions

* `Course`: A list of tokens, and what is different in the other one.
* `Course.front`, `Course.twin`: The token at a point, in the first list and in the second.
* `Course.others`: The second list.
* `Course.At`: Two lists of tokens that remain at a point.
* `Construct`: Expressions and statements, as what has parts in the order of the source.
* `Course.Laid`: Constructs follow one another between two points.

## Theorems

* `Course.Laid.append`, `Course.Laid.mono`: Layouts put together, and between points further apart.
* `Course.at_next`, `Course.At.expose`: What remains behind a token, and once the next one is
  exposed.
-/

namespace Rendition.Source

/-- The gap with its line continuations at other places. -/
def Gap.mapSpans (m : Span → Span) (gap : Gap) : Gap :=
  { gap with
    settled := gap.settled.map (Continuation.mapSpans m)
    pending := gap.pending.map (Continuation.mapSpans m) }

theorem Gap.continuations_mapSpans (m : Span → Span) (gap : Gap) :
    (gap.mapSpans m).continuations = gap.continuations.map (Continuation.mapSpans m) :=
  List.map_append.symm

/-- The token at another place. -/
def Token.mapSpans (m : Span → Span) (t : Token) : Token :=
  ⟨t.gap.mapSpans m, m t.span, t.kind, t.text⟩

/-- Whether a construct can start with a token of the kind. -/
def TokenKind.isSolid : TokenKind → Bool
  | word | integer | float | string | mark | formatOpen => true
  | _ => false

/-- Whether a line ends before the token. -/
def Token.endsLine (t : Token) : Bool :=
  t.gap.breaksLine || t.kind = .sourceEnd

/-- A list of tokens, and what is different in another one: all places, and what the gap before the
    first token holds besides its line continuations. -/
structure Course where
  tokens : List Token
  /-- Where places are in the other list. -/
  move : Span → Span
  /-- The gap before the first token of the other list. -/
  gap : Gap
  /-- The end of a statement is no token of a text. -/
  kinds : ∀ t ∈ tokens, t.kind ≠ .lineEnd
  continued : ∀ t ∈ tokens.head?,
    gap.continuations = t.gap.continuations.map (Continuation.mapSpans move)

/-! ## Constructs -/

/-- An expression or a statement. -/
inductive Construct where
  | expr (e : Expr)
  | stmt (s : Stmt)

/-- The expressions and statements directly inside a clause of a `try` statement. -/
def Clause.pieces : Clause → List Construct
  | .except _ caught body => caught.map (fun c => .expr c.expr) ++ body.map .stmt
  | .finally body => body.map .stmt
  | .other .. => []

/-- Whether the clause is executed at last. -/
def Clause.isFinal : Clause → Bool
  | .finally _ => true
  | _ => false

/-- The expressions and statements directly inside clauses: those of the handlers, and those that
    are executed at last. -/
def Clause.inside (clauses : List Clause) : List Construct :=
  (Clause.excepts clauses).flatMap (fun clause =>
    clause.2.1.map (fun c => .expr c.expr) ++ clause.2.2.map .stmt) ++
      (Clause.finalSuite clauses).map .stmt

/-- The expressions and statements directly inside a statement, as the source has them. -/
def Stmt.pieces : Stmt → List Construct
  | expression _ value => [.expr value]
  | assign _ target value => .expr target :: value.toList.map .expr
  | augAssign _ target _ value => [.expr target, .expr value]
  | functionDef _ _ _ body => body.map .stmt
  | classDef _ _ bases body =>
    (bases.toList.flatMap fun bases => bases.2.map fun arg => .expr arg.2) ++ body.map .stmt
  | ifStmt _ test body branches =>
    .expr test :: (body.map .stmt ++ (Branch.statements branches).map .stmt)
  | whileLoop _ test body _ => .expr test :: body.map .stmt
  | forLoop _ target iter body _ => .expr target :: .expr iter :: body.map .stmt
  | tryStmt _ body clauses => body.map .stmt ++ Clause.inside clauses
  | withStmt _ item items body => (item :: items).map .expr ++ body.map .stmt
  | returnStmt _ value => value.toList.map .expr
  | raiseStmt _ exception _ => exception.toList.map .expr
  | _ => []

/-- Where a statement starts. -/
def Stmt.span : Stmt → Span
  | expression s _ | assign s _ _ | augAssign s _ _ _ | functionDef s _ _ _ | classDef s _ _ _
  | ifStmt s _ _ _ | whileLoop s _ _ _ | forLoop s _ _ _ _ | tryStmt s _ _ | withStmt s _ _ _
  | returnStmt s _ | raiseStmt s _ _ | importStmt s _ _ _ | passStmt s | breakStmt s
  | continueStmt s | other s _ => s

namespace Construct

/-- Where the construct starts. -/
def span : Construct → Span
  | expr e => e.span
  | stmt s => s.span

/-- The parts of the construct, as the source has them. -/
def parts : Construct → List Construct
  | expr e => e.parts.map .expr
  | stmt s => s.pieces

/-- Whether the construct stands aside of the others: it is only noted that it is there. -/
def isAside : Construct → Bool
  | expr (.continuation ..) => true
  | stmt (.other ..) => true
  | _ => false

/-- Whether the construct defines a function. -/
def isDefinition : Construct → Bool
  | stmt (.functionDef ..) => true
  | _ => false

end Construct

namespace Clause

theorem inside_cons {clause : Clause} (h : clause.isFinal = false) (rest : List Clause) :
    inside (clause :: rest) = clause.pieces ++ inside rest := by
  cases clause with
  | except span caught body =>
    exact (congrArg (· ++ _) List.flatMap_cons).trans (List.append_assoc ..)
  | «finally» body => cases h
  | other span construct => rfl

theorem inside_append {clauses : List Clause} (h : ∀ clause ∈ clauses, clause.isFinal = false)
    (rest : List Clause) : inside (clauses ++ rest) = clauses.flatMap pieces ++ inside rest := by
  induction clauses with
  | nil => rfl
  | cons clause clauses ih =>
    rw [List.cons_append, inside_cons (h clause (.head _)), ih fun x hx => h x (.tail _ hx),
      List.flatMap_cons, List.append_assoc]

/-- Where only the last clause may be executed at last, what is inside the clauses counts in the
    order in which it is written. -/
theorem inside_eq {clauses rest : List Clause} (h : ∀ clause ∈ clauses, clause.isFinal = false)
    (hrest : rest.length ≤ 1) : inside (clauses ++ rest) = (clauses ++ rest).flatMap pieces := by
  rw [inside_append h, List.flatMap_append]
  rcases rest with _ | ⟨clause, _ | ⟨second, rest⟩⟩
  · rfl
  · rw [List.flatMap_singleton]
    cases clause with
    | except span caught body => rw [inside_cons rfl]; exact congrArg _ (List.append_nil _)
    | «finally» body => rfl
    | other span construct => rfl
  · exact absurd hrest (by simp)

end Clause

namespace Course

variable (c : Course)

/-! ## Points -/

/-- The token at a point. The end of a statement is only exposed where a line ends. -/
def front (k : Nat) : Option Token :=
  if k % 3 = 1 then c.tokens[k / 3]?
  else if k % 3 = 0 then (c.tokens[k / 3]?.filter (·.gap.breaksLine)).map Token.lineEnd
  else none

/-- The token that stands at a point of the other list. -/
def twin (k : Nat) (t : Token) : Token :=
  ⟨if k ≤ 1 then c.gap else t.gap.mapSpans c.move, c.move t.span, t.kind, t.text⟩

/-- The two lists of tokens that remain at a point. -/
def At (k : Nat) (ts us : List Token) : Prop :=
  1 ≤ k ∧ (c.front k = none ∧ ts = [] ∧ us = [] ∨ ∃ t, c.front k = some t ∧
    ts = t :: c.tokens.drop ((k + 2) / 3) ∧
    us = c.twin k t :: (c.tokens.drop ((k + 2) / 3)).map (Token.mapSpans c.move))

/-- The other list of tokens. -/
def others : List Token :=
  match c.tokens with
  | [] => []
  | first :: rest => c.twin 1 first :: rest.map (Token.mapSpans c.move)

/-- A construct can start at the point, and the place of the point. -/
def Stands (k : Nat) (span : Span) : Prop :=
  ∃ t, c.front k = some t ∧ t.kind.isSolid ∧ t.span = span

/-- A line ends before the token at the point. -/
def Ends (k : Nat) : Prop :=
  ∃ t, c.front k = some t ∧ t.endsLine

/-- Constructs follow one another between two points, and so do the parts of each. -/
inductive Laid : Nat → List Construct → Nat → Prop
  | nil {i j : Nat} (h : i ≤ j) : Laid i [] j
  | aside {i j : Nat} {x : Construct} {rest : List Construct} (hx : x.isAside)
    (hrest : Laid i rest j) : Laid i (x :: rest) j
  | cons {i k l j : Nat} {x : Construct} {rest : List Construct} (hi : i ≤ k)
    (hspan : c.Stands k x.span) (hparts : Laid k x.parts l) (hl : k < l)
    (hends : x.isDefinition → c.Ends l) (hrest : Laid l rest j) : Laid i (x :: rest) j

variable {c}

namespace Laid

variable {i j k : Nat} {xs ys : List Construct}

theorem le (h : c.Laid i xs j) : i ≤ j := by
  induction h with
  | nil h => exact h
  | aside _ _ ih => exact ih
  | cons hi _ _ hl _ _ _ ih => omega

/-- What is laid out between two points is laid out between points further apart. -/
theorem mono (h : c.Laid i xs j) {i' j' : Nat} (hi : i' ≤ i) (hj : j ≤ j') : c.Laid i' xs j' := by
  induction h generalizing i' with
  | nil h => exact .nil (by omega)
  | aside hx _ ih => exact .aside hx (ih hi hj)
  | cons hk hspan hparts hl hends _ _ ih =>
    exact .cons (by omega) hspan hparts hl hends (ih (Nat.le_refl _) hj)

/-- Constructs that start where others end. -/
theorem append (hx : c.Laid i xs j) (hy : c.Laid j ys k) : c.Laid i (xs ++ ys) k := by
  induction hx with
  | nil h => exact hy.mono h (Nat.le_refl k)
  | aside hx _ ih => exact .aside hx (ih hy)
  | cons hk hspan hparts hl hends _ _ ih => exact .cons hk hspan hparts hl hends (ih hy)

/-- Constructs behind others start where the others end. -/
theorem split (xs : List Construct) {ys : List Construct} (h : c.Laid i (xs ++ ys) k) :
    ∃ j, c.Laid i xs j ∧ c.Laid j ys k := by
  induction xs generalizing i with
  | nil => exact ⟨i, .nil (Nat.le_refl i), h⟩
  | cons x xs ih =>
    cases h with
    | aside hx hrest =>
      obtain ⟨j, hxs, hys⟩ := ih hrest
      exact ⟨j, .aside hx hxs, hys⟩
    | cons hk hspan hparts hl hends hrest =>
      obtain ⟨j, hxs, hys⟩ := ih hrest
      exact ⟨j, .cons hk hspan hparts hl hends hxs, hys⟩

/-- Constructs aside of the others take up nothing. -/
theorem asides (h : ∀ x ∈ xs, x.isAside) (hij : i ≤ j) : c.Laid i xs j := by
  induction xs with
  | nil => exact .nil hij
  | cons x xs ih => exact .aside (h x (.head _)) (ih fun y hy => h y (.tail _ hy))

/-- Constructs among others are laid out between the same points. -/
theorem sublist (h : c.Laid i xs j) (hys : ys.Sublist xs) : c.Laid i ys j := by
  induction h generalizing ys with
  | nil h =>
    rw [List.sublist_nil.mp hys]
    exact .nil h
  | aside hx hrest ih =>
    cases hys with
    | cons _ hys => exact ih hys
    | cons_cons _ hys => exact .aside hx (ih hys)
  | cons hk hspan hparts hl hends hrest _ ih =>
    cases hys with
    | cons _ hys => exact (ih hys).mono (by omega) (Nat.le_refl _)
    | cons_cons _ hys => exact .cons hk hspan hparts hl hends (ih hys)

end Laid

/-! ## Moving on -/

section Moving

variable {k : Nat} {t : Token} {ts us : List Token}

theorem At.pos (h : c.At k ts us) : 1 ≤ k := h.1

/-- Both lists start at the first point. -/
theorem at_start : c.At 1 c.tokens c.others := by
  refine ⟨Nat.le_refl 1, ?_⟩
  rw [others, show c.front 1 = c.tokens[0]? from rfl]
  rcases c.tokens with _ | ⟨first, rest⟩
  · exact .inl ⟨rfl, rfl, rfl⟩
  · exact .inr ⟨first, rfl, rfl, rfl⟩

theorem At.length_eq (h : c.At k ts us) : us.length = ts.length := by
  obtain ⟨-, ⟨-, rfl, rfl⟩ | ⟨t, -, rfl, rfl⟩⟩ := h
  · rfl
  · simp only [List.length_cons, List.length_map]

@[simp] theorem kind_twin (k : Nat) (t : Token) : (c.twin k t).kind = t.kind := rfl

@[simp] theorem text_twin (k : Nat) (t : Token) : (c.twin k t).text = t.text := rfl

@[simp] theorem span_twin (k : Nat) (t : Token) : (c.twin k t).span = c.move t.span := rfl

/-- The line continuations before the token at the front. -/
theorem continuations_twin (hk : 1 ≤ k) (ht : c.front k = some t) :
    (c.twin k t).gap.continuations =
      t.gap.continuations.map (Continuation.mapSpans c.move) := by
  rw [twin]
  split
  · next hle =>
    obtain rfl : k = 1 := by omega
    refine c.continued t ?_
    rw [List.head?_eq_getElem?]
    exact ht
  · exact Gap.continuations_mapSpans ..

/-- Behind the first token the gaps of both lists are the same but for places. -/
theorem twin_of_lt (hk : 1 < k) (t : Token) : c.twin k t = t.mapSpans c.move := by
  rw [twin, if_neg (by omega)]
  rfl

/-- What stands at the front is a token of the text or the end of a statement. -/
theorem front_cases (ht : c.front k = some t) :
    k % 3 = 1 ∧ c.tokens[k / 3]? = some t ∨
      k % 3 = 0 ∧ ∃ u, c.tokens[k / 3]? = some u ∧ u.gap.breaksLine ∧ u.lineEnd = t := by
  rw [front] at ht
  split at ht
  · next hk => exact .inl ⟨hk, ht⟩
  · split at ht
    · next hk =>
      obtain ⟨u, hu, rfl⟩ := Option.map_eq_some_iff.mp ht
      obtain ⟨hu, hbreaks⟩ := Option.filter_eq_some_iff.mp hu
      exact .inr ⟨hk, u, hu, hbreaks, rfl⟩
    · cases ht

theorem front_kind (ht : c.front k = some t) : t.kind = .lineEnd ↔ k % 3 = 0 := by
  rcases front_cases ht with ⟨hk, ht⟩ | ⟨hk, u, -, -, rfl⟩
  · exact iff_of_false (c.kinds t (List.mem_of_getElem? ht)) (by omega)
  · exact iff_of_true rfl hk

/-- The point behind the token at a point. -/
def next (k : Nat) : Nat :=
  3 * ((k + 2) / 3) + 1

theorem front_next (k : Nat) : c.front (next k) = c.tokens[(k + 2) / 3]? := by
  rw [front, if_pos (by rw [next]; omega), next]
  congr 1
  omega

/-- What remains behind the token at the front. -/
theorem at_next (hk : 1 ≤ k) : c.At (next k) (c.tokens.drop ((k + 2) / 3))
    ((c.tokens.drop ((k + 2) / 3)).map (Token.mapSpans c.move)) := by
  refine ⟨by rw [next]; omega, ?_⟩
  rw [front_next, ← List.head?_drop]
  rcases hrest : c.tokens.drop ((k + 2) / 3) with _ | ⟨u, rest⟩
  · exact .inl ⟨rfl, rfl, rfl⟩
  · have hdrop : c.tokens.drop ((next k + 2) / 3) = rest := by
      rw [show (next k + 2) / 3 = (k + 2) / 3 + 1 by rw [next]; omega, ← List.tail_drop, hrest,
        List.tail_cons]
    refine .inr ⟨u, rfl, by rw [hdrop], ?_⟩
    rw [hdrop, twin_of_lt (by rw [next]; omega)]
    rfl

/-- The token at the front stays or has the end of a statement put in front of it, unless it is out
    of place. -/
theorem At.expose (h : c.At k ts us) (hk : 1 < k) (f : Frame) (quote : Bool) :
    ∃ j, k ≤ j + 1 ∧ c.At j (f.expose quote ts) (f.expose quote us) := by
  obtain ⟨hpos, ⟨hnone, rfl, rfl⟩ | ⟨t, ht, rfl, rfl⟩⟩ := h
  · exact ⟨k, Nat.le_succ k, hpos, .inl ⟨hnone, rfl, rfl⟩⟩
  rw [twin_of_lt hk]
  have hbreaks : (t.mapSpans c.move).gap.breaksLine = t.gap.breaksLine := rfl
  have hleaves : f.leaves quote (t.mapSpans c.move) = f.leaves quote t := rfl
  simp only [Frame.expose, hbreaks, hleaves]
  rcases front_cases ht with ⟨hmod, htoken⟩ | ⟨-, u, -, -, rfl⟩
  · split
    · next hnewline =>
      have hdrop : c.tokens.drop ((k - 1 + 2) / 3) = t :: c.tokens.drop ((k + 2) / 3) := by
        obtain ⟨hlt, rfl⟩ := List.getElem?_eq_some_iff.mp htoken
        rw [show (k - 1 + 2) / 3 = k / 3 by omega, List.drop_eq_getElem_cons hlt]
        congr 2
        omega
      refine ⟨k - 1, by omega, by omega, .inr ⟨t.lineEnd, ?_, by rw [hdrop], ?_⟩⟩
      · rw [front, if_neg (by omega), if_pos (by omega), show (k - 1) / 3 = k / 3 by omega, htoken,
          Option.filter_some, if_pos (Bool.and_eq_true_iff.mp hnewline).2]
        rfl
      · rw [hdrop, twin_of_lt (by omega)]
        rfl
    · split
      · refine ⟨k + 1, by omega, by omega, .inl ⟨?_, rfl, rfl⟩⟩
        rw [front, if_neg (by omega), if_neg (by omega)]
      · exact ⟨k, Nat.le_succ k, hpos, .inr ⟨t, ht, rfl, by rw [twin_of_lt hk]⟩⟩
  · -- The end of a statement has no gap before it.
    have hstay : f.leaves quote u.lineEnd = false := rfl
    have hnewline : (f.newline && u.lineEnd.gap.breaksLine) = false := Bool.and_false _
    simp only [hstay, hnewline, Bool.and_false, Bool.false_eq_true, if_false]
    exact ⟨k, Nat.le_succ k, hpos, .inr ⟨u.lineEnd, ht, rfl, by rw [twin_of_lt hk]⟩⟩

end Moving

end Course

end Rendition.Source
