import Rendition.Proofs.Grammar.Simple
import Rendition.Source.Parser

/-!
# Compound statements along two courses

Compound statements, given that the suites inside them are followed. Whether a line leaves a block
depends on the gap before its first token, so behind the first token of the source both courses
agree on it. The block of the whole source is not left by any line.

## Main definitions

* `Course.Suited`: A suite was read.
* `Course.ReadsSuites`: A parser reads suites along both courses.

## Theorems

* `ReadsSuites.read`: What goes on behind a suite.
* `run_branches`, `run_clauses`: What belongs to a statement behind its first suite.
* `run_compound?`: Compound statements.
* `run_block`, `readsSuites_suiteAt`: Blocks and suites.
* `run_statements`: The statements of a source text.
* `parseTokens?_at`: The tokens of a source text, and the same tokens at other places.
-/

namespace Rendition.Source.Course

variable {c : Course} {k : Nat}

/-- A suite was read, with the line continuations before it. Behind it a line ends. -/
structure Suited (c : Course) (k j : Nat) (r s : List Continuation × List Stmt) : Prop where
  leading : s.1 = r.1.map (Continuation.mapSpans c.move)
  row : (Items.stmts c).Row k j r.2 s.2
  ends : c.Ends j
  inner : 1 < j

/-- A parser reads suites along both courses. -/
def ReadsSuites (c : Course) (suite : SuiteParser) : Prop :=
  ∀ margin k, c.Run k (suite margin) (suite margin) (c.Suited k)

/-- The statements of a row. -/
theorem laid_stmts {i j : Nat} {as bs : List Stmt} (h : (Items.stmts c).Row i j as bs) :
    c.Laid i (as.map .stmt) j := by
  rw [List.map_eq_flatMap]
  exact h.2

theorem Suited.laid {j : Nat} {r s : List Continuation × List Stmt} (h : c.Suited k j r s) :
    c.Laid k (r.2.map .stmt) j :=
  laid_stmts h.row

theorem Suited.moved {j : Nat} {r s : List Continuation × List Stmt} (h : c.Suited k j r s) :
    s.2 = mapSuite c.move r.2 :=
  h.row.1.trans (mapSuite_eq c.move r.2).symm

/-- A suite that is read is the same along both courses but for its places. -/
theorem ReadsSuites.read {suite : SuiteParser} (hsuite : c.ReadsSuites suite) {α β : Type}
    {margin : Nat} {f : List Continuation × List Stmt → Parser α}
    {g : List Continuation × List Stmt → Parser β} {post : Nat → α → β → Prop}
    (hfg : ∀ j leading body, c.Suited k j (leading, body)
        (leading.map (Continuation.mapSpans c.move), mapSuite c.move body) →
      c.Run j (f (leading, body))
        (g (leading.map (Continuation.mapSpans c.move), mapSuite c.move body)) post) :
    c.Run k (suite margin >>= f) (suite margin >>= g) post := by
  refine (hsuite margin k).bind ?_
  rintro j ⟨leading, body⟩ ⟨_, _⟩ hbody
  obtain rfl := hbody.leading
  obtain rfl := hbody.moved
  exact hfg j leading body hbody

namespace Items

/-- What an `except` clause lists. -/
def caught (c : Course) : Items c Caught where
  view x := [.expr x.expr]
  move := Caught.mapSpans c.move
  continuation := Continuation.toCaught
  moved _ := rfl
  aside _ := List.forall_mem_singleton.mpr rfl

/-- Clauses of a `try` statement. -/
def clauses (c : Course) : Items c Clause where
  view := Clause.pieces
  move := Clause.mapSpans c.move
  continuation := Continuation.toClause
  moved _ := rfl
  aside _ := nofun

end Items

/-- Clauses that follow one another between two points, none of which is executed at last. -/
structure Handled (c : Course) (i j : Nat) (as bs : List Clause) : Prop where
  row : (Items.clauses c).Row i j as bs
  plain : ∀ x ∈ as, x.isFinal = false

namespace Handled

variable {i j l : Nat} {as bs : List Clause}

theorem nil (h : i ≤ j) : c.Handled i j [] [] :=
  ⟨.nil h, nofun⟩

theorem mono (h : c.Handled i j as bs) (hl : j ≤ l) : c.Handled i l as bs :=
  ⟨h.row.mono hl, h.plain⟩

theorem append (h : c.Handled i j as bs) {as' bs' : List Clause} (h' : c.Handled j l as' bs') :
    c.Handled i l (as ++ as') (bs ++ bs') :=
  ⟨h.row.append h'.row, List.forall_mem_append.mpr ⟨h.plain, h'.plain⟩⟩

theorem concat (h : c.Handled i j as bs) {x : Clause} (hx : x.isFinal = false)
    (hlaid : c.Laid j x.pieces l) : c.Handled i l (as ++ [x]) (bs ++ [x.mapSpans c.move]) :=
  ⟨h.row.concat hlaid, List.forall_mem_append.mpr ⟨h.plain, List.forall_mem_singleton.mpr hx⟩⟩

theorem resume (h : c.Handled i j as bs) (cs : List Continuation) :
    c.Handled i j (as ++ cs.map Continuation.toClause)
      (bs ++ (cs.map (Continuation.mapSpans c.move)).map Continuation.toClause) :=
  ⟨h.row.resume cs, List.forall_mem_append.mpr ⟨h.plain, List.forall_mem_map.mpr fun _ _ => rfl⟩⟩

/-- Behind the others may be one clause that is executed at last. -/
theorem inside (h : c.Handled i j as bs) {final final' : List Clause}
    (hfinal : (Items.clauses c).Row j l final final') (hlength : final.length ≤ 1) :
    bs ++ final' = (as ++ final).map (Clause.mapSpans c.move) ∧
      c.Laid i (Clause.inside (as ++ final)) l := by
  obtain ⟨hmoved, hlaid⟩ := h.row.append hfinal
  exact ⟨hmoved, by rw [Clause.inside_eq h.plain hlength]; exact hlaid⟩

end Handled

/-- Whether a line leaves a block is the same along both courses behind the first token. -/
theorem leavesBlock_twin {margin : Nat} (h : margin = 0 ∨ 1 < k) (t : Token) :
    (c.twin k t).leavesBlock margin = t.leavesBlock margin := by
  rcases h with rfl | hk
  · have hnever : ∀ u : Token, u.leavesBlock 0 = false := fun u => by
      rw [Token.leavesBlock, decide_eq_false (Nat.not_lt_zero _), Bool.and_false]
    rw [hnever, hnever]
  · rw [twin_of_lt hk]
    rfl

theorem run_atClause (hk : 1 < k) (margin : Nat) (text : String) :
    c.Run k (atClause margin text) (atClause margin text) fun j a b =>
      k = j ∧ b = a ∧ (a = true → ∃ t, c.front k = some t ∧ t.isWord text) := by
  refine .front fun t ht => ?_
  rw [leavesBlock_twin (.inr hk)]
  exact .pure ⟨rfl, rfl, fun h => ⟨t, ht, (Bool.and_eq_true_iff.mp h).1⟩⟩

section Statements

variable {p : Phrases} (hp : c.ReadsPhrases p) {suite : SuiteParser} (hsuite : c.ReadsSuites suite)

include hsuite

theorem follows_suite (margin : Nat) : c.Follows (suite margin) :=
  follows_of_run (hsuite margin) fun h => h.row.le

/-! ## Clauses -/

theorem run_loopElse (hk : 1 < k) (margin : Nat) :
    c.Run k (loopElse suite margin) (loopElse suite margin) fun j r s =>
      s = r.map c.move ∧ k ≤ j := by
  refine (run_atClause hk margin "else").bind ?_
  rintro _ a _ ⟨rfl, rfl, -⟩
  refine .ite (fun _ => ?_) fun _ => .pure ⟨rfl, Nat.le_refl k⟩
  refine (run_shift _).bind ?_
  rintro i t _ htook
  obtain rfl := htook.twin
  exact .pass (follows_suite hsuite margin) fun j hj => .pure ⟨rfl, Nat.le_trans htook.le hj⟩

include hp

theorem run_branches (hk : 1 < k) (margin : Nat) :
    c.Run k (branches p suite margin) (branches p suite margin) fun j r s =>
      s = r.map (Branch.mapSpans c.move) ∧ c.Laid k ((Branch.statements r).map .stmt) j := by
  -- A branch with a condition is a statement with the branches behind it inside.
  refine Run.bind (M := fun j r s => 1 < j ∧ s = r.map (Branch.mapSpans c.move) ∧
    ∀ rest l, c.Laid j ((Branch.statements rest).map .stmt) l →
      c.Laid k ((Branch.statements (r ++ rest)).map .stmt) l)
    (.extend ⟨hk, rfl, fun _ _ h => h⟩ ?_) ?_
  · rintro j r _ ⟨hj, rfl, hbefore⟩
    refine (run_atClause hj margin "elif").bind ?_
    rintro _ a _ ⟨rfl, rfl, hword⟩
    refine .ite (fun ha => ?_) fun _ => .pure ⟨rfl, hj, rfl, hbefore⟩
    obtain ⟨t, ht, hword⟩ := hword ha
    refine (run_shiftOperator _).bind ?_
    rintro l u _ htook
    obtain rfl := htook.eq_of_front ht
    obtain rfl := htook.twin
    have hlt := htook.lt_of_isSolid (isSolid_of_isWord hword)
    refine (hp.expr _ Level.any l).read fun m test htest => ?_
    refine hsuite.read fun n leading body hbody => ?_
    refine .pure ⟨rfl, hbody.inner, ?_, fun rest o hrest => ?_⟩
    · rw [Option.getD_some, Option.getD_some, List.map_append]
      rfl
    · rw [Option.getD_some, List.append_assoc]
      have hle := hrest.le
      have hle' := hbody.row.le
      have hlt' := htest.lt
      refine hbefore (.elifBranch u.span test body :: rest) o (.cons (Nat.le_refl j)
        (htook.stands (isSolid_of_isWord hword)) ?_ (by omega) nofun (.nil (Nat.le_refl o)))
      exact (htest.behind (Nat.le_of_lt hlt)).append (hbody.laid.append hrest)
  · rintro j r _ ⟨hj, rfl, hbefore⟩
    refine (run_atClause hj margin "else").bind ?_
    rintro _ a _ ⟨rfl, rfl, -⟩
    refine .ite (fun _ => ?_) fun _ => ?_
    · refine .pass (follows_shift _) fun l hl => hsuite.read fun m leading body hbody => ?_
      refine .pure ⟨?_, hbefore [.elseBranch body] m (hbody.laid.mono hl (Nat.le_refl m))⟩
      rw [List.map_append]
      rfl
    · have hall := hbefore [] j (.nil (Nat.le_refl j))
      rw [List.append_nil] at hall
      exact .pure ⟨rfl, hall⟩

omit hsuite in
theorem run_caught (f : Frame) :
    c.Run k (caught p f) (caught p f) ((Items.caught c).Row k) := by
  refine .step (steady_atMark "*") fun i _ hi => ?_
  extract_lets item rest
  have hitem : c.Gives (Items.caught c) item := by
    refine fun k => (hp.expr f Level.any k).covered.bind ?_
    rintro j ⟨e, text⟩ ⟨e', text'⟩ ⟨htext, he⟩
    obtain rfl : text' = text := htext
    obtain rfl : e' = e.mapSpans c.move := he.moved
    exact .pure ⟨rfl, he.single⟩
  have hrest : ∀ i, k ≤ i → c.Run i (rest ()) (rest ()) ((Items.caught c).Row k) := by
    intro i hi
    refine .continued fun before => ?_
    have hbefore := (Items.Row.nil (s := Items.caught c) hi).resume before
    refine .step (steady_atMark ":") fun j _ hj => .ite (fun _ => .pure (hbefore.mono hj))
      fun _ => (hitem j).bind ?_
    rintro l first _ ⟨rfl, hfirst⟩
    refine Run.bind (M := (Items.caught c).Row k)
      (.extend ((hbefore.mono hj).concat hfirst) fun m items items' hitems => ?_) ?_
    · refine .step (steady_atMark ",") fun n _ hn => .ite (fun _ => ?_) fun _ =>
        .pure ⟨rfl, hitems.mono hn⟩
      refine .continued fun before => ?_
      refine .pass (follows_shiftOperator f) fun o ho => .continued fun after => ?_
      refine (hitem o).bind ?_
      rintro q item _ ⟨rfl, hitem⟩
      exact .pure ⟨rfl, (((hitems.mono (by omega)).resume before).resume after).concat hitem⟩
    · intro m items items' hitems
      refine .continued fun after => ?_
      exact .pure (hitems.resume after)
  exact .ite (fun _ => .pass (follows_shiftOperator f) fun j hj => hrest j (Nat.le_trans hi hj))
    fun _ => hrest i hi

theorem run_exceptClause (margin : Nat) :
    c.Run k (exceptClause p suite margin) (exceptClause p suite margin) fun j r s =>
      c.Handled k j r s ∧ 1 < j := by
  refine .continued fun before => ?_
  have hbefore := (Handled.nil (c := c) (Nat.le_refl k)).resume before
  refine (run_shiftOperator _).bind ?_
  rintro i t _ htook
  obtain rfl := htook.twin
  refine (run_caught hp _).bind fun j listed listed' hlisted =>
    hsuite.read fun l leading body hbody => ?_
  have hall := hlisted.resume leading
  have hmoved : listed' ++ (leading.map (Continuation.mapSpans c.move)).map Continuation.toCaught =
      (listed ++ leading.map Continuation.toCaught).map (Caught.mapSpans c.move) := hall.1
  have hclause : c.Laid k (Clause.except t.span (listed ++ leading.map Continuation.toCaught)
      body).pieces l := by
    rw [Clause.pieces, List.map_eq_flatMap]
    exact (hall.2.mono htook.le (Nat.le_refl j)).append hbody.laid
  refine .pure ⟨?_, hbody.inner⟩
  rw [hmoved]
  exact hbefore.concat (x := .except t.span _ body) rfl hclause

theorem run_clauses (hk : 1 < k) (margin : Nat) :
    c.Run k (clauses p suite margin) (clauses p suite margin) fun j r s =>
      s = r.map (Clause.mapSpans c.move) ∧ c.Laid k (Clause.inside r) j := by
  refine Run.bind (M := fun j r s => c.Handled k j r s ∧ 1 < j)
    (.extend ⟨.nil (Nat.le_refl k), hk⟩ ?_) ?_
  · rintro j r s ⟨hrow, hj⟩
    refine (run_atClause hj margin "except").bind ?_
    rintro _ a _ ⟨rfl, rfl, -⟩
    refine .ite (fun _ => ?_) fun _ => .pure ⟨rfl, hrow, hj⟩
    refine (run_exceptClause hp hsuite margin).bind ?_
    rintro l r' s' ⟨hrow', hl⟩
    exact .pure ⟨rfl, hrow.append hrow', hl⟩
  rintro j handlers handlers' ⟨hhandlers, hj⟩
  refine (run_atClause hj margin "else").bind ?_
  rintro _ a _ ⟨rfl, rfl, -⟩
  -- What an `else` clause holds is left out, and a `finally` clause is nothing but its suite.
  extract_lets rest rest'
  have hrest : ∀ {i orelse orelse'}, 1 < i → c.Handled j i orelse orelse' →
      c.Run i (rest orelse) (rest' orelse') fun j r s =>
        s = r.map (Clause.mapSpans c.move) ∧ c.Laid k (Clause.inside r) j := by
    intro i orelse orelse' hi horelse
    have hbefore := hhandlers.append horelse
    refine (run_atClause hi margin "finally").bind ?_
    rintro _ a _ ⟨rfl, rfl, -⟩
    refine .ite (fun _ => ?_) fun _ => .pure (hbefore.inside (.nil (Nat.le_refl i)) (Nat.zero_le 1))
    refine .continued fun before => ?_
    refine .pass (follows_shift _) fun l hl => hsuite.read fun m leading body hbody => ?_
    have hfinal : (Items.clauses c).Row l m [Clause.finally body]
        [Clause.finally (mapSuite c.move body)] :=
      (Items.Row.nil (Nat.le_refl l)).concat (a := Clause.finally body) hbody.laid
    have hall := ((hbefore.resume before).mono hl).inside (l := m) hfinal (Nat.le_refl 1)
    rw [List.append_assoc, List.append_assoc _ _ [_]] at hall
    exact .pure hall
  refine .ite (fun _ => ?_) fun _ => hrest hj (.nil (Nat.le_refl j))
  refine .continued fun before => ?_
  refine (run_shift _).bind ?_
  rintro i t _ htook
  obtain rfl := htook.twin
  refine (hsuite margin i).discard.bind ?_
  rintro l _ _ ⟨r, s, hbody⟩
  have hle := hbody.row.le
  exact hrest hbody.inner ((((Handled.nil (Nat.le_refl j)).resume before).mono
    (Nat.le_trans htook.le hle)).concat (x := .other t.span "else_clause") rfl
      (.nil (Nat.le_refl l)))

omit hsuite in
theorem run_withItems (f : Frame) :
    c.Run k (withItems p f) (withItems p f) fun j r s =>
      s = r.map (Expr.mapSpans c.move) ∧ c.Laid k (r.map .expr) j := by
  unfold withItems
  extract_lets items enclosed
  have hitem : ∀ f, c.Gives (Items.optional c) (some <$> p.expr f Level.any) := fun f m =>
    .map ((hp.expr f Level.any m).mono fun n e e' he => ⟨congrArg some he.moved, he.single⟩)
  have hitems : ∀ f k, c.Run k (items f) (items f) fun j r s =>
      s = r.map (Expr.mapSpans c.move) ∧ c.Laid k (r.map .expr) j := by
    refine fun f k => (run_listed_row f "," (fun _ _ => rfl) (hitem f)).bind ?_
    rintro j ⟨as, _⟩ ⟨bs, _⟩ ⟨-, hrow⟩
    exact .pure (present_of_row hrow)
  refine .orElse (.pass (follows_mark _ "(") fun i hi => (hitems _ i).bind ?_) (hitems f k)
  rintro j r _ ⟨rfl, hlaid⟩
  refine .require (by rw [List.length_map]) fun _ => ?_
  refine .step (steady_atMark ")") fun l _ hl => .step (steady_require _) fun m _ hm =>
    .pass (follows_shift f) fun n hn => .step (steady_atMark ":") fun o _ ho =>
    .step (steady_require _) fun q _ hq => .pure ⟨rfl, hlaid.mono hi (by omega)⟩

/-! ## Statements -/

/-- The definition of a function, where a word may come before `def`. -/
theorem run_functionDefinition {i : Nat} {span : Span}
    (hspan : ∀ t, c.front i = some t → t.isWord "def" → c.Stands k span) (hk : k ≤ i)
    (margin : Nat) :
    c.Run i (functionDefinition p suite margin span)
      (functionDefinition p suite margin (c.move span)) (c.Stated k) := by
  refine .afterWord _ "def" fun j t ht hword hj => (run_identifier _).bind ?_
  replace hspan := hspan t ht hword
  rintro l name _ hname
  have hl := hname.le
  obtain rfl := hname.twin
  refine .step (steady_atMark "[") fun m _ hm => ?_
  -- Type parameters and a return type leave nothing behind, so what follows them is treated once.
  extract_lets rest rest'
  have hrest : ∀ m, l ≤ m → c.Run m (rest ()) (rest' ()) (c.Stated k) := by
    refine fun m hm => .pass (follows_mark _ "(") fun n hn =>
      (run_itemsUntil _ ")" (gives_parameter hp.expr (fun q hq => ?_) _)).bind ?_
    · obtain rfl := Option.some.inj hq
      exact hp.type _ true
    rintro o params _ ⟨rfl, hparams⟩
    have ho := hparams.le
    refine .step (steady_mark? _ "->") fun q _ hq => ?_
    extract_lets rest rest'
    have hrest : ∀ q, o ≤ q → c.Run q (rest ()) (rest' ()) (c.Stated k) := by
      refine fun q hq => hsuite.read fun r leading body hbody => ?_
      have hle := hbody.row.le
      exact .pure ⟨rfl, .cons (Nat.le_refl k) hspan (hbody.laid.mono (by omega) (Nat.le_refl r))
        (by omega) (fun _ => hbody.ends) (.nil (Nat.le_refl r))⟩
    exact .ite (fun _ => .step (hp.type _ false) fun r _ hr => hrest r (by omega))
      fun _ => hrest q hq
  exact .ite (fun _ => .step (steady_typeParameters hp.type _) fun n _ hn => hrest n (by omega))
    fun _ => hrest m hm

theorem run_classDefinition (margin : Nat) :
    c.Run k (classDefinition p suite margin) (classDefinition p suite margin) (c.Stated k) := by
  refine (run_word _ "class").bind ?_
  rintro i t _ ⟨htook, hword⟩
  have hi := htook.lt_of_isSolid (isSolid_of_isWord hword)
  have hspan := htook.stands (isSolid_of_isWord hword)
  obtain rfl := htook.twin
  refine (run_identifier _).bind ?_
  rintro j name _ hname
  have hj := hname.le
  obtain rfl := hname.twin
  refine .step (steady_atMark "[") fun l _ hl => ?_
  extract_lets inside rest inside' rest'
  have hinside : ∀ n (bases : Option (Span × List (Option String × Expr))), k < n →
      c.Laid k (bases.toList.flatMap fun bases => bases.2.map fun arg => .expr arg.2) n →
      c.Run n (inside bases) (inside' (bases.map (mapBases c.move))) (c.Stated k) := by
    intro n bases hn hbases
    refine hsuite.read fun r leading body hbody => ?_
    have hle := hbody.row.le
    exact .pure (.plain (s := .classDef t.span name.text bases body) hspan
      (hbases.append hbody.laid) (by omega) rfl)
  have hrest : ∀ l, j ≤ l → c.Run l (rest ()) (rest' ()) (c.Stated k) := by
    refine fun l hl => .step (steady_atMark "(") fun m _ hm => .ite
      (fun _ => (run_arguments hp.expr _).bind ?_) fun _ =>
        hinside m none (by omega) (.nil (by omega))
    rintro n _ _ (@⟨span, args, _, ⟨rfl, hlaid⟩⟩ | ⟨-⟩)
    · have hle := hlaid.le
      refine hinside n (some (span, args)) (by omega) ?_
      rw [Option.toList_some, List.flatMap_singleton, List.map_eq_flatMap]
      exact hlaid.mono (by omega) (Nat.le_refl n)
    · exact .failure
  exact .ite (fun _ => .step (steady_typeParameters hp.type _) fun n _ hn => hrest n (by omega))
    fun _ => hrest l hl

theorem run_forStatement {i : Nat} {span : Span} (hspan : c.Stands k span) (hk : k ≤ i)
    (margin : Nat) :
    c.Run i (forStatement p suite margin span) (forStatement p suite margin (c.move span))
      (c.Stated k) := by
  refine .afterWord _ "for" fun j _ _ _ hj =>
    (run_targets hp.expr _).read fun l target htarget => ?_
  refine .pass (follows_word _ "in") fun m hm =>
    (run_sequence hp.expr _).read fun n iter hiter => ?_
  refine hsuite.read fun o leading body hbody => ?_
  refine (run_loopElse hsuite hbody.inner margin).bind ?_
  rintro q orelse _ ⟨rfl, hq⟩
  have hle := hbody.row.le
  have hlt := htarget.lt
  have hlt' := hiter.lt
  refine .pure (.plain (s := .forLoop span target iter body orelse) hspan ?_ (by omega) rfl)
  exact (htarget.behind (by omega)).append ((hiter.behind hm).append
    (hbody.laid.mono (Nat.le_refl n) hq))

theorem run_withStatement {i : Nat} {span : Span} (hspan : c.Stands k span) (hk : k ≤ i)
    (margin : Nat) :
    c.Run i (withStatement p suite margin span) (withStatement p suite margin (c.move span))
      (c.Stated k) := by
  refine .afterWord _ "with" fun j _ _ _ hj => (run_withItems hp _).bind ?_
  rintro l (_ | ⟨item, items⟩) _ ⟨rfl, hitems⟩
  · exact .failure
  · refine hsuite.read fun m leading body hbody => ?_
    have hle := hitems.le
    have hle' := hbody.row.le
    refine .pure (.plain (s := .withStmt span item items body) hspan ?_ (by omega) rfl)
    exact (hitems.mono (by omega) (Nat.le_refl l)).append hbody.laid

/-- The word `async` before a definition or another statement. -/
theorem run_asyncStatement {t : Token} (ht : c.front k = some t) (hsolid : t.kind.isSolid)
    (margin : Nat) :
    c.Run k (asyncStatement p suite margin) (asyncStatement p suite margin) (c.Stated k) := by
  refine (run_shift _).bind ?_
  rintro i u _ htook
  obtain rfl := htook.eq_of_front ht
  obtain rfl := htook.twin
  have hspan := htook.stands hsolid
  refine .step (steady_atWord "def") fun j _ hj => .ite (fun _ => ?_) fun _ =>
    .step (steady_atWord "for") fun l _ hl => .ite (fun _ => ?_) fun _ => ?_
  · exact run_functionDefinition hp hsuite (fun _ _ _ => hspan) (Nat.le_trans htook.le hj) margin
  · exact run_forStatement hp hsuite hspan (Nat.le_trans htook.le (Nat.le_trans hj hl)) margin
  · exact run_withStatement hp hsuite hspan (Nat.le_trans htook.le (Nat.le_trans hj hl)) margin

/-- A definition behind its decorators. -/
theorem run_decorated (margin : Nat) :
    c.Run k (decorated p suite margin) (decorated p suite margin) (c.Stated k) := by
  refine .step (Steady.extend (fun _ => ?_) ()) fun i _ hi => ?_
  · refine .bind (steady_mark? _ "@") fun _ => .ite ?_ (.pure _)
    refine .bind (follows_expr hp.expr _ Level.any).discard fun _ =>
      .bind (steady_atKind .lineEnd) fun _ => .bind (steady_require _) fun _ => ?_
    exact steady_passLine _ _
  refine .step (steady_atWord "class") fun j _ hj => .ite (fun _ => ?_) fun _ =>
    (run_atWord "async").bind ?_
  · exact (run_classDefinition hp hsuite margin).mono fun _ _ _ h => h.mono (by omega)
  -- A function starts at `async`, if that is there, and at `def` otherwise.
  rintro _ a _ ⟨rfl, rfl, hasync⟩
  refine .ite (fun ha => (run_shift _).bind ?_) fun _ => run_peek.bind ?_
  · rintro l t _ htook
    obtain ⟨u, hu, hword⟩ := exists_of_any (hasync.symm.trans ha)
    obtain rfl := htook.eq_of_front hu
    obtain rfl := htook.twin
    exact (run_functionDefinition hp hsuite (fun _ _ _ => htook.stands (isSolid_of_isWord hword))
      htook.le margin).mono fun _ _ _ h => h.mono (by omega)
  · rintro _ t _ ⟨rfl, ht, rfl⟩
    refine (run_functionDefinition hp hsuite
      (fun u hu hword => ⟨u, hu, isSolid_of_isWord hword, ?_⟩) (Nat.le_refl j) margin).mono
        fun _ _ _ h => h.mono (by omega)
    rw [Option.some.inj (hu.symm.trans ht)]

theorem follows_caseClause (margin : Nat) : c.Follows (caseClause p suite margin) := by
  have hsuite := follows_suite hsuite margin
  refine (Steady.bind (follows_word _ "case").discard fun _ =>
    .bind (steady_patterns hp.expr _) fun _ => .bind (steady_atWord "if") fun _ =>
    .ite ?_ hsuite.discard).follows
  exact .bind (follows_shiftOperator _).discard fun _ =>
    .bind (follows_expr hp.expr _ Level.any).discard fun _ => hsuite.discard

/-- A `match` statement leaves nothing behind. -/
theorem run_matchStatement (margin : Nat) :
    c.Run k (matchStatement p suite margin) (matchStatement p suite margin) (c.Stated k) := by
  refine (run_word _ "match").bind ?_
  rintro i t _ ⟨htook, -⟩
  obtain rfl := htook.twin
  have hi := htook.le
  have hsubject : c.Steady (discard (p.expr (.head margin) Level.any)) :=
    (follows_expr hp.expr _ Level.any).discard
  refine .step (steady_listed _ (fun _ _ => rfl) hsubject) fun j _ hj =>
    .step (steady_atMark ":") fun l _ hl => .step (steady_require _) fun m _ hm => ?_
  refine .of_pos fun hpos => run_takeToken.discard.bind ?_
  rintro n _ _ ⟨-, -, -, -, rfl⟩
  have hn : m < next m := by rw [next]; omega
  refine .front fun first _ => ?_
  rw [twin_of_lt (by omega)]
  refine .step (steady_require _) fun o _ ho => .ite (fun _ => ?_) fun _ =>
    .pure (.other (by omega))
  refine Run.bind (M := fun l _ _ => o ≤ l) (.extend (Nat.le_refl o) ?_)
    fun l _ _ hl => .pure (.other (by omega))
  intro q _ _ hq
  refine .front fun u _ => ?_
  rw [leavesBlock_twin (.inr (by omega))]
  refine .ite (fun _ => .pure ⟨rfl, hq⟩) fun _ => ?_
  exact (follows_caseClause hp hsuite _ q).bind fun l _ _ hl => .pure ⟨rfl, Nat.le_trans hq hl⟩

theorem run_compound? (margin : Nat) :
    c.Run k (compound? p suite margin) (compound? p suite margin) fun j r s =>
      s = r.map (Stmt.mapSpans c.move) ∧ c.Laid k (r.toList.map .stmt) j := by
  have hsome : ∀ {q q' : Parser Stmt}, c.Run k q q' (c.Stated k) →
      c.Run k (do return some (← q)) (do return some (← q')) fun j r s =>
        s = r.map (Stmt.mapSpans c.move) ∧ c.Laid k (r.toList.map .stmt) j := fun h =>
    h.bind fun j s s' hs => .pure ⟨congrArg some hs.moved, hs.laid⟩
  have hnone : c.Run k (pure none : Parser (Option Stmt)) (pure none) fun j r s =>
      s = r.map (Stmt.mapSpans c.move) ∧ c.Laid k (r.toList.map .stmt) j :=
    .pure ⟨rfl, .nil (Nat.le_refl k)⟩
  refine .front fun t ht => ?_
  refine .ite (fun _ => hsome (run_decorated hp hsuite margin)) fun _ => .ite (fun _ => hnone)
    fun hkind => ?_
  have hsolid : t.kind.isSolid := by rw [not_not.mp hkind]; rfl
  have hspan : c.Stands k t.span := ⟨t, ht, hsolid, rfl⟩
  -- A condition behind the word, and a suite behind the condition.
  have hcondition : ∀ {g h : Expr → List Continuation × List Stmt → Parser (Option Stmt)},
      (∀ j test leading body, c.Laid k (.expr test :: body.map .stmt) j → k < j → 1 < j →
        c.Run j (g test (leading, body)) (h (test.mapSpans c.move)
          (leading.map (Continuation.mapSpans c.move), mapSuite c.move body)) fun j r s =>
            s = r.map (Stmt.mapSpans c.move) ∧ c.Laid k (r.toList.map .stmt) j) →
      c.Run k
        (do
          discard (shiftOperator (.head margin))
          let test ← p.expr (.head margin) Level.any
          g test (← suite margin))
        (do
          discard (shiftOperator (.head margin))
          let test ← p.expr (.head margin) Level.any
          h test (← suite margin)) fun j r s =>
            s = r.map (Stmt.mapSpans c.move) ∧ c.Laid k (r.toList.map .stmt) j := by
    refine fun hgh => .past ht hsolid (run_shiftOperator _) fun i hi =>
      (hp.expr _ _ i).read fun j test htest => ?_
    refine hsuite.read fun l leading body hbody => ?_
    have hle := hbody.row.le
    have hlt := htest.lt
    exact hgh l test leading body ((htest.behind (by omega)).append hbody.laid) (by omega)
      hbody.inner
  simp only [text_twin, span_twin]
  generalize t.text = text
  split
  · exact hsome (run_functionDefinition hp hsuite (fun _ _ _ => hspan) (Nat.le_refl k) margin)
  · exact hsome (run_classDefinition hp hsuite margin)
  · refine hcondition fun j test leading body hlaid hlt hj => ?_
    refine (run_branches hp hsuite hj margin).bind ?_
    rintro l branches _ ⟨rfl, hbranches⟩
    have hle := hbranches.le
    refine .pure ⟨?_, (Stated.plain (s := .ifStmt t.span test body branches) hspan
      (hlaid.append hbranches) (by omega) rfl).laid⟩
    rw [Option.map_some, Stmt.mapSpans, mapBranches_eq]
  · refine hcondition fun j test leading body hlaid hlt hj => ?_
    refine (run_loopElse hsuite hj margin).bind ?_
    rintro l orelse _ ⟨rfl, hl⟩
    exact .pure ⟨rfl, (Stated.plain (s := .whileLoop t.span test body orelse) hspan
      (hlaid.mono (Nat.le_refl k) hl) (by omega) rfl).laid⟩
  · exact hsome (run_forStatement hp hsuite hspan (Nat.le_refl k) margin)
  · refine .past ht hsolid (run_shift _) fun i hi => hsuite.read fun j leading body hbody => ?_
    have hle := hbody.row.le
    refine (run_clauses hp hsuite hbody.inner margin).bind ?_
    rintro l clauses _ ⟨rfl, hlaid⟩
    have hle' := hlaid.le
    have hleading : c.Handled j j (leading.map Continuation.toClause) _ :=
      (Handled.nil (Nat.le_refl j)).resume leading
    refine .pure ⟨?_, (Stated.plain (s := .tryStmt t.span body _) hspan
      ((hbody.laid.mono (Nat.le_of_lt hi) (Nat.le_refl j)).append ?_) (by omega) rfl).laid⟩
    · rw [Option.map_some, Stmt.mapSpans, mapClauses_eq, List.map_append]
      exact congrArg (fun leading => some (Stmt.tryStmt (c.move t.span) (mapSuite c.move body)
        (leading ++ clauses.map (Clause.mapSpans c.move)))) hleading.row.1
    · rw [Clause.inside_append hleading.plain]
      exact hleading.row.2.append hlaid
  · exact hsome (run_withStatement hp hsuite hspan (Nat.le_refl k) margin)
  · refine (run_second fun _ => rfl).bind ?_
    rintro _ a _ ⟨rfl, rfl⟩
    exact .ite (fun _ => hsome (run_asyncStatement hp hsuite ht hsolid margin)) fun _ => hnone
  · exact .orElse (.map ((run_matchStatement hp hsuite margin).mono fun j s s' hs =>
      ⟨congrArg some hs.moved, hs.laid⟩)) hnone
  · exact hnone

theorem run_statementLine (margin : Nat) :
    c.Run k (statementLine p suite margin) (statementLine p suite margin)
      ((Items.stmts c).Row k) := by
  refine (run_compound? hp hsuite margin).bind ?_
  rintro j (_ | s) _ ⟨rfl, hlaid⟩
  · exact (run_simpleLine hp margin).mono fun l r s ⟨hrow, _⟩ =>
      ⟨hrow.1, hrow.2.mono hlaid.le (Nat.le_refl l)⟩
  · exact .pure ⟨rfl, hlaid⟩

/-! ## Blocks -/

/-- A block ends where a line leaves it or the source ends. -/
theorem run_block (margin : Nat) (whole : Bool) (h : margin = 0 ∨ 1 < k) :
    c.Run k (block p suite margin whole) (block p suite margin whole) fun j r s =>
      (Items.stmts c).Row k j r s ∧
        ∃ t, c.front j = some t ∧ (t.kind = .sourceEnd ∨ t.leavesBlock margin) := by
  refine .extend_until (I := fun j r s => (Items.stmts c).Row k j r s) (.nil (Nat.le_refl k)) ?_
  intro j r s hrow
  have hj : margin = 0 ∨ 1 < j := h.imp_right fun hk => Nat.lt_of_lt_of_le hk hrow.le
  refine .front fun t ht => ?_
  rw [leavesBlock_twin hj]
  refine .ite (fun hends => .pure ⟨hrow, t, ht, ?_⟩) fun _ => ?_
  · exact (Bool.or_eq_true_iff.mp hends).imp_left of_decide_eq_true
  · refine .of_pos fun hpos => (run_statementLine hp hsuite margin).bind ?_
    rintro l line line' hline
    have hempty : s.isEmpty = r.isEmpty := by rw [hrow.1, List.isEmpty_map]
    rw [continuations_twin hpos ht, hempty]
    refine .pure ?_
    split
    · exact (hrow.resume t.gap.continuations).append hline
    · exact (hrow.resume []).append hline

end Statements

/-- Suites are followed, however deep they are nested. -/
theorem readsSuites_suiteAt {p : Phrases} (hp : c.ReadsPhrases p) (fuel : Nat) :
    c.ReadsSuites (suiteAt p fuel) := by
  induction fuel with
  | zero => exact fun _ _ => .failure
  | succ fuel ih =>
    refine fun margin k => .step (steady_atMark ":") fun i _ hi =>
      .step (steady_require _) fun j _ hj => .of_pos fun hpos => run_takeToken.discard.bind ?_
    rintro _ _ _ ⟨-, -, -, -, rfl⟩
    have hnext : j < next j := by rw [next]; omega
    refine .front fun t ht => ?_
    have hcontinued := continuations_twin (by omega) ht
    rw [twin_of_lt (by omega)] at hcontinued ⊢
    refine .ite (fun _ => ?_) fun hbreaks => .ite (fun _ => ?_) fun _ => ?_
    · refine (run_simpleLine hp margin).bind ?_
      rintro l body body' ⟨hrow, hends⟩
      have hle := hrow.le
      exact .pure ⟨hcontinued, ⟨hrow.1, hrow.2.mono (by omega) (Nat.le_refl l)⟩, hends, by omega⟩
    · refine (run_block hp ih t.gap.indent false (.inr (by omega))).bind ?_
      rintro l body body' ⟨hrow, u, hu, hleaves⟩
      have hle := hrow.le
      refine .pure ⟨hcontinued, ⟨hrow.1, hrow.2.mono (by omega) (Nat.le_refl l)⟩, ?_, by omega⟩
      exact ⟨u, hu, Bool.or_eq_true_iff.mpr (hleaves.symm.imp
        (fun h => (Bool.and_eq_true_iff.mp h).1) decide_eq_true)⟩
    · rw [Bool.not_eq_true, Bool.not_eq_false'] at hbreaks
      exact .pure ⟨rfl, .nil (by omega), ⟨t, ht, Bool.or_eq_true_iff.mpr (.inl hbreaks)⟩, by omega⟩

/-- The statements of a source text follow one another, and so do those of the same text at other
    places. -/
theorem run_statements {p : Phrases} (hp : c.ReadsPhrases p) {suite : SuiteParser}
    (hsuite : c.ReadsSuites suite) :
    c.Run k (statements p suite) (statements p suite) ((Items.stmts c).Row k) := by
  refine (run_block hp hsuite 0 true (.inl rfl)).bind ?_
  rintro j r s ⟨hrow, -⟩
  refine .of_pos fun hpos => .front fun t ht => ?_
  refine .step (steady_require _) fun l _ hl => .pure ?_
  rw [continuations_twin hpos ht]
  exact (hrow.mono hl).resume t.gap.continuations

/-! ## Source texts -/

theorem readsPhrases_phrases (size : Nat) : c.ReadsPhrases (phrases size) :=
  ⟨readsExprs_expressionAt _, steady_typeAt (readsExprs_expressionAt _) _⟩

/-- The statements that tokens make up follow one another, and the same tokens at other places make
    up the same statements at other places. -/
theorem parseTokens?_at {ts us : List Token} (h : c.At 1 ts us) :
    Option.Rel (fun r s => ∃ j, (Items.stmts c).Row 1 j r s) (parseTokens? ts)
      (parseTokens? us) := by
  have hp := readsPhrases_phrases (c := c) ts.length
  have hrun := run_statements hp (readsSuites_suiteAt hp (ts.length + 1)) ts us h
  rw [parseTokens?, parseTokens?, h.length_eq]
  change Option.Rel _ (Option.map Prod.fst (statements _ _ ts)) (Option.map Prod.fst
    (statements _ _ us))
  generalize statements _ _ ts = x at hrun ⊢
  generalize statements _ _ us = y at hrun ⊢
  cases hrun with
  | none => exact .none
  | some hrow =>
    obtain ⟨j, -, hrow⟩ := hrow
    exact .some ⟨j, hrow⟩

end Rendition.Source.Course
