import Rendition.Proofs.Grammar.Run
import Rendition.Source.Grammar.Simple

/-!
# Lists along two courses

Most lists of the grammar hold items of one sort with separators between them and line continuations
among them. The constructs of the items follow one another as the items do; a continuation takes up
no room.

## Main definitions

* `Course.Items`: A sort of items: their constructs, and what they are at other places.
* `Course.Gives`: A parser gives an item of a sort.
* `Items.Row`: Items follow one another between two points.

## Theorems

* `run_listed`, `run_moreItems`, `run_itemsUntil`: The items of a list form a row.
-/

namespace Rendition.Source.Course

variable {c : Course} {α : Type} {k : Nat}

/-- A sort of items of a list. -/
structure Items (c : Course) (α : Type) where
  /-- The constructs of an item. -/
  view : α → List Construct
  /-- The item at other places. -/
  move : α → α
  /-- A line continuation among the items. -/
  continuation : Continuation → α
  moved : ∀ x : Continuation, continuation (x.mapSpans c.move) = move (continuation x)
  aside : ∀ x, ∀ y ∈ view (continuation x), y.isAside

/-- A parser gives an item of a sort, from where it starts to where it ends. -/
def Gives (c : Course) (s : Items c α) (p : Parser α) : Prop :=
  ∀ k, c.Run k p p fun j a b => b = s.move a ∧ c.Laid k (s.view a) j

theorem Gives.follows {s : Items c α} {p : Parser α} (h : c.Gives s p) : c.Follows p :=
  follows_of_run h fun h => h.2.le

namespace Items

/-- Expressions. -/
def exprs (c : Course) : Items c Expr where
  view e := [.expr e]
  move := Expr.mapSpans c.move
  continuation := Continuation.toExpr
  moved _ := rfl
  aside _ := List.forall_mem_singleton.mpr rfl

/-- Arguments of a call. -/
def args (c : Course) : Items c (Option String × Expr) where
  view arg := [.expr arg.2]
  move := Prod.map id (Expr.mapSpans c.move)
  continuation := Continuation.toArgument
  moved _ := rfl
  aside _ := List.forall_mem_singleton.mpr rfl

/-- Entries of a dictionary. -/
def entries (c : Course) : Items c (Expr × Option Expr) where
  view entry := .expr entry.1 :: entry.2.toList.map .expr
  move := Prod.map (Expr.mapSpans c.move) (Option.map (Expr.mapSpans c.move))
  continuation := Continuation.toEntry
  moved _ := rfl
  aside _ := List.forall_mem_singleton.mpr rfl

/-- Expressions among which continuations are left out. -/
def optional (c : Course) : Items c (Option Expr) where
  view e := e.toList.map .expr
  move := Option.map (Expr.mapSpans c.move)
  continuation _ := none
  moved _ := rfl
  aside _ := nofun

/-- The parts of a slice, colons being `none`. -/
def bounds (c : Course) : Items c (Option Expr) where
  view e := e.toList.map .expr
  move := Option.map (Expr.mapSpans c.move)
  continuation x := some x.toExpr
  moved _ := rfl
  aside _ := List.forall_mem_singleton.mpr rfl

/-- Parameters of a function. -/
def params (c : Course) : Items c Param where
  view _ := []
  move := Param.mapSpans c.move
  continuation := Continuation.toParam
  moved _ := rfl
  aside _ := nofun

/-- Statements. -/
def stmts (c : Course) : Items c Stmt where
  view s := [.stmt s]
  move := Stmt.mapSpans c.move
  continuation := Continuation.toStmt
  moved _ := rfl
  aside _ := List.forall_mem_singleton.mpr rfl

/-- Items that hold no places and no constructs. -/
def plain (c : Course) (continuation : α) : Items c α where
  view _ := []
  move := id
  continuation _ := continuation
  moved _ := rfl
  aside _ := nofun

/-- Items that follow one another between two points, and the same ones at other places. -/
def Row (s : Items c α) (i j : Nat) (as bs : List α) : Prop :=
  bs = as.map s.move ∧ c.Laid i (as.flatMap s.view) j

namespace Row

variable {s : Items c α} {i j : Nat} {as bs : List α}

theorem nil (h : i ≤ j) : s.Row i j [] [] :=
  ⟨rfl, .nil h⟩

theorem le (h : s.Row i j as bs) : i ≤ j :=
  h.2.le

theorem mono (h : s.Row i j as bs) {l : Nat} (hl : j ≤ l) : s.Row i l as bs :=
  ⟨h.1, h.2.mono (Nat.le_refl i) hl⟩

/-- An item behind the others. -/
theorem concat (h : s.Row i j as bs) {a : α} {l : Nat} (ha : c.Laid j (s.view a) l) :
    s.Row i l (as ++ [a]) (bs ++ [s.move a]) := by
  refine ⟨by rw [h.1, List.map_append, List.map_singleton], ?_⟩
  rw [List.flatMap_append, List.flatMap_singleton]
  exact h.2.append ha

/-- Items behind others. -/
theorem append (h : s.Row i j as bs) {as' bs' : List α} {l : Nat} (h' : s.Row j l as' bs') :
    s.Row i l (as ++ as') (bs ++ bs') := by
  refine ⟨by rw [h.1, h'.1, List.map_append], ?_⟩
  rw [List.flatMap_append]
  exact h.2.append h'.2

/-- Line continuations behind the others. -/
theorem resume (h : s.Row i j as bs) (cs : List Continuation) :
    s.Row i j (as ++ cs.map s.continuation)
      (bs ++ (cs.map (Continuation.mapSpans c.move)).map s.continuation) := by
  refine ⟨?_, ?_⟩
  · rw [h.1, List.map_append, List.map_map, List.map_map]
    congr 1
    exact List.map_congr_left fun x _ => s.moved x
  · rw [List.flatMap_append]
    refine h.2.append (.asides (fun y hy => ?_) (Nat.le_refl j))
    obtain ⟨a, ha, hy⟩ := List.mem_flatMap.mp hy
    obtain ⟨x, -, rfl⟩ := List.mem_map.mp ha
    exact s.aside x y hy

end Row

end Items

/-! ## Lists -/

section Lists

variable {s : Items c α} {item : Parser α}

/-- Items separated by commas never go back. -/
theorem follows_commaSeparated (f : Frame) (h : c.Follows item) :
    c.Follows (commaSeparated f item) := by
  intro k
  refine (h k).bind fun j a b hj => .extend hj fun j as bs hj => ?_
  refine .step (steady_mark? f.middle ",") fun l found hl => .ite (fun _ => ?_) fun _ => ?_
  · exact (h l).bind fun m _ _ hm => .pure ⟨rfl, Nat.le_trans hj (Nat.le_trans hl hm)⟩
  · exact .pure ⟨rfl, Nat.le_trans hj hl⟩

/-- The first item of a list is known as well as its parser is; the others form a row. -/
theorem run_listed (f : Frame) (separator : String) {starts : Token → Bool}
    (hstarts : ∀ k t, starts (c.twin k t) = starts t) (h : c.Gives s item)
    {F : Nat → α → Prop}
    (hfirst : c.Run k item item fun j a b => b = s.move a ∧ F j a) :
    c.Run k (listed f separator s.continuation starts item)
      (listed f separator s.continuation starts item) fun j r t =>
        t.2 = r.2 ∧ ∃ a as bs l, r.1 = a :: as ∧ t.1 = s.move a :: bs ∧ F l a ∧
          s.Row l j as bs := by
  refine hfirst.bind ?_
  rintro j a _ ⟨rfl, ha⟩
  -- The state also says whether there was a separator and whether the list is over.
  refine Run.bind (M := fun i r t => t.2 = r.2 ∧ ∃ as bs, r.1 = a :: as ∧
    t.1 = s.move a :: bs ∧ s.Row j i as bs)
    (.extend ⟨rfl, [], [], rfl, rfl, .nil (Nat.le_refl j)⟩ ?_) ?_
  · rintro i ⟨_, separated, ended⟩ ⟨_, _⟩ ⟨rfl, as, bs, rfl, rfl, hrow⟩
    refine .ite (fun _ => .pure ⟨rfl, rfl, as, bs, rfl, rfl, hrow⟩) fun _ => ?_
    refine .step (steady_atMark separator) fun i' _ hi' => .ite (fun _ => ?_)
      fun _ => .pure ⟨rfl, rfl, as, bs, rfl, rfl, hrow.mono hi'⟩
    refine .continued fun before => ?_
    refine .pass (follows_shiftOperator f) fun l hl => .front fun t _ => ?_
    have hbefore := (hrow.mono (Nat.le_trans hi' hl)).resume before
    rw [hstarts]
    refine .ite (fun _ => ?_) fun _ => .pure ⟨rfl, rfl, _, _, rfl, rfl, hbefore⟩
    refine .continued fun after => ?_
    refine (h _).bind ?_
    rintro m a' _ ⟨rfl, ha'⟩
    exact .pure ⟨rfl, rfl, _, _, rfl, rfl, (hbefore.resume after).concat ha'⟩
  · rintro i ⟨_, separated, ended⟩ ⟨_, _⟩ ⟨rfl, as, bs, rfl, rfl, hrow⟩
    exact .pure ⟨rfl, a, as, bs, j, rfl, rfl, ha, hrow⟩

/-- The items of a list form a row. -/
theorem run_listed_row (f : Frame) (separator : String) {starts : Token → Bool}
    (hstarts : ∀ k t, starts (c.twin k t) = starts t) (h : c.Gives s item) :
    c.Run k (listed f separator s.continuation starts item)
      (listed f separator s.continuation starts item) fun j r t =>
        t.2 = r.2 ∧ s.Row k j r.1 t.1 := by
  refine (run_listed f separator hstarts h (h k)).mono ?_
  rintro j ⟨_, separated⟩ ⟨_, _⟩ ⟨rfl, a, as, bs, l, rfl, rfl, ha, hrow⟩
  refine ⟨rfl, by rw [hrow.1]; rfl, ?_⟩
  rw [List.flatMap_cons]
  exact ha.append hrow.2

/-- The rest of the items goes on with the row. -/
theorem run_moreItems (f : Frame) (closing : String) (h : c.Gives s item) {i : Nat}
    {as bs : List α} (hrow : s.Row i k as bs) :
    c.Run k (moreItems f closing s.continuation item as)
      (moreItems f closing s.continuation item bs) (s.Row i) := by
  refine Run.bind (M := fun j r t => t.2 = r.2 ∧ s.Row i j r.1 t.1) (.extend ⟨rfl, hrow⟩ ?_) ?_
  · rintro j ⟨as, closed⟩ ⟨bs, _⟩ ⟨rfl, hrow⟩
    refine .ite (fun _ => .pure ⟨rfl, rfl, hrow⟩) fun _ => ?_
    refine .continued fun before => ?_
    have hbefore := hrow.resume before
    -- A closing bracket may come right away or after a comma.
    refine .step (steady_atMark closing) fun l _ hl => .ite (fun _ => ?_) fun _ => ?_
    · exact .pass (follows_shift f) fun m hm =>
        .pure ⟨rfl, rfl, hbefore.mono (Nat.le_trans hl hm)⟩
    · refine .pass (follows_mark f.inside ",") fun m hm => .continued fun after => ?_
      have hafter := (hbefore.mono (Nat.le_trans hl hm)).resume after
      refine .step (steady_atMark closing) fun l _ hl => .ite (fun _ => ?_) fun _ => ?_
      · exact .pass (follows_shift f) fun m hm =>
          .pure ⟨rfl, rfl, hafter.mono (Nat.le_trans hl hm)⟩
      · refine (h l).bind ?_
        rintro m a _ ⟨rfl, ha⟩
        exact .pure ⟨rfl, rfl, (hafter.mono hl).concat ha⟩
  · rintro j ⟨as, closed⟩ ⟨bs, _⟩ ⟨rfl, hrow⟩
    exact .pure hrow

/-- The items between brackets form a row. -/
theorem run_itemsUntil (f : Frame) (closing : String) (h : c.Gives s item) :
    c.Run k (itemsUntil f closing s.continuation item)
      (itemsUntil f closing s.continuation item) (s.Row k) := by
  refine .continued fun before => ?_
  have hbefore := (Items.Row.nil (s := s) (Nat.le_refl k)).resume before
  refine .step (steady_atMark closing) fun l _ hl => .ite (fun _ => ?_) fun _ => ?_
  · exact .pass (follows_shift f) fun m hm => .pure (hbefore.mono (Nat.le_trans hl hm))
  · refine (h l).bind ?_
    rintro m a _ ⟨rfl, ha⟩
    exact run_moreItems f closing h ((hbefore.mono hl).concat ha)

end Lists

end Rendition.Source.Course
