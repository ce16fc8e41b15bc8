import Rendition.Proofs.Grammar.Course
import Rendition.Proofs.Tree.Preorder

/-!
# Trees along a course

What constructs are read as stands where the constructs stand: trees follow one another along the
points of a course, and so do the trees inside each of them, in the order in which they are written.
Parentheses leave nothing behind, several indices share the place of the first one, and what joins
in a chain of one connective moves up, but none of it changes the order.

## Main definitions

* `Node.Written`: The children of a node in the order in which they are written.
* `Course.Grown`: Trees follow one another between two points.

## Theorems

* `Expr.Reads.grown`, `Expr.Targets.grown`: Trees of expressions stand where the expressions do.
* `Stmt.Reads.grown`: Trees of statements stand where the statements do.
-/

namespace Rendition

/-- Whether the children of the node are listed in the order in which they are written. -/
def Node.isListed {α : Type} (node : Node α) : Bool :=
  node.kind != .ifExp && node.kind != .call

theorem Node.isListed_iff {α : Type} {node : Node α} :
    node.isListed ↔ node.kind ≠ .ifExp ∧ node.kind ≠ .call := by
  rw [isListed, Bool.and_eq_true, bne_iff_ne, bne_iff_ne]

/-- The children of a node in the order in which they are written: a condition stands behind what
    depends on it, and arguments with and without names are mixed. -/
inductive Node.Written {α : Type} : Node α → List α → Prop
  | ifExp {test body orelse : α} : Written (.ifExp test body orelse) [body, test, orelse]
  | call {func : α} {args rest : List α} {keywords : List (Keyword α)} (hargs : args.Sublist rest)
    (hkeywords : (keywords.map Keyword.value).Sublist rest)
    (hperm : rest.Perm (args ++ keywords.map Keyword.value)) :
    Written (.call func args keywords) (func :: rest)
  | plain {node : Node α} (h : node.isListed) : Written node node.toList

/-- Written or listed, the children are the same. -/
theorem Node.Written.perm {α : Type} {node : Node α} {ps : List α} (h : node.Written ps) :
    ps.Perm node.toList := by
  cases h with
  | ifExp => exact .swap ..
  | call _ _ hperm => exact hperm.cons _
  | plain => exact .refl _

namespace Source

open Course

namespace Course

variable {c : Course}

/-- Trees follow one another between two points, and so do the trees inside each. Behind the
    definition of a function a line ends. -/
inductive Grown (c : Course) : Nat → List Tree → Nat → Prop
  | nil {i j : Nat} (h : i ≤ j) : Grown c i [] j
  | cons {i k l j : Nat} {t : Tree} {ps rest : List Tree} (hi : i ≤ k)
    (hspan : c.Stands k t.span) (hwritten : t.node.Written ps) (hparts : Grown c k ps l)
    (hl : k < l) (hends : t.kind = .functionDef → c.Ends l) (hrest : Grown c l rest j) :
    Grown c i (t :: rest) j

namespace Grown

variable {i j k : Nat} {ts us : List Tree}

theorem le (h : c.Grown i ts j) : i ≤ j := by
  induction h with
  | nil h => exact h
  | cons hi _ _ _ hl _ _ _ ih => omega

theorem mono (h : c.Grown i ts j) {i' j' : Nat} (hi : i' ≤ i) (hj : j ≤ j') :
    c.Grown i' ts j' := by
  induction h generalizing i' with
  | nil h => exact .nil (by omega)
  | cons hk hspan hwritten hparts hl hends _ _ ih =>
    exact .cons (by omega) hspan hwritten hparts hl hends (ih (Nat.le_refl _) hj)

theorem append (hts : c.Grown i ts j) (hus : c.Grown j us k) : c.Grown i (ts ++ us) k := by
  induction hts with
  | nil h => exact hus.mono h (Nat.le_refl k)
  | cons hk hspan hwritten hparts hl hends _ _ ih =>
    exact .cons hk hspan hwritten hparts hl hends (ih hus)

/-- Trees among others stand between the same points. -/
theorem sublist (h : c.Grown i ts j) (hus : us.Sublist ts) : c.Grown i us j := by
  induction h generalizing us with
  | nil h =>
    rw [List.sublist_nil.mp hus]
    exact .nil h
  | cons hk hspan hwritten hparts hl hends hrest _ ih =>
    cases hus with
    | cons _ hus => exact (ih hus).mono (by omega) (Nat.le_refl _)
    | cons_cons _ hus => exact .cons hk hspan hwritten hparts hl hends (ih hus)

/-- The children of a tree stand from where the tree starts. -/
theorem inside {t : Tree} (h : c.Grown i [t] j) : ∃ k ps, i ≤ k ∧ c.Stands k t.span ∧
    t.node.Written ps ∧ c.Grown k ps j := by
  cases h with
  | cons hi hspan hwritten hparts _ _ hrest =>
    exact ⟨_, _, hi, hspan, hwritten, hparts.mono (Nat.le_refl _) hrest.le⟩

end Grown

/-- A construct becomes a tree between the same points. -/
def Grows (c : Course) (x : Construct) (t : Tree) : Prop :=
  ∀ i j, c.Laid i [x] j → c.Grown i [t] j

/-- Where a construct is laid out, the parts of it are. -/
theorem Laid.inside {i j : Nat} {x : Construct} (h : c.Laid i [x] j) (hx : x.isAside = false) :
    ∃ k l, i ≤ k ∧ c.Stands k x.span ∧ c.Laid k x.parts l ∧ k < l ∧ l ≤ j ∧
      (x.isDefinition → c.Ends l) := by
  cases h with
  | aside hx' => exact absurd (hx.symm.trans hx') Bool.false_ne_true
  | cons hi hspan hparts hl hends hrest =>
    exact ⟨_, _, hi, hspan, hparts, hl, hrest.le, hends⟩

/-- A construct becomes a tree at its place if its parts become the children. -/
theorem Grows.mk {x : Construct} {t : Tree} (hx : x.isAside = false) (hspan : t.span = x.span)
    (hdefinition : (t.kind == .functionDef) = x.isDefinition)
    (hparts : ∀ k l, c.Laid k x.parts l → ∃ ps, t.node.Written ps ∧ c.Grown k ps l) :
    c.Grows x t := by
  intro i j h
  obtain ⟨k, l, hi, hstands, hlaid, hl, hj, hends⟩ := h.inside hx
  obtain ⟨ps, hwritten, hgrown⟩ := hparts k l hlaid
  exact .cons hi (hspan ▸ hstands) hwritten hgrown hl
    (fun h => hends (hdefinition ▸ beq_iff_eq.mpr h)) (.nil hj)

/-- The same where the children are listed as they are written. -/
theorem Grows.plain {x : Construct} {t : Tree} (hx : x.isAside = false) (hspan : t.span = x.span)
    (hdefinition : (t.kind == .functionDef) = x.isDefinition) (hlisted : t.node.isListed = true)
    (hparts : ∀ k l, c.Laid k x.parts l → c.Grown k t.children l) : c.Grows x t :=
  .mk hx hspan hdefinition fun k l h => ⟨t.children, .plain hlisted, hparts k l h⟩

/-- Constructs become trees one by one. -/
theorem grown_of_forall₂ {i j : Nat} {xs : List Construct} {ts : List Tree}
    (h : List.Forall₂ c.Grows xs ts) (hlaid : c.Laid i xs j) : c.Grown i ts j := by
  induction h generalizing i with
  | nil => exact .nil hlaid.le
  | cons hx _ ih =>
    obtain ⟨k, hfirst, hrest⟩ := hlaid.split [_]
    exact (hx i k hfirst).append (ih hrest)

/-- The members of a list become trees one by one. -/
theorem forall₂_grows {α : Type} {view : α → Construct} {as : List α} {ts : List Tree}
    (hlength : as.length = ts.length) (h : ∀ p ∈ as.zip ts, c.Grows (view p.1) p.2) :
    List.Forall₂ c.Grows (as.map view) ts :=
  List.forall₂_map_left_iff.mpr (List.forall₂_iff_zip.mpr ⟨hlength, fun hp => h _ hp⟩)

end Course

variable {c : Course}

/-! ## Expressions -/

namespace Expr

/-- What is read is no line continuation. -/
theorem Reads.isAside {e : Expr} {t : Tree} (h : Reads e t) :
    (Construct.expr e).isAside = false := by
  cases h <;> rfl

/-- Arguments become trees in the order in which they are written. -/
theorem grown_arguments {i j : Nat} {args : List (Option String × Expr)} {trees : List Tree}
    {keywords : List (Keyword Tree)}
    (hargs : List.Forall₂ (fun e t => c.Grows (.expr e) t) (positional args) trees)
    (hkeywords : List.Forall₂ (fun arg keyword => c.Grows (.expr arg.2) keyword.value) (named args)
      keywords) (hlaid : c.Laid i (args.map fun arg => .expr arg.2) j) :
    ∃ rest, trees.Sublist rest ∧ (keywords.map Keyword.value).Sublist rest ∧
      rest.Perm (trees ++ keywords.map Keyword.value) ∧ c.Grown i rest j := by
  induction args generalizing i trees keywords with
  | nil =>
    cases hargs
    cases hkeywords
    exact ⟨[], .slnil, .slnil, .refl _, .nil hlaid.le⟩
  | cons arg args ih =>
    obtain ⟨k, hfirst, hlaid'⟩ := hlaid.split [_]
    rcases arg with ⟨_ | name, e⟩
    · rw [show positional ((none, e) :: args) = e :: positional args from rfl] at hargs
      cases hargs with
      | cons he hargs =>
        obtain ⟨rest, htrees, hvalues, hperm, hgrown⟩ := ih hargs hkeywords hlaid'
        exact ⟨_ :: rest, htrees.cons_cons _, hvalues.cons _, hperm.cons _,
          (he i k hfirst).append hgrown⟩
    · rw [show named ((some name, e) :: args) = (name, e) :: named args from rfl] at hkeywords
      cases hkeywords with
      | cons he hkeywords =>
        obtain ⟨rest, htrees, hvalues, hperm, hgrown⟩ := ih hargs hkeywords hlaid'
        exact ⟨_ :: rest, htrees.cons _, hvalues.cons_cons _,
          (hperm.cons _).trans List.perm_middle.symm, (he i k hfirst).append hgrown⟩

/-- The bounds of a slice stand in the order of its parts. -/
theorem sublist_bounds (ts : List (Option Tree)) :
    ((bounds ts).flatMap Option.toList).Sublist (ts.flatMap Option.toList) := by
  induction ts with
  | nil => exact .slnil
  | cons t ts ih =>
    cases t with
    | none => exact ih
    | some t =>
      rw [bounds]
      split
      · next more heq =>
        rw [heq] at ih
        exact ih.cons_cons t
      · exact ih.cons t

/-- The bounds that a slice has are the first three. -/
theorem sublist_toList (ts : List (Option Tree)) :
    (ts[0]?.join.toList ++ ts[1]?.join.toList ++ ts[2]?.join.toList).Sublist
      (ts.flatMap Option.toList) := by
  rcases ts with _ | ⟨lower, _ | ⟨upper, _ | ⟨step, rest⟩⟩⟩
  · exact .slnil
  · simp
  · simp
  · simp [← List.append_assoc]

/-- What joins in a connective is a tree or what it joins itself. -/
theorem joined_cases (op : Connective) (left : Expr) (tree : Tree) :
    joined op left tree = [tree] ∨
      ∃ values, tree.node = .boolOp op values ∧ joined op left tree = values := by
  unfold joined
  split
  · split
    · next heq => exact .inr ⟨_, heq ▸ ‹tree.node = _›, rfl⟩
    · exact .inl rfl
  · exact .inl rfl

theorem forall₂_toList {α β : Type} {R : α → β → Prop} {as : List (Option α)}
    {bs : List (Option β)} (h : List.Forall₂ (Option.Rel R) as bs) :
    List.Forall₂ R (as.flatMap Option.toList) (bs.flatMap Option.toList) := by
  induction h with
  | nil => exact .nil
  | cons hab _ ih =>
    cases hab with
    | none => exact ih
    | some hab => exact .cons hab ih

/-- The entries of a dictionary become trees, each key in front of its value. -/
theorem forall₂_entries {span : Span} {pairs : List (Expr × Expr)} {entries : List (Tree × Tree)}
    (h : List.Forall₂ (fun pair entry => c.Grows (.expr pair.1) entry.1 ∧
      c.Grows (.expr pair.2) entry.2) pairs entries) :
    List.Forall₂ c.Grows (Construct.expr (.dict span (pairs.map fun pair =>
      (pair.1, some pair.2)))).parts (Node.dict entries).toList := by
  induction h with
  | nil => exact .nil
  | cons hentry _ ih => exact .cons hentry.1 (.cons hentry.2 ih)

theorem Reads.grown {e : Expr} {t : Tree} (h : Reads e t) : c.Grows (.expr e) t := by
  induction h with
  | ident | integer | float | string | strings | truth | nothing =>
    exact .plain rfl rfl rfl rfl fun k l h => .nil h.le
  | unary _ ih | negation _ ih | lambda _ ih | attr _ ih =>
    exact .plain rfl rfl rfl rfl fun k l h => ih k l h
  | binary _ _ ihleft ihright =>
    exact .plain rfl rfl rfl rfl fun k l h =>
      grown_of_forall₂ (.cons ihleft (.cons ihright .nil)) h
  | @boolean span op left right left' right' _ _ ihleft ihright =>
    refine .plain rfl rfl rfl rfl fun k l h => ?_
    obtain ⟨m, hleft, hright⟩ := h.split [_]
    have hgrown := ihleft k m hleft
    have hjoined : c.Grown k (joined op left left') m := by
      rcases joined_cases op left left' with heq | ⟨values, hnode, heq⟩
      · rwa [heq]
      · obtain ⟨n, ps, hn, -, hwritten, hps⟩ := hgrown.inside
        rw [hnode] at hwritten
        cases hwritten with
        | plain => exact heq ▸ hps.mono hn (Nat.le_refl m)
    exact hjoined.append (ihright m l hright)
  | comparison _ _ hlength _ ihleft ih =>
    refine .plain rfl rfl rfl rfl fun k l h =>
      grown_of_forall₂ (.cons ihleft (forall₂_grows ?_ ih)) h
    rw [List.length_map, hlength]
  | conditional _ _ _ ihbody ihtest ihorelse =>
    exact .mk rfl rfl rfl fun k l h =>
      ⟨_, .ifExp, grown_of_forall₂ (.cons ihbody (.cons ihtest (.cons ihorelse .nil))) h⟩
  | subscript _ _ ihobject ihindex =>
    exact .plain rfl rfl rfl rfl fun k l h =>
      grown_of_forall₂ (.cons ihobject (.cons ihindex .nil)) h
  | @subscripts span object first second rest object' items _ hlength hitems ihobject ih =>
    refine .plain rfl rfl rfl rfl fun k l h => ?_
    obtain ⟨m, hobject, hindices⟩ := h.split [_]
    refine (ihobject k m hobject).append ?_
    -- The tuple stands where the first index does, which need not be where its tree stands.
    obtain ⟨t, ht⟩ := exists_of_zip hlength hitems first (.head _)
    cases hindices with
    | aside hx => exact absurd (ht.isAside.symm.trans hx) Bool.false_ne_true
    | cons hi hspan hparts hl hends hrest =>
      refine .cons hi hspan (.plain rfl) (grown_of_forall₂
        (forall₂_grows hlength ih) (.cons (Nat.le_refl _) hspan hparts hl hends hrest))
        (Nat.lt_of_lt_of_le hl hrest.le) nofun (.nil (Nat.le_refl l))
  | slice hlength hcolons _ ih =>
    refine .plain rfl rfl rfl rfl fun k l h => ?_
    refine Grown.sublist (grown_of_forall₂ (List.forall₂_map_left_iff.mpr (forall₂_toList ?_)) h)
      ((sublist_toList _).trans (sublist_bounds _))
    refine List.forall₂_iff_zip.mpr ⟨hlength, @fun part tree hp => ?_⟩
    have hsome := hcolons _ hp
    have hgrows := ih _ hp
    rcases part with _ | e <;> rcases tree with _ | t
    · exact .none
    · cases hsome
    · cases hsome
    · exact .some (hgrows e rfl t rfl)
  | call _ hlength _ hcount _ _ ihfunc ihargs ihkeywords =>
    refine .mk rfl rfl rfl fun k l h => ?_
    obtain ⟨m, hfunc, hargs⟩ := h.split [_]
    rw [List.map_map] at hargs
    obtain ⟨rest, htrees, hvalues, hperm, hgrown⟩ := grown_arguments
      (List.forall₂_iff_zip.mpr ⟨hlength, fun hp => ihargs _ hp⟩)
      (List.forall₂_iff_zip.mpr ⟨hcount, fun hp => ihkeywords _ hp⟩) hargs
    exact ⟨_, .call htrees hvalues hperm, (ihfunc k m hfunc).append hgrown⟩
  | list hlength _ ih | tuple hlength _ ih | sequence hlength _ ih =>
    exact .plain rfl rfl rfl rfl fun k l h =>
      grown_of_forall₂ (forall₂_grows hlength ih) h
  | parens _ ih =>
    intro i j h
    obtain ⟨k, l, hi, -, hlaid, -, hj, -⟩ := h.inside rfl
    exact (ih k l (hlaid.sublist (.cons_cons _ (List.nil_sublist _)))).mono hi hj
  | dict hlength _ _ ihkeys ihvalues =>
    refine .plain rfl rfl rfl rfl fun k l h => ?_
    exact grown_of_forall₂ (forall₂_entries (List.forall₂_iff_zip.mpr
      ⟨hlength, fun hp => ⟨ihkeys _ hp, ihvalues _ hp⟩⟩)) h

theorem Targets.grown {e : Expr} {t : Tree} (h : Targets e t) : c.Grows (.expr e) t := by
  induction h with
  | place h => exact h.grown
  | sequence hlength _ ih | tuple hlength _ ih | parens hlength _ ih | list hlength _ ih =>
    exact .plain rfl rfl rfl rfl fun k l h =>
      grown_of_forall₂ (forall₂_grows hlength ih) h

/-- A name that is given to an expression is no part of the tree. -/
theorem grown_context {e : Expr} {t : Tree} (h : e.context.Reads t) : c.Grows (.expr e) t := by
  cases e with
  | aliased span value name =>
    intro i j hlaid
    obtain ⟨k, l, hi, -, hparts, -, hj, -⟩ := hlaid.inside rfl
    exact (Reads.grown h k l hparts).mono hi hj
  | _ => exact Reads.grown h

end Expr

/-! ## Statements -/

/-- What an `except` clause reads is among what it lists. -/
theorem Caught.mem_exprs {found : Bool} {caught : List Caught} {e : Expr}
    (h : e ∈ Caught.exprs found caught) : ∃ item ∈ caught, item.expr.context = e := by
  induction found, caught using Caught.exprs.induct with
  | case1 => cases h
  | case2 found span value name text rest ih =>
    rcases List.mem_cons.mp h with rfl | h
    · exact ⟨_, .head _, rfl⟩
    · obtain ⟨item, hitem, rfl⟩ := ih h
      exact ⟨item, .tail _ hitem, rfl⟩
  | case3 first text rest hplain ih =>
    simp only [Caught.exprs] at h
    rcases List.mem_cons.mp h with rfl | h
    · refine ⟨_, .head _, ?_⟩
      cases e with
      | aliased span value name => exact absurd rfl (hplain span value name)
      | _ => rfl
    · obtain ⟨item, hitem, rfl⟩ := ih h
      exact ⟨item, .tail _ hitem, rfl⟩
  | case4 first text rest hplain ih =>
    simp only [Caught.exprs] at h
    obtain ⟨item, hitem, rfl⟩ := ih h
    exact ⟨item, .tail _ hitem, rfl⟩

/-- The exception of a handler stands where the clause lists what it catches. -/
theorem ReadsCaught.grown {caught : List Caught} {exception : Option Tree} {name : Option String}
    (h : ReadsCaught (none, none) (Caught.exprs false caught) (exception, name)) {i j : Nat}
    (hlaid : c.Laid i (caught.map fun item => .expr item.expr) j) :
    c.Grown i exception.toList j := by
  cases exception with
  | none => exact .nil hlaid.le
  | some t =>
    obtain hbefore | ⟨e, he, hreads⟩ := h.read t rfl
    · cases hbefore
    · obtain ⟨item, hitem, rfl⟩ := Caught.mem_exprs he
      exact Expr.grown_context hreads i j
        (hlaid.sublist (List.singleton_sublist.mpr (List.mem_map_of_mem hitem)))

namespace Stmt

/-- The handlers of a `try` statement become trees clause by clause. -/
theorem grown_handlers {excepts : List (Span × List Caught × List Stmt)}
    {handlers : List (Handler Tree)}
    (h : List.Forall₂ (fun clause handler =>
      ReadsCaught (none, none) (Caught.exprs false clause.2.1) (handler.exception, handler.name) ∧
        List.Forall₂ c.Grows (clause.2.2.map .stmt) handler.body) excepts handlers) {i j : Nat}
    (hlaid : c.Laid i (excepts.flatMap fun clause =>
      clause.2.1.map (fun item => .expr item.expr) ++ clause.2.2.map .stmt) j) :
    c.Grown i (handlers.flatMap Handler.toList) j := by
  induction h generalizing i with
  | nil => exact .nil hlaid.le
  | cons hhandler _ ih =>
    rw [List.flatMap_cons] at hlaid ⊢
    obtain ⟨l, hclause, hrest⟩ := hlaid.split _
    obtain ⟨k, hcaught, hbody⟩ := hclause.split _
    exact ((hhandler.1.grown hcaught).append (grown_of_forall₂ hhandler.2 hbody)).append (ih hrest)

theorem Reads.grown {s : Stmt} {t : Tree} (h : Reads s t) : c.Grows (.stmt s) t := by
  induction h with
  | expression hvalue =>
    exact .plain rfl rfl rfl rfl fun k l h => hvalue.grown k l h
  | assign htarget hvalue | augAssign htarget hvalue =>
    exact .plain rfl rfl rfl rfl fun k l h =>
      grown_of_forall₂ (.cons htarget.grown (.cons hvalue.grown .nil)) h
  | functionDef hlength _ ih =>
    exact .plain rfl rfl rfl rfl fun k l h =>
      grown_of_forall₂ (forall₂_grows hlength ih) h
  | classDef hlength _ ih =>
    exact .plain rfl rfl rfl rfl fun k l h =>
      grown_of_forall₂ (forall₂_grows hlength ih) h
  | @classDefOf span list name bases body bases' body' hkeywords hbases hlength _ ih =>
    refine .plain rfl rfl rfl rfl fun k l h => ?_
    obtain ⟨m, hargs, hbody⟩ := h.split _
    have hargs : c.Laid k (bases.map fun arg => .expr arg.2) m := by
      rwa [Option.toList_some, List.flatMap_singleton] at hargs
    -- No base has a name.
    have hnamed : List.Forall₂ (fun arg (keyword : Keyword Tree) =>
        c.Grows (.expr arg.2) keyword.value) (Expr.named bases) [] := by
      rw [hkeywords]
      exact .nil
    obtain ⟨rest, hbases', -, -, hgrown⟩ := Expr.grown_arguments
      (hbases.imp fun e t h => h.grown) hnamed hargs
    exact (hgrown.sublist hbases').append (grown_of_forall₂ (forall₂_grows hlength ih) hbody)
  | ifStmt htest hlength _ hlength' _ ihbody ihorelse =>
    refine .plain rfl rfl rfl rfl fun k l h => ?_
    exact grown_of_forall₂ (.cons htest.grown (List.rel_append (forall₂_grows hlength ihbody)
      (forall₂_grows hlength' ihorelse))) h
  | whileLoop htest hlength _ ih =>
    exact .plain rfl rfl rfl rfl fun k l h =>
      grown_of_forall₂ (.cons htest.grown (forall₂_grows hlength ih)) h
  | forLoop htarget hiter hlength _ ih =>
    exact .plain rfl rfl rfl rfl fun k l h =>
      grown_of_forall₂ (.cons htarget.grown (.cons hiter.grown (forall₂_grows hlength ih))) h
  | tryStmt hlength _ _ hcount _ hcaught hlengths _ hlength' _ ihbody ihhandlers ihfinal =>
    refine .plain rfl rfl rfl rfl fun k l h => ?_
    obtain ⟨m, hbody, hclauses⟩ := h.split _
    obtain ⟨n, hhandlers, hfinal⟩ := hclauses.split _
    refine ((grown_of_forall₂ (forall₂_grows hlength ihbody) hbody).append ?_).append
      (grown_of_forall₂ (forall₂_grows hlength' ihfinal) hfinal)
    exact grown_handlers (List.forall₂_iff_zip.mpr ⟨hcount, fun hp =>
      ⟨hcaught _ hp, forall₂_grows (hlengths _ hp) (ihhandlers _ hp)⟩⟩) hhandlers
  | @withStmt span item items body items' body' hitems hlength _ ih =>
    refine .plain rfl rfl rfl rfl fun k l h => ?_
    have hcontexts : List.Forall₂ c.Grows ((item :: items).map .expr)
        (items'.map WithItem.context) :=
      List.forall₂_map_left_iff.mpr (List.forall₂_map_right_iff.mpr
        (hitems.imp fun e item h => Expr.grown_context h.context))
    exact grown_of_forall₂ (List.rel_append hcontexts (forall₂_grows hlength ih)) h
  | returnStmt hvalue | raiseStmt hvalue =>
    refine .plain rfl rfl rfl rfl fun k l h => ?_
    cases hvalue with
    | none => exact .nil h.le
    | some hvalue => exact hvalue.grown k l h
  | importStmt | passStmt | breakStmt | continueStmt =>
    exact .plain rfl rfl rfl rfl fun k l h => .nil h.le

end Stmt

end Source

end Rendition
