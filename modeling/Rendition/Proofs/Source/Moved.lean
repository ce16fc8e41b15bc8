import Rendition.Proofs.Source.Reads
import Rendition.Proofs.Tree.Replaced

/-!
# Concrete syntax at other places

A source text that is moved to other lines is made of the same constructs at other places. Reading
looks at places only to copy them, so what constructs at other places are read as are the same trees
at other places, and where reading fails it fails in the same way.

## Main definitions

* `Expr.mapSpans`, `Stmt.mapSpans`: A construct with every place replaced.
* `ReadError.mapSpans`: A failure with its place replaced.
* `relocate`: The outcome of reading with every place replaced.

## Theorems

* `Expr.read_mapSpans`: An expression at other places is read as the same tree at other places.
* `Expr.readTarget_mapSpans`: The same for targets.
* `Stmt.read_mapSpans`: The same for statements.
-/

namespace Rendition

/-- The failure with its place, if it has one, replaced through `m`. -/
def ReadError.mapSpans (m : Span → Span) : ReadError → ReadError
  | unsupported construct span => unsupported construct (m span)
  | error => error

namespace Source

variable {α β γ : Type}

/-! ## Constructs at other places -/

/-- The continuation at another place. -/
def Continuation.mapSpans (m : Span → Span) (c : Continuation) : Continuation :=
  { c with span := m c.span }

/-- The parameter at another place. -/
def Param.mapSpans (m : Span → Span) : Param → Param
  | named name => named name
  | other span construct => other (m span) construct

/-- The link with an operand and the line continuations at other places. -/
def Link.map (m : Span → Span) (f : α → β) (link : Link α) : Link β :=
  ⟨link.before.map m, link.op, link.after.map m, f link.operand⟩

namespace Expr

variable (m : Span → Span)

mutual

/-- The expression with every place replaced through `m`. -/
def mapSpans : Expr → Expr
  | ident span name => ident (m span) name
  | integer span text => integer (m span) text
  | float span text => float (m span) text
  | string span text => string (m span) text
  | strings span literals => strings (m span) (literals.map fun literal => (m literal.1, literal.2))
  | truth span value => truth (m span) value
  | nothing span => nothing (m span)
  | unary span op operand => unary (m span) op (mapSpans operand)
  | negation span operand => negation (m span) (mapSpans operand)
  | binary span left op right => binary (m span) (mapSpans left) op (mapSpans right)
  | boolean span left op right => boolean (m span) (mapSpans left) op (mapSpans right)
  | comparison span left link links =>
    comparison (m span) (mapSpans left) (mapLink link) (mapLinks links)
  | conditional span continued body test orelse =>
    conditional (m span) continued (mapSpans body) (mapSpans test) (mapSpans orelse)
  | lambda span params body => lambda (m span) (params.map (Param.mapSpans m)) (mapSpans body)
  | attr span object name => attr (m span) (mapSpans object) name
  | subscript span object index indices =>
    subscript (m span) (mapSpans object) (mapSpans index) (mapAll indices)
  | slice span parts => slice (m span) (mapParts parts)
  | call span func args => call (m span) (mapSpans func) (mapArguments args)
  | generatorCall span argument => generatorCall (m span) (m argument)
  | list span items => list (m span) (mapAll items)
  | tuple span items => tuple (m span) (mapAll items)
  | sequence span items => sequence (m span) (mapAll items)
  | parens span item items => parens (m span) (mapSpans item) (mapAll items)
  | dict span entries => dict (m span) (mapEntries entries)
  | aliased span value name => aliased (m span) (mapSpans value) name
  | splat span argument => splat (m span) (mapSpans argument)
  | continuation span text => continuation (m span) text
  | other span construct => other (m span) construct

/-- The expressions of a list at other places. -/
def mapAll : List Expr → List Expr
  | [] => []
  | e :: rest => mapSpans e :: mapAll rest

/-- A link of a chain of comparisons at other places. -/
def mapLink : Link Expr → Link Expr
  | ⟨before, op, after, operand⟩ => ⟨before.map m, op, after.map m, mapSpans operand⟩

/-- The links of a chain of comparisons at other places. -/
def mapLinks : List (Link Expr) → List (Link Expr)
  | [] => []
  | link :: rest => mapLink link :: mapLinks rest

/-- The arguments of a call at other places. -/
def mapArguments : List (Option String × Expr) → List (Option String × Expr)
  | [] => []
  | (name, e) :: rest => (name, mapSpans e) :: mapArguments rest

/-- The entries of a dictionary at other places. -/
def mapEntries : List (Expr × Option Expr) → List (Expr × Option Expr)
  | [] => []
  | (key, value) :: rest => (mapSpans key, mapOption value) :: mapEntries rest

/-- The parts of a slice at other places. -/
def mapParts : List (Option Expr) → List (Option Expr)
  | [] => []
  | part :: rest => mapOption part :: mapParts rest

/-- An expression that may be absent at another place. -/
def mapOption : Option Expr → Option Expr
  | none => none
  | some e => some (mapSpans e)

end

theorem mapAll_eq (es : List Expr) : mapAll m es = es.map (mapSpans m) := by
  induction es with
  | nil => rfl
  | cons e es ih => rw [mapAll, ih, List.map_cons]

theorem mapLink_eq (link : Link Expr) : mapLink m link = link.map m (mapSpans m) := by
  rcases link with ⟨before, op, after, operand⟩
  rfl

theorem mapLinks_eq (links : List (Link Expr)) :
    mapLinks m links = links.map (Link.map m (mapSpans m)) := by
  induction links with
  | nil => rfl
  | cons link links ih => rw [mapLinks, ih, mapLink_eq, List.map_cons]

theorem mapArguments_eq (args : List (Option String × Expr)) :
    mapArguments m args = args.map (Prod.map id (mapSpans m)) := by
  induction args with
  | nil => rfl
  | cons arg args ih =>
    rcases arg with ⟨name, e⟩
    rw [mapArguments, ih, List.map_cons]
    rfl

theorem mapOption_eq (e : Option Expr) : mapOption m e = e.map (mapSpans m) := by
  cases e <;> rfl

theorem mapEntries_eq (entries : List (Expr × Option Expr)) :
    mapEntries m entries = entries.map (Prod.map (mapSpans m) (Option.map (mapSpans m))) := by
  induction entries with
  | nil => rfl
  | cons entry entries ih =>
    rcases entry with ⟨key, value⟩
    rw [mapEntries, ih, mapOption_eq, List.map_cons]
    rfl

theorem mapParts_eq (parts : List (Option Expr)) :
    mapParts m parts = parts.map (Option.map (mapSpans m)) := by
  induction parts with
  | nil => rfl
  | cons part parts ih => rw [mapParts, ih, mapOption_eq, List.map_cons]

@[simp] theorem span_mapSpans (e : Expr) : (e.mapSpans m).span = m e.span := by
  cases e <;> rfl

@[simp] theorem construct_mapSpans (e : Expr) : (e.mapSpans m).construct = e.construct := by
  cases e <;> rfl

@[simp] theorem isPlace_mapSpans (e : Expr) : (e.mapSpans m).isPlace = e.isPlace := by
  cases e <;> rfl

theorem arePatterns_eq (es : List Expr) : arePatterns es = es.all isPattern := by
  induction es with
  | nil => rfl
  | cons e es ih => rw [arePatterns, ih, List.all_cons]

@[simp] theorem isPattern_mapSpans (e : Expr) : (e.mapSpans m).isPattern = e.isPattern := by
  induction e using inductionOn with
  | step e ih =>
    have all : ∀ es : List Expr, (∀ p ∈ es, (mapSpans m p).isPattern = p.isPattern) →
        arePatterns (mapAll m es) = arePatterns es := by
      intro es hes
      rw [arePatterns_eq, arePatterns_eq, mapAll_eq, List.all_map, Bool.eq_iff_iff]
      simp only [List.all_eq_true, Function.comp_apply]
      exact forall₂_congr fun p hp => by rw [hes p hp]
    cases e with
    | list span items | tuple span items | sequence span items =>
      simp only [mapSpans, isPattern, all items ih]
    | parens span item items =>
      simp only [mapSpans, isPattern, ih item (.head _), all items fun p hp => ih p (.tail _ hp)]
    | splat span argument => simp only [mapSpans, isPattern, isPlace_mapSpans]
    | _ => rfl

@[simp] theorem arePatterns_map (es : List Expr) :
    arePatterns (es.map (mapSpans m)) = arePatterns es := by
  simp only [arePatterns_eq, List.all_map, Function.comp_def, isPattern_mapSpans]

@[simp] theorem leadsWithPlace_mapSpans (e : Expr) :
    (e.mapSpans m).leadsWithPlace = e.leadsWithPlace := by
  induction e using inductionOn with
  | step e ih =>
    cases e with
    | binary span left | boolean span left | comparison span left => exact ih left (.head _)
    | conditional span continued body => exact ih body (.head _)
    | call span func => exact ih func (.head _)
    | aliased span value => exact ih value (.head _)
    | _ => rfl

@[simp] theorem isBody_mapSpans (e : Expr) : (e.mapSpans m).isBody = e.isBody := by
  cases e with
  | splat span argument => simp only [mapSpans, isBody, leadsWithPlace_mapSpans]
  | _ => rfl

/-- A star before an operand at another place. -/
theorem splatted?_mapSpans (span : Span) (e : Expr) :
    (e.mapSpans m).splatted? (m span) = (e.splatted? span).map (mapSpans m) := by
  induction e using inductionOn with
  | step e ih =>
    cases e with
    | call span' func args =>
      rw [mapSpans, splatted?, splatted?, ih func (.head _), Option.map_map, Option.map_map]
      rfl
    | _ => rfl

end Expr

/-- The expression that an `except` clause lists at another place. -/
def Caught.mapSpans (m : Span → Span) (c : Caught) : Caught :=
  { c with expr := c.expr.mapSpans m }

/-- The bases of a class at other places. -/
def mapBases (m : Span → Span) (bases : Span × List (Option String × Expr)) :
    Span × List (Option String × Expr) :=
  (m bases.1, bases.2.map (Prod.map id (Expr.mapSpans m)))

section Statements

variable (m : Span → Span)

mutual

/-- The statement with every place replaced through `m`. -/
def Stmt.mapSpans : Stmt → Stmt
  | .expression span value => .expression (m span) (value.mapSpans m)
  | .assign span target value =>
    .assign (m span) (target.mapSpans m) (value.map (Expr.mapSpans m))
  | .augAssign span target op value =>
    .augAssign (m span) (target.mapSpans m) op (value.mapSpans m)
  | .functionDef span name params body =>
    .functionDef (m span) name (params.map (Param.mapSpans m)) (mapSuite body)
  | .classDef span name bases body =>
    .classDef (m span) name (bases.map (mapBases m)) (mapSuite body)
  | .ifStmt span test body branches =>
    .ifStmt (m span) (test.mapSpans m) (mapSuite body) (mapBranches branches)
  | .whileLoop span test body orelse =>
    .whileLoop (m span) (test.mapSpans m) (mapSuite body) (orelse.map m)
  | .forLoop span target iter body orelse =>
    .forLoop (m span) (target.mapSpans m) (iter.mapSpans m) (mapSuite body) (orelse.map m)
  | .tryStmt span body clauses => .tryStmt (m span) (mapSuite body) (mapClauses clauses)
  | .withStmt span item items body =>
    .withStmt (m span) (item.mapSpans m) (items.map (Expr.mapSpans m)) (mapSuite body)
  | .returnStmt span value => .returnStmt (m span) (value.map (Expr.mapSpans m))
  | .raiseStmt span exception caused =>
    .raiseStmt (m span) (exception.map (Expr.mapSpans m)) caused
  | .importStmt span source name names => .importStmt (m span) source name names
  | .passStmt span => .passStmt (m span)
  | .breakStmt span => .breakStmt (m span)
  | .continueStmt span => .continueStmt (m span)
  | .other span construct => .other (m span) construct

/-- The statements of a suite at other places. -/
def mapSuite : List Stmt → List Stmt
  | [] => []
  | s :: rest => s.mapSpans :: mapSuite rest

/-- The branches of a conditional statement at other places. -/
def mapBranches : List Branch → List Branch
  | [] => []
  | branch :: rest => branch.mapSpans :: mapBranches rest

/-- The branch at another place. -/
def Branch.mapSpans : Branch → Branch
  | .elifBranch span test body => .elifBranch (m span) (test.mapSpans m) (mapSuite body)
  | .elseBranch body => .elseBranch (mapSuite body)

/-- The clauses of a `try` statement at other places. -/
def mapClauses : List Clause → List Clause
  | [] => []
  | clause :: rest => clause.mapSpans :: mapClauses rest

/-- The clause at another place. -/
def Clause.mapSpans : Clause → Clause
  | .except span caught body => .except (m span) (caught.map (Caught.mapSpans m)) (mapSuite body)
  | .finally body => .finally (mapSuite body)
  | .other span construct => .other (m span) construct

end

theorem mapSuite_eq (body : List Stmt) : mapSuite m body = body.map (Stmt.mapSpans m) := by
  induction body with
  | nil => rfl
  | cons s body ih => rw [mapSuite, ih, List.map_cons]

theorem mapBranches_eq (branches : List Branch) :
    mapBranches m branches = branches.map (Branch.mapSpans m) := by
  induction branches with
  | nil => rfl
  | cons branch branches ih => rw [mapBranches, ih, List.map_cons]

theorem mapClauses_eq (clauses : List Clause) :
    mapClauses m clauses = clauses.map (Clause.mapSpans m) := by
  induction clauses with
  | nil => rfl
  | cons clause clauses ih => rw [mapClauses, ih, List.map_cons]

end Statements

/-! ## Outcomes at other places -/

/-- The outcome of reading with every place replaced: in the result through `f`, in a failure
    through `m`. -/
def relocate (m : Span → Span) (f : α → β) : Except ReadError α → Except ReadError β
  | .ok a => .ok (f a)
  | .error error => .error (error.mapSpans m)

section Outcomes

variable {m : Span → Span}

/-- The outcome of one computation after another. -/
theorem relocate_bind {α' β' : Type} {f : α → α'} {g : β → β'} {x : Except ReadError α}
    {x' : Except ReadError α'} {k : α → Except ReadError β} {k' : α' → Except ReadError β'}
    (hx : x' = relocate m f x) (hk : ∀ a, k' (f a) = relocate m g (k a)) :
    x' >>= k' = relocate m g (x >>= k) := by
  subst hx
  rcases x with error | a
  · rfl
  · exact hk a

/-- The outcome of a traversal. -/
theorem relocate_mapM {α' β' : Type} {f : α → α'} {g : β → β'} {k : α → Except ReadError β}
    {k' : α' → Except ReadError β'} {as : List α}
    (h : ∀ a ∈ as, k' (f a) = relocate m g (k a)) :
    (as.map f).mapM k' = relocate m (List.map g) (as.mapM k) := by
  induction as with
  | nil => rfl
  | cons a as ih =>
    rw [List.map_cons, List.mapM_cons, List.mapM_cons]
    exact relocate_bind (h a (.head _)) fun b =>
      relocate_bind (ih fun a ha => h a (.tail _ ha)) fun bs => rfl

/-! ## Reading at other places -/

theorem stringValue_map (span : Span) (text : String) :
    stringValue (m span) text = relocate m id (stringValue span text) := by
  rw [stringValue.eq_def, stringValue.eq_def span]
  dsimp only
  split
  · rfl
  · split
    · rfl
    · split <;> rfl

theorem params_mapSpans (params : List Param) :
    (params.map (Param.mapSpans m)).mapM Param.read =
      relocate m (List.map id) (params.mapM Param.read) :=
  relocate_mapM fun param _ => by cases param <;> rfl

theorem uncontinued_map (span : Option Span) :
    uncontinued (span.map m) = relocate m id (uncontinued span) := by
  cases span <;> rfl

/-- The bounds of a slice at other places. -/
theorem bounds_map (f : Tree → Tree) (parts : List (Option Tree)) :
    bounds (parts.map (Option.map f)) = (bounds parts).map (Option.map f) := by
  induction parts with
  | nil => rfl
  | cons part parts ih =>
    cases part with
    | none =>
      rw [List.map_cons, Option.map_none, bounds, bounds, ih]
      rfl
    | some t =>
      rw [List.map_cons, Option.map_some, bounds, bounds, ih]
      rcases bounds parts with _ | ⟨_ | _, _⟩ <;> rfl

/-- What a connective joins at other places. -/
theorem joined_mapSpans (op : Connective) (left : Expr) (tree : Tree) :
    joined op (left.mapSpans m) (tree.mapSpans m) =
      (joined op left tree).map (Tree.mapSpans m) := by
  rcases tree with ⟨span, node⟩
  rw [joined.eq_def, joined.eq_def, Tree.node_mapSpans]
  cases left <;> cases node <;> try rfl
  simp only [Expr.mapSpans, Tree.node_mk, Node.map, Node.mapSpans]
  split <;> rfl

namespace Expr

variable (m)

theorem unsupported_mapSpans (e : Expr) :
    (e.mapSpans m).unsupported = e.unsupported.mapSpans m := by
  rw [unsupported, construct_mapSpans, span_mapSpans]
  rfl

/-- The trees of expressions at other places, if those of each one are known. -/
theorem readAll_mapSpans {es : List Expr}
    (h : ∀ e ∈ es, (e.mapSpans m).read = relocate m (Tree.mapSpans m) e.read) :
    readAll (mapAll m es) = relocate m (List.map (Tree.mapSpans m)) (readAll es) := by
  rw [readAll_eq, readAll_eq, mapAll_eq]
  exact relocate_mapM h

theorem readLink_mapSpans {link : Link Expr}
    (h : (link.operand.mapSpans m).read = relocate m (Tree.mapSpans m) link.operand.read) :
    readLink (link.map m (mapSpans m)) =
      relocate m (Prod.map id (Tree.mapSpans m)) (readLink link) := by
  rcases link with ⟨before, op, after, operand⟩
  refine relocate_bind (uncontinued_map before) fun _ => ?_
  refine relocate_bind (f := id) ?_ fun op =>
    relocate_bind (uncontinued_map after) fun _ => relocate_bind h fun _ => rfl
  rw [readComparison]
  split <;> rfl

theorem readArguments_mapSpans {args : List (Option String × Expr)}
    (h : ∀ e ∈ args.map Prod.snd,
      (e.mapSpans m).read = relocate m (Tree.mapSpans m) e.read) :
    readArguments (args.map (Prod.map id (mapSpans m))) =
      relocate m (Prod.map (List.map (Tree.mapSpans m))
        (List.map (Keyword.map (Tree.mapSpans m)))) (readArguments args) := by
  induction args with
  | nil => rfl
  | cons arg args ih =>
    rcases arg with ⟨name, e⟩
    refine relocate_bind (h e (.head _)) fun tree =>
      relocate_bind (ih fun e he => h e (.tail _ he)) fun rest => ?_
    cases name <;> rfl

theorem readEntries_mapSpans {entries : List (Expr × Option Expr)}
    (h : ∀ e ∈ entries.flatMap fun entry => entry.1 :: entry.2.toList,
      (e.mapSpans m).read = relocate m (Tree.mapSpans m) e.read) :
    readEntries (mapEntries m entries) =
      relocate m (List.map (Prod.map (Tree.mapSpans m) (Tree.mapSpans m)))
        (readEntries entries) := by
  induction entries with
  | nil => rfl
  | cons entry entries ih =>
    rcases entry with ⟨key, _ | value⟩
    · simp only [mapEntries, mapOption, readEntries, unsupported_mapSpans]
      rfl
    · refine relocate_bind (h key (.head _)) fun _ =>
        relocate_bind (h value (.tail _ (.head _))) fun _ => relocate_bind (ih fun e he => ?_)
          fun _ => rfl
      exact h e (List.mem_flatMap.mpr (by
        obtain ⟨entry, hentry, he⟩ := List.mem_flatMap.mp he
        exact ⟨entry, .tail _ hentry, he⟩))

theorem readOptional_mapSpans {e : Option Expr}
    (h : ∀ e' ∈ e, (mapSpans m e').read = relocate m (Tree.mapSpans m) e'.read) :
    readOptional (e.map (mapSpans m)) =
      relocate m (Option.map (Tree.mapSpans m)) (readOptional e) := by
  cases e with
  | none => rfl
  | some e =>
    rw [Option.map_some, readOptional, h e rfl, readOptional]
    rcases e.read with _ | t <;> rfl

/-- A tree that is read, once its node is known at other places. -/
theorem relocate_mk {span : Span} {node node' : Node Tree}
    (h : node' = (node.map (Tree.mapSpans m)).mapSpans m) :
    (pure (.mk (m span) node') : Except ReadError Tree) =
      relocate m (Tree.mapSpans m) (pure (.mk span node)) := by
  rw [h]
  exact congrArg Except.ok (Tree.mapSpans_mk m span node).symm

/-- An expression at other places is read as the same tree at other places. -/
theorem read_mapSpans (e : Expr) :
    (e.mapSpans m).read = relocate m (Tree.mapSpans m) e.read := by
  induction e using inductionOn with
  | step e ih =>
    cases e with
    | ident | truth | nothing => exact relocate_mk m rfl
    | integer span text =>
      simp only [mapSpans, read, readInteger]
      split
      · exact relocate_mk m rfl
      · rfl
    | float span text =>
      simp only [mapSpans, read, readFloat]
      split
      · exact relocate_mk m rfl
      · rfl
    | string span text =>
      exact relocate_bind (stringValue_map span text) fun value => relocate_mk m rfl
    | strings span literals =>
      refine relocate_bind (f := List.map id) (relocate_mapM fun literal _ => ?_) fun texts => ?_
      · exact stringValue_map literal.1 literal.2
      · rw [List.map_id]
        exact relocate_mk m rfl
    | unary span op operand | negation span operand =>
      exact relocate_bind (ih operand (.head _)) fun _ => relocate_mk m rfl
    | binary span left op right =>
      exact relocate_bind (ih left (.head _)) fun _ =>
        relocate_bind (ih right (.tail _ (.head _))) fun _ => relocate_mk m rfl
    | boolean span left op right =>
      refine relocate_bind (ih left (.head _)) fun tree =>
        relocate_bind (ih right (.tail _ (.head _))) fun _ => relocate_mk m ?_
      simp only [joined_mapSpans, Node.map, Node.mapSpans, List.map_append, List.map_cons,
        List.map_nil]
    | comparison span left link links =>
      rw [mapSpans, read, read, mapLink_eq, mapLinks_eq, readLinks_eq, readLinks_eq]
      refine relocate_bind (ih left (.head _)) fun _ =>
        relocate_bind (readLink_mapSpans m (ih _ (.tail _ (.head _)))) fun first => ?_
      refine relocate_bind (relocate_mapM fun link hlink => readLink_mapSpans m
        (ih _ (.tail _ (.tail _ (List.mem_map_of_mem hlink))))) fun rest => relocate_mk m ?_
      simp only [Node.map, Node.mapSpans, List.map_map, List.map_cons]
      rfl
    | conditional span continued body test orelse =>
      cases continued with
      | true => rfl
      | false =>
        exact relocate_bind (ih test (.tail _ (.head _))) fun _ =>
          relocate_bind (ih body (.head _)) fun _ =>
            relocate_bind (ih orelse (.tail _ (.tail _ (.head _)))) fun _ => relocate_mk m rfl
    | lambda span params body =>
      refine relocate_bind (params_mapSpans params) fun names => ?_
      rw [List.map_id]
      exact relocate_bind (ih body (.head _)) fun _ => relocate_mk m rfl
    | attr span object name =>
      exact relocate_bind (ih object (.head _)) fun _ => relocate_mk m rfl
    | subscript span object index indices =>
      refine relocate_bind (ih object (.head _)) fun _ =>
        relocate_bind (ih index (.tail _ (.head _))) fun first =>
          relocate_bind (readAll_mapSpans m fun e he => ih e (.tail _ (.tail _ he))) fun rest => ?_
      cases rest with
      | nil => exact relocate_mk m rfl
      | cons second rest =>
        -- Several indices make a tuple, which stands where the first one does.
        refine relocate_mk m ?_
        simp only [Node.map, Node.mapSpans, Tree.mapSpans_mk, span_mapSpans, List.map_cons]
    | slice span parts =>
      rw [mapSpans, read, read, mapParts_eq, readParts_eq, readParts_eq]
      refine relocate_bind (relocate_mapM fun part hpart => readOptional_mapSpans m
        fun e he => ih e (List.mem_flatMap.mpr ⟨part, hpart, Option.mem_toList.mpr he⟩))
        fun trees => relocate_mk m ?_
      simp only [bounds_map, List.getElem?_map, Option.join_map_eq_map_join, Node.map,
        Node.mapSpans]
    | call span func args =>
      rw [mapSpans, read, read, mapArguments_eq]
      exact relocate_bind (readArguments_mapSpans m fun e he => ih e (.tail _ he)) fun _ =>
        relocate_bind (ih func (.head _)) fun _ => relocate_mk m rfl
    | list span items | tuple span items | sequence span items =>
      exact relocate_bind (readAll_mapSpans m ih) fun _ => relocate_mk m rfl
    | parens span item items => exact ih item (.head _)
    | dict span entries =>
      exact relocate_bind (readEntries_mapSpans m ih) fun _ => relocate_mk m rfl
    | generatorCall => rfl
    | aliased | splat | continuation | other => rfl

/-- A target at other places is read as the same tree at other places. -/
theorem readTarget_mapSpans (e : Expr) :
    (e.mapSpans m).readTarget = relocate m (Tree.mapSpans m) e.readTarget := by
  induction e using inductionOn with
  | step e ih =>
    have all : ∀ es : List Expr,
        (∀ p ∈ es, (mapSpans m p).readTarget = relocate m (Tree.mapSpans m) p.readTarget) →
        readTargets (mapAll m es) = relocate m (List.map (Tree.mapSpans m)) (readTargets es) := by
      intro es hes
      rw [readTargets_eq, readTargets_eq, mapAll_eq]
      exact relocate_mapM hes
    cases e with
    | sequence span items | tuple span items | list span items =>
      exact relocate_bind (all items ih) fun _ => relocate_mk m rfl
    | parens span item items =>
      exact relocate_bind (ih item (.head _)) fun _ =>
        relocate_bind (all items fun p hp => ih p (.tail _ hp)) fun _ => relocate_mk m rfl
    | splat => rfl
    | _ => exact read_mapSpans m _

theorem readItem_mapSpans (e : Expr) :
    readItem (e.mapSpans m) = relocate m (WithItem.map (Tree.mapSpans m)) (readItem e) := by
  cases e with
  | aliased span value name => exact relocate_bind (read_mapSpans m value) fun _ => rfl
  | _ => exact relocate_bind (read_mapSpans m _) fun _ => rfl

/-- What an `except` clause lists at other places. -/
theorem readCaught_mapSpans (before : Option Tree × Option String) (caught : List Caught) :
    readCaught (before.map (Option.map (Tree.mapSpans m)) id) (caught.map (Caught.mapSpans m)) =
      relocate m (Prod.map (Option.map (Tree.mapSpans m)) id) (readCaught before caught) := by
  induction caught generalizing before with
  | nil => rfl
  | cons c rest ih =>
    rcases before with ⟨exception, name⟩
    rcases c with ⟨e, text⟩
    -- What comes first is the exception, what comes second its name, and there is no third.
    cases e with
    | aliased span value asName =>
      exact relocate_bind (read_mapSpans m value) fun t => ih (some t, some asName)
    | _ =>
      cases exception with
      | none => exact relocate_bind (read_mapSpans m _) fun t => ih (some t, name)
      | some exception =>
        cases name with
        | none => exact ih (some exception, some text)
        | some name => exact congrArg Except.error (unsupported_mapSpans m _)

end Expr

namespace Stmt

variable (m)

/-- The tree of an assignment of what has no counterpart, unless that is an assignment itself. -/
theorem read_assign_other {construct : String} (h : construct ≠ "assignment") (span inner : Span)
    (target : Expr) :
    read (.assign span target (some (.other inner construct))) = (do
      let target ← target.readTarget
      return .mk span (.assign target (← (Expr.other inner construct).read))) := by
  rw [read.eq_def]
  dsimp only
  split
  · next heq => cases heq
  · next heq =>
    cases heq
    exact absurd rfl h
  · next heq =>
    cases heq
    rfl

/-- An assignment at other places, unless its value is an assignment itself. -/
theorem relocate_assign (span : Span) (target value : Expr) :
    (do
      let target ← (target.mapSpans m).readTarget
      return .mk (m span) (.assign target (← (value.mapSpans m).read)) : Except ReadError Tree) =
    relocate m (Tree.mapSpans m) (do
      let target ← target.readTarget
      return .mk span (.assign target (← value.read))) :=
  relocate_bind (target.readTarget_mapSpans m) fun _ =>
    relocate_bind (value.read_mapSpans m) fun _ => Expr.relocate_mk m rfl

mutual

/-- A statement at other places is read as the same tree at other places. -/
theorem read_mapSpans : ∀ s : Stmt, (s.mapSpans m).read = relocate m (Tree.mapSpans m) s.read
  | .expression span value =>
    relocate_bind (value.read_mapSpans m) fun _ => Expr.relocate_mk m rfl
  | .assign span target none => rfl
  | .assign span target (some value) => by
    cases value with
    | other inner construct =>
      by_cases h : construct = "assignment"
      · subst h
        rfl
      · rw [read_assign_other h]
        exact (read_assign_other h ..).trans
          (relocate_assign m span target (.other inner construct))
    | _ => exact relocate_assign m span target _
  | .augAssign span target op value =>
    relocate_bind (target.readTarget_mapSpans m) fun _ =>
      relocate_bind (value.read_mapSpans m) fun _ => Expr.relocate_mk m rfl
  | .functionDef span name params body =>
    relocate_bind (params_mapSpans params) fun names => by
      rw [List.map_id]
      exact relocate_bind (readSuite_mapSpans body) fun _ => Expr.relocate_mk m rfl
  | .classDef span name bases body =>
    relocate_bind (readSuite_mapSpans body) fun body => by
      rcases bases with _ | ⟨list, args⟩
      · exact Expr.relocate_mk m rfl
      · refine relocate_bind (Expr.readArguments_mapSpans m fun e _ => e.read_mapSpans m)
          fun read => ?_
        rcases read with ⟨bases, _ | _⟩
        · exact Expr.relocate_mk m rfl
        · rfl
  | .ifStmt span test body branches =>
    relocate_bind (test.read_mapSpans m) fun _ =>
      relocate_bind (readSuite_mapSpans body) fun _ =>
        relocate_bind (readBranches_mapSpans branches) fun _ => Expr.relocate_mk m rfl
  | .whileLoop span test body none =>
    relocate_bind (test.read_mapSpans m) fun _ =>
      relocate_bind (readSuite_mapSpans body) fun _ => Expr.relocate_mk m rfl
  | .forLoop span target iter body none =>
    relocate_bind (target.readTarget_mapSpans m) fun _ =>
      relocate_bind (iter.read_mapSpans m) fun _ =>
        relocate_bind (readSuite_mapSpans body) fun _ => Expr.relocate_mk m rfl
  | .whileLoop _ _ _ (some _) | .forLoop _ _ _ _ (some _) => rfl
  | .tryStmt span body clauses =>
    relocate_bind (readSuite_mapSpans body) fun _ =>
      relocate_bind (readClauses_mapSpans clauses) fun _ => Expr.relocate_mk m (by
        simp only [Node.map, Node.mapSpans, List.map_map]
        rfl)
  | .withStmt span item items body =>
    relocate_bind (readSuite_mapSpans body) fun _ =>
      relocate_bind (Expr.readItem_mapSpans m item) fun _ =>
        relocate_bind (relocate_mapM fun item _ => Expr.readItem_mapSpans m item) fun _ =>
          Expr.relocate_mk m rfl
  | .returnStmt span value =>
    relocate_bind (Expr.readOptional_mapSpans m fun e _ => e.read_mapSpans m) fun _ =>
      Expr.relocate_mk m rfl
  | .raiseStmt span exception false =>
    relocate_bind (Expr.readOptional_mapSpans m fun e _ => e.read_mapSpans m) fun _ =>
      Expr.relocate_mk m rfl
  | .raiseStmt _ _ true => rfl
  | .importStmt .. | .passStmt _ | .breakStmt _ | .continueStmt _ => Expr.relocate_mk m rfl
  | .other _ _ => rfl

/-- A suite at other places. -/
theorem readSuite_mapSpans : ∀ body : List Stmt,
    readSuite (mapSuite m body) = relocate m (List.map (Tree.mapSpans m)) (readSuite body)
  | [] => rfl
  | s :: rest =>
    relocate_bind (read_mapSpans s) fun _ => relocate_bind (readSuite_mapSpans rest) fun _ => rfl

/-- The branches of a conditional statement at other places. -/
theorem readBranches_mapSpans : ∀ branches : List Branch,
    readBranches (mapBranches m branches) =
      relocate m (List.map (Tree.mapSpans m)) (readBranches branches)
  | [] => rfl
  | .elifBranch span test body :: rest =>
    relocate_bind (readBranches_mapSpans rest) fun _ =>
      relocate_bind (test.read_mapSpans m) fun _ =>
        relocate_bind (readSuite_mapSpans body) fun _ => by
          exact congrArg (fun t => Except.ok [t]) (Tree.mapSpans_mk m span (.ifStmt _ _ _)).symm
  | .elseBranch body :: rest => by
    refine relocate_bind (f := id) (x := discard (readBranches rest)) ?_ fun _ =>
      readSuite_mapSpans body
    rw [readBranches_mapSpans rest]
    rcases readBranches rest with _ | _ <;> rfl

/-- The clauses of a `try` statement at other places. -/
theorem readClauses_mapSpans : ∀ clauses : List Clause,
    readClauses (mapClauses m clauses) =
      relocate m (Prod.map
        (List.map fun h => { h.map (Tree.mapSpans m) with span := m h.span })
        (List.map (Tree.mapSpans m))) (readClauses clauses)
  | [] => rfl
  | .except span caught body :: rest =>
    relocate_bind (Expr.readCaught_mapSpans m (none, none) caught) fun _ =>
      relocate_bind (readSuite_mapSpans body) fun _ =>
        relocate_bind (readClauses_mapSpans rest) fun _ => rfl
  | .finally body :: rest =>
    relocate_bind (readSuite_mapSpans body) fun body =>
      relocate_bind (readClauses_mapSpans rest) fun ⟨handlers, final⟩ => by
        cases final <;> rfl
  | .other _ _ :: _ => rfl

end

end Stmt

end Outcomes

end Source

end Rendition
