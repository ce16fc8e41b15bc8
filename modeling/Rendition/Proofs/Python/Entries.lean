import Rendition.Proofs.Python.Textual

/-!
# The lines of statements and whose they are

A statement is written as a line of its own, or as the head of a suite with the lines of the
statements in the suite below it, a level deeper, and so on for its further suites. So each line
belongs to one statement, except that an empty suite is filled with a line that stands for none.

## Main definitions

* `Python.Entry`: A row with the statement that it belongs to.
* `Python.entries`: The lines of a tree.
* `Python.Followed`: Below every head stands a line a level deeper.
* `Python.Aligned`: What the lines of a whole source text say about the text.

## Theorems

* `mem_entriesOf`: A line is one of the node itself or of a statement in it.
* `entry_depth`: A line stands as deep as there are suites around its statement.
* `entry_owner`, `exists_entry`: The statements that lines belong to, and the lines of statements.
* `followed_entries`: Below every head stands a line a level deeper.
* `exists_continued`: A conditional statement alone in the `else` of another one continues it.
* `aligned_entries`: What the lines of an orderly source text say about the text.
-/

namespace Rendition.Python

/-- What a line is for. -/
inductive Role where
  /-- A statement that fits on a line. -/
  | line
  /-- The head of a suite. -/
  | head
  /-- The line of a suite without statements. -/
  | filler
  deriving DecidableEq

/-- How much deeper than the statement it belongs to a line of this role is. -/
def Role.extra : Role → Nat
  | filler => 1
  | _ => 0

/-- A row with the statement that it belongs to. -/
structure Entry extends Row where
  /-- The position of the statement. -/
  owner : Position
  role : Role

namespace Entry

/-- A line of the tree itself. -/
def own (role : Role) (text : String) : Entry :=
  ⟨⟨0, text.toList⟩, [], role⟩

/-- The same line in a suite. -/
def down (e : Entry) : Entry :=
  { e with depth := e.depth + 1 }

/-- The same line, seen from the node whose child of this number the tree is. -/
def under (i : Nat) (e : Entry) : Entry :=
  { e with owner := i :: e.owner }

/-- The line that continues a conditional statement with this one. -/
def continued (e : Entry) : Entry :=
  { e with text := "el".toList ++ e.text }

end Entry

/-- The lines of a suite. -/
def suiteEntries (statements : List (List Entry)) : List Entry :=
  if statements.isEmpty then [(Entry.own .filler "pass").down]
  else statements.flatten.map Entry.down

/-- A head and the lines of its suite. -/
def headedEntries (head : String) (statements : List (List Entry)) : List Entry :=
  .own .head (head ++ ":") :: suiteEntries statements

/-- The lines after the first branch of a conditional statement. -/
def otherwiseEntries : List (Tree × List Entry) → List Entry
  | [] => []
  | [single] =>
    if single.1.kind = .ifStmt then single.2.modifyHead Entry.continued
    else headedEntries "else" [single.2]
  | orelse => headedEntries "else" (orelse.map Prod.snd)

/-- The lines of a clause of a `try` statement. -/
def clauseEntries (handler : Handler (Tree × List Entry)) : List Entry :=
  headedEntries (clauseHead (handler.map fun c => wording "" c.1)) (handler.body.map Prod.snd)

/-- The lines of a node, from those of its children. -/
def entriesOf (node : Node (Tree × List Entry)) : List Entry :=
  let head := headOf (node.map fun c => wording "" c.1)
  match node with
  | .moduleDef body => body.flatMap Prod.snd
  | .functionDef _ _ body | .whileLoop _ body | .forLoop _ _ body | .withStmt _ body
  | .classDef _ _ body => headedEntries head (body.map Prod.snd)
  | .ifStmt _ body orelse => headedEntries head (body.map Prod.snd) ++ otherwiseEntries orelse
  | .tryStmt body handlers finalbody =>
    headedEntries head (body.map Prod.snd) ++ handlers.flatMap clauseEntries ++
      if finalbody.isEmpty then [] else headedEntries "finally" (finalbody.map Prod.snd)
  | _ => [.own .line head]

/-- The lines of a tree. -/
def entries (t : Tree) : List Entry :=
  t.para fun _ node => entriesOf (node.mapIdx fun i c => (c.1, c.2.map (Entry.under i)))

/-- The lines of a child, seen from the node. -/
def childEntries (i : Nat) (c : Tree) : Tree × List Entry :=
  (c, (entries c).map (Entry.under i))

theorem entries_mk (span : Span) (node : Node Tree) :
    entries (.mk span node) = entriesOf (node.mapIdx childEntries) := by
  rw [entries, Tree.para_mk, Node.mapIdx_map]
  rfl

/-! ## How deep a line stands -/

/-- A line that comes from another one by standing deeper. -/
def Entry.Below (n : Nat) (e inner : Entry) : Prop :=
  e.owner = inner.owner ∧ e.role = inner.role ∧ e.depth = inner.depth + n

/-- A line of the node itself. -/
def Entry.IsOwn (e : Entry) : Prop :=
  e.owner = [] ∧ e.depth = e.role.extra

theorem mem_headedEntries {head : String} {statements : List (List Entry)} {e : Entry}
    (h : e ∈ headedEntries head statements) :
    e.IsOwn ∨ ∃ inner ∈ statements.flatten, e.Below 1 inner := by
  rcases List.mem_cons.mp h with rfl | h
  · exact .inl ⟨rfl, rfl⟩
  · unfold suiteEntries at h
    split at h
    · rw [List.mem_singleton.mp h]
      exact .inl ⟨rfl, rfl⟩
    · obtain ⟨inner, hinner, rfl⟩ := List.mem_map.mp h
      exact .inr ⟨inner, hinner, rfl, rfl, rfl⟩

/-- Whether a child is a conditional statement. -/
def isIfChild (c : Tree × List Entry) : Bool :=
  c.1.kind = .ifStmt

/-- A line of a node is its own, or it comes from a statement in it, a level deeper if the statement
    stands in a suite. -/
theorem mem_entriesOf {node : Node (Tree × List Entry)} {e : Entry} (h : e ∈ entriesOf node) :
    e.IsOwn ∨ (∃ c ∈ node.nested isIfChild, ∃ inner ∈ c.2, e.Below 1 inner) ∨
      ∃ c ∈ node.flush isIfChild, ∃ inner ∈ c.2, e.Below 0 inner := by
  have hsuite {head : String} {body : List (Tree × List Entry)}
      (hbody : ∀ c ∈ body, c ∈ node.nested isIfChild)
      (he : e ∈ headedEntries head (body.map Prod.snd)) :
      e.IsOwn ∨ (∃ c ∈ node.nested isIfChild, ∃ inner ∈ c.2, e.Below 1 inner) ∨
        ∃ c ∈ node.flush isIfChild, ∃ inner ∈ c.2, e.Below 0 inner := by
    refine (mem_headedEntries he).imp_right fun ⟨inner, hinner, hbelow⟩ => .inl ?_
    obtain ⟨lines, hlines, hinner⟩ := List.mem_flatten.mp hinner
    obtain ⟨c, hc, rfl⟩ := List.mem_map.mp hlines
    exact ⟨c, hbody c hc, inner, hinner, hbelow⟩
  cases node with
  | moduleDef body =>
    obtain ⟨c, hc, he⟩ := List.mem_flatMap.mp h
    exact .inr (.inr ⟨c, hc, e, he, rfl, rfl, rfl⟩)
  | functionDef name params body => exact hsuite (fun c hc => hc) h
  | whileLoop test body => exact hsuite (fun c hc => hc) h
  | forLoop target iter body => exact hsuite (fun c hc => hc) h
  | withStmt items body => exact hsuite (fun c hc => hc) h
  | classDef name bases body => exact hsuite (fun c hc => hc) h
  | ifStmt test body orelse =>
    -- Alone in the `else`, a conditional statement is on the level of the node, and anything else
    -- stands in a suite of its own.
    rcases orelse with _ | ⟨single, _ | ⟨second, rest⟩⟩
    · rcases List.mem_append.mp h with h | h
      · exact hsuite (fun c hc => List.mem_append_left _ hc) h
      · cases h
    · have hnested : Node.nested isIfChild (.ifStmt test body [single]) =
          if isIfChild single then body else body ++ [single] := rfl
      have hflush : Node.flush isIfChild (.ifStmt test body [single]) =
          if isIfChild single then [single] else [] := rfl
      rcases List.mem_append.mp h with h | h
      · refine hsuite (fun c hc => ?_) h
        rw [hnested]
        split
        · exact hc
        · exact List.mem_append_left _ hc
      · by_cases hif : single.1.kind = .ifStmt
        · have hchild : isIfChild single = true := decide_eq_true hif
          simp only [otherwiseEntries, hif, if_true] at h
          rw [hflush, if_pos hchild]
          refine .inr (.inr ⟨single, List.mem_singleton_self _, ?_⟩)
          rcases hlines : single.2 with _ | ⟨first, rest⟩
          · rw [hlines] at h
            cases h
          · rw [hlines, List.modifyHead_cons, List.mem_cons] at h
            rcases h with rfl | h
            · exact ⟨first, List.mem_cons_self, rfl, rfl, rfl⟩
            · exact ⟨e, List.mem_cons_of_mem _ h, rfl, rfl, rfl⟩
        · have hchild : ¬isIfChild single = true := fun h => hif (of_decide_eq_true h)
          simp only [otherwiseEntries, hif, if_false] at h
          refine @hsuite "else" [single] (fun c hc => ?_) h
          rw [hnested, if_neg hchild]
          exact List.mem_append_right _ hc
    · rcases List.mem_append.mp h with h | h
      · exact hsuite (fun c hc => List.mem_append_left _ hc) h
      · exact hsuite (fun c hc => List.mem_append_right _ hc) h
  | tryStmt body handlers finalbody =>
    rcases List.mem_append.mp h with h | h
    · rcases List.mem_append.mp h with h | h
      · exact hsuite (fun c hc => List.mem_append_left _ (List.mem_append_left _ hc)) h
      · obtain ⟨handler, hhandler, h⟩ := List.mem_flatMap.mp h
        exact hsuite (fun c hc => List.mem_append_left _ (List.mem_append_right _
          (List.mem_flatMap.mpr ⟨handler, hhandler, hc⟩))) h
    · split at h
      · cases h
      · exact hsuite (fun c hc => List.mem_append_right _ hc) h
  | _ =>
    rw [List.mem_singleton.mp h]
    exact .inl ⟨rfl, rfl⟩

/-- A line of a tree is its own, or it comes from a child that stands in the tree: in one of its
    suites, or on its level. -/
theorem mem_entries {t : Tree} {e : Entry} (h : e ∈ entries t) :
    e.IsOwn ∨ ∃ i c inner, t.children[i]? = some c ∧ c ∈ t.node.statements ∧ inner ∈ entries c ∧
      e.owner = i :: inner.owner ∧ e.role = inner.role ∧
      e.depth = inner.depth + if i ∈ t.nested.map Prod.fst then 1 else 0 := by
  rcases t with ⟨span, node⟩
  rw [entries_mk, Node.mapIdx_eq_numbered] at h
  rcases mem_entriesOf h with hown | ⟨c, hc, inner, hinner, hbelow⟩ | ⟨c, hc, inner, hinner, hbelow⟩
  · exact .inl hown
  · rw [Node.nested_map] at hc
    obtain ⟨⟨i, child⟩, hpair, rfl⟩ := List.mem_map.mp hc
    obtain ⟨inner, hinner', rfl⟩ := List.mem_map.mp hinner
    have hstatement := Node.mem_numbered_statements (Node.mem_statements_of_nested hpair)
    refine .inr ⟨i, child, inner, hstatement.1, hstatement.2, hinner', hbelow.1, hbelow.2.1, ?_⟩
    have hnested : i ∈ (Tree.mk span node).nested.map Prod.fst :=
      List.mem_map_of_mem (f := Prod.fst) hpair
    rw [if_pos hnested]
    exact hbelow.2.2
  · rw [Node.flush_map] at hc
    obtain ⟨⟨i, child⟩, hpair, rfl⟩ := List.mem_map.mp hc
    obtain ⟨inner, hinner', rfl⟩ := List.mem_map.mp hinner
    have hstatement := Node.mem_numbered_statements (Node.mem_statements_of_flush hpair)
    refine .inr ⟨i, child, inner, hstatement.1, hstatement.2, hinner', hbelow.1, hbelow.2.1, ?_⟩
    have hnested : i ∉ (Tree.mk span node).nested.map Prod.fst :=
      Node.not_mem_nested_of_flush hpair
    rw [if_neg hnested]
    exact hbelow.2.2

/-- A line stands as deep as there are suites around its statement, and a line of a suite without
    statements one level deeper. -/
theorem entry_depth {t : Tree} {e : Entry} (h : e ∈ entries t) :
    e.depth = t.suites e.owner + e.role.extra := by
  induction t using Tree.inductionOn generalizing e with
  | step span node ih =>
    rcases mem_entries h with ⟨howner, hdepth⟩ | ⟨i, c, inner, hc, -, hinner, howner, hrole, hdepth⟩
    · rw [howner, hdepth, Tree.suites, Nat.zero_add]
    · rw [howner, hrole, hdepth, Tree.suites_cons hc, ih c (List.mem_of_getElem? hc) hinner]
      omega

/-- The owner of a line of an orderly tree is the tree itself or a statement in it. -/
theorem entry_owner {t : Tree} (h : t.Orderly) {e : Entry} (he : e ∈ entries t) :
    ∃ s, t.descend? e.owner = some s ∧ (e.owner = [] ∨ s.kind.category = .statement) := by
  induction t using Tree.inductionOn generalizing e with
  | step span node ih =>
    rcases mem_entries he with ⟨howner, -⟩ | ⟨i, c, inner, hc, hmem, hinner, howner, -⟩
    · exact ⟨_, by rw [howner]; rfl, .inl howner⟩
    · have hchild : c ∈ node.toList := List.mem_of_getElem? hc
      obtain ⟨s, hs, hkind⟩ := ih c hchild (h.child hchild) hinner
      refine ⟨s, by rw [howner, Tree.descend_cons, hc]; exact hs, .inr ?_⟩
      rcases hkind with hself | hkind
      · rw [hself, Tree.descend?, Option.some.injEq] at hs
        exact hs ▸ h.root.statements c hmem
      · exact hkind

/-! ## What stands below a head -/

/-- Below every head stands a line a level deeper. -/
def Followed (es : List Entry) : Prop :=
  ∀ before e after, es = before ++ e :: after → e.role = .head →
    ∃ next more, after = next :: more ∧ next.depth = e.depth + 1

theorem followed_nil : Followed [] :=
  fun before _ _ heq => absurd heq.symm (List.append_ne_nil_of_right_ne_nil before nofun)

theorem followed_cons {e : Entry} {es : List Entry} : Followed (e :: es) ↔
    (e.role = .head → ∃ next more, es = next :: more ∧ next.depth = e.depth + 1) ∧
      Followed es := by
  constructor
  · exact fun h => ⟨h [] e es rfl,
      fun before d after heq => h (e :: before) d after (by rw [heq]; rfl)⟩
  · rintro ⟨hfirst, hrest⟩ before d after heq
    rcases before with _ | ⟨b, before⟩
    · obtain ⟨rfl, rfl⟩ := List.cons.inj heq
      exact hfirst
    · exact hrest before d after (List.cons.inj heq).2

theorem Followed.append {as bs : List Entry} (has : Followed as) (hbs : Followed bs) :
    Followed (as ++ bs) := by
  induction as with
  | nil => exact hbs
  | cons e rest ih =>
    obtain ⟨hfirst, hrest⟩ := followed_cons.mp has
    refine followed_cons.mpr ⟨fun hrole => ?_, ih hrest⟩
    obtain ⟨next, more, rfl, hdepth⟩ := hfirst hrole
    exact ⟨next, more ++ bs, rfl, hdepth⟩

theorem Followed.flatten {lines : List (List Entry)} (h : ∀ es ∈ lines, Followed es) :
    Followed lines.flatten := by
  induction lines with
  | nil => exact followed_nil
  | cons es rest ih =>
    obtain ⟨hes, hrest⟩ := List.forall_mem_cons.mp h
    exact hes.append (ih hrest)

/-- Lines can be moved together. -/
theorem Followed.map {es : List Entry} (h : Followed es) {f : Entry → Entry} (n : Nat)
    (hrole : ∀ e, (f e).role = e.role) (hdepth : ∀ e, (f e).depth = e.depth + n) :
    Followed (es.map f) := by
  induction es with
  | nil => exact followed_nil
  | cons e rest ih =>
    obtain ⟨hfirst, hrest⟩ := followed_cons.mp h
    refine followed_cons.mpr ⟨fun hhead => ?_, ih hrest⟩
    obtain ⟨next, more, rfl, hnext⟩ := hfirst (hrole e ▸ hhead)
    exact ⟨f next, more.map f, rfl, by rw [hdepth, hdepth, hnext, Nat.add_right_comm]⟩

/-- The first line is not indented. -/
def Starts (es : List Entry) : Prop :=
  ∃ first rest, es = first :: rest ∧ first.depth = 0

theorem followed_headedEntries (head : String) {statements : List (List Entry)}
    (h : ∀ es ∈ statements, Followed es ∧ Starts es) :
    Followed (headedEntries head statements) := by
  rcases statements with _ | ⟨es, rest⟩
  · exact followed_cons.mpr ⟨fun _ => ⟨_, _, rfl, rfl⟩, followed_cons.mpr ⟨nofun, followed_nil⟩⟩
  · obtain ⟨first, more, rfl, hdepth⟩ := (h es List.mem_cons_self).2
    refine followed_cons.mpr ⟨fun _ => ⟨first.down, _, rfl, ?_⟩, ?_⟩
    · exact congrArg (· + 1) hdepth
    · exact (Followed.flatten fun es hes => (h es hes).1).map 1 (fun _ => rfl) fun _ => rfl

theorem followed_otherwiseEntries {orelse : List (Tree × List Entry)}
    (h : ∀ c ∈ orelse, Followed c.2 ∧ Starts c.2) : Followed (otherwiseEntries orelse) := by
  have hall : ∀ es ∈ orelse.map Prod.snd, Followed es ∧ Starts es := by
    intro es hes
    obtain ⟨c, hc, rfl⟩ := List.mem_map.mp hes
    exact h c hc
  rcases orelse with _ | ⟨single, _ | ⟨second, rest⟩⟩
  · exact followed_nil
  · simp only [otherwiseEntries]
    split
    · obtain ⟨hfollowed, first, rest, hlines, -⟩ := h single List.mem_cons_self
      rw [hlines] at hfollowed ⊢
      obtain ⟨hfirst, hrest⟩ := followed_cons.mp hfollowed
      exact followed_cons.mpr ⟨hfirst, hrest⟩
    · exact followed_headedEntries "else" hall
  · exact followed_headedEntries "else" hall

theorem followed_entriesOf {node : Node (Tree × List Entry)}
    (h : ∀ c ∈ node.statements, Followed c.2 ∧ Starts c.2) : Followed (entriesOf node) := by
  have hsuite {body : List (Tree × List Entry)} (hbody : ∀ c ∈ body, c ∈ node.statements) :
      ∀ es ∈ body.map Prod.snd, Followed es ∧ Starts es := by
    intro es hes
    obtain ⟨c, hc, rfl⟩ := List.mem_map.mp hes
    exact h c (hbody c hc)
  cases node with
  | moduleDef body =>
    rw [entriesOf, List.flatMap_def]
    exact Followed.flatten fun es hes => (hsuite (fun c hc => hc) es hes).1
  | functionDef name params body => exact followed_headedEntries _ (hsuite fun c hc => hc)
  | whileLoop test body => exact followed_headedEntries _ (hsuite fun c hc => hc)
  | forLoop target iter body => exact followed_headedEntries _ (hsuite fun c hc => hc)
  | withStmt items body => exact followed_headedEntries _ (hsuite fun c hc => hc)
  | classDef name bases body => exact followed_headedEntries _ (hsuite fun c hc => hc)
  | ifStmt test body orelse =>
    refine (followed_headedEntries _ (hsuite fun c hc => List.mem_append_left _ hc)).append ?_
    exact followed_otherwiseEntries fun c hc => h c (List.mem_append_right _ hc)
  | tryStmt body handlers finalbody =>
    refine ((followed_headedEntries _ (hsuite fun c hc =>
      List.mem_append_left _ (List.mem_append_left _ hc))).append ?_).append ?_
    · rw [List.flatMap_def]
      refine Followed.flatten fun es hes => ?_
      obtain ⟨handler, hhandler, rfl⟩ := List.mem_map.mp hes
      exact followed_headedEntries _ (hsuite fun c hc => List.mem_append_left _
        (List.mem_append_right _ (List.mem_flatMap.mpr ⟨handler, hhandler, hc⟩)))
    · split
      · exact followed_nil
      · exact followed_headedEntries _ (hsuite fun c hc => List.mem_append_right _ hc)
  | _ => exact followed_cons.mpr ⟨nofun, followed_nil⟩

/-- A statement has lines, the first of which is its own. -/
theorem starts_entries {t : Tree} (h : t.kind.category = .statement) :
    ∃ first rest, entries t = first :: rest ∧ first.IsOwn ∧ first.depth = 0 := by
  rcases t with ⟨span, node⟩
  rw [entries_mk]
  cases node with
  | moduleDef body => cases h
  | _ => exact ⟨_, _, rfl, ⟨rfl, rfl⟩, rfl⟩

/-- Below every head in an orderly tree stands a line a level deeper. -/
theorem followed_entries {t : Tree} (h : t.Orderly) : Followed (entries t) := by
  induction t using Tree.inductionOn with
  | step span node ih =>
    rw [entries_mk]
    refine followed_entriesOf fun pair hpair => ?_
    rw [Node.mapIdx_eq_numbered, Node.statements_map] at hpair
    obtain ⟨⟨i, c⟩, hmem, rfl⟩ := List.mem_map.mp hpair
    obtain ⟨hc, hstatement⟩ := Node.mem_numbered_statements hmem
    have hchild : c ∈ node.toList := List.mem_of_getElem? hc
    -- A suite begins with the first line of a statement, which stands at its margin.
    have hfollowed := ih c hchild (h.child hchild)
    obtain ⟨first, rest, hlines, -, hdepth⟩ := starts_entries (h.root.statements c hstatement)
    refine ⟨hfollowed.map 0 (fun _ => rfl) fun _ => rfl, first.under i, rest.map (Entry.under i),
      ?_, hdepth⟩
    rw [childEntries, hlines]
    rfl

/-! ## The lines of a statement -/

/-- A line that is still there. Only the first one of some lines can get another text, when a
    conditional statement continues another one. -/
def Entry.Stays (inner e : Entry) (lines : List Entry) : Prop :=
  e.owner = inner.owner ∧ e.role = inner.role ∧ (lines.head? ≠ some inner → e.text = inner.text)

theorem exists_headedEntries {head : String} {body : List (Tree × List Entry)}
    {c : Tree × List Entry} (hc : c ∈ body) {inner : Entry} (hinner : inner ∈ c.2) :
    ∃ e ∈ headedEntries head (body.map Prod.snd), inner.Stays e c.2 := by
  refine ⟨inner.down, List.mem_cons_of_mem _ ?_, rfl, rfl, fun _ => rfl⟩
  have hne : (body.map Prod.snd).isEmpty = false := by
    rw [List.isEmpty_eq_false_iff]
    exact List.ne_nil_of_mem (List.mem_map_of_mem hc)
  rw [suiteEntries, hne, if_neg Bool.false_ne_true]
  exact List.mem_map_of_mem (List.mem_flatten.mpr ⟨c.2, List.mem_map_of_mem hc, hinner⟩)

theorem exists_otherwiseEntries {orelse : List (Tree × List Entry)} {c : Tree × List Entry}
    (hc : c ∈ orelse) {inner : Entry} (hinner : inner ∈ c.2) :
    ∃ e ∈ otherwiseEntries orelse, inner.Stays e c.2 := by
  rcases orelse with _ | ⟨single, _ | ⟨second, rest⟩⟩
  · cases hc
  · simp only [otherwiseEntries]
    split
    · rw [List.mem_singleton.mp hc] at hinner ⊢
      rcases hlines : single.2 with _ | ⟨first, rest⟩
      · rw [hlines] at hinner
        cases hinner
      · rw [hlines, List.mem_cons] at hinner
        rcases hinner with rfl | hinner
        · exact ⟨_, List.mem_cons_self, rfl, rfl, fun hne => absurd rfl hne⟩
        · exact ⟨inner, List.mem_cons_of_mem _ hinner, rfl, rfl, fun _ => rfl⟩
    · exact exists_headedEntries hc hinner
  · exact exists_headedEntries hc hinner

/-- The lines of a statement in a node are among the lines of the node. -/
theorem exists_entriesOf {node : Node (Tree × List Entry)} {c : Tree × List Entry}
    (hc : c ∈ node.statements) {inner : Entry} (hinner : inner ∈ c.2) :
    ∃ e ∈ entriesOf node, inner.Stays e c.2 := by
  cases node with
  | moduleDef body =>
    exact ⟨inner, List.mem_flatMap.mpr ⟨c, hc, hinner⟩, rfl, rfl, fun _ => rfl⟩
  | functionDef name params body => exact exists_headedEntries hc hinner
  | whileLoop test body => exact exists_headedEntries hc hinner
  | forLoop target iter body => exact exists_headedEntries hc hinner
  | withStmt items body => exact exists_headedEntries hc hinner
  | classDef name bases body => exact exists_headedEntries hc hinner
  | ifStmt test body orelse =>
    rcases List.mem_append.mp hc with hc | hc
    · obtain ⟨e, he, hstays⟩ := exists_headedEntries hc hinner
      exact ⟨e, List.mem_append_left _ he, hstays⟩
    · obtain ⟨e, he, hstays⟩ := exists_otherwiseEntries hc hinner
      exact ⟨e, List.mem_append_right _ he, hstays⟩
  | tryStmt body handlers finalbody =>
    simp only [Node.statements, List.mem_append, List.mem_flatMap] at hc
    simp only [entriesOf, List.mem_append]
    rcases hc with (hc | ⟨handler, hhandler, hc⟩) | hc
    · obtain ⟨e, he, hstays⟩ := exists_headedEntries hc hinner
      exact ⟨e, .inl (.inl he), hstays⟩
    · obtain ⟨e, he, hstays⟩ := exists_headedEntries hc hinner
      exact ⟨e, .inl (.inr (List.mem_flatMap.mpr ⟨handler, hhandler, he⟩)), hstays⟩
    · obtain ⟨e, he, hstays⟩ := exists_headedEntries hc hinner
      have hne : finalbody.isEmpty = false := List.isEmpty_eq_false_iff.mpr (List.ne_nil_of_mem hc)
      rw [hne, if_neg Bool.false_ne_true]
      exact ⟨e, .inr he, hstays⟩
  | _ => cases hc

/-- The lines inside a statement of a tree are among the lines of the tree. -/
theorem exists_above {t c s : Tree} (h : t.Orderly) {i : Nat} (hc : t.children[i]? = some c)
    {path : Position} (hs : c.descend? path = some s) (hkind : s.kind.category = .statement)
    {inner : Entry} (hinner : inner ∈ entries c) :
    ∃ e ∈ entries t, e.owner = i :: inner.owner ∧ e.role = inner.role ∧
      (inner.owner ≠ [] → e.text = inner.text) := by
  have hstatement := h.mem_statements hc hs hkind
  rcases t with ⟨span, node⟩
  have hmem : childEntries i c ∈ (node.mapIdx childEntries).statements := by
    rw [Node.mapIdx_eq_numbered, Node.statements_map]
    exact List.mem_map_of_mem (f := fun pair => childEntries pair.1 pair.2) hstatement
  obtain ⟨e, he, howner, hrole, htext⟩ := exists_entriesOf hmem (List.mem_map_of_mem hinner)
  refine ⟨e, entries_mk span node ▸ he, howner, hrole, fun hne => htext fun hfirst => hne ?_⟩
  -- The first line is one of the statement itself.
  have hchild : c.kind.category = .statement :=
    h.root.statements c (Node.mem_numbered_statements hstatement).2
  obtain ⟨first, rest, hlines, hown, -⟩ := starts_entries hchild
  rw [childEntries, hlines, List.map_cons, List.head?_cons, Option.some.injEq] at hfirst
  have howner' := congrArg Entry.owner hfirst
  exact (List.cons.inj howner').2.symm.trans hown.1

/-- Every statement in an orderly tree has lines of its own. -/
theorem exists_entry {t s : Tree} (h : t.Orderly) {path : Position}
    (hs : t.descend? path = some s) (hkind : s.kind.category = .statement) :
    ∃ e ∈ entries t, e.owner = path := by
  induction path generalizing t with
  | nil =>
    obtain rfl : t = s := Option.some.inj hs
    obtain ⟨first, rest, hlines, hown, -⟩ := starts_entries hkind
    exact ⟨first, hlines ▸ List.mem_cons_self, hown.1⟩
  | cons i path ih =>
    rw [Tree.descend_cons, Option.bind_eq_some_iff] at hs
    obtain ⟨c, hc, hs⟩ := hs
    obtain ⟨inner, hinner, howner⟩ := ih (h.child (List.mem_of_getElem? hc)) hs
    obtain ⟨e, he, howner', -⟩ := exists_above h hc hs hkind hinner
    exact ⟨e, he, howner'.trans (congrArg (i :: ·) howner)⟩

/-- A conditional statement has a head of its own. -/
theorem starts_conditional {t : Tree} (h : t.kind = .ifStmt) :
    ∃ first rest, entries t = first :: rest ∧ first.IsOwn ∧ first.role = .head ∧
      "if ".toList <+: first.text := by
  rcases t with ⟨span, node⟩
  cases node with
  | ifStmt test body orelse =>
    rw [entries_mk]
    refine ⟨_, _, rfl, ⟨rfl, rfl⟩, rfl, ?_⟩
    change "if ".toList <+: ("if " ++ (wording "" test).text ++ ":").toList
    rw [String.append_assoc, String.toList_append]
    exact List.prefix_append _ _
  | _ => cases h

/-- A conditional statement alone in the `else` of another one continues it. -/
theorem exists_continued {t test single : Tree} (h : t.Orderly) {path : Position} {span : Span}
    {body : List Tree} (hs : t.descend? path = some (.mk span (.ifStmt test body [single])))
    (hkind : single.kind = .ifStmt) :
    ∃ e ∈ entries t, e.owner = path ++ [body.length + 1] ∧ e.role = .head ∧
      "elif ".toList <+: e.text := by
  induction path generalizing t with
  | nil =>
    obtain rfl := Option.some.inj hs
    obtain ⟨first, rest, hlines, hown, hrole, htext⟩ := starts_conditional hkind
    have hchild : childEntries (0 + body.length + 1) single =
        (single, first.under (body.length + 1) :: rest.map (Entry.under (body.length + 1))) := by
      rw [childEntries, hlines, Nat.zero_add, List.map_cons]
    have hmem : (first.under (body.length + 1)).continued ∈
        otherwiseEntries [childEntries (0 + body.length + 1) single] := by
      rw [hchild, otherwiseEntries, if_pos hkind]
      exact List.mem_cons_self
    rw [entries_mk]
    refine ⟨_, List.mem_append_right _ hmem, congrArg (List.cons _) hown.1, hrole, ?_⟩
    exact (List.prefix_append_right_inj "el".toList).mpr htext
  | cons i path ih =>
    rw [Tree.descend_cons, Option.bind_eq_some_iff] at hs
    obtain ⟨c, hc, hs⟩ := hs
    obtain ⟨inner, hinner, howner, hrole, htext⟩ := ih (h.child (List.mem_of_getElem? hc)) hs
    obtain ⟨e, he, howner', hrole', hsame⟩ := exists_above h hc hs rfl hinner
    -- It is not the first line of the child, so nothing is put in front of it.
    have hne : inner.owner ≠ [] := by
      rw [howner]
      exact List.append_ne_nil_of_right_ne_nil _ (List.cons_ne_nil _ _)
    refine ⟨e, he, howner'.trans (congrArg (i :: ·) howner), hrole'.trans hrole, ?_⟩
    rwa [hsame hne]

/-! ## A whole source text -/

/-- What the lines of a whole source text say about the text. -/
structure Aligned (t : Tree) (es : List Entry) : Prop where
  /-- A line stands as deep as there are suites around its statement, and the line of a suite
      without statements a level deeper. -/
  depth : ∀ e ∈ es, e.depth = t.suites e.owner + e.role.extra
  owner : ∀ e ∈ es, ∃ s, t.descend? e.owner = some s ∧ s.kind.category = .statement
  line : ∀ path s, t.descend? path = some s → s.kind.category = .statement →
    ∃ e ∈ es, e.owner = path
  /-- A conditional statement alone in the `else` of another one continues it on the same level. -/
  continued : ∀ path span test body single,
    t.descend? path = some (.mk span (.ifStmt test body [single])) → single.kind = .ifStmt →
      ∃ e ∈ es, e.owner = path ++ [body.length + 1] ∧ e.depth = t.suites path ∧
        "elif ".toList <+: e.text
  followed : Followed es

/-- None of the lines of a whole source text is one of the text itself. -/
theorem owner_module {span : Span} {body : List Tree} {e : Entry}
    (h : e ∈ entries (.mk span (.moduleDef body))) : e.owner ≠ [] := by
  rw [entries_mk] at h
  obtain ⟨c, hc, he⟩ := List.mem_flatMap.mp h
  obtain ⟨i, hi, rfl⟩ := List.mem_mapIdx.mp hc
  obtain ⟨inner, -, rfl⟩ := List.mem_map.mp he
  exact List.cons_ne_nil i inner.owner

theorem aligned_entries {span : Span} {body : List Tree}
    (h : (Tree.mk span (.moduleDef body)).Orderly) :
    Aligned (.mk span (.moduleDef body)) (entries (.mk span (.moduleDef body))) where
  depth _ he := entry_depth he
  owner e he := by
    obtain ⟨s, hs, hkind⟩ := entry_owner h he
    exact ⟨s, hs, hkind.resolve_left (owner_module he)⟩
  line _ _ hs hkind := exists_entry h hs hkind
  continued path span test body single hs hkind := by
    obtain ⟨e, he, howner, hrole, htext⟩ := exists_continued h hs hkind
    refine ⟨e, he, howner, ?_, htext⟩
    rw [entry_depth he, howner, Tree.suites_single hs hkind, hrole]
    rfl
  followed := followed_entries h

end Rendition.Python
