import Rendition.Proofs.Python.Blocks

/-!
# Statements with one suite are read back

The head of a statement is read up to its colon, and its suite behind it.

## Main definitions

* `Python.ReadsHead`: A head is read as a statement with the suite behind it.

## Theorems

* `readsLines_headed`: A head and the suite below it.
* `readsHead_whileLoop`, `readsHead_forLoop`, `readsHead_functionDef`, `readsHead_classDef`: Heads
  by kinds.
-/

namespace Rendition.Python

open Source Source.Lexeme

/-- Statements are read as trees like the given ones. -/
def DenotesSuite (stmts : List Stmt) (body : List Tree) : Prop :=
  ∃ us, readSuite stmts = .ok us ∧ agreeList Tree.alike body us = true

theorem denotes_suite {body : List Tree} {stmts : List Stmt}
    (h : List.Forall₂ (fun t stmt => DenotesStmt stmt t) body stmts) : DenotesSuite stmts body := by
  induction h with
  | nil => exact ⟨[], rfl, rfl⟩
  | cons h _ ih =>
    obtain ⟨u, hread, halike⟩ := h
    obtain ⟨us, hreads, halikes⟩ := ih
    refine ⟨u :: us, ?_, by rw [agreeList, halike, halikes]; rfl⟩
    simp only [readSuite, hread, hreads, ok_bind]
    rfl

/-- An expression is read in front of a token that a frame shows. -/
theorem yields_first {t : Tree} (h : t.IsExpression Faithful) {n : Nat} (hn : size t ≤ n)
    (f : Frame) (level : Nat) {ts us : List Token} {u : Token} (hsees : f.Sees ts (u :: us))
    (hu : u.stops level = true) (s : Span) (g : Gap) : ∃ e first more, Restores e t ∧
      lay s (phrase t g) ++ ts = first :: more ∧ first.isOpening = true ∧ first.gap = g ∧
      (phrases n).expr f level (first :: more) = some (e, u :: us) := by
  have hstable := stable_phrase h
  obtain ⟨e, he, hparse⟩ := hstable.yields (Nat.lt_succ_of_le hn) f level s g ts us u hsees hu
  obtain ⟨first, more, heq, hopening, hgap⟩ := hstable.starts.exists_cons s g ts
  rw [heq] at hparse
  exact ⟨e, first, more, he, heq, hopening, hgap, hparse⟩

theorem stops_colon (s : Span) : ((mark ":" {}).token s).stops Level.any = true := by
  change (Token.bare .mark ":").stops Level.any = true
  decide

/-- The head of a statement shows its colon. -/
theorem sees_colon (margin : Nat) (s : Span) (ts : List Token) :
    (Frame.head margin).Sees ((mark ":" {}).token s :: ts) ((mark ":" {}).token s :: ts) :=
  sees_mark Gap.flat_empty

/-! ## Heads -/

/-- A head is read as a statement with the suite behind its colon. -/
def ReadsHead (head : Phrase) (body : List Tree) (t : Tree) : Prop :=
  ∀ (n margin : Nat) (suite : SuiteParser) (s s' : Span) (g : Gap) (mid ts : List Token)
    (stmts : List Stmt) (v : Token), (head {}).length ≤ n → v.Follows margin →
    DenotesSuite stmts body →
    suite margin ((mark ":" {}).token s' :: mid) = some (([], stmts), v :: ts) →
    ∃ stmt, DenotesStmt stmt t ∧
      statementLine (phrases n) suite margin (lay s (head g) ++ (mark ":" {}).token s' :: mid) =
        some ([stmt], v :: ts)

section Pages

variable (width depth : Nat)

/-- The tokens of a head, its suite and the lines below, from the first line of a statement on. -/
theorem lay_page_headed (head : Phrase) (body : List Draft) (more : List Line) (s : Span) (g : Gap)
    (ts : List Token) : ∃ s₁ s₂ s₃,
    lay s (page width depth g (headedLines head body ++ more)) ++ ts =
      lay s (head g) ++ (mark ":" {}).token s₁ ::
        (lay s₂ (below width depth (suiteLines body)) ++
          (lay s₃ (below width depth more) ++ ts)) := by
  rw [headedLines, page_append, page]
  simp only [Line.here, lay_append, lay, List.append_assoc, List.cons_append, List.nil_append]
  exact ⟨_, _, _, rfl⟩

/-- The tokens of a further clause, the head of which stands on a line of its own. -/
theorem lay_below_headed (head : Phrase) (body : List Draft) (more : List Line) (s : Span)
    (ts : List Token) : ∃ s₁ s₂ s₃,
    lay s (below width depth (headedLines head body ++ more)) ++ ts =
      lay s (head (.line (width * depth))) ++ (mark ":" {}).token s₁ ::
        (lay s₂ (below width depth (suiteLines body)) ++
          (lay s₃ (below width depth more) ++ ts)) := by
  obtain ⟨s₁, s₂, s₃, hlay⟩ :=
    lay_page_headed width depth head body more s (.line (width * depth)) ts
  refine ⟨s₁, s₂, s₃, ?_⟩
  rw [← hlay, headedLines, below_page, ← page_append]

end Pages

theorem moves_headed {head : Phrase} (hhead : Moves head) {body : List Tree} (hne : body ≠ [])
    (hbody : ∀ t ∈ body, ReadsLines (lines t) t) :
    ∀ line ∈ headedLines head (body.map draft), Moves line.phrase := by
  rw [headedLines, suiteLines_eq hne]
  refine List.forall_mem_cons.mpr ⟨hhead.append _, fun line hline => ?_⟩
  obtain ⟨inner, hinner, rfl⟩ := List.mem_map.mp hline
  obtain ⟨t, ht, hinner⟩ := List.mem_flatMap.mp hinner
  exact (hbody t ht).moves inner hinner

theorem Bounded.head {n fuel : Nat} {head : Phrase} {body : List Draft}
    (h : Bounded n fuel (headedLines head body)) :
    (head {}).length ≤ n ∧ ∃ inner, fuel = inner + 1 ∧ Bounded n inner (suiteLines body) := by
  rw [headedLines] at h
  have hhead := h.phrases _ List.mem_cons_self
  have hlines := h.lines
  simp only [Line.here, List.length_append, List.length_cons] at hhead hlines
  refine ⟨by omega, fuel - 1, by omega,
    fun line hline => h.phrases line (List.mem_cons_of_mem _ hline), by omega⟩

/-- A head and the suite below it. -/
theorem readsLines_headed {head : Phrase} {body : List Tree} {t : Tree}
    (hstarts : StartsWith startsStatement head) (hne : body ≠ [])
    (hbody : ∀ t ∈ body, ReadsLines (lines t) t) (hhead : ReadsHead head body t) :
    ReadsLines (headedLines head (body.map draft)) t := by
  refine ⟨⟨_, _, rfl, hstarts.append _⟩, moves_headed (hstarts.imp fun _ _ => rfl) hne hbody,
    fun {width n fuel} hwidth hbound depth s g v ts hv => ?_⟩
  obtain ⟨hlength, inner, rfl, hinner⟩ := hbound.head
  obtain ⟨s₁, s₂, s₃, hlay⟩ :=
    lay_page_headed width depth head (body.map draft) [] s g (v :: ts)
  rw [List.append_nil, below_nil] at hlay
  rw [hlay]
  obtain ⟨stmts, hstmts, hsuite⟩ :=
    suite_statements hwidth hne hbody hinner hv.toUnder s₂ s₁ ts
  exact hhead n _ _ s _ g _ ts stmts v hlength hv (denotes_suite hstmts) hsuite

/-- A keyword and the condition behind it, up to the colon. -/
theorem yields_condition {test : Tree} (htest : test.IsExpression Faithful) (keyword : String)
    {n : Nat} (hn : (word keyword {} :: phrase test .blank).length ≤ n) (margin : Nat) (s s' : Span)
    (g : Gap) (mid : List Token) : ∃ e us, Restores e test ∧
      lay s (word keyword g :: phrase test .blank) ++ (mark ":" {}).token s' :: mid =
        (word keyword g).token s :: us ∧
      (Frame.head margin).Sees us us ∧
      (phrases n).expr (.head margin) Level.any us = some (e, (mark ":" {}).token s' :: mid) := by
  have hsize : size test ≤ n := by
    have hlength := (stable_phrase htest).starts.length_eq .blank {}
    rw [List.length_cons] at hn
    rw [size]
    omega
  obtain ⟨e, first, more, he, heq, hopening, hgap, hparse⟩ := yields_first htest hsize
    (.head margin) Level.any (sees_colon margin s' mid) (stops_colon s')
    (s.after (word keyword g).chars) .blank
  rw [lay, List.cons_append, heq]
  exact ⟨e, _, he, rfl, sees_opening hopening (hgap ▸ Gap.flat_blank) more, hparse⟩

/-! ## Loops -/

section Kinds

variable (span : Span) {body : List Tree}

theorem denotes_whileLoop {e : Expr} {test : Tree} {stmts : List Stmt} {place : Span}
    (htest : Denotes e test) (hbody : DenotesSuite stmts body) :
    DenotesStmt (.whileLoop place e stmts none) (.mk span (.whileLoop test body)) := by
  obtain ⟨u, hread, halike⟩ := htest
  obtain ⟨us, hreads, halikes⟩ := hbody
  refine ⟨.mk place (.whileLoop u us), ?_, ?_⟩
  · simp only [Stmt.read, hread, hreads, ok_bind]
    rfl
  · rw [Tree.alike_mk]
    simp only [Node.agree, halike, halikes, Bool.and_true]

theorem denotes_forLoop {e e' : Expr} {target iter : Tree} {stmts : List Stmt} {place : Span}
    (htarget : DenotesTarget e target) (hiter : Denotes e' iter) (hbody : DenotesSuite stmts body) :
    DenotesStmt (.forLoop place e e' stmts none) (.mk span (.forLoop target iter body)) := by
  obtain ⟨-, u, hread, halike⟩ := htarget
  obtain ⟨v, hread', halike'⟩ := hiter
  obtain ⟨us, hreads, halikes⟩ := hbody
  refine ⟨.mk place (.forLoop u v us), ?_, ?_⟩
  · simp only [Stmt.read, hread, hread', hreads, ok_bind]
    rfl
  · rw [Tree.alike_mk]
    simp only [Node.agree, halike, halike', halikes, Bool.and_true]

theorem readsHead_whileLoop {test : Tree} (htest : test.IsExpression Faithful) :
    ReadsHead (fun g => word "while" g :: phrase test .blank) body
      (.mk span (.whileLoop test body)) := by
  intro n margin suite s s' g mid ts stmts v hn hv hstmts hsuite
  obtain ⟨e, us, he, hlay, hsees, hparse⟩ := yields_condition htest "while" hn margin s s' g mid
  rw [hlay]
  exact ⟨_, denotes_whileLoop span he.read hstmts,
    statementLine_compound (compound?_while rfl hsees hparse hsuite hv)⟩

theorem readsHead_forLoop {target iter : Tree} (htarget : target.IsExpression Faithful)
    (hleft : target.isTarget = true) (hiter : iter.IsExpression Faithful) :
    ReadsHead (fun g => word "for" g :: phrase target .blank ++ word "in" .blank ::
      phrase iter .blank) body (.mk span (.forLoop target iter body)) := by
  intro n margin suite s s' g mid ts stmts v hn hv hstmts hsuite
  have hsize : size target ≤ n ∧ size iter ≤ n := by
    have htargetLength := (stable_phrase htarget).starts.length_eq .blank {}
    have hiterLength := (stable_phrase hiter).starts.length_eq .blank {}
    simp only [List.length_append, List.length_cons] at hn
    simp only [size]
    omega
  simp only [lay_append, lay, List.append_assoc, List.cons_append]
  generalize s.after (word "for" g).chars = s₁
  generalize s₁.after (spell (phrase target .blank)) = s₂
  generalize s₂.after (word "in" .blank).chars = s₃
  obtain ⟨e', first', more', he', heq', hopening', hgap', hparse'⟩ := yields_first hiter hsize.2
    (.head margin) Level.any (sees_colon margin s' mid) (stops_colon s') s₃ .blank
  rw [heq']
  have hin : ((word "in" .blank).token s₂).stops Level.primary = true := by
    change (Token.bare .word "in").stops Level.primary = true
    decide
  have hsees : (Frame.head margin).Sees ((word "in" .blank).token s₂ :: first' :: more')
      ((word "in" .blank).token s₂ :: first' :: more') := sees_word Gap.flat_blank
  obtain ⟨e, first, more, he, heq, hopening, hgap, hparse⟩ := yields_first htarget hsize.1
    (.head margin) Level.primary hsees hin s₁ .blank
  rw [heq]
  obtain ⟨hpattern, hdenotes⟩ := he.target hleft
  have htargets : targets (phrases n).expr (.head margin) (first :: more) =
      some (e, (word "in" .blank).token s₂ :: first' :: more') := by
    simp only [targets, run_bind, sequenceOf_alone hparse rfl, Option.bind_some, hpattern,
      run_require, run_pure]
  exact ⟨_, denotes_forLoop span ⟨hpattern, hdenotes⟩ he'.read hstmts,
    statementLine_compound (compound?_for rfl (sees_opening hopening (hgap ▸ Gap.flat_blank) more)
      htargets rfl (sees_opening hopening' (hgap' ▸ Gap.flat_blank) more')
      (sequence_alone hparse' rfl) hsuite hv)⟩

/-! ## Definitions -/

theorem denotes_functionDef (name : String) (params : List String) {stmts : List Stmt}
    {place : Span} (hbody : DenotesSuite stmts body) :
    DenotesStmt (.functionDef place name (params.map .named) stmts)
      (.mk span (.functionDef name params body)) := by
  obtain ⟨us, hreads, halikes⟩ := hbody
  refine ⟨.mk place (.functionDef name params us), ?_, ?_⟩
  · rw [Stmt.read, mapM_read_named, ok_bind, hreads]
    rfl
  · rw [Tree.alike_mk]
    simp only [Node.agree, beq_self_eq_true, halikes, Bool.and_true]

/-- The parameters of a function, up to the closing parenthesis. -/
theorem parameters_row (expr : ExprParser) (type : Parser Unit) (f : Frame) {params : List String}
    (h : ∀ p ∈ params, isReserved p = false) {ts us : List Token} (hsees : f.Sees ts us)
    (s : Span) :
    ∃ t more, lay s (row (params.map fun param g => [word param g]) {} ++ [mark ")" {}]) ++ ts =
        t :: more ∧ f.inside.Sees (t :: more) (t :: more) ∧
      itemsUntil f ")" Continuation.toParam (parameter expr (some type) f.inside) (t :: more) =
        some (params.map .named, us) := by
  rcases params with _ | ⟨first, params⟩
  · exact ⟨(mark ")" {}).token s, ts, rfl, sees_mark Gap.flat_empty, itemsUntil_nil rfl rfl hsees⟩
  · have hitem : ∀ p ∈ first :: params, Yields f.inside (separates ")")
        (parameter expr (some type) f.inside) (fun g => [word p g]) fun q => q = .named p :=
      fun p hp => yields_parameter (h p hp) (by decide) (fun _ => by decide) f.inside
    have hstarts : ∀ p ∈ params, StartsWith (startsItem ")") fun g => [word p g] :=
      fun p _ => ⟨.word, p, [], fun _ => rfl, rfl⟩
    obtain ⟨c, mid, hrow, honward⟩ := row_onward (p := fun param g => [word param g]) ")"
      Continuation.toParam (by decide) hsees hstarts
      (fun p hp => hitem p (List.mem_cons_of_mem first hp)) first s {}
    obtain ⟨q, rfl, hparse⟩ := hitem first List.mem_cons_self s {} _ _ _
      (honward.sees f.inside) honward.separates
    obtain ⟨qs, hqs, hmore⟩ := honward.more [.named first]
    rw [hrow]
    refine ⟨_, _, rfl, sees_word Gap.flat_empty, ?_⟩
    rw [List.map_cons, ← eq_map_of_forall₂ hqs]
    exact itemsUntil_cons rfl rfl hparse hmore

theorem readsHead_functionDef {name : String} (hname : isReserved name = false)
    {params : List String} (hparams : ∀ p ∈ params, isReserved p = false) :
    ReadsHead (fun g => word "def" g :: word name .blank ::
      enclosed (row (params.map fun param g => [word param g]) {}) {}) body
      (.mk span (.functionDef name params body)) := by
  intro n margin suite s s' g mid ts stmts v hn hv hstmts hsuite
  simp only [enclosed, lay, List.cons_append]
  generalize s.after (word "def" g).chars = s₁
  generalize s₁.after (word name .blank).chars = s₂
  obtain ⟨t, more, hrow, hflat, hparse⟩ := parameters_row (phrases n).expr
    ((phrases n).type (Frame.head margin).inside true) (.head margin) hparams
    (sees_colon margin s' mid) (s₂.after (mark "(" {}).chars)
  rw [hrow]
  exact ⟨_, denotes_functionDef span name params hstmts, statementLine_compound (compound?_def
    (sees_word Gap.flat_blank) (identifier_word hname (sees_mark Gap.flat_empty) .blank s₁) rfl rfl
    hflat hparse rfl hsuite)⟩

/-- A class with the expressions of its bases. -/
theorem denotes_classDef (name : String) {bases : List Tree} {es : List (Option String × Expr)}
    {stmts : List Stmt} {place list : Span}
    (hbases : List.Forall₂ (fun t arg => arg.1 = none ∧ Denotes arg.2 t) bases es)
    (hbody : DenotesSuite stmts body) :
    DenotesStmt (.classDef place name (some (list, es)) stmts)
      (.mk span (.classDef name bases body)) := by
  obtain ⟨us, hreads, halikes⟩ := hbody
  obtain ⟨bs, ks, hargs, hagree, hnone⟩ := @denotes_arguments bases [] es [] hbases .nil
  rw [List.append_nil] at hargs
  rcases ks with _ | ⟨k, ks⟩
  · refine ⟨.mk place (.classDef name bs us), ?_, ?_⟩
    · simp only [Stmt.read, hreads, hargs, ok_bind]
      rfl
    · rw [Tree.alike_mk]
      simp only [Node.agree, beq_self_eq_true, hagree, halikes, Bool.and_true]
  · cases hnone

theorem denotes_classDef_alone (name : String) {stmts : List Stmt} {place : Span}
    (hbody : DenotesSuite stmts body) :
    DenotesStmt (.classDef place name none stmts) (.mk span (.classDef name [] body)) := by
  obtain ⟨us, hreads, halikes⟩ := hbody
  refine ⟨.mk place (.classDef name [] us), ?_, ?_⟩
  · simp only [Stmt.read, hreads, ok_bind]
    rfl
  · rw [Tree.alike_mk]
    simp only [Node.agree, beq_self_eq_true, agreeList, halikes, Bool.and_true]

theorem readsHead_classDef {name : String} (hname : isReserved name = false) {bases : List Tree}
    (hbases : ∀ b ∈ bases, b.IsExpression Faithful) :
    ReadsHead (fun g => word "class" g :: word name .blank ::
      if bases.isEmpty then [] else enclosed (row (bases.map phrase) {}) {}) body
      (.mk span (.classDef name bases body)) := by
  intro n margin suite s s' g mid ts stmts v hn hv hstmts hsuite
  simp only [lay, List.cons_append] at hn ⊢
  generalize s.after (word "class" g).chars = s₁
  generalize s₁.after (word name .blank).chars = s₂
  rcases bases with _ | ⟨first, rest⟩
  · exact ⟨_, denotes_classDef_alone span name hstmts, statementLine_compound
      (compound?_class_alone (sees_word Gap.flat_blank)
        (identifier_word hname (sees_mark Gap.flat_empty) .blank s₁) rfl rfl hsuite)⟩
  · simp only [List.isEmpty_cons, Bool.false_eq_true, if_false] at hn ⊢
    have hstable : ∀ a ∈ callArguments (first :: rest) [], Stable a.2 :=
      forall_callArguments (P := fun a => Stable a.2) (fun t ht => stable_phrase (hbases t ht))
        fun _ hk => absurd hk List.not_mem_nil
    have hnames : ∀ a ∈ callArguments (first :: rest) [], ∀ name ∈ a.1, isVariable name = true :=
      forall_callArguments (P := fun a => ∀ name ∈ a.1, isVariable name = true)
        (fun _ _ name hname => absurd hname (Option.not_mem_none name))
        fun _ hk => absurd hk List.not_mem_nil
    have hmap : (first :: rest).map phrase =
        (callArguments (first :: rest) []).map argumentPhrase := by
      rw [map_callArguments, List.map_nil, List.append_nil]
    rw [hmap] at hn ⊢
    have hsize : ∀ a ∈ callArguments (first :: rest) [], size a.2 < n + 1 := by
      intro a ha
      have hlength := length_le_row (List.mem_map_of_mem ha)
        (starts_argument (hstable a ha) (hnames a ha)).length_eq {}
      have hpart := size_le_argument a
      simp only [enclosed, List.length_cons, List.length_append] at hn
      omega
    obtain ⟨es, hes, hparse⟩ :=
      arguments_row hstable hnames hsize (sees_colon margin s' mid) s₂ {}
    obtain ⟨es₁, es₂, rfl, hargs, hnone⟩ := exists_callArguments hes
    rw [List.forall₂_nil_left_iff.mp hnone, List.append_nil] at hparse
    exact ⟨_, denotes_classDef span name hargs hstmts, statementLine_compound
      (compound?_class (sees_word Gap.flat_blank)
        (identifier_word hname (sees_mark Gap.flat_empty) .blank s₁) rfl rfl hparse hsuite)⟩

end Kinds

end Rendition.Python
