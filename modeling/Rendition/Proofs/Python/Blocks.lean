import Rendition.Proofs.Grammar.Suites
import Rendition.Proofs.Python.Imports
import Rendition.Proofs.Python.Page

/-!
# Blocks are read back

The lines of a statement are read as the statement in front of any line that ends it, so the lines
of a suite are read statement by statement. Whether a line ends a statement is told by its
indentation and its first word.

## Main definitions

* `Python.ReadsLines`: Lines are read as a statement.
* `Python.Bounded`: Lines that the fuel of the parsers is enough for.

## Theorems

* `extend_statements`: The statements of a block are read one after another.
* `suite_statements`: The lines of a suite are read as its statements.
-/

namespace Rendition.Python

open Source Source.Lexeme

/-! ## Lines -/

/-- Whether the first line of a statement can start with a token. -/
def startsStatement (t : Token) : Bool :=
  !(t.kind = .sourceEnd) && !t.isMark ">>" && clauseWords.all fun text => !t.isWord text

/-- Lines that are not longer than the fuel for expressions, and not more than that for suites. -/
structure Bounded (n fuel : Nat) (ls : List Line) : Prop where
  phrases : ∀ line ∈ ls, (line.phrase {}).length ≤ n
  lines : ls.length ≤ fuel

theorem Bounded.sublist {n fuel : Nat} {ls ls' : List Line} (h : Bounded n fuel ls)
    (hsub : List.Sublist ls' ls) : Bounded n fuel ls' :=
  ⟨fun line hline => h.phrases line (hsub.subset hline), hsub.length_le.trans h.lines⟩

/-- How deep lines stand is not bounded. -/
theorem Bounded.of_deeper {n fuel : Nat} {ls : List Line}
    (h : Bounded n fuel (ls.map Line.deeper)) : Bounded n fuel ls :=
  ⟨fun line hline => h.phrases line.deeper (List.mem_map_of_mem hline),
    (List.length_map Line.deeper).symm.trans_le h.lines⟩

/-- The lines of a statement are read as a statement like it in front of a line that does not go on
    with it. -/
structure ReadsLines (ls : List Line) (t : Tree) : Prop where
  starts : ∃ p rest, ls = .here p :: rest ∧ StartsWith startsStatement p
  moves : ∀ line ∈ ls, Moves line.phrase
  read : ∀ {width n fuel : Nat}, 1 ≤ width → Bounded n fuel ls →
    ∀ (depth : Nat) (s : Span) (g : Gap) (v : Token) (ts : List Token),
    v.Follows (width * depth) → ∃ stmt, DenotesStmt stmt t ∧
      statementLine (phrases n) (suiteAt (phrases n) fuel) (width * depth)
        (lay s (page width depth g ls) ++ v :: ts) = some ([stmt], v :: ts)

/-- A statement of one line. -/
theorem ReadsLine.lines {p : Phrase} {t : Tree} (h : ReadsLine p t)
    (hstarts : StartsWith startsStatement p) : ReadsLines [.here p] t := by
  refine ⟨⟨p, [], rfl, hstarts⟩, fun line hline => ?_,
    fun {width n fuel} _ hbound depth s g v ts hv => ?_⟩
  · rw [List.mem_singleton.mp hline]
    exact hstarts.imp fun _ _ => rfl
  · rw [page, below, List.flatMap_nil, List.append_nil]
    exact h n _ _ s g ts v (hbound.phrases _ List.mem_cons_self) hv.breaks hv.arrow

section Pages

variable (width depth : Nat)

theorem below_append (as bs : List Line) :
    below width depth (as ++ bs) = below width depth as ++ below width depth bs :=
  List.flatMap_append

/-- A line that is deeper stands at a depth that is. -/
theorem below_deeper (ls : List Line) :
    below width depth (ls.map Line.deeper) = below width (depth + 1) ls := by
  have hdepth (line : Line) : depth + line.deeper.depth = depth + 1 + line.depth := by
    rw [Line.deeper, Nat.add_right_comm, Nat.add_assoc]
  rw [below, List.flatMap_map]
  simp only [hdepth]
  rfl

theorem below_nil : below width depth [] = [] := rfl

/-- Lines below others that start without indentation. -/
theorem below_page {p : Phrase} (rest more : List Line) :
    below width depth (.here p :: rest ++ more) =
      page width depth (.line (width * depth)) (.here p :: rest) ++ below width depth more :=
  below_append width depth (.here p :: rest) more

theorem page_append (g : Gap) (line : Line) (rest more : List Line) :
    page width depth g (line :: rest ++ more) =
      page width depth g (line :: rest) ++ below width depth more := by
  rw [List.cons_append, page, below_append, page, List.append_assoc]

end Pages

/-! ## Blocks -/

section Blocks

variable {width n fuel : Nat} (hwidth : 1 ≤ width)

/-- A gap in front of the first line of a statement. -/
structure Leads (margin : Nat) (g : Gap) : Prop where
  continuations : g.continuations = []
  indent : g.breaksLine = true → g.indent = margin

theorem leads_line (margin : Nat) : Leads margin (.line margin) :=
  ⟨rfl, fun _ => rfl⟩

/-- The first token of the line of a statement goes on with no other one. -/
theorem follows_line {margin : Nat} {kind : TokenKind} {text : String}
    (h : startsStatement (.bare kind text) = true) (s : Span) :
    ((Lexeme.mk (.line margin) kind text).token s).Follows margin := by
  simp only [startsStatement, Bool.and_eq_true, Bool.not_eq_true', List.all_eq_true] at h
  exact ⟨⟨rfl, Nat.le_refl _, h.1.2⟩, fun _ text htext => h.2 text htext⟩

include hwidth

/-- A block goes on with the statement of some lines. -/
theorem extend_statement {ls : List Line} {t : Tree} (h : ReadsLines ls t)
    (hbound : Bounded n fuel ls) {depth : Nat} {g : Gap} (hg : Leads (width * depth) g)
    {whole : Bool} {u : Token} {us : List Token} (hu : u.Follows (width * depth)) {r : List Token}
    {body : List Tree} (hrest : ∀ done, ∃ stmts,
      List.Forall₂ (fun t stmt => DenotesStmt stmt t) body stmts ∧
      extend (blockStep (phrases n) (suiteAt (phrases n) fuel) (width * depth) whole) done
        (u :: us) = some (done ++ stmts, r)) (s : Span) (done : List Stmt) : ∃ stmts,
    List.Forall₂ (fun t stmt => DenotesStmt stmt t) (t :: body) stmts ∧
      extend (blockStep (phrases n) (suiteAt (phrases n) fuel) (width * depth) whole) done
        (lay s (page width depth g ls) ++ u :: us) = some (done ++ stmts, r) := by
  obtain ⟨stmt, hstmt, hread⟩ := h.read hwidth hbound depth s g u us hu
  obtain ⟨stmts, hstmts, hmore⟩ := hrest (done ++ [stmt])
  obtain ⟨p, rest, rfl, kind, text, more, hfirst, htest⟩ := h.starts
  refine ⟨stmt :: stmts, .cons hstmt hstmts, ?_⟩
  rw [page, show (Line.here p).phrase = p from rfl, hfirst, List.cons_append, lay,
    List.cons_append] at hread ⊢
  rw [← List.append_cons] at hmore
  simp only [startsStatement, Bool.and_eq_true, Bool.not_eq_true', decide_eq_false_iff_not]
    at htest
  have hleaves : ((Lexeme.mk g kind text).token s).leavesBlock (width * depth) = false := by
    rcases hbreaks : g.breaksLine with _ | _
    · exact Bool.and_eq_false_iff.mpr (.inl hbreaks)
    · exact Token.leavesBlock_self (hg.indent hbreaks)
  refine extend_block_next htest.1.1 hleaves hg.continuations hread ?_ hmore
  simp only [List.length_append, List.length_cons]
  omega

/-- The statements of a block are read one after another, up to a line that ends the block. -/
theorem extend_statements {body : List Tree} (h : ∀ t ∈ body, ReadsLines (lines t) t)
    (hbound : Bounded n fuel (body.flatMap lines)) (depth : Nat) (whole : Bool) {v : Token}
    (hv : v.Follows (width * depth))
    (hend : v.kind = .sourceEnd ∨ v.leavesBlock (width * depth) = true) (ts : List Token) :
    ∀ s : Span, ∃ u us, lay s (below width depth (body.flatMap lines)) ++ v :: ts = u :: us ∧
      u.Follows (width * depth) ∧ (body ≠ [] → u.gap = .line (width * depth)) ∧
      ∀ done, ∃ stmts, List.Forall₂ (fun t stmt => DenotesStmt stmt t) body stmts ∧
        extend (blockStep (phrases n) (suiteAt (phrases n) fuel) (width * depth) whole) done
          (u :: us) = some (done ++ stmts, v :: ts) := by
  induction body with
  | nil =>
    intro s
    refine ⟨v, ts, rfl, hv, fun hne => absurd rfl hne, fun done => ⟨[], .nil, ?_⟩⟩
    rw [List.append_nil]
    exact extend_block_done done hend
  | cons t body ih =>
    intro s
    have hfirst := h t List.mem_cons_self
    rw [List.flatMap_cons] at hbound
    obtain ⟨u, us, hnext, hu, -, hrest⟩ := ih (fun t' ht' => h t' (List.mem_cons_of_mem t ht'))
      (hbound.sublist (List.sublist_append_right _ _))
      (s.after (spell (page width depth (.line (width * depth)) (lines t))))
    obtain ⟨p, rest, hlines, hstarts⟩ := hfirst.starts
    have hparse := extend_statement hwidth hfirst
      (hbound.sublist (List.sublist_append_left _ _)) (leads_line _) hu hrest s
    have hlay : lay s (below width depth ((t :: body).flatMap lines)) ++ v :: ts =
        lay s (page width depth (.line (width * depth)) (lines t)) ++ u :: us := by
      rw [List.flatMap_cons, hlines, below_page, ← hlines, lay_append, List.append_assoc, hnext]
    obtain ⟨kind, text, more, hphrase, htest⟩ := hstarts
    have hcons : lay s (page width depth (.line (width * depth)) (lines t)) ++ u :: us =
        (Lexeme.mk (.line (width * depth)) kind text).token s ::
          (lay (s.after (Lexeme.mk (.line (width * depth)) kind text).chars)
            (more ++ below width depth rest) ++ u :: us) := by
      rw [hlines, page, show (Line.here p).phrase = p from rfl, hphrase, List.cons_append, lay,
        List.cons_append]
    rw [hlay]
    rw [hcons] at hparse ⊢
    exact ⟨_, _, rfl, follows_line htest s, fun _ => rfl, hparse⟩

/-- The lines of a suite are read as its statements, up to a line that ends it. -/
theorem suite_statements {body : List Tree} (hne : body ≠ [])
    (h : ∀ t ∈ body, ReadsLines (lines t) t)
    (hbound : Bounded n fuel (suiteLines (body.map draft))) {depth : Nat} {v : Token}
    (hv : v.Under (width * depth)) (s s' : Span) (ts : List Token) : ∃ stmts,
    List.Forall₂ (fun t stmt => DenotesStmt stmt t) body stmts ∧
      suiteAt (phrases n) (fuel + 1) (width * depth) ((mark ":" {}).token s' ::
        (lay s (below width depth (suiteLines (body.map draft))) ++ v :: ts)) =
        some (([], stmts), v :: ts) := by
  rw [suiteLines_eq hne] at hbound ⊢
  rw [below_deeper]
  have hdeeper : width * depth < width * (depth + 1) :=
    Nat.mul_lt_mul_of_pos_left (Nat.lt_succ_self depth) hwidth
  obtain ⟨u, us, hnext, -, hgap, hrest⟩ := extend_statements hwidth h hbound.of_deeper (depth + 1)
    false (hv.follows hdeeper) (.inr (hv.leavesBlock hdeeper)) ts s
  obtain ⟨stmts, hstmts, hextend⟩ := hrest []
  have hline := hgap hne
  rw [hnext]
  refine ⟨stmts, hstmts, suiteAt_block rfl ?_ ?_ ?_ ?_⟩
  · rw [hline]
    rfl
  · rw [hline]
    exact hdeeper
  · rw [hline]
    rfl
  · rw [hline]
    exact hextend

end Blocks

end Rendition.Python
