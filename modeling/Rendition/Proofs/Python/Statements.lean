import Rendition.Proofs.Python.Branches
import Rendition.Proofs.Python.Handlers
import Rendition.Proofs.Python.Items

/-!
# Statements are read back

Each kind of statement is read from its lines as a statement like it. A conditional statement is
also read where it stands as a further branch of another one.

## Theorems

* `readsLines_statement`: The lines of a faithful statement are read back.
-/

namespace Rendition.Python

open Source Source.Lexeme

/-! ## Lines of one phrase -/

/-- An expression starts a statement, and so does what it stands in front of. -/
theorem startsStatement_phrase {t : Tree} (h : t.IsExpression Faithful) :
    StartsWith startsStatement (phrase t) := by
  refine (stable_phrase h).starts.imp fun c hc => ?_
  rw [startsStatement, decide_eq_false (Token.kind_opening hc).2,
    Token.isMark_opening hc ">>" (by decide), Bool.not_false, Bool.true_and, Bool.true_and,
    List.all_eq_true]
  intro text htext
  have hopening : ∀ text ∈ clauseWords, (Token.bare .word text).isOpening = false := by decide
  rw [Token.isWord_opening hc text (hopening text htext), Bool.not_false]

/-- A line that starts with a keyword. -/
theorem starts_keyword {text : String} (h : startsStatement (.bare .word text) = true)
    (rest : List Lexeme) : StartsWith startsStatement fun g => word text g :: rest :=
  ⟨.word, text, rest, fun _ => rfl, h⟩

/-! ## All statements -/

/-- The lines of a faithful statement are read back, and as a further branch those of a conditional
    statement are. -/
theorem readsLines_statement {t : Tree} (h : t.IsStatement Faithful) :
    ReadsLines (lines t) t ∧ ∀ ls ∈ branch t, ReadsBranches ls [t] := by
  have hno {t : Tree} (hreads : ReadsLines (lines t) t) (hbranch : branch t = none) :
      ReadsLines (lines t) t ∧ ∀ ls ∈ branch t, ReadsBranches ls [t] :=
    ⟨hreads, fun ls hls => by rw [hbranch] at hls; cases hls⟩
  induction h with
  | @functionDef span name params body hok hname hparams hbody ih =>
    refine hno ?_ (branch_mk span _)
    rw [lines_mk]
    exact readsLines_headed (starts_keyword (by decide) _) hok (fun t ht => (ih t ht).1)
      (readsHead_functionDef span hname.2 fun p hp => (hparams p hp).2)
  | @returnStmt span value hok hvalue =>
    refine hno ?_ (branch_mk span _)
    rw [lines_mk]
    exact (readsLine_returnStmt span hvalue).lines (starts_keyword (by decide) _)
  | @assign span target value hok htarget hleft hvalue =>
    refine hno ?_ (branch_mk span _)
    rw [lines_mk]
    exact (readsLine_assign span htarget hleft hok hvalue).lines
      ((startsStatement_phrase htarget).append _)
  | @augAssign span target value op hok htarget hleft hvalue =>
    refine hno ?_ (branch_mk span _)
    rw [lines_mk]
    exact (readsLine_augAssign span htarget hleft hok hvalue).lines
      ((startsStatement_phrase htarget).append _)
  | @exprStmt span value hok hvalue =>
    refine hno ?_ (branch_mk span _)
    rw [lines_mk]
    exact (readsLine_exprStmt span hvalue hok.1 hok.2).lines (startsStatement_phrase hvalue)
  | @ifStmt span test body orelse hok htest hbody horelse ihbody ihorelse =>
    have hbodies := fun t ht => (ihbody t ht).1
    have hfurther := readsBranches_otherwise ihorelse
    rw [lines_mk, branch_mk, Node.map, linesOf, branchOf, conditionalLines_eq, conditionalLines_eq]
    refine ⟨readsLines_ifStmt span htest hok hbodies hfurther, fun ls hls => ?_⟩
    rw [← Option.some.inj hls]
    exact readsBranches_elif span htest hok hbodies hfurther
  | @whileLoop span test body hok htest hbody ih =>
    refine hno ?_ (branch_mk span _)
    rw [lines_mk]
    exact readsLines_headed (starts_keyword (by decide) _) hok (fun t ht => (ih t ht).1)
      (readsHead_whileLoop span htest)
  | @forLoop span target iter body hok htarget hleft hiter hbody ih =>
    refine hno ?_ (branch_mk span _)
    rw [lines_mk]
    exact readsLines_headed ((starts_keyword (by decide) _).append _) hok
      (fun t ht => (ih t ht).1) (readsHead_forLoop span htarget hleft hiter)
  | passStmt hok =>
    refine hno ?_ (branch_mk _ _)
    rw [lines_mk]
    exact (readsLine_passStmt _).lines (starts_keyword (by decide) [])
  | breakStmt hok =>
    refine hno ?_ (branch_mk _ _)
    rw [lines_mk]
    exact (readsLine_breakStmt _).lines (starts_keyword (by decide) [])
  | continueStmt hok =>
    refine hno ?_ (branch_mk _ _)
    rw [lines_mk]
    exact (readsLine_continueStmt _).lines (starts_keyword (by decide) [])
  | @tryStmt span body finalbody handlers hok hbody hexceptions hnames hhandlers hfinal ihbody
      ihhandlers ihfinal =>
    refine hno ?_ (branch_mk span _)
    have hclauses := readsClauses_handlers hexceptions hnames hok.2
      (fun h hh t ht => (ihhandlers h hh t ht).1) fun t ht => (ihfinal t ht).1
    have hfinals : (finalLines finalbody).flatten = if (finalbody.map draft).isEmpty then []
        else headedLines (fun g => [word "finally" g]) (finalbody.map draft) := by
      rcases finalbody with _ | ⟨first, rest⟩
      · rfl
      · exact List.flatten_singleton
    rw [lines_mk, Node.map, linesOf, List.flatMap_map, List.append_assoc, ← hfinals]
    exact readsLines_tryStmt span hok.1 (fun t ht => (ihbody t ht).1) hclauses
  | @withStmt span items body hok hne hitems hbody ih =>
    refine hno ?_ (branch_mk span _)
    obtain ⟨hbodyne, hnames, hsingle⟩ := hok
    have halone : ∀ context, items = [⟨context, none⟩] → ¬isSeveral context := by
      rintro context hcontext ⟨first, second, rest, h⟩
      exact hsingle context first second rest hcontext h
    rw [lines_mk, Node.map, linesOf, List.map_map]
    exact readsLines_headed (starts_keyword (by decide) _) hbodyne (fun t ht => (ih t ht).1)
      (readsHead_withStmt span hne hitems hnames halone)
  | @raiseStmt span exception hok hexception =>
    refine hno ?_ (branch_mk span _)
    rw [lines_mk]
    exact (readsLine_raiseStmt span hexception).lines (starts_keyword (by decide) _)
  | @classDef span name bases body hok hname hbases hbody ih =>
    refine hno ?_ (branch_mk span _)
    have hheaded := readsLines_headed (starts_keyword (by decide) _) hok
      (fun t ht => (ih t ht).1) (readsHead_classDef span hname.2 hbases)
    rw [lines_mk, Node.map, linesOf, List.isEmpty_map, map_phrase_draft]
    exact hheaded
  | @importStmt span source names hok hne =>
    refine hno ?_ (branch_mk span _)
    rw [lines_mk]
    obtain ⟨hnames, hstar, hsource⟩ := hok
    rcases source with _ | source
    · exact (readsLine_import span hne hnames fun hmem => Bool.false_ne_true (hstar hmem).1).lines
        (starts_keyword (by decide) _)
    · obtain ⟨hmodule, hfuture⟩ := hsource source rfl
      exact (readsLine_from span hne hnames (fun hmem => (hstar hmem).2) hmodule hfuture).lines
        ((starts_keyword (by decide) _).append _)

end Rendition.Python
