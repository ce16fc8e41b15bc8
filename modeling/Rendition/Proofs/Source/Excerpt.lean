import Rendition.Proofs.Text.Lines
import Rendition.Source.Read

/-!
# Texts of functions

The text of a function is cut out of the source by lines: from the line of its definition up to the
line of the next statement. The line of a decorated definition is the one of the definition itself,
not of its first decorator. So decorators are not in the text of the function that they decorate but
at the end of the text of a function right before it, which then cannot be read on its own.

## Main definitions

* `Source.CutFor`: What a task holds of a definition and of the text that it was read from.

## Theorems

* `mem_tasksOf`: The tasks of statements are those of the function definitions among them.
* `tasks_text`: The lines of the text of a function.
-/

namespace Rendition.Source

variable {text : List Char} {task : Task}

/-- The task is cut out of the text for a definition that some statements follow. -/
structure CutFor (text : List Char) (task : Task) (definition : Tree) (rest : List Tree) : Prop where
  name : Task.functionName? definition = some task.function.name
  line : task.function.line = definition.span.line
  tree : task.tree = .mk ⟨definition.span.line, 0⟩ (.moduleDef [definition])
  text : task.function.text = String.ofList (Text.joinLines (Text.excerpt text definition.span.line
    (rest.head?.map fun next => next.span.line)))

/-- The tasks of a statement and those after it. -/
theorem mem_tasksOf_cons {statement : Tree} {rest : List Tree} :
    task ∈ tasksOf text (statement :: rest) ↔
      CutFor text task statement rest ∨ task ∈ tasksOf text rest := by
  rw [tasksOf]
  rcases hname : Task.functionName? statement with _ | name
  · refine ⟨.inr, fun h => h.resolve_left fun hcut => ?_⟩
    exact absurd (hname.symm.trans hcut.name) (by simp only [reduceCtorEq, not_false_eq_true])
  · rw [List.mem_cons]
    refine or_congr_left ⟨fun h => ?_, fun hcut => ?_⟩
    · rw [h]
      exact ⟨hname, rfl, rfl, rfl⟩
    · -- A task is determined by the definition and what follows it.
      obtain ⟨⟨name', text', line⟩, tree⟩ := task
      obtain ⟨hname', rfl, rfl, rfl⟩ := hcut
      obtain rfl := Option.some.inj (hname.symm.trans hname')
      rfl

/-- The tasks of statements are those of the function definitions among them, each cut out up to the
    statement that follows. -/
theorem mem_tasksOf {statements : List Tree} : task ∈ tasksOf text statements ↔
    ∃ before definition rest, statements = before ++ definition :: rest ∧
      CutFor text task definition rest := by
  induction statements with
  | nil => simp only [tasksOf, List.not_mem_nil, List.nil_eq, List.append_eq_nil_iff, reduceCtorEq,
      and_false, false_and, exists_false]
  | cons statement statements ih =>
    rw [mem_tasksOf_cons, ih]
    constructor
    · rintro (hcut | ⟨before, definition, rest, rfl, hcut⟩)
      · exact ⟨[], statement, statements, rfl, hcut⟩
      · exact ⟨statement :: before, definition, rest, rfl, hcut⟩
    · rintro ⟨_ | ⟨first, before⟩, definition, rest, heq, hcut⟩
      · obtain ⟨rfl, rfl⟩ := List.cons.inj heq
        exact .inl hcut
      · obtain ⟨-, rfl⟩ := List.cons.inj heq
        exact .inr ⟨before, definition, rest, rfl, hcut⟩

/-- If a source holds no carriage returns, the text of a function consists of the lines from the
    one of its definition up to the one of the next statement, without blank ones at the end. -/
theorem tasks_text {source : String} (hsource : '\r' ∉ source.toList) {ts : List Task}
    (h : tasks source = .ok ts) (hmem : task ∈ ts) :
    ∃ before definition rest, readStatements source = .ok (before ++ definition :: rest) ∧
      CutFor source.toList task definition rest ∧
      Text.lines task.function.text.toList =
        (Text.linesBetween source.toList definition.span.line
          (rest.head?.map fun next => next.span.line)).rdropWhile Text.isBlankLine := by
  rw [tasks] at h
  rcases hread : readStatements source with e | statements
  · rw [hread] at h
    cases h
  · rw [hread] at h
    obtain rfl := Except.ok.inj h
    obtain ⟨before, definition, rest, rfl, hcut⟩ := mem_tasksOf.mp hmem
    refine ⟨before, definition, rest, rfl, hcut, ?_⟩
    rw [hcut.text, String.toList_ofList, Text.lines_excerpt hsource, Text.excerpt_eq]

/-- The decorator of the second function ends the text of the first one, which cannot be read. -/
example : (match tasks "def f():\n  pass\n@d\ndef g():\n  pass\n" with
    | .ok (f :: _) => f.function.text == "def f():\n  pass\n@d" && !(read f.function.text).isOk
    | _ => false) = true := by
  decide +kernel

end Rendition.Source
