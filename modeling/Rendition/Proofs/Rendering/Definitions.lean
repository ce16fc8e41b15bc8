import Rendition.Proofs.Physl.Reuse
import Rendition.Proofs.Python.Wording
import Rendition.Proofs.Sexpr.Value

/-!
# Function by function

A source text that defines functions and does nothing else can be rendered as a whole or function
by function, and both come to the same: the renditions of the functions, put together. That is
plain where a rendition has no effects. In PhySL the whole text is rendered in one go, so that a
function finds the names of those before it defined; but a function does not ask for them.

## Main definitions

* `Gathers`: The result of a whole, from the results of its parts.
* `Sexpr.items`: What a value lists behind its name.

## Theorems

* `gathers_mapM`: The first part that fails decides.
* `map_tasksOf`: The tasks of functions hold one function each.
* `run_sheltered`: PhySL renders sheltered trees one after another like each on its own.
* `render_definitions`: A text that only defines functions is rendered function by function.
-/

namespace Rendition

variable {ε α β γ : Type}

/-! ## Results of parts -/

/-- The result of a whole, from the results of its parts: all of them put together, or the first
    failure among them. -/
inductive Gathers (join : List α → β) : List (Except ε α) → Except ε β → Prop where
  | all (values : List α) : Gathers join (values.map .ok) (.ok (join values))
  | first (values : List α) (e : ε) (rest : List (Except ε α)) :
    Gathers join (values.map .ok ++ .error e :: rest) (.error e)

/-- A part that succeeds leaves the decision to the parts behind it. -/
theorem Gathers.cons {join : List α → β} {results : List (Except ε α)} {whole : Except ε β}
    (value : α) (h : Gathers (fun values => join (value :: values)) results whole) :
    Gathers join (.ok value :: results) whole := by
  cases h with
  | all values => exact .all (value :: values)
  | first values e rest => exact .first (value :: values) e rest

/-- Of parts that are computed one after another, the first one that fails decides. -/
theorem gathers_mapM (f : γ → Except ε α) (join : List α → β) (parts : List γ) :
    Gathers join (parts.map f) ((parts.mapM f).map join) := by
  induction parts generalizing join with
  | nil => exact .all []
  | cons part rest ih =>
    rw [List.mapM_cons, List.map_cons]
    rcases f part with e | value
    · exact .first [] e _
    · have hrest := (ih fun values => join (value :: values)).cons value
      rcases hvalues : rest.mapM f with e | values
      · rwa [hvalues] at hrest
      · rwa [hvalues] at hrest

/-- A function of the results of parts is one of the results of parts of the parts. -/
theorem mapM_map_ok (f : γ → Except ε α) (g : α → β) (parts : List γ) :
    parts.mapM (fun part => (f part).map g) = (parts.mapM f).map (List.map g) := by
  induction parts with
  | nil => rfl
  | cons part rest ih =>
    rw [List.mapM_cons, List.mapM_cons, ih]
    rcases f part with e | value
    · rfl
    · rcases rest.mapM f with e | values <;> rfl

/-! ## Tasks -/

/-- The results for the tasks of functions, from those for modules that hold one function. -/
theorem map_tasksOf {render : Task → β} {single : Tree → β}
    (hsingle : ∀ f span s, s.kind = .functionDef →
      render ⟨f, .mk span (.moduleDef [s])⟩ = single s)
    (text : List Char) {statements : List Tree} (h : ∀ s ∈ statements, s.kind = .functionDef) :
    (Source.tasksOf text statements).map render = statements.map single := by
  induction statements with
  | nil => rfl
  | cons statement rest ih =>
    obtain ⟨hkind, hrest⟩ := List.forall_mem_cons.mp h
    rcases statement with ⟨span, node⟩
    cases node with
    | functionDef name params body =>
      rw [Source.tasksOf, List.map_cons, ← ih hrest]
      exact congrArg (· :: _) (hsingle _ _ _ rfl)
    | _ => cases hkind

/-- If a module is made from pieces, one for each function in it, then its result gathers those of
    the tasks of the functions. -/
theorem gathers_tasksOf {render : Task → Except ε β} {piece : Tree → Except ε α}
    {join : List α → β} {together : List β → β}
    (hrender : ∀ f span body, (∀ s ∈ body, s.kind = .functionDef) →
      render ⟨f, .mk span (.moduleDef body)⟩ = (body.mapM piece).map join)
    (htogether : ∀ values, together (values.map fun value => join [value]) = join values)
    (text : List Char) {statements : List Tree} (h : ∀ s ∈ statements, s.kind = .functionDef)
    (f : SourceFunction) (span : Span) :
    Gathers together ((Source.tasksOf text statements).map render)
      (render ⟨f, .mk span (.moduleDef statements)⟩) := by
  have hsingle : ∀ f span s, s.kind = .functionDef → render ⟨f, .mk span (.moduleDef [s])⟩ =
      (piece s).map fun value => join [value] := by
    intro f span s hs
    rw [hrender f span [s] (List.forall_mem_singleton.mpr hs), List.mapM_cons, List.mapM_nil]
    rcases piece s with e | value <;> rfl
  have hgathers := gathers_mapM (fun s => (piece s).map fun value => join [value]) together
    statements
  rw [mapM_map_ok] at hgathers
  rw [map_tasksOf hsingle text h, hrender f span statements h]
  rcases hpieces : statements.mapM piece with e | values
  · rwa [hpieces] at hgathers
  · rw [hpieces] at hgathers
    rw [Except.map, ← htogether]
    exact hgathers

/-! ## PhySL -/

namespace Physl

/-- A definition of a function is sheltered: all of it lies inside the function. -/
theorem Sheltered.function {t : Tree} (h : t.kind = .functionDef) : Sheltered t :=
  fun path _ _ _ => ⟨[], path, t, rfl, rfl, by rw [h]; decide⟩

/-- The result of one computation after another, the second from the state that the first leaves. -/
theorem result_bind {σ : Type} (x : Walk σ α) (k : α → Walk σ β) (s : σ) :
    ((x >>= k).run.run s).1 = (x.run.run s).1 >>= fun a => ((k a).run.run (x.run.run s).2).1 := by
  rw [Walk.run_bind]
  rcases x.run.run s with ⟨_ | a, s'⟩ <;> rfl

/-- What a tree is rendered as in a module where nothing is defined. -/
def alone (annotate : Bool) (t : Tree) : Except Unimplemented String :=
  ((t.render (rule annotate)).run.run (⟨annotate, [[]], ""⟩ : State)).1

/-- Sheltered trees that are rendered one after another have the results that each has on its
    own. -/
theorem run_sheltered (annotate : Bool) {trees : List Tree} (h : ∀ t ∈ trees, Sheltered t)
    {s : State} (hs : ∃ scope, scopes s = [scope]) :
    ((runAll (trees.map (Tree.visit (rule annotate)))).run.run s).1 =
      trees.mapM (alone annotate) := by
  induction trees generalizing s with
  | nil => rfl
  | cons t rest ih =>
    obtain ⟨ht, hrest⟩ := List.forall_mem_cons.mp h
    obtain ⟨scope, hs⟩ := hs
    have hlevel : Level false [] [] s (⟨annotate, [[]], ""⟩ : State) :=
      ⟨scope, [], hs, rfl, Bool.noConfusion⟩
    obtain ⟨hpaired, inner, -, hs', -⟩ :=
      lockstep_render (similar_sheltered annotate) ⟨rfl, .inr ht⟩ [] [] _ _ hlevel
    -- The names that are known afterwards are those of one scope again.
    have hih := ih hrest ⟨inner, hs'⟩
    rw [List.map_cons, runAll_cons, result_bind, List.mapM_cons, alone, ← hpaired.eq, ← hih]
    refine bind_congr fun text => ?_
    exact result_bind _ _ _

/-- A module of functions is rendered as its functions are, each on its own. -/
theorem render_functions (f : SourceFunction) (span : Span) (body : List Tree) (config : Config)
    (h : ∀ s ∈ body, s.kind = .functionDef) :
    renderer.render ⟨f, .mk span (.moduleDef body)⟩ config =
      (body.mapM (alone config.annotates)).map "\n".intercalate := by
  have hpieces := run_sheltered config.annotates (fun s hs => .function (h s hs))
    (s := ⟨config.annotates, [[]], ""⟩) ⟨[], rfl⟩
  have hcreate : renderer.create ⟨f, .mk span (.moduleDef body)⟩ config =
      ⟨config.annotates, [[]], ""⟩ := rfl
  rw [render_eq, hcreate, Tree.render_mk, Rule.apply_eq, ← hpieces]
  simp only [Node.map, rule, bind_assoc, pure_bind, Option.elim]
  rw [result_bind]
  rcases ((runAll (body.map (Tree.visit (rule config.annotates)))).run.run
    (⟨config.annotates, [[]], ""⟩ : State)).1 with _ | texts <;> rfl

end Physl

/-! ## All renditions -/

/-- The text of a module is made of the texts of its statements, each on lines of its own. -/
theorem Python.render_statements (f : SourceFunction) (span : Span) (body : List Tree)
    (config : Config) : renderer.render ⟨f, .mk span (.moduleDef body)⟩ config =
      (body.mapM fun s => (pure (wording (String.ofList (List.replicate config.width ' ')) s).text :
        Except Unimplemented String)).map fun texts => String.join (texts.map (· ++ "\n")) := by
  rw [render_text, wording_mk, List.mapM_pure]
  simp only [assemble, Node.map, texts, List.map_map]
  exact congrArg Except.ok (congrArg String.join List.map_map.symm)

/-- The value of a module lists the values of its statements. -/
theorem Sexpr.build_module (f : SourceFunction) (span : Span) (body : List Tree)
    (config : Config) : renderer.build ⟨f, .mk span (.moduleDef body)⟩ config =
      (body.mapM fun s => (pure (value s) : Except Unimplemented Json)).map fun values =>
        ⟨config.isPretty, form "module" values⟩ := by
  rw [build_value, value_mk, List.mapM_pure]
  rfl

/-- What a value lists behind its name. -/
def Sexpr.items : Json → List Json
  | .array (_ :: items) => items
  | _ => []

/-- A source text that only defines functions is rendered function by function. As a whole it has a
    rendition if all its tasks have one, and otherwise the failure of the first task without one.
    The texts of the tasks stand one after another, in PhySL on lines of their own, and their values
    become the parts of one value. -/
theorem render_definitions {text : String} {tree : Tree} (hread : Source.read text = .ok tree)
    (hfunctions : ∀ s ∈ tree.children, s.kind = .functionDef) (f : SourceFunction)
    (config : Config) :
    ∃ tasks, Source.tasks text = .ok tasks ∧
      Gathers "\n".intercalate (tasks.map fun task => Physl.renderer.render task config)
        (Physl.renderer.render ⟨f, tree⟩ config) ∧
      Gathers String.join (tasks.map fun task => Python.renderer.render task config)
        (Python.renderer.render ⟨f, tree⟩ config) ∧
      Gathers (fun states => ⟨config.isPretty,
          Sexpr.form "module" (states.flatMap fun state => Sexpr.items state.output)⟩)
        (tasks.map fun task => Sexpr.renderer.build task config)
        (Sexpr.renderer.build ⟨f, tree⟩ config) := by
  rcases hstatements : Source.readStatements text with e | statements
  · rw [Source.read, hstatements] at hread
    cases hread
  rw [Source.read, hstatements] at hread
  obtain rfl := Except.ok.inj hread
  refine ⟨Source.tasksOf text.toList statements, by rw [Source.tasks, hstatements]; rfl, ?_, ?_, ?_⟩
  · refine gathers_tasksOf (fun f span body h => Physl.render_functions f span body config h) ?_
      text.toList hfunctions f ⟨1, 0⟩
    intro texts
    exact congrArg "\n".intercalate (List.map_id texts)
  · refine gathers_tasksOf (fun f span body _ => Python.render_statements f span body config) ?_
      text.toList hfunctions f ⟨1, 0⟩
    intro texts
    simp only [List.map_cons, List.map_nil, String.join_cons, String.join_nil, String.append_empty]
  · refine gathers_tasksOf (fun f span body _ => Sexpr.build_module f span body config) ?_
      text.toList hfunctions f ⟨1, 0⟩
    intro values
    simp only [List.flatMap_map, Sexpr.items, Sexpr.form, List.flatMap_singleton']

/-- Two functions, of which PhySL has no rendition for the second. -/
theorem render_definitions_breakStmt :
    ∃ tree tasks, Source.read "def f(x):\n  x = 1\ndef g(f):\n  break\n" = .ok tree ∧
      (∀ s ∈ tree.children, s.kind = .functionDef) ∧
      Source.tasks "def f(x):\n  x = 1\ndef g(f):\n  break\n" = .ok tasks ∧
      Gathers "\n".intercalate (tasks.map fun task => Physl.renderer.render task {})
        (Physl.renderer.render ⟨⟨"f", "", 1⟩, tree⟩ {}) := by
  have hread : (Source.read "def f(x):\n  x = 1\ndef g(f):\n  break\n").toOption.any
      (fun tree => tree.children.all fun s => s.kind = .functionDef) = true := by decide +kernel
  rcases htree : Source.read "def f(x):\n  x = 1\ndef g(f):\n  break\n" with e | tree
  · rw [htree] at hread
    cases hread
  · rw [htree] at hread
    have hfunctions : ∀ s ∈ tree.children, s.kind = .functionDef :=
      fun s hs => of_decide_eq_true (List.all_eq_true.mp hread s hs)
    obtain ⟨tasks, htasks, hphysl, -⟩ := render_definitions htree hfunctions ⟨"f", "", 1⟩ {}
    exact ⟨tree, tasks, rfl, hfunctions, htasks, hphysl⟩

end Rendition
