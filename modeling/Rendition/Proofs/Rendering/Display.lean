import Rendition.Proofs.Physl.Reuse
import Rendition.Proofs.Python.Wording
import Rendition.Proofs.Sexpr.Value

/-!
# What a session shows

A session starts when the tree of a task is shown, and from then on shows the last tree that it was
told to show and could render. Giving fragments changes nothing of that, and neither does a tree
without a rendition, however far its rendition went.

Beside what they show, sessions in Python and in s-expressions have settings only, which no step
changes, so that no step matters to the answers to later ones. A PhySL session remembers the names
of its module.

## Main definitions

* `Renderer.LastShown`: The last tree that a session was told to show and could render.
* `Renderer.Displays`: A rendition that leaves alone what is shown until it is done.
* `Renderer.Steady`: A rendition that has no effects.

## Theorems

* `Displays.answer`: What a step does to what is shown.
* `Displays.after`: What is shown after a sequence of steps.
* `Steady.answer`: What is answered without effects.
* `session_display`: The display and the state of every session.
-/

namespace Rendition

variable {σ φ : Type}

namespace Renderer

variable (renderer : Renderer σ φ)

theorem after_append (earlier later : List Step) (s : σ) :
    renderer.after (earlier ++ later) s = renderer.after later (renderer.after earlier s) :=
  List.foldl_append

/-- What becomes of a tree that is rendered after a sequence of steps. -/
def fragmentAfter (steps : List Step) (s : σ) (tree : Tree) : Except Unimplemented φ :=
  ((renderer.fragment tree).run.run (renderer.after steps s)).1

/-- The last tree that a sequence of steps shows: a tree with the fragment that it had when it was
    to be shown, after which no other tree that was to be shown could be rendered. -/
def LastShown (steps : List Step) (s : σ) (tree : Tree) (fragment : φ) : Prop :=
  ∃ earlier later, steps = earlier ++ .present tree :: later ∧
    renderer.fragmentAfter earlier s tree = .ok fragment ∧
    ∀ middle other rest, later = middle ++ .present other :: rest →
      ∃ e, renderer.fragmentAfter (earlier ++ .present tree :: middle) s other = .error e

variable {renderer}

/-- A tree that is shown last is the last one shown. -/
theorem LastShown.of_ok {steps : List Step} {s : σ} {tree : Tree} {fragment : φ}
    (h : renderer.fragmentAfter steps s tree = .ok fragment) :
    renderer.LastShown (steps ++ [.present tree]) s tree fragment :=
  ⟨steps, [], rfl, h, fun middle _ _ hmiddle => absurd hmiddle (by simp)⟩

/-- A step that shows nothing leaves the last tree that was shown. -/
theorem LastShown.snoc {steps : List Step} {step : Step} {s : σ} {tree : Tree} {fragment : φ}
    (h : renderer.LastShown steps s tree fragment)
    (hstep : ∀ other, step = .present other →
      ∃ e, renderer.fragmentAfter steps s other = .error e) :
    renderer.LastShown (steps ++ [step]) s tree fragment := by
  obtain ⟨earlier, later, rfl, hfragment, hlater⟩ := h
  refine ⟨earlier, later ++ [step], by simp, hfragment, fun middle other rest hmiddle => ?_⟩
  -- A tree that was to be shown since then is among the later ones, or it is the one of this step.
  rcases List.eq_nil_or_concat rest with rfl | ⟨rest, last, rfl⟩
  · obtain ⟨rfl, hother⟩ := List.append_inj' hmiddle rfl
    exact hstep other (List.head_eq_of_cons_eq hother)
  · have hsplit : later ++ [step] = (middle ++ .present other :: rest) ++ [last] := by
      rw [hmiddle, List.concat_eq_append, List.append_assoc, List.cons_append]
    exact hlater middle other rest (List.append_inj' hsplit rfl).1

/-! ## Renditions that leave the display alone -/

variable (renderer)

/-- A rendition that, among the states with certain settings, keeps the settings and leaves alone
    what is shown until a fragment is there, and then shows the fragment in a form of its own. -/
structure Displays (P : σ → Prop) (display : φ → String) : Prop where
  settings (tree : Tree) : Keeps P (renderer.fragment tree)
  leaves (tree : Tree) (text : String) :
    Keeps (fun s => P s ∧ renderer.shown s = text) (renderer.fragment tree)
  keep (fragment : φ) (s : σ) : P s → P (renderer.keep fragment s)
  shown (fragment : φ) (s : σ) : P s → renderer.shown (renderer.keep fragment s) = display fragment

variable {renderer} {P : σ → Prop} {display : φ → String}

variable (renderer) in
/-- The state in which a tree was shown, or could not be shown. -/
theorem answer_present (tree : Tree) (s : σ) : (renderer.answer (.present tree) s).2 =
    match (renderer.fragment tree).run.run s with
    | (.ok fragment, s) => renderer.keep fragment s
    | (.error _, s) => s := by
  rw [answer, step, Walk.run_bind, present, Walk.run_bind]
  rcases (renderer.fragment tree).run.run s with ⟨_ | fragment, s'⟩ <;> rfl

namespace Displays

/-- A step either shows the fragment of a tree or changes nothing of what is shown. -/
theorem answer (h : renderer.Displays P display) (step : Step) {s : σ} (hs : P s) :
    (∃ tree fragment, step = .present tree ∧
        ((renderer.fragment tree).run.run s).1 = .ok fragment ∧
        renderer.shown (renderer.answer step s).2 = display fragment) ∨
      ((∀ tree, step = .present tree →
          ∃ e, ((renderer.fragment tree).run.run s).1 = .error e) ∧
        renderer.shown (renderer.answer step s).2 = renderer.shown s) := by
  cases step with
  | walk tree =>
    have hkeeps := (h.leaves tree (renderer.shown s)).bind fun fragment => .pure
      (Reply.fragment (renderer.fragmentText fragment))
    exact .inr ⟨fun _ hstep => (nomatch hstep), (hkeeps s ⟨hs, rfl⟩).2⟩
  | walkAll trees =>
    have hkeeps := (Keeps.mapM (fun tree => h.leaves tree (renderer.shown s)) trees).bind
      fun fragments => .pure (Reply.fragments (fragments.map renderer.fragmentText))
    exact .inr ⟨fun _ hstep => (nomatch hstep), (hkeeps s ⟨hs, rfl⟩).2⟩
  | present tree =>
    have hleaves := h.leaves tree (renderer.shown s) s ⟨hs, rfl⟩
    rw [answer_present]
    rcases hrun : (renderer.fragment tree).run.run s with ⟨e | fragment, s'⟩
    · rw [hrun] at hleaves
      refine .inr ⟨fun other hother => ⟨e, ?_⟩, hleaves.2⟩
      obtain rfl := Step.present.inj hother
      rw [hrun]
    · rw [hrun] at hleaves
      exact .inl ⟨tree, fragment, rfl, by rw [hrun], h.shown fragment s' hleaves.1⟩

/-- A session that starts with a tree that can be rendered shows the last tree that it was told to
    show and could render. -/
theorem after (h : renderer.Displays P display) {tree : Tree} {fragment : φ} {s : σ} (hs : P s)
    (hfragment : ((renderer.fragment tree).run.run s).1 = .ok fragment) (steps : List Step) :
    ∃ last fragment, renderer.LastShown (.present tree :: steps) s last fragment ∧
      renderer.shown (renderer.after (.present tree :: steps) s) = display fragment := by
  induction steps using List.reverseRecOn with
  | nil =>
    refine ⟨tree, fragment, @LastShown.of_ok _ _ _ [] _ _ _ hfragment, ?_⟩
    obtain ⟨_, _, hstep, hother, hshown⟩ | ⟨hfails, -⟩ := h.answer (.present tree) hs
    · obtain rfl := Step.present.inj hstep
      rw [hfragment] at hother
      rwa [Except.ok.inj hother]
    · obtain ⟨e, he⟩ := hfails tree rfl
      rw [hfragment] at he
      cases he
  | append_singleton steps step ih =>
    obtain ⟨last, fragment, hlast, hshown⟩ := ih
    have hP := renderer.after_invariant h.settings h.keep (.present tree :: steps) s hs
    rw [← List.cons_append, after_append]
    -- The step shows another tree, or what was shown before is still shown.
    obtain ⟨other, fragment', rfl, hother, hanswer⟩ | ⟨hfails, hanswer⟩ := h.answer step hP
    · exact ⟨other, fragment', .of_ok hother, hanswer⟩
    · exact ⟨last, fragment, hlast.snoc hfails, hanswer.trans hshown⟩

end Displays

/-! ## Renditions without effects -/

variable (renderer)

/-- A rendition that has no effects and, among the states with certain settings, gives every tree a
    fragment of its own. -/
def Steady (P : σ → Prop) (value : Tree → φ) : Prop :=
  ∀ tree s, P s → (renderer.fragment tree).run.run s = (.ok (value tree), s)

variable {renderer} {value : Tree → φ}

theorem Steady.mapM (h : renderer.Steady P value) (trees : List Tree) {s : σ} (hs : P s) :
    (trees.mapM renderer.fragment).run.run s = (.ok (trees.map value), s) := by
  induction trees with
  | nil => rfl
  | cons tree rest ih =>
    rw [List.mapM_cons, Walk.run_bind, h tree s hs]
    simp only [Walk.run_bind, ih, Walk.run_pure, List.map_cons]

/-- What is answered without effects: there is no failure. -/
def steadyReply (renderer : Renderer σ φ) (value : Tree → φ) : Step → Reply
  | .walk tree => .fragment (renderer.fragmentText (value tree))
  | .walkAll trees => .fragments ((trees.map value).map renderer.fragmentText)
  | .present _ => .shown

theorem Steady.answer (h : renderer.Steady P value) (step : Step) {s : σ} (hs : P s) :
    (renderer.answer step s).1 = .ok (renderer.steadyReply value step) := by
  cases step with
  | walk tree => rw [answer_walk, h tree s hs]; rfl
  | walkAll trees =>
    rw [Renderer.answer, Renderer.step, Walk.run_bind, h.mapM trees hs]
    rfl
  | present tree =>
    rw [Renderer.answer, Renderer.step, Walk.run_bind, present, Walk.run_bind, h tree s hs]
    rfl

theorem Steady.displays (h : renderer.Steady P value)
    (hkeep : ∀ fragment s, P s → P (renderer.keep fragment s))
    (hshown : ∀ fragment s, P s → renderer.shown (renderer.keep fragment s) = display fragment) :
    renderer.Displays P display where
  settings tree s hs := by rwa [h tree s hs]
  leaves tree text s hs := by rwa [h tree s hs.1]
  keep := hkeep
  shown := hshown

/-- The fragment that is shown last does not depend on the steps before it. -/
theorem Steady.lastShown (h : renderer.Steady P value)
    (hkeep : ∀ fragment s, P s → P (renderer.keep fragment s)) {steps : List Step} {s : σ}
    (hs : P s) {tree : Tree} {fragment : φ} (hlast : renderer.LastShown steps s tree fragment) :
    fragment = value tree := by
  obtain ⟨earlier, later, -, hfragment, -⟩ := hlast
  have hsettings : ∀ tree, Keeps P (renderer.fragment tree) := fun tree s hs => by rwa [h tree s hs]
  have hP := renderer.after_invariant hsettings hkeep earlier s hs
  rw [fragmentAfter, h tree _ hP] at hfragment
  exact (Except.ok.inj hfragment).symm

/-- A session for a task begins when the tree of the task is shown. -/
theorem build_eq_ok {task : Task} {config : Config} {s : σ}
    (h : renderer.build task config = .ok s) :
    (∃ fragment, ((renderer.fragment task.tree).run.run (renderer.create task config)).1 =
        .ok fragment) ∧
      ∀ steps, renderer.after (.present task.tree :: steps) (renderer.create task config) =
        renderer.after steps s := by
  have hanswer := renderer.answer_present task.tree (renderer.create task config)
  rw [build, present, Walk.run_bind] at h
  rcases hrun : (renderer.fragment task.tree).run.run (renderer.create task config) with
    ⟨e | fragment, s'⟩
  · rw [hrun] at h
    cases h
  · rw [hrun] at h hanswer
    obtain rfl := Except.ok.inj h
    exact ⟨⟨fragment, rfl⟩, fun steps => congrArg (renderer.after steps) hanswer⟩

/-- A session without effects shows what a task with the last tree is rendered as. Its settings
    stay, and no answer depends on the steps before it. -/
theorem Steady.session (h : renderer.Steady P value)
    (hkeep : ∀ fragment s, P s → P (renderer.keep fragment s))
    (hshown : ∀ fragment s, P s → renderer.shown (renderer.keep fragment s) = display fragment)
    {task : Task} {config : Config} (hcreate : ∀ task, P (renderer.create task config)) {s : σ}
    (hs : renderer.build task config = .ok s) (steps : List Step) :
    (∃ tree fragment, renderer.LastShown (.present task.tree :: steps)
        (renderer.create task config) tree fragment ∧
      renderer.render ⟨task.function, tree⟩ config =
        .ok (renderer.shown (renderer.after steps s))) ∧
      P s ∧ P (renderer.after steps s) ∧
      ∀ step, (renderer.answer step (renderer.after steps s)).1 = (renderer.answer step s).1 := by
  have hdisplays := h.displays hkeep hshown
  obtain ⟨⟨fragment, hfragment⟩, hafter⟩ := build_eq_ok hs
  obtain ⟨tree, last, hlast, htext⟩ := hdisplays.after (hcreate task) hfragment steps
  obtain rfl := h.lastShown hkeep (hcreate task) hlast
  have hP := fun steps => renderer.after_invariant hdisplays.settings hkeep
    (.present task.tree :: steps) _ (hcreate task)
  simp only [hafter] at htext hP
  have hfirst : P s := hP []
  refine ⟨⟨tree, value tree, hlast, ?_⟩, hfirst, hP steps, fun step => ?_⟩
  · rw [htext, render, build, present, Walk.run_bind, h tree _ (hcreate _)]
    exact congrArg Except.ok (hshown (value tree) _ (hcreate _))
  · rw [h.answer step (hP steps), h.answer step hfirst]

end Renderer

/-! ## Sessions of the standard renditions -/

theorem Physl.displays : Physl.renderer.Displays (fun s => ∃ scope, s.scopes = [scope]) id where
  settings tree := by
    rintro s ⟨scope, hscope⟩
    obtain ⟨scope', -, hstate⟩ := exists_scope_fragment tree hscope
    exact ⟨scope', by rw [hstate]⟩
  leaves tree text := by
    rintro s ⟨⟨scope, hscope⟩, hshown⟩
    obtain ⟨scope', -, hstate⟩ := exists_scope_fragment tree hscope
    rw [hstate]
    exact ⟨⟨scope', rfl⟩, hshown⟩
  keep _ _ h := h
  shown _ _ _ := rfl

theorem Python.steady (indent : String) : Python.renderer.Steady (fun s => s.indent = indent)
    fun tree => (wording indent tree).text := by
  rintro tree s rfl
  rw [renderer, Walk.run_bind, Walk.run_get]
  simp only [run_text]
  rfl

theorem Sexpr.steady (pretty : Bool) :
    Sexpr.renderer.Steady (fun s => s.pretty = pretty) value := by
  intro tree s _
  have hfragment : renderer.fragment tree = pure (value tree) := run_value tree
  rw [hfragment]
  rfl

/-- The display and the state of every session that a task begins. What is shown is the rendition of
    the last tree that was to be shown and had one, the tree of the task at first.

    As Python and as s-expressions that is what a task with this tree is rendered as. Nothing else
    of the state ever changes, and no answer depends on the steps before it. In PhySL it is the
    fragment that the tree had when it was to be shown; there is always one scope, which loses no
    name. -/
theorem session_display (task : Task) (config : Config) (steps : List Step) :
    (∀ s, Physl.renderer.build task config = .ok s →
      (∃ tree text, Physl.renderer.LastShown (.present task.tree :: steps)
          (Physl.renderer.create task config) tree text ∧
        Physl.renderer.shown (Physl.renderer.after steps s) = text) ∧
      ∃ scope, (Physl.renderer.after steps s).scopes = [scope] ∧
        ∀ more, ∃ scope', (Physl.renderer.after (steps ++ more) s).scopes = [scope'] ∧
          scope ⊆ scope') ∧
    (∀ s, Python.renderer.build task config = .ok s →
      (∃ tree text, Python.renderer.LastShown (.present task.tree :: steps)
          (Python.renderer.create task config) tree text ∧
        Python.renderer.render ⟨task.function, tree⟩ config =
          .ok (Python.renderer.shown (Python.renderer.after steps s))) ∧
      (∃ output, Python.renderer.after steps s = { s with output }) ∧
      ∀ step, (Python.renderer.answer step (Python.renderer.after steps s)).1 =
        (Python.renderer.answer step s).1) ∧
    (∀ s, Sexpr.renderer.build task config = .ok s →
      (∃ tree value, Sexpr.renderer.LastShown (.present task.tree :: steps)
          (Sexpr.renderer.create task config) tree value ∧
        Sexpr.renderer.render ⟨task.function, tree⟩ config =
          .ok (Sexpr.renderer.shown (Sexpr.renderer.after steps s))) ∧
      (∃ output, Sexpr.renderer.after steps s = { s with output }) ∧
      ∀ step, (Sexpr.renderer.answer step (Sexpr.renderer.after steps s)).1 =
        (Sexpr.renderer.answer step s).1) := by
  refine ⟨fun s hs => ?_, fun s hs => ?_, fun s hs => ?_⟩
  · obtain ⟨⟨fragment, hfragment⟩, hafter⟩ := Renderer.build_eq_ok hs
    obtain ⟨tree, text, hlast, hshown⟩ := Physl.displays.after ⟨[], rfl⟩ hfragment steps
    rw [hafter] at hshown
    refine ⟨⟨tree, text, hlast, hshown⟩, ?_⟩
    -- The names of the module grow from the first tree on, and from any step on.
    have hcreate : (Physl.renderer.create task config).scopes = [[]] := rfl
    obtain ⟨scope, output, -, hstate⟩ := Physl.scope_after (.present task.tree :: steps) hcreate
    rw [hafter] at hstate
    refine ⟨scope, by rw [hstate], fun more => ?_⟩
    have hscope : (Physl.renderer.after steps s).scopes = [scope] := by rw [hstate]
    obtain ⟨scope', output', hscope', hstate'⟩ := Physl.scope_after more hscope
    exact ⟨scope', by rw [Renderer.after_append, hstate'], hscope'⟩
  · have hshown : ∀ fragment s, s.indent = (Python.renderer.create task config).indent →
        Python.renderer.shown (Python.renderer.keep fragment s) = id fragment := fun _ _ _ => rfl
    obtain ⟨hlast, hindent, hindent', hanswer⟩ :=
      (Python.steady _).session (fun _ _ h => h) hshown (fun _ => rfl) hs steps
    refine ⟨hlast, ⟨(Python.renderer.after steps s).output, ?_⟩, hanswer⟩
    rw [hindent, ← hindent']
  · have hshown : ∀ value s, s.pretty = config.isPretty →
        Sexpr.renderer.shown (Sexpr.renderer.keep value s) =
          Sexpr.State.text ⟨config.isPretty, value⟩ := by
      intro value s h
      rw [← h]
      rfl
    obtain ⟨hlast, hpretty, hpretty', hanswer⟩ :=
      (Sexpr.steady config.isPretty).session (fun _ _ h => h) hshown (fun _ => rfl) hs steps
    refine ⟨hlast, ⟨(Sexpr.renderer.after steps s).output, ?_⟩, hanswer⟩
    rw [hpretty, ← hpretty']

/-- A session in PhySL that is told to show a tree without a rendition, which defines a name before
    it fails. -/
theorem session_display_breakStmt :
    let first : Tree := .mk ⟨1, 0⟩ .passStmt
    let second : Tree := .mk ⟨1, 0⟩ (.moduleDef [
      .mk ⟨1, 0⟩ (.assign (.mk ⟨1, 0⟩ (.ident "x")) (.mk ⟨1, 4⟩ (.constant .none))),
      .mk ⟨2, 0⟩ .breakStmt])
    ∃ s, Physl.renderer.build ⟨⟨"f", "", 1⟩, first⟩ {} = .ok s ∧
      (∃ tree text, Physl.renderer.LastShown [.present first, .present second]
          (Physl.renderer.create ⟨⟨"f", "", 1⟩, first⟩ {}) tree text ∧
        Physl.renderer.shown (Physl.renderer.after [.present second] s) = text) ∧
      ∃ scope, (Physl.renderer.after [.present second] s).scopes = [scope] := by
  intro first second
  obtain ⟨hshown, scope, hscope, -⟩ :=
    (session_display ⟨⟨"f", "", 1⟩, first⟩ {} [.present second]).1 _ rfl
  exact ⟨_, rfl, hshown, scope, hscope⟩

end Rendition
