import Rendition.Rendering.Session

/-!
# The states of a session

A renderer that was built for a task is told to do one thing after another, and what fails half-way
leaves its traces in the state. This module collects the states that can be reached in this way.
To know something of all of them it is enough that the rendition of a tree keeps it, however the
rendition ends, and that showing a fragment keeps it.

## Main definitions

* `Renderer.after`: The state after a sequence of steps.
* `Keeps`: A computation that keeps what holds of the state, whether it fails or not.

## Theorems

* `Keeps.bind`, `Keeps.mapM`: Computations one after another.
* `answer_walk`: What is answered to a tree.
* `keeps_step`: A step keeps what renditions keep.
* `after_invariant`: So does a sequence of steps.
-/

namespace Rendition

variable {σ φ α β : Type}

/-- A computation keeps what holds of the state, whether it fails or not. -/
def Keeps (P : σ → Prop) (x : Walk σ α) : Prop :=
  ∀ s, P s → P (x.run.run s).2

namespace Keeps

variable {P : σ → Prop}

theorem pure (a : α) : Keeps P (pure a : Walk σ α) :=
  fun _ h => h

theorem modify {f : σ → σ} (h : ∀ s, P s → P (f s)) : Keeps P (modify f : Walk σ PUnit) :=
  fun s hs => h s hs

theorem bind {x : Walk σ α} {f : α → Walk σ β} (hx : Keeps P x) (hf : ∀ a, Keeps P (f a)) :
    Keeps P (x >>= f) := by
  intro s hs
  have h := hx s hs
  rw [Walk.run_bind]
  rcases hrun : x.run.run s with ⟨result, s'⟩
  rw [hrun] at h
  -- A failure leaves the state that it was reached in.
  cases result with
  | error e => exact h
  | ok a => exact hf a s' h

theorem mapM {f : α → Walk σ β} (h : ∀ a, Keeps P (f a)) (as : List α) :
    Keeps P (as.mapM f) := by
  induction as with
  | nil =>
    rw [List.mapM_nil]
    exact pure []
  | cons a rest ih =>
    rw [List.mapM_cons]
    exact (h a).bind fun b => ih.bind fun bs => pure (b :: bs)

end Keeps

namespace Renderer

variable (renderer : Renderer σ φ) {P : σ → Prop}

/-- The state after a sequence of steps. -/
def after (steps : List Step) (s : σ) : σ :=
  steps.foldl (fun s step => (renderer.answer step s).2) s

/-- The answer to a tree is the text of its fragment, or the failure of its rendition. -/
theorem answer_walk (tree : Tree) (s : σ) : (renderer.answer (.walk tree) s).1 =
    ((renderer.fragment tree).run.run s).1.map fun fragment =>
      .fragment (renderer.fragmentText fragment) := by
  rw [answer, step, Walk.run_bind]
  rcases (renderer.fragment tree).run.run s with ⟨_ | fragment, s'⟩ <;> rfl

variable (hfragment : ∀ tree, Keeps P (renderer.fragment tree))
  (hkeep : ∀ fragment s, P s → P (renderer.keep fragment s))

include hfragment hkeep

/-- A step keeps what the rendition of a tree and the showing of a fragment keep. -/
theorem keeps_step (step : Step) : Keeps P (renderer.step step) := by
  cases step with
  | walk tree => exact (hfragment tree).bind fun fragment => .pure _
  | walkAll trees => exact (Keeps.mapM hfragment trees).bind fun fragments => .pure _
  | present tree =>
    have hpresent : Keeps P (renderer.present tree) :=
      (hfragment tree).bind fun fragment => .modify (hkeep fragment)
    exact hpresent.bind fun _ => .pure _

/-- What every step keeps holds after any sequence of steps. -/
theorem after_invariant (steps : List Step) (s : σ) (hs : P s) : P (renderer.after steps s) := by
  -- The state that a step leaves is the one the next step starts from.
  induction steps generalizing s with
  | nil => exact hs
  | cons step rest ih => exact ih _ (keeps_step renderer hfragment hkeep step s hs)

end Renderer

end Rendition
