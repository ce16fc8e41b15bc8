import Rendition.Rendering.Rule

/-!
# Scopes of a PhySL rendition

PhySL tells the first definition of a name in a function from later assignments to it, so the
rendition remembers which names each enclosing function has defined. The innermost function
comes first. The scopes may be one part of a larger state, the rest of which they leave alone.

## Main definitions

* `Physl.Scopes`: The names defined in each enclosing function.
* `Physl.Scoping`: States that hold scopes.
* `Physl.declare`: Define a name in the innermost function.
* `Physl.inScope`: Run a computation inside a new function.
* `Physl.withVariable`: Run a computation while a name is bound by a loop.

## Theorems

* `run_declare`, `run_andThen`, `run_inScope`: What they do to a state.
* `andThen_map`, `inScope_map`: What becomes of the result does not matter to the scopes.
-/

namespace Rendition.Physl

/-- The names defined in each enclosing function, the innermost function first. -/
abbrev Scopes := List (List String)

/-- States that hold scopes, which can be replaced without touching anything else. -/
class Scoping (σ : Type) where
  scopes : σ → Scopes
  setScopes : Scopes → σ → σ
  scopes_setScopes : ∀ a s, scopes (setScopes a s) = a
  setScopes_scopes : ∀ s, setScopes (scopes s) s = s
  setScopes_setScopes : ∀ a b s, setScopes a (setScopes b s) = setScopes a s

export Scoping (scopes setScopes)

variable {σ α β : Type} [Scoping σ]

/-- The state with its scopes changed. -/
def changeScopes (change : Scopes → Scopes) (s : σ) : σ :=
  setScopes (change (scopes s)) s

/-- Define a name in the innermost function. The answer tells whether it was new there. -/
def declare (name : String) : Walk σ Bool := do
  match scopes (← get) with
  | [] => return true
  | scope :: outer =>
    if scope.contains name then return false
    else
      modify (setScopes ((name :: scope) :: outer))
      return true

theorem run_declare (name : String) (s : σ) :
    (declare name : Walk σ Bool).run.run s = match scopes s with
      | [] => (.ok true, s)
      | scope :: outer =>
        if scope.contains name then (.ok false, s)
        else (.ok true, setScopes ((name :: scope) :: outer) s) := by
  simp only [declare, Walk.run_bind, Walk.run_get]
  rcases scopes s with _ | ⟨scope, outer⟩
  · rfl
  · dsimp only
    split <;> rfl

theorem run_declare_of_mem {name : String} {s : σ} {scope : List String} {outer : Scopes}
    (hscopes : scopes s = scope :: outer) (h : name ∈ scope) :
    (declare name : Walk σ Bool).run.run s = (.ok false, s) := by
  rw [run_declare, hscopes]
  simp only [List.contains_iff_mem, h, if_true]

theorem run_declare_of_not_mem {name : String} {s : σ} {scope : List String} {outer : Scopes}
    (hscopes : scopes s = scope :: outer) (h : name ∉ scope) :
    (declare name : Walk σ Bool).run.run s =
      (.ok true, setScopes ((name :: scope) :: outer) s) := by
  rw [run_declare, hscopes]
  simp only [List.contains_iff_mem, h, if_false]

/-- Forget a name of the innermost function. -/
def undeclare (name : String) : Scopes → Scopes
  | [] => []
  | scope :: outer => scope.filter (· != name) :: outer

/-- Run a computation and then change the scopes, whether it failed or not. -/
def andThen (x : Walk σ α) (change : Scopes → Scopes) : Walk σ α :=
  ExceptT.mk fun s =>
    let (result, s) := x.run.run s
    (result, changeScopes change s)

theorem run_andThen (x : Walk σ α) (change : Scopes → Scopes) (s : σ) :
    (andThen x change).run.run s =
      ((x.run.run s).1, changeScopes change (x.run.run s).2) := rfl

/-- What becomes of the result does not matter to the scopes. -/
theorem andThen_map (x : Walk σ α) (change : Scopes → Scopes) (f : α → β) :
    andThen (x >>= fun a => pure (f a)) change = andThen x change >>= fun a => pure (f a) := by
  funext s
  simp only [andThen, bind, ExceptT.bind, ExceptT.mk, ExceptT.run, StateT.bind, StateT.run]
  rcases x s with ⟨_ | _, _⟩ <;> rfl

/-- Run a computation inside a new function with the given parameters. -/
def inScope (params : List String) (x : Walk σ α) : Walk σ α := do
  modify (changeScopes (params :: ·))
  andThen x List.tail

theorem run_inScope (params : List String) (x : Walk σ α) (s : σ) :
    (inScope params x).run.run s =
      ((x.run.run (changeScopes (params :: ·) s)).1,
        changeScopes List.tail (x.run.run (changeScopes (params :: ·) s)).2) := rfl

theorem inScope_map (params : List String) (x : Walk σ α) (f : α → β) :
    inScope params (x >>= fun a => pure (f a)) = inScope params x >>= fun a => pure (f a) := by
  simp only [inScope, andThen_map, bind_assoc]

/-- Run a computation while `name` is bound by a loop. The name is forgotten afterwards unless it
    was defined before. -/
def withVariable (name : String) (x : Walk σ α) : Walk σ α := do
  let fresh ← declare name
  andThen x (if fresh then undeclare name else id)

end Rendition.Physl
