import Rendition.Failure
import Rendition.Source.Read
import Rendition.Rendering.Physl
import Rendition.Rendering.Python
import Rendition.Rendering.Sexpr

/-!
# The registry

Readers and backends are found by name in lists to which anyone may add. Both lists have standard
entries, which are added when a list is consulted for the first time; what was registered before
comes before them and so wins over a standard entry of the same name.

## Main definitions

* `Backend`, `SourceReader`: The entries.
* `Shelf`: A list that gets its standard entries when it is first consulted.
* `Registry`: The two lists.
* `Registry.render`: The rendition of a task by the backend with a given name.
-/

namespace Rendition

/-- A rendition under its name. -/
structure Backend where
  name : String
  /-- The extension of files that hold renditions. -/
  extension : String
  render : Task → Config → Except Unimplemented String

/-- A way to read source texts of a language. -/
structure SourceReader where
  language : String
  /-- The extensions of files that hold source texts. -/
  extensions : List String
  read : String → Except ReadError Tree

namespace Backend

/-- The backend of a renderer. -/
def ofRenderer {σ φ : Type} (name extension : String) (renderer : Renderer σ φ) : Backend :=
  ⟨name, extension, renderer.render⟩

/-- The standard backends. -/
def standard : List Backend :=
  [ofRenderer "physl" "physl" Physl.renderer, ofRenderer "python" "py" Python.renderer,
    ofRenderer "sexpr" "json" Sexpr.renderer]

end Backend

/-- The standard readers. -/
def SourceReader.standard : List SourceReader :=
  [⟨"python", ["py", "pyi"], Source.read⟩]

/-- A list that gets its standard entries when it is first consulted. -/
structure Shelf (α : Type) where
  entries : List α := []
  /-- Whether the standard entries were added. -/
  stocked : Bool := false

namespace Shelf

variable {α : Type}

/-- The list with one more entry at its end. -/
def register (entry : α) (shelf : Shelf α) : Shelf α :=
  { shelf with entries := shelf.entries ++ [entry] }

/-- The list with its standard entries, which are added only once. -/
def stock (standard : List α) (shelf : Shelf α) : Shelf α :=
  if shelf.stocked then shelf else ⟨shelf.entries ++ standard, true⟩

end Shelf

/-- The lists of backends and readers. -/
structure Registry where
  backends : Shelf Backend := {}
  readers : Shelf SourceReader := {}

namespace Registry

/-- Add a backend. -/
def registerBackend (backend : Backend) : StateM Registry Unit :=
  modify fun r => { r with backends := r.backends.register backend }

/-- Add a reader. -/
def registerReader (reader : SourceReader) : StateM Registry Unit :=
  modify fun r => { r with readers := r.readers.register reader }

/-- All backends in order. -/
def listBackends : StateM Registry (List Backend) := do
  modify fun r => { r with backends := r.backends.stock Backend.standard }
  return (← get).backends.entries

/-- All readers in order. -/
def listReaders : StateM Registry (List SourceReader) := do
  modify fun r => { r with readers := r.readers.stock SourceReader.standard }
  return (← get).readers.entries

/-- The first backend with the given name. -/
def backend? (name : String) : StateM Registry (Option Backend) := do
  return (← listBackends).find? fun backend => backend.name == name

/-- The first reader of a language. -/
def readerOfLanguage? (language : String) : StateM Registry (Option SourceReader) := do
  return (← listReaders).find? fun reader => reader.language == language

/-- The first reader of files with the given extension. -/
def readerOfExtension? (extension : String) : StateM Registry (Option SourceReader) := do
  return (← listReaders).find? fun reader => reader.extensions.contains extension

/-- The rendition of a task by the backend with the given name. -/
def render (name : String) (task : Task) (config : Config) :
    StateM Registry (Except Failure String) := do
  match ← backend? name with
  | none => return .error (.unknownBackend name)
  | some backend => return (backend.render task config).mapError .unimplemented

end Registry

end Rendition
