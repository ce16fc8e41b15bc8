import Rendition.Registry

/-!
# Histories of the registry

What the registry answers depends on the order in which it was used. Its two lists get their
standard entries when they are first consulted, each on its own, and registering an entry does not
consult a list. So a list shows what was registered before it was first consulted, then the
standard entries, then what was registered afterwards; and as entries are only ever added at the
end, what was found once is found ever after.

## Main definitions

* `Shelf.Use`: What can be done to a list.
* `Shelf.contents`: What a list shows after a sequence of uses.
* `Registry.Request`, `Registry.Answer`: What the registry can be asked, and what it answers.
* `Registry.reply`: The answer to a request after a history of requests.
* `Registry.backendsSeen`, `Registry.readersSeen`: What the lists show after a history.

## Theorems

* `stock_after`, `contents_append`: The contents of a list, and that they only grow.
* `backends_answer`, `readers_answer`: What one request does to each list.
* `backends_after`, `readers_after`: What a history does to them.
* `find?_append_of_isSome`: What was found first is found first among more entries.
* `reply_history`: The answers of the registry after every history.
-/

namespace Rendition

/-! ## One list -/

namespace Shelf

variable {α : Type}

/-- What can be done to a list. -/
inductive Use (α : Type) where
  /-- An entry is added. -/
  | register (entry : α)
  /-- The list is looked at. -/
  | consult
  /-- Something else happens. -/
  | ignore

/-- The entry that a use adds. -/
def Use.entry? : Use α → Option α
  | register entry => some entry
  | _ => none

/-- Whether a use looks at the list. -/
def Use.consults : Use α → Bool
  | consult => true
  | _ => false

variable (standard : List α)

/-- The list after a use. -/
def use (shelf : Shelf α) : Use α → Shelf α
  | .register entry => shelf.register entry
  | .consult => shelf.stock standard
  | .ignore => shelf

/-- The list after a sequence of uses. -/
def after (uses : List (Use α)) (shelf : Shelf α) : Shelf α :=
  uses.foldl (use standard) shelf

/-- What a list shows after a sequence of uses: the entries from before it was first consulted, the
    standard entries, and the entries from then on. -/
def contents (uses : List (Use α)) : List α :=
  (uses.takeWhile (!·.consults)).filterMap Use.entry? ++ standard ++
    (uses.dropWhile (!·.consults)).filterMap Use.entry?

/-- Once the standard entries are there, entries are only added behind them. -/
theorem after_stocked (uses : List (Use α)) (entries : List α) :
    after standard uses ⟨entries, true⟩ = ⟨entries ++ uses.filterMap Use.entry?, true⟩ := by
  induction uses generalizing entries with
  | nil => rw [List.filterMap_nil, List.append_nil]; rfl
  | cons first rest ih =>
    cases first with
    | register entry =>
      refine (ih (entries ++ [entry])).trans ?_
      rw [List.append_assoc]
      rfl
    | consult => exact ih entries
    | ignore => exact ih entries

/-- What a list that was not consulted before shows after a sequence of uses. -/
theorem stock_after (uses : List (Use α)) (entries : List α) :
    (after standard uses ⟨entries, false⟩).stock standard =
      ⟨entries ++ contents standard uses, true⟩ := by
  induction uses generalizing entries with
  | nil => rw [contents, List.takeWhile_nil, List.dropWhile_nil, List.filterMap_nil,
      List.nil_append, List.append_nil]; rfl
  | cons first rest ih =>
    cases first with
    | register entry =>
      refine (ih (entries ++ [entry])).trans ?_
      rw [List.append_assoc]
      rfl
    | consult =>
      -- From here on the standard entries are there.
      have hrest := after_stocked standard rest (entries ++ standard)
      rw [List.append_assoc] at hrest
      exact congrArg (stock standard) hrest
    | ignore => exact ih entries

/-- What a list showed when it was consulted stays in front of everything that comes later. -/
theorem contents_append (earlier later : List (Use α)) :
    contents standard (earlier ++ .consult :: later) =
      contents standard earlier ++ later.filterMap Use.entry? := by
  have hearlier := stock_after standard earlier []
  have hwhole := stock_after standard (earlier ++ .consult :: later) []
  have hsplit : after standard (earlier ++ .consult :: later) ⟨[], false⟩ =
      after standard later ((after standard earlier ⟨[], false⟩).stock standard) :=
    List.foldl_append
  rw [hsplit, hearlier, after_stocked] at hwhole
  exact (congrArg entries hwhole).symm

/-- What was found first is found first among more entries. -/
theorem find?_append_of_isSome {p : α → Bool} {entries : List α}
    (h : (entries.find? p).isSome = true) (more : List α) :
    (entries ++ more).find? p = entries.find? p := by
  obtain ⟨entry, hentry⟩ := Option.isSome_iff_exists.mp h
  rw [List.find?_append, hentry, Option.some_or]

end Shelf

/-! ## Both lists -/

namespace Registry

/-- What the registry can be asked to do. -/
inductive Request where
  | registerBackend (backend : Backend)
  | backends
  /-- The backend of a name. -/
  | backend (name : String)
  /-- The rendition of a task by the backend of a name. -/
  | render (name : String) (task : Task) (config : Config)
  | registerReader (reader : SourceReader)
  | readers
  /-- The reader of a language. -/
  | language (name : String)
  /-- The reader of files with an extension. -/
  | extension (name : String)

/-- What the registry answers. -/
inductive Answer where
  | registered
  | backends (all : List Backend)
  | backend (found : Option Backend)
  | rendition (result : Except Failure String)
  | readers (all : List SourceReader)
  | reader (found : Option SourceReader)

namespace Request

/-- Whether the request looks for one entry. -/
def isLookup : Request → Bool
  | backend _ | language _ | extension _ => true
  | _ => false

/-- What the request does to the list of backends. -/
def onBackends : Request → Shelf.Use Backend
  | registerBackend entry => .register entry
  | backends | backend _ | render .. => .consult
  | _ => .ignore

/-- What the request does to the list of readers. -/
def onReaders : Request → Shelf.Use SourceReader
  | registerReader entry => .register entry
  | readers | language _ | extension _ => .consult
  | _ => .ignore

end Request

/-- Whether an entry was found. -/
def Answer.finds : Answer → Bool
  | backend found => found.isSome
  | reader found => found.isSome
  | _ => false

/-- The answer to a request. -/
def answer : Request → StateM Registry Answer
  | .registerBackend backend => do
    registerBackend backend
    return .registered
  | .backends => return .backends (← listBackends)
  | .backend name => return .backend (← backend? name)
  | .render name task config => return .rendition (← render name task config)
  | .registerReader reader => do
    registerReader reader
    return .registered
  | .readers => return .readers (← listReaders)
  | .language name => return .reader (← readerOfLanguage? name)
  | .extension name => return .reader (← readerOfExtension? name)

/-- The registry after a history of requests. -/
def after (history : List Request) (registry : Registry) : Registry :=
  history.foldl (fun registry request => ((answer request).run registry).2) registry

/-- The answer to a request after a history of requests. -/
def reply (history : List Request) (request : Request) : Answer :=
  ((answer request).run (after history {})).1

/-- What the list of backends shows after a history. -/
def backendsSeen (history : List Request) : List Backend :=
  Shelf.contents Backend.standard (history.map Request.onBackends)

/-- What the list of readers shows after a history. -/
def readersSeen (history : List Request) : List SourceReader :=
  Shelf.contents SourceReader.standard (history.map Request.onReaders)

/-- The rendition by the first backend of a name, if there is one. -/
def renderBy (backends : List Backend) (name : String) (task : Task) (config : Config) :
    Except Failure String :=
  match backends.find? fun backend => backend.name == name with
  | none => .error (.unknownBackend name)
  | some backend => (backend.render task config).mapError .unimplemented

theorem run_render (name : String) (task : Task) (config : Config) (registry : Registry) :
    (render name task config).run registry =
      (renderBy (registry.backends.stock Backend.standard).entries name task config,
        { registry with backends := registry.backends.stock Backend.standard }) := by
  have hrun : (backend? name).run registry =
      ((registry.backends.stock Backend.standard).entries.find? fun b => b.name == name,
        { registry with backends := registry.backends.stock Backend.standard }) := rfl
  rw [render, StateT.run_bind, hrun, renderBy]
  rcases hfound : (registry.backends.stock Backend.standard).entries.find? fun b => b.name == name
    with _ | backend
  · rw [hfound]
    rfl
  · rw [hfound]
    rfl

/-- A request for backends does to their list what it says, and no other request does anything. -/
theorem backends_answer (request : Request) (registry : Registry) :
    ((answer request).run registry).2.backends =
      registry.backends.use Backend.standard request.onBackends := by
  cases request with
  | render name task config => rw [answer, StateT.run_bind, run_render]; rfl
  | _ => rfl

/-- A request for readers does to their list what it says, and no other request does anything. -/
theorem readers_answer (request : Request) (registry : Registry) :
    ((answer request).run registry).2.readers =
      registry.readers.use SourceReader.standard request.onReaders := by
  cases request with
  | render name task config => rw [answer, StateT.run_bind, run_render]; rfl
  | _ => rfl

theorem backends_after (history : List Request) (registry : Registry) :
    (after history registry).backends =
      Shelf.after Backend.standard (history.map Request.onBackends) registry.backends := by
  induction history generalizing registry with
  | nil => rfl
  | cons first rest ih =>
    refine (ih _).trans ?_
    rw [backends_answer]
    rfl

theorem readers_after (history : List Request) (registry : Registry) :
    (after history registry).readers =
      Shelf.after SourceReader.standard (history.map Request.onReaders) registry.readers := by
  induction history generalizing registry with
  | nil => rfl
  | cons first rest ih =>
    refine (ih _).trans ?_
    rw [readers_answer]
    rfl

/-- The list of backends as a request finds it that consults it. -/
theorem stock_backends (history : List Request) :
    ((after history {}).backends.stock Backend.standard).entries = backendsSeen history := by
  rw [backends_after]
  exact congrArg Shelf.entries (Shelf.stock_after Backend.standard _ [])

/-- The list of readers as a request finds it that consults it. -/
theorem stock_readers (history : List Request) :
    ((after history {}).readers.stock SourceReader.standard).entries = readersSeen history := by
  rw [readers_after]
  exact congrArg Shelf.entries (Shelf.stock_after SourceReader.standard _ [])

/-- The answer to a request, from what the lists show. -/
def answerFrom (backends : List Backend) (readers : List SourceReader) : Request → Answer
  | .registerBackend _ | .registerReader _ => .registered
  | .backends => .backends backends
  | .backend name => .backend (backends.find? fun backend => backend.name == name)
  | .render name task config => .rendition (renderBy backends name task config)
  | .readers => .readers readers
  | .language name => .reader (readers.find? fun reader => reader.language == name)
  | .extension name => .reader (readers.find? fun reader => reader.extensions.contains name)

theorem reply_eq (history : List Request) (request : Request) :
    reply history request = answerFrom (backendsSeen history) (readersSeen history) request := by
  rw [← stock_backends, ← stock_readers, reply]
  cases request with
  | render name task config => rw [answer, StateT.run_bind, run_render]; rfl
  | _ => rfl

/-- A rendition fails for want of a rule only. -/
theorem mapError_ne_unknownBackend (result : Except Unimplemented String) (name : String) :
    result.mapError Failure.unimplemented ≠ .error (Failure.unknownBackend name) := by
  intro h
  rcases result with missing | text
  · exact absurd (Except.error.inj h) (by simp only [reduceCtorEq, not_false_eq_true])
  · cases h

/-- A name is unknown if and only if no backend has it. -/
theorem renderBy_eq_unknownBackend (backends : List Backend) (name : String) (task : Task)
    (config : Config) :
    (∃ other, renderBy backends name task config = .error (.unknownBackend other)) ↔
      ∀ backend ∈ backends, backend.name ≠ name := by
  have hnone : (backends.find? fun backend => backend.name == name) = none ↔
      ∀ backend ∈ backends, backend.name ≠ name := by
    simp only [List.find?_eq_none, beq_iff_eq]
  rw [← hnone, renderBy]
  rcases hfound : backends.find? fun backend => backend.name == name with _ | backend
  · simp only [hfound, Except.error.injEq, Failure.unknownBackend.injEq, exists_eq']
  · simp only [hfound, mapError_ne_unknownBackend, exists_false, reduceCtorEq]

/-- The backends seen when the list was consulted stay in front. -/
theorem backendsSeen_append (history later : List Request) {request : Request}
    (h : request.onBackends = .consult) : backendsSeen (history ++ request :: later) =
      backendsSeen history ++ (later.map Request.onBackends).filterMap Shelf.Use.entry? := by
  rw [backendsSeen, List.map_append, List.map_cons, h]
  exact Shelf.contents_append ..

/-- The readers seen when the list was consulted stay in front. -/
theorem readersSeen_append (history later : List Request) {request : Request}
    (h : request.onReaders = .consult) : readersSeen (history ++ request :: later) =
      readersSeen history ++ (later.map Request.onReaders).filterMap Shelf.Use.entry? := by
  rw [readersSeen, List.map_append, List.map_cons, h]
  exact Shelf.contents_append ..

/-- A lookup that found an entry finds the same one ever after: the lookup itself consults its list,
    so that later entries come behind those it looked through. -/
theorem reply_stable (history later : List Request) {request : Request}
    (hlookup : request.isLookup = true) (h : (reply history request).finds = true) :
    reply (history ++ request :: later) request = reply history request := by
  rw [reply_eq] at h
  rw [reply_eq, reply_eq]
  cases request with
  | backend name =>
    rw [backendsSeen_append history later rfl]
    exact congrArg Answer.backend (Shelf.find?_append_of_isSome h _)
  | language name =>
    rw [readersSeen_append history later rfl]
    exact congrArg Answer.reader (Shelf.find?_append_of_isSome h _)
  | extension name =>
    rw [readersSeen_append history later rfl]
    exact congrArg Answer.reader (Shelf.find?_append_of_isSome h _)
  | _ => cases hlookup

/-- The answers of the registry after every history. Each list shows the entries registered before
    it was first consulted, the standard ones, and those registered from then on. A lookup gives the
    first entry that matches, and once it found one it gives the same ever after. A rendition fails
    for an unknown backend if and only if no entry of the list has the name. -/
theorem reply_history (history : List Request) :
    (reply history .backends = .backends (backendsSeen history) ∧
      (∀ name, reply history (.backend name) =
        .backend ((backendsSeen history).find? fun backend => backend.name == name)) ∧
      (∀ name task config, reply history (.render name task config) =
          .rendition (renderBy (backendsSeen history) name task config) ∧
        ((∃ other, reply history (.render name task config) =
            .rendition (.error (.unknownBackend other))) ↔
          ∀ backend ∈ backendsSeen history, backend.name ≠ name)) ∧
      Backend.standard.map Backend.name = ["physl", "python", "sexpr"]) ∧
    (reply history .readers = .readers (readersSeen history) ∧
      (∀ name, reply history (.language name) =
        .reader ((readersSeen history).find? fun reader => reader.language == name)) ∧
      (∀ name, reply history (.extension name) =
        .reader ((readersSeen history).find? fun reader => reader.extensions.contains name)) ∧
      SourceReader.standard.map SourceReader.language = ["python"]) ∧
    ∀ request, request.isLookup = true → (reply history request).finds = true →
      ∀ later, reply (history ++ request :: later) request = reply history request := by
  refine ⟨⟨reply_eq .., fun _ => reply_eq .., fun name task config => ⟨reply_eq .., ?_⟩, rfl⟩,
    ⟨reply_eq .., fun _ => reply_eq .., fun _ => reply_eq .., rfl⟩,
    fun request hlookup h later => reply_stable history later hlookup h⟩
  rw [← renderBy_eq_unknownBackend (backendsSeen history) name task config, reply_eq]
  simp only [answerFrom, Answer.rendition.injEq]

/-- Two backends take the name of a standard one, the first before the list is consulted and the
    second afterwards: the first one has the name. -/
theorem reply_history_sexpr :
    let first : Backend := ⟨"sexpr", "txt", fun _ _ => .ok "first"⟩
    let second : Backend := ⟨"sexpr", "txt", fun _ _ => .ok "second"⟩
    let request : Request := .backend "sexpr"
    request.isLookup = true ∧ (reply [.registerBackend first] request).finds = true ∧
      reply ([.registerBackend first] ++ request :: [.registerBackend second, .readers]) request =
        .backend (some first) := by
  intro first second request
  obtain ⟨⟨-, hfirst, -⟩, -, hstable⟩ := reply_history [.registerBackend first]
  have hreply : reply [.registerBackend first] request = .backend (some first) :=
    (hfirst "sexpr").trans rfl
  have hfinds : (reply [.registerBackend first] request).finds = true := by rw [hreply]; rfl
  exact ⟨rfl, hfinds, (hstable request rfl hfinds _).trans hreply⟩

end Registry

end Rendition
