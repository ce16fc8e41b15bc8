import Rendition.Proofs.Physl.Sites

/-!
# What a rendition does to the scopes

A rendition adds names to the innermost scope and leaves everything else as it was, also when it
fails somewhere: what is opened on the way is closed again. When it succeeds, the names that it adds
are those that the tree defines.

The computations of a rendition are related to the tree by what they add, and by what an observer is
told: each rule below says it of one construction, so that the script of a node is followed step by
step.

## Main definitions

* `Physl.Log`, `Physl.replay`: The fragments that an observer is told of, and what it makes of them.
* `Physl.Adds`: What a computation adds to the innermost scope and tells an observer.
* `Physl.Explains`: Whether a fragment is what is expected at a site.

## Theorems

* `adds_script`: The script of a node adds what the node defines.
* `adds_visit`: So does the rendition of a tree, and an observer is told of the sites in order.
* `fragment_scopes`: A rendition changes the innermost scope alone.
-/

namespace Rendition.Physl

variable {σ α β : Type}

/-- The fragments that an observer is told of, with their positions. -/
abbrev Log := List (Position × String)

/-- What an observer makes of fragments, one after another. -/
def replay (note : Position → String → σ → σ) (entries : Log) (s : σ) : σ :=
  entries.foldl (fun s entry => note entry.1 entry.2 s) s

theorem replay_append (note : Position → String → σ → σ) (entries more : Log)
    (s : σ) : replay note (entries ++ more) s = replay note more (replay note entries s) :=
  List.foldl_append ..

theorem replay_silent (entries : Log) (s : σ) : replay silent entries s = s := by
  induction entries with
  | nil => rfl
  | cons entry rest ih => exact ih

theorem silent_setScopes [Scoping σ] (path : Position) (text : String) (a : Scopes) (s : σ) :
    silent path text (setScopes a s) = setScopes a (silent path text s) := rfl

section Adds

variable [Scoping σ] (note : Position → String → σ → σ)

/-- What a computation does where the given names are known in the innermost scope. It keeps the
    scopes around this one; it adds some of the names to it, and all of them if it succeeds; and it
    tells the observer fragments of which something holds if it succeeds. -/
def Adds (x : Walk σ α) (known names : Finset String)
    (holds : Log → α → Prop) : Prop :=
  ∀ (s : σ) (scope : List String) (outer : Scopes), scopes s = scope :: outer →
    scope.toFinset = known → ∃ entries scope',
      (x.run.run s).2 = setScopes (scope' :: outer) (replay note entries s) ∧
      known ⊆ scope'.toFinset ∧ scope'.toFinset ⊆ known ∪ names ∧
      ∀ a, (x.run.run s).1 = .ok a → scope'.toFinset = known ∪ names ∧ holds entries a

variable {note} {known names names' : Finset String}
  {holds : Log → α → Prop} {holds' : Log → β → Prop}

theorem Adds.pure {a : α} (h : holds [] a) : Adds note (pure a : Walk σ α) known ∅ holds := by
  intro s scope outer hscopes hknown
  refine ⟨[], scope, ?_, hknown.superset, ?_, fun b hb => ⟨?_, ?_⟩⟩
  · rw [Walk.run_pure, ← hscopes]
    exact (Scoping.setScopes_scopes s).symm
  · rw [hknown, Finset.union_empty]
  · rw [hknown, Finset.union_empty]
  · rw [Walk.run_pure, Except.ok.injEq] at hb
    rw [← hb]
    exact h

theorem Adds.throw (e : Unimplemented) :
    Adds note (throwThe Unimplemented e : Walk σ α) known names holds := by
  intro s scope outer hscopes hknown
  refine ⟨[], scope, ?_, hknown.superset, ?_, fun b hb => by cases hb⟩
  · rw [Walk.run_throw, ← hscopes]
    exact (Scoping.setScopes_scopes s).symm
  · rw [hknown]
    exact Finset.subset_union_left

/-- The names are what matters, not how they are given. -/
theorem Adds.congr {x : Walk σ α} (h : Adds note x known names holds) (hnames : names = names')
    {more : Log → α → Prop} (hholds : ∀ entries a, holds entries a → more entries a) :
    Adds note x known names' more := by
  subst hnames
  intro s scope outer hscopes hknown
  obtain ⟨entries, scope', hstate, hlower, hupper, hok⟩ := h s scope outer hscopes hknown
  refine ⟨entries, scope', hstate, hlower, hupper, fun a ha => ?_⟩
  exact ⟨(hok a ha).1, hholds entries a (hok a ha).2⟩

variable (hnote : ∀ path text a s, note path text (setScopes a s) = setScopes a (note path text s))

include hnote

theorem replay_setScopes (a : Scopes) : ∀ (entries : Log) (s : σ),
    replay note entries (setScopes a s) = setScopes a (replay note entries s) := by
  intro entries
  induction entries with
  | nil => exact fun s => rfl
  | cons entry rest ih =>
    intro s
    simp only [replay, List.foldl_cons, hnote] at ih ⊢
    exact ih _

theorem scopes_replay (entries : Log) (s : σ) :
    scopes (replay note entries s) = scopes s := by
  have h := replay_setScopes hnote (scopes s) entries s
  rw [Scoping.setScopes_scopes] at h
  rw [h, Scoping.scopes_setScopes]

theorem Adds.bind {x : Walk σ α} {f : α → Walk σ β} (hx : Adds note x known names holds)
    (hf : ∀ entries a, holds entries a → Adds note (f a) (known ∪ names) names'
      fun more b => holds' (entries ++ more) b) :
    Adds note (x >>= f) known (names ∪ names') holds' := by
  intro s scope outer hscopes hknown
  obtain ⟨entries, scope', hstate, hlower, hupper, hok⟩ := hx s scope outer hscopes hknown
  rw [Walk.run_bind]
  rcases hrun : x.run.run s with ⟨e | a, s'⟩
  · rw [hrun] at hstate
    refine ⟨entries, scope', hstate, hlower, ?_, fun b hb => by cases hb⟩
    exact hupper.trans (Finset.union_subset_union_right Finset.subset_union_left)
  · rw [hrun] at hstate hok
    obtain ⟨hscope', hholds⟩ := hok a rfl
    simp only at hstate
    have hscopes' : scopes s' = scope' :: outer := by
      rw [hstate, Scoping.scopes_setScopes]
    obtain ⟨more, scope'', hstate', hlower', hupper', hok'⟩ :=
      hf entries a hholds s' scope' outer hscopes' hscope'
    refine ⟨entries ++ more, scope'', ?_, ?_, ?_, fun b hb => ?_⟩
    · simp only
      rw [hstate', hstate, replay_setScopes hnote, Scoping.setScopes_setScopes, replay_append]
    · exact Finset.subset_union_left.trans hlower'
    · rw [← Finset.union_assoc]
      exact hupper'
    · rw [← Finset.union_assoc]
      exact hok' b hb

omit hnote in
/-- A name that is declared is new unless it is known. -/
theorem Adds.declare (name : String) : Adds note (declare name : Walk σ Bool) known {name}
    fun entries fresh => entries = [] ∧ fresh = decide (name ∉ known) := by
  intro s scope outer hscopes hknown
  subst hknown
  by_cases hmem : name ∈ scope
  · have hunion : scope.toFinset = scope.toFinset ∪ {name} := by
      rw [Finset.union_comm, ← Finset.insert_eq,
        Finset.insert_eq_of_mem (List.mem_toFinset.mpr hmem)]
    rw [run_declare_of_mem hscopes hmem]
    refine ⟨[], scope, ?_, Finset.Subset.refl _, hunion.subset,
      fun fresh hfresh => ⟨hunion, rfl, ?_⟩⟩
    · rw [← hscopes]
      exact (Scoping.setScopes_scopes s).symm
    · obtain rfl := Except.ok.inj hfresh
      exact (decide_eq_false (not_not_intro (List.mem_toFinset.mpr hmem))).symm
  · have hnew : name ∉ scope.toFinset := fun h => hmem (List.mem_toFinset.mp h)
    have hinsert : (name :: scope).toFinset = scope.toFinset ∪ {name} := by
      rw [List.toFinset_cons, Finset.insert_eq, Finset.union_comm]
    rw [run_declare_of_not_mem hscopes hmem]
    refine ⟨[], name :: scope, rfl, ?_, hinsert.subset, fun fresh hfresh => ⟨hinsert, rfl, ?_⟩⟩
    · rw [hinsert]
      exact Finset.subset_union_left
    · obtain rfl := Except.ok.inj hfresh
      exact (decide_eq_true hnew).symm

/-- A function of its own adds nothing to the scope around it. -/
theorem Adds.inScope {x : Walk σ α} (params : List String)
    (hx : Adds note x params.toFinset names holds) :
    Adds note (inScope params x) known ∅ holds := by
  intro s scope outer hscopes hknown
  rw [run_inScope]
  have hopened : scopes (changeScopes (params :: ·) s) = params :: scope :: outer := by
    rw [changeScopes, Scoping.scopes_setScopes, hscopes]
  obtain ⟨entries, scope', hstate, -, -, hok⟩ := hx _ params (scope :: outer) hopened rfl
  refine ⟨entries, scope, ?_, hknown.superset, ?_, fun a ha => ⟨?_, (hok a ha).2⟩⟩
  · simp only
    rw [hstate, changeScopes, Scoping.scopes_setScopes, Scoping.setScopes_setScopes, changeScopes,
      replay_setScopes hnote, Scoping.setScopes_setScopes]
    rfl
  · rw [hknown, Finset.union_empty]
  · rw [hknown, Finset.union_empty]

/-- The variable of a loop is forgotten again, unless it was known before. -/
theorem Adds.withVariable {x : Walk σ α} (name : String)
    (hx : Adds note x (insert name known) names holds) :
    Adds note (withVariable name x) known (names.erase name) holds := by
  intro s scope outer hscopes hknown
  subst hknown
  rw [Physl.withVariable, Walk.run_bind]
  by_cases hmem : name ∈ scope
  · have hinsert : insert name scope.toFinset = scope.toFinset :=
      Finset.insert_eq_of_mem (List.mem_toFinset.mpr hmem)
    have hnames : scope.toFinset ∪ names = scope.toFinset ∪ names.erase name := by
      ext other
      by_cases hother : other = name <;> simp [hother, hmem]
    rw [hinsert] at hx
    rw [run_declare_of_mem hscopes hmem]
    obtain ⟨entries, scope', hstate, hlower, hupper, hok⟩ := hx s scope outer hscopes rfl
    simp only [Bool.false_eq_true, if_false, run_andThen, changeScopes, id_eq,
      Scoping.setScopes_scopes]
    rw [← hnames]
    exact ⟨entries, scope', hstate, hlower, hupper, hok⟩
  · rw [run_declare_of_not_mem hscopes hmem]
    obtain ⟨entries, scope', hstate, hlower, hupper, hok⟩ :=
      hx (setScopes ((name :: scope) :: outer) s) (name :: scope) outer
        (Scoping.scopes_setScopes _ _) (List.toFinset_cons ..)
    have hforget : (scope'.filter (· != name)).toFinset = scope'.toFinset.erase name := by
      ext other
      simp [and_comm]
    have hbody : (insert name scope.toFinset ∪ names).erase name =
        scope.toFinset ∪ names.erase name := by
      ext other
      by_cases hother : other = name
      · subst hother
        simp [hmem]
      · simp [hother]
    simp only [if_true, run_andThen]
    refine ⟨entries, scope'.filter (· != name), ?_, ?_, ?_, fun a ha => ⟨?_, (hok a ha).2⟩⟩
    · rw [hstate, changeScopes, Scoping.scopes_setScopes, Scoping.setScopes_setScopes,
        replay_setScopes hnote, Scoping.setScopes_setScopes]
      rfl
    · rw [hforget]
      intro other hother
      refine Finset.mem_erase.mpr ⟨?_, hlower (Finset.mem_insert_of_mem hother)⟩
      rintro rfl
      exact hmem (List.mem_toFinset.mp hother)
    · rw [hforget, ← hbody]
      exact Finset.erase_subset_erase name hupper
    · rw [hforget, ← hbody, (hok a ha).1]

/-- The observer is told of a fragment. -/
theorem Adds.told (path : Position) (text : String) :
    Adds note (modify (note path text) : Walk σ PUnit) known ∅
      fun entries _ => entries = [(path, text)] := by
  intro s scope outer hscopes hknown
  rw [Walk.run_modify]
  have hkeep : setScopes (scope :: outer) (replay note [(path, text)] s) = note path text s := by
    rw [← hscopes, ← scopes_replay hnote [(path, text)] s, Scoping.setScopes_scopes]
    rfl
  refine ⟨[(path, text)], scope, hkeep.symm, hknown.superset, ?_, fun _ _ => ⟨?_, rfl⟩⟩
  · rw [hknown, Finset.union_empty]
  · rw [hknown, Finset.union_empty]

/-- Each part is rendered where the parts before it have added their names. -/
theorem Adds.all {V : Position × Tree → Visit (Walk σ) String}
    {expected : Position × Tree → List Site} {R : Site → Position × String → Prop} :
    ∀ (ps : List (Position × Tree)) {known : Finset String},
      (∀ j part, ps[j]? = some part →
        Adds note (V part).run (known ∪ assignedAll ((ps.take j).map Prod.snd)) (assigned part.2)
          fun entries _ => List.Forall₂ R (expected part) entries) →
      Adds note (runAll (ps.map V)) known (assignedAll (ps.map Prod.snd))
        fun entries _ => List.Forall₂ R (ps.flatMap expected) entries := by
  intro ps
  induction ps with
  | nil =>
    intro known _
    rw [List.map_nil, runAll_nil]
    exact .pure .nil
  | cons part rest ih =>
    intro known h
    rw [List.map_cons, runAll_cons, List.map_cons, assignedAll_cons]
    have hpart := h 0 part rfl
    rw [List.take_zero, List.map_nil, assignedAll_nil, Finset.union_empty] at hpart
    refine hpart.bind hnote fun entries text hentries => ?_
    have hrest : Adds note (runAll (rest.map V)) (known ∪ assigned part.2)
        (assignedAll (rest.map Prod.snd))
        fun more _ => List.Forall₂ R (rest.flatMap expected) more := by
      refine ih fun j other hother => ?_
      have hlater := h (j + 1) other hother
      rwa [List.take_succ_cons, List.map_cons, assignedAll_cons, ← Finset.union_assoc] at hlater
    have hall : Adds note (runAll (rest.map V) >>= fun texts => Pure.pure (text :: texts))
        (known ∪ assigned part.2) (assignedAll (rest.map Prod.snd) ∪ ∅) fun more _ =>
          List.Forall₂ R ((part :: rest).flatMap expected) (entries ++ more) := by
      refine hrest.bind hnote fun more texts hmore => .pure ?_
      rw [List.append_nil, List.flatMap_cons]
      exact List.rel_append hentries hmore
    exact hall.congr (Finset.union_empty _) fun _ _ h => h

end Adds

/-- Assigning to something else than a name is not declaring one. -/
theorem assemble_eq_none {node : Node Tree} (h : declines node = true) (annotate fresh : Bool)
    (span : Span) (texts : List String) : assemble annotate fresh span texts node = none := by
  cases node with
  | assign target value =>
    rcases target with ⟨tspan, tnode⟩
    cases tnode with
    | ident id => cases h
    | subscript a b => cases h
    | _ => rfl
  | unaryOp op operand =>
    cases op with
    | invert => rfl
    | _ => cases h
  | _ => cases h

instance (place : Place) (id : String) (value : Tree) : Decidable (place.defines id value) :=
  inferInstanceAs (Decidable (_ ∧ _))

/-- What is expected of the fragment of a site: an assignment to a name defines the name there or
    stores to it. -/
def Explains (annotate : Bool) (site : Site) (entry : Position × String) : Prop :=
  entry.1 = site.path ∧ ∀ target value id, site.tree.node = .assign target value →
    target.node = .ident id → ∃ text, entry.2 =
      apply annotate (assignment (site.place.defines id value)) site.tree.span
        [tag annotate id target.span, text]

section Visit

variable [Scoping σ] {note : Position → String → σ → σ}
  (hnote : ∀ path text a s, note path text (setScopes a s) = setScopes a (note path text s))
  (annotate : Bool)

theorem binding_eq_name {node : Node Tree} {id : String} :
    binding node = .name id ↔ ∃ target value, node = .assign target value ∧
      target.node = .ident id := by
  cases node with
  | assign target value =>
    rcases target with ⟨tspan, tnode⟩
    cases tnode <;> simp [binding]
  | forLoop target iter body =>
    rcases target with ⟨tspan, tnode⟩
    cases tnode <;> simp [binding]
  | _ => simp [binding]

theorem explains_of_binding {node : Node Tree} (h : ∀ id, binding node ≠ .name id) (span : Span)
    (place : Place) (path : Position) (text : String) :
    Explains annotate ⟨path, .mk span node, place⟩ (path, text) := by
  refine ⟨rfl, fun target value id hnode hid => ?_⟩
  exact absurd (binding_eq_name.mpr ⟨target, value, hnode, hid⟩) (h id)

/-- What is to be shown of the script of a node. -/
def Fits (annotate : Bool) (place : Place) (path : Position) (span : Span) (node : Node Tree)
    (expected : List Site) (entries : Log) (fragment : Option String) : Prop :=
  List.Forall₂ (Explains annotate) expected entries ∧ ∀ text, fragment = some text →
    declines node = false ∧ Explains annotate ⟨path, .mk span node, place⟩ (path, text)

section Script

variable (place : Place) (path : Position) (span : Span) {node : Node Tree}
  {expected : List Site} {known names : Finset String}

theorem fits_assemble (h : ∀ id, binding node ≠ .name id) {entries : Log}
    (hentries : List.Forall₂ (Explains annotate) expected entries) (texts : List String) :
    Fits annotate place path span node expected entries
      (assemble annotate false span texts node) := by
  refine ⟨hentries, fun text htext => ⟨?_, explains_of_binding annotate h span place path text⟩⟩
  rcases hdeclines : declines node with _ | _
  · rfl
  · rw [assemble_eq_none hdeclines] at htext
    cases htext

include hnote in
/-- After the parts are rendered their texts are put together, which adds nothing. -/
theorem adds_assemble (h : ∀ id, binding node ≠ .name id) {x : Walk σ (List String)}
    (hx : Adds note x known names fun entries _ =>
      List.Forall₂ (Explains annotate) expected entries) :
    Adds note (x >>= fun texts => pure (assemble annotate false span texts node)) known names
      (Fits annotate place path span node expected) := by
  have hall : Adds note (x >>= fun texts => pure (assemble annotate false span texts node)) known
      (names ∪ ∅) (Fits annotate place path span node expected) := by
    refine hx.bind hnote fun entries texts hentries => .pure ?_
    rw [List.append_nil]
    exact fits_assemble annotate place path span h hentries texts
  exact hall.congr (Finset.union_empty _) fun _ _ h => h

end Script

include hnote in
/-- The script of a node adds what the node defines, and its fragment is what is expected. -/
theorem adds_script {V : Position × Tree → Visit (Walk σ) String} {place : Place} {path : Position}
    (span : Span) {node : Node Tree} (hrefuses : refuses node = false)
    {expected : Position × Tree → List Site}
    (h : ∀ part ∈ parts node, Adds note (V part).run
      (place.descend path (.mk span node) part.1).known (assigned part.2)
        fun entries _ => List.Forall₂ (Explains annotate) (expected part) entries) :
    Adds note (script annotate span node ((parts node).map V)) place.known (definedBy node)
      (Fits annotate place path span node ((parts node).flatMap expected)) := by
  have hindex : ∀ j part, (parts node)[j]? = some part → Adds note (V part).run
      (place.base node j ∪ assignedAll (((parts node).take j).map Prod.snd)) (assigned part.2)
        fun entries _ => List.Forall₂ (Explains annotate) (expected part) entries := by
    intro j part hj
    rw [← Place.known_parts place path span hrefuses hj]
    exact h part (List.mem_of_getElem? hj)
  simp only [script, hrefuses, Bool.false_eq_true, if_false]
  rcases hbinding : binding node with _ | ⟨name, params⟩ | params | name | id <;>
    simp only [definedBy, hbinding]
  case none =>
    simp only [Place.base, hbinding] at hindex
    exact adds_assemble hnote annotate place path span (by simp [hbinding]) (Adds.all hnote _ hindex)
  case function =>
    simp only [Place.base, hbinding] at hindex
    have hbody : Adds note (declare name >>= fun _ => inScope params (runAll ((parts node).map V)))
        place.known ({name} ∪ ∅) fun entries _ =>
          List.Forall₂ (Explains annotate) ((parts node).flatMap expected) entries := by
      refine (Adds.declare name).bind hnote fun entries _ hentries => ?_
      rw [hentries.1]
      exact (Adds.all hnote _ hindex).inScope hnote params
    rw [← bind_assoc]
    exact adds_assemble hnote annotate place path span (by simp [hbinding])
      (hbody.congr (Finset.union_empty _) fun _ _ h => h)
  case lambda =>
    simp only [Place.base, hbinding] at hindex
    exact adds_assemble hnote annotate place path span (by simp [hbinding])
      ((Adds.all hnote _ hindex).inScope hnote params)
  case loop =>
    obtain ⟨iter, body, hparts⟩ := parts_of_loop hbinding
    simp only [Place.base, hbinding, hparts] at hindex
    have hiter : Adds note (V ([1], iter)).run place.known (assigned iter) fun entries _ =>
        List.Forall₂ (Explains annotate) (expected ([1], iter)) entries := by
      simpa using hindex 0 _ rfl
    have hbody : Adds note (runAll ((below [] 2 body).map V))
        (insert name (place.known ∪ assigned iter)) (assignedAll body) fun entries _ =>
          List.Forall₂ (Explains annotate) ((below [] 2 body).flatMap expected) entries := by
      refine (Adds.all hnote (below [] 2 body) fun j part hj => ?_).congr
        (by rw [map_snd_below]) fun _ _ h => h
      simpa [Finset.insert_union, Finset.union_assoc] using hindex (j + 1) part hj
    have hloop : Adds note ((V ([1], iter)).run >>= fun text =>
        withVariable name (runAll ((below [] 2 body).map V)) >>= fun texts =>
          pure (text :: texts)) place.known (assigned iter ∪ ((assignedAll body).erase name ∪ ∅))
        fun entries _ => List.Forall₂ (Explains annotate)
          ((parts node).flatMap expected) entries := by
      refine hiter.bind hnote fun entries text hentries => ?_
      refine (hbody.withVariable hnote name).bind hnote fun more texts hmore => .pure ?_
      rw [List.append_nil, hparts, List.flatMap_cons]
      exact List.rel_append hentries hmore
    have hplain : ∀ id, binding node ≠ .name id := by simp [hbinding]
    have hall := adds_assemble hnote annotate place path span hplain hloop
    simpa [hparts, map_snd_below] using hall
  case name =>
    obtain ⟨target, value, rfl, hid⟩ := binding_eq_name.mp hbinding
    simp only [Place.base, hbinding] at hindex
    have hnames : assignedAll ((parts (.assign target value)).map Prod.snd) ∪ ({id} ∪ ∅) =
        insert id (assignedAll ((parts (.assign target value)).map Prod.snd)) := by
      rw [Finset.union_empty, Finset.union_comm, ← Finset.insert_eq]
    refine Adds.congr ?_ hnames fun _ _ h => h
    refine (Adds.all hnote _ hindex).bind hnote fun entries texts hentries => ?_
    refine (Adds.declare id).bind hnote fun more fresh hmore => .pure ?_
    obtain ⟨rfl, rfl⟩ := hmore
    rw [List.append_nil, List.append_nil]
    refine ⟨hentries, fun text htext => ⟨by rw [declines, isVariable, hid]; rfl, rfl, ?_⟩⟩
    rintro target' value' id' hnode hid'
    obtain ⟨rfl, rfl⟩ : target = target' ∧ value = value' := by simpa using hnode
    obtain rfl : id = id' := by simpa [hid] using hid'
    rcases texts with _ | ⟨valueText, rest⟩
    · simp [assemble, hid] at htext
    have hnew : id ∉ place.known ∪ assignedAll ((parts (.assign target value)).map Prod.snd) ↔
        place.defines id value := by
      simp [parts, element, hid, Place.defines]
    simp only [assemble, hid, Option.some.injEq, decide_eq_decide.mpr hnew] at htext
    exact ⟨valueText, htext.symm⟩

include hnote in
/-- The observer is told of a fragment after what lies below it. -/
theorem adds_noting {x : Walk σ String} {known names : Finset String} {path : Position}
    {holds holds' : Log → String → Prop} (hx : Adds note x known names holds)
    (h : ∀ entries text, holds entries text → holds' (entries ++ [(path, text)]) text) :
    Adds note (noting note path x) known names holds' := by
  have hall : Adds note (noting note path x) known (names ∪ (∅ ∪ ∅)) holds' := by
    refine hx.bind hnote fun entries text hentries => ?_
    refine (Adds.told hnote path text).bind hnote fun more _ hmore => .pure ?_
    rw [hmore, List.append_nil]
    exact h entries text hentries
  exact hall.congr (by simp) fun _ _ h => h

include hnote in
/-- A node that is refused adds less than it defines. -/
theorem adds_settle {x : Walk σ (Option String)} {place : Place} {path : Position} {span : Span}
    {node : Node Tree} {expected : List Site} (e : Unimplemented) (hrefuses : refuses node = false)
    (hx : Adds note x place.known (definedBy node) (Fits annotate place path span node expected)) :
    Adds note (x >>= fun fragment => fragment.elim (throwThe Unimplemented e) pure) place.known
      (assigned (.mk span node)) fun entries text =>
        List.Forall₂ (Explains annotate) expected entries ∧
          Explains annotate ⟨path, .mk span node, place⟩ (path, text) := by
  have hnames := Finset.union_sdiff_of_subset (definedBy_subset span hrefuses)
  refine Adds.congr ?_ hnames fun _ _ h => h
  refine hx.bind hnote fun entries fragment hentries => ?_
  rcases fragment with _ | text
  · exact .throw e
  · obtain ⟨hdeclines, hexplains⟩ := hentries.2 text rfl
    rw [definedBy_eq span hrefuses hdeclines, Finset.sdiff_self]
    refine .pure ?_
    rw [List.append_nil]
    exact ⟨hentries.1, hexplains⟩

include hnote in
/-- The rendition of a tree adds what the tree defines. The observer is told of its sites, in order,
    and of fragments that are what is expected there. -/
theorem adds_visit (t : Tree) : ∀ (place : Place) (path : Position),
    Adds note (t.visitAt (rule annotate) (noting note) path).run place.known (assigned t)
      fun entries _ => List.Forall₂ (Explains annotate) (sites place path t) entries := by
  induction t using partsInduction with
  | step span node ih =>
    intro place path
    rw [Tree.visitAt_run, Rule.apply_eq, rule_eq_script annotate _ (Tree.visitAt_span _ _)
      (Tree.visitAt_node _ _), sites_mk]
    rcases hrefuses : refuses node with _ | _
    case true =>
      simp only [script, hrefuses, if_true, pure_bind]
      have hthrow : ∀ e, Adds note (throwThe Unimplemented e : Walk σ String) place.known
          (assigned (.mk span node)) fun _ _ => False := fun e => .throw e
      exact adds_noting hnote (hthrow _) fun _ _ h => h.elim
    have hscript := adds_script hnote annotate span hrefuses fun part hpart =>
      ih part hpart (place.descend path (.mk span node) part.1) (path ++ part.1)
    refine adds_noting hnote (adds_settle hnote annotate _ hrefuses hscript)
      fun entries text hentries => ?_
    exact List.rel_append hentries.1 (.cons hentries.2 .nil)

end Visit

/-- Whatever becomes of a rendition, it changes the innermost scope alone. It adds names that the
    tree defines, and all of them if it succeeds. -/
theorem fragment_scopes (t : Tree) (s : State) (scope : List String) (outer : Scopes)
    (h : s.scopes = scope :: outer) :
    ∃ scope', ((renderer.fragment t).run.run s).2 = { s with scopes := scope' :: outer } ∧
      scope.toFinset ⊆ scope'.toFinset ∧ scope'.toFinset ⊆ scope.toFinset ∪ assigned t ∧
      ∀ text, ((renderer.fragment t).run.run s).1 = .ok text →
        scope'.toFinset = scope.toFinset ∪ assigned t := by
  have hadds := adds_visit silent_setScopes s.annotate t (.top scope) [] s scope outer h
    (Place.known_top scope).symm
  have hrender : (t.visitAt (rule s.annotate : Rule (Walk State) String) (noting silent) []).run =
      t.render (rule s.annotate) := t.observe_silent (rule s.annotate)
  rw [run_fragment, ← hrender, ← Place.known_top]
  obtain ⟨entries, scope', hstate, hlower, hupper, hok⟩ := hadds
  rw [replay_silent] at hstate
  exact ⟨scope', hstate, hlower, hupper, fun text htext => (hok text htext).1⟩

/-- An assignment before a failure, inside a function with a parameter. -/
theorem fragment_scopes_breakStmt :
    ∃ scope', ((renderer.fragment (.mk ⟨1, 1⟩ (.moduleDef [
        .mk ⟨1, 1⟩ (.assign (.mk ⟨1, 1⟩ (.ident "x")) (.mk ⟨1, 5⟩ (.constant .none))),
        .mk ⟨2, 1⟩ .breakStmt]))).run.run ⟨false, [["a"], ["f"]], ""⟩).2 =
          ⟨false, [scope', ["f"]], ""⟩ ∧ ["a"].toFinset ⊆ scope'.toFinset := by
  obtain ⟨scope', hstate, hlower, -⟩ :=
    fragment_scopes _ ⟨false, [["a"], ["f"]], ""⟩ ["a"] [["f"]] rfl
  exact ⟨scope', hstate, hlower⟩

end Rendition.Physl
