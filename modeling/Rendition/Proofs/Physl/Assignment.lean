import Rendition.Proofs.Physl.Mirror
import Rendition.Proofs.Rendering.Related

/-!
# Definitions and stores

The first assignment to a name in a function is rendered as a definition and every other one as a
store. Which is the first does not have to be found out by running the rendition: it is read off the
place of the assignment.

## Main definitions

* `Physl.Headed`: Whether a text applies the given primitive.
* `Physl.AssignsAt`: Whether the tree at a position assigns to the name.

## Theorems

* `define_ne_store`: No text is both.
* `assignment_fragments`: The fragment of an assignment is a definition if its place says so.
-/

namespace Rendition.Physl

/-- A text applies the primitive. -/
def Headed (annotate : Bool) (primitive text : String) : Prop :=
  ∃ span args, text = apply annotate primitive span args

theorem apply_eq_append (annotate : Bool) (primitive : String) (span : Span) (args : List String) :
    ∃ rest, apply annotate primitive span args = primitive ++ rest := by
  rw [apply, tag]
  split <;> exact ⟨_, by simp only [String.append_assoc]; rfl⟩

/-- No text applies both primitives of assignments. -/
theorem define_ne_store (annotate : Bool) {text : String} (hdefine : Headed annotate "define" text) :
    ¬ Headed annotate "store" text := by
  rintro ⟨span', args', hstore⟩
  obtain ⟨span, args, rfl⟩ := hdefine
  obtain ⟨rest, hdefine⟩ := apply_eq_append annotate "define" span args
  obtain ⟨rest', hstore'⟩ := apply_eq_append annotate "store" span' args'
  rw [hdefine, hstore'] at hstore
  have hfirst := congrArg (fun text : String => text.toList.head?) hstore
  simp at hfirst

/-- The tree at a position assigns to the name. -/
def AssignsAt (t : Tree) (path : Position) (id : String) : Prop :=
  ∃ u value, t.descend? path = some u ∧ assignment? u = some (id, value)

section Forall₂

variable {α β : Type} {R : α → β → Prop} {as : List α} {bs : List β}

theorem pairwise_of_forall₂ {P : α → α → Prop} {Q : β → β → Prop} (h : List.Forall₂ R as bs)
    (hpairs : as.Pairwise P) (hPQ : ∀ a a' b b', R a b → R a' b' → P a a' → Q b b') :
    bs.Pairwise Q := by
  induction h with
  | nil => exact .nil
  | cons hfirst hrest ih =>
    obtain ⟨hbefore, hpairs⟩ := List.pairwise_cons.mp hpairs
    refine List.pairwise_cons.mpr ⟨fun b' hb' => ?_, ih hpairs⟩
    obtain ⟨a', ha', hab'⟩ := exists_of_forall₂ hrest.flip hb'
    exact hPQ _ a' _ b' hfirst hab' (hbefore a' ha')

end Forall₂

/-- The fragment of an assignment to a name applies one of the two primitives. -/
theorem headed_of_explains {annotate : Bool} {site : Site} {entry : Position × String}
    (h : Explains annotate site entry) {id : String} {value : Tree}
    (hassign : assignment? site.tree = some (id, value)) :
    (Headed annotate "define" entry.2 ↔ site.place.defines id value) ∧
      (¬ Headed annotate "define" entry.2 → Headed annotate "store" entry.2) := by
  obtain ⟨target, hnode, hid⟩ := assignment_eq_some.mp hassign
  obtain ⟨text, htext⟩ := h.2 target value id hnode hid
  by_cases hdefines : site.place.defines id value
  · have hhead : Headed annotate "define" entry.2 := by
      simp only [hdefines, decide_true, assignment, if_true] at htext
      exact ⟨_, _, htext⟩
    exact ⟨⟨fun _ => hdefines, fun _ => hhead⟩, fun h => absurd hhead h⟩
  · have hhead : Headed annotate "store" entry.2 := by
      simp only [hdefines, decide_false, assignment, Bool.false_eq_true, if_false] at htext
      exact ⟨_, _, htext⟩
    refine ⟨⟨fun hdefine => ?_, fun h => absurd h hdefines⟩, fun _ => hhead⟩
    exact absurd hhead (define_ne_store annotate hdefine)

/-- A site of a tree on its own is where its position leads. -/
theorem site_of_mem {t : Tree} {place : Place} {site : Site} (h : site ∈ sites place [] t) :
    t.descend? site.path = some site.tree ∧ site.place = place.descend [] t site.path := by
  obtain ⟨rest, htree, hpath, hplace⟩ := mem_sites t h
  obtain rfl : site.path = rest := hpath
  exact ⟨htree, hplace⟩

theorem replay_logging {σ : Type} (entries : Log) : ∀ (s : σ) (log : Log),
    replay logging entries (s, log) = (s, log ++ entries) := by
  induction entries with
  | nil => intro s log; rw [List.append_nil]; rfl
  | cons entry rest ih =>
    intro s log
    have hrest := ih s (log ++ [entry])
    rw [List.append_assoc, List.singleton_append] at hrest
    exact hrest

theorem refusal_of_fragment {t : Tree} {s : State} {text : String}
    (h : ((renderer.fragment t).run.run s).1 = .ok text) : refusal t = none := by
  have hanswer := answers_render s.annotate t s
  rw [← run_fragment, h] at hanswer
  rcases hrefusal : refusal t with _ | e
  · rfl
  · rw [hrefusal] at hanswer
    cases hanswer

/-- A rendition that succeeds has a log of its sites. -/
theorem logged_fragment {t : Tree} {s : State} {scope : List String} {outer : Scopes}
    {text : String} (hscopes : s.scopes = scope :: outer)
    (h : ((renderer.fragment t).run.run s).1 = .ok text) :
    ∃ log : Log, (t.observe (rule s.annotate) logging).run.run (s, []) =
        (.ok text, (((renderer.fragment t).run.run s).2, log)) ∧
      List.Forall₂ (Explains s.annotate) (sites (.top scope) [] t) log := by
  obtain ⟨entries, scope', hstate, -, -, hok⟩ := adds_visit
    (fun path text a (s : State × Log) => logging_setScopes path text a s) s.annotate t
    (.top scope) [] (s, []) scope outer hscopes (Place.known_top scope).symm
  have hlogged := run_logged s.annotate t s []
  rw [run_fragment] at h ⊢
  rw [hlogged] at h ⊢
  rw [Tree.observe] at h ⊢
  rcases hrun : (t.visitAt (rule s.annotate) (noting logging) []).run.run.run (s, []) with
    ⟨result, s', log⟩
  rw [hrun] at h hstate hok
  obtain rfl : result = .ok text := h
  obtain rfl : log = entries := by
    have hlog := congrArg Prod.snd hstate
    rw [replay_logging] at hlog
    exact hlog
  exact ⟨log, rfl, (hok text rfl).2⟩

/-- The fragments of a rendition that succeeds, in the order in which they are complete. An
    assignment to a name has one: a definition if its place says that the name is new, and a store
    otherwise. After a definition all other assignments to the name in the same function are
    stores. -/
theorem assignment_fragments (t : Tree) (s : State) (scope : List String) (outer : Scopes)
    (text : String) (hscopes : s.scopes = scope :: outer)
    (h : ((renderer.fragment t).run.run s).1 = .ok text) :
    ∃ log : Log,
      (t.observe (rule s.annotate) logging).run.run (s, []) =
        (.ok text, (((renderer.fragment t).run.run s).2, log)) ∧
      (log.map Prod.fst).Nodup ∧
      (∀ path u id value, t.descend? path = some u → assignment? u = some (id, value) →
        ∃ fragment, (path, fragment) ∈ log ∧
          (Headed s.annotate "define" fragment ↔
            ((Place.top scope).descend [] t path).defines id value) ∧
          (¬ Headed s.annotate "define" fragment → Headed s.annotate "store" fragment)) ∧
      log.Pairwise fun earlier later => ∀ id, AssignsAt t earlier.1 id → AssignsAt t later.1 id →
        ((Place.top scope).descend [] t earlier.1).owner =
            ((Place.top scope).descend [] t later.1).owner →
          Headed s.annotate "define" earlier.2 → Headed s.annotate "store" later.2 := by
  have hrefusal := refusal_of_fragment h
  obtain ⟨log, hrun, hlog⟩ := logged_fragment hscopes h
  refine ⟨log, hrun, ?_, ?_, ?_⟩
  · rw [List.Nodup, List.pairwise_map]
    refine pairwise_of_forall₂ hlog (sites_apart t (.top scope) []) fun a a' b b' hb hb' hne => ?_
    rw [hb.1, hb'.1]
    exact hne
  · intro path u id value hu hassign
    have hglance : isGlance u = false := by
      obtain ⟨target, hnode, -⟩ := assignment_eq_some.mp hassign
      rw [isGlance, hnode]
    obtain ⟨⟨path', fragment⟩, hmem, hexplains⟩ :=
      exists_of_forall₂ hlog (sites_complete t hrefusal (.top scope) [] hu hglance)
    obtain rfl : path' = path := hexplains.1
    exact ⟨fragment, hmem, headed_of_explains hexplains hassign⟩
  · have hsites := sites_defines t hrefusal (.top scope) [] fun r h => by cases h
    refine pairwise_of_forall₂ hlog (List.Pairwise.and_mem.mp hsites) ?_
    rintro a a' b b' hb hb' ⟨ha, ha', hdefines⟩ id ⟨u, value, hu, hassign⟩
      ⟨u', value', hu', hassign'⟩ howner hhead
    obtain ⟨htree, hplace⟩ := site_of_mem ha
    obtain ⟨htree', hplace'⟩ := site_of_mem ha'
    rw [hb.1] at hu howner
    rw [hb'.1] at hu' howner
    obtain rfl : a.tree = u := Option.some.inj (htree.symm.trans hu)
    obtain rfl : a'.tree = u' := Option.some.inj (htree'.symm.trans hu')
    rw [← hplace, ← hplace'] at howner
    have hlater := headed_of_explains hb' hassign'
    refine hlater.2 fun hhead' => ?_
    exact hdefines hassign hassign' howner ((headed_of_explains hb hassign).1.mp hhead)
      (hlater.1.mp hhead')

/-- Two assignments to one name: the first defines it, the second stores to it. -/
theorem assignment_fragments_twice : ∃ (log : Log) (first second : String),
    ([0], first) ∈ log ∧ Headed false "define" first ∧
      ([1], second) ∈ log ∧ Headed false "store" second := by
  have hnone : ∀ span, assigned (.mk span (.constant .none)) = ∅ := fun span => assigned_mk ..
  obtain ⟨log, -, -, hlog, -⟩ := assignment_fragments
    (.mk ⟨1, 0⟩ (.moduleDef [
      .mk ⟨1, 0⟩ (.assign (.mk ⟨1, 0⟩ (.ident "x")) (.mk ⟨1, 4⟩ (.constant .none))),
      .mk ⟨2, 0⟩ (.assign (.mk ⟨2, 0⟩ (.ident "x")) (.mk ⟨2, 4⟩ (.constant .none)))]))
    ⟨false, [[]], ""⟩ [] [] "define(x, nil)\nstore(x, nil)" rfl (by
      rw [run_fragment]
      simp only [Tree.render_mk, Tree.visit_mk, Rule.apply, rule, Node.map, List.map_cons,
        List.map_nil, runAll_cons, runAll_nil, Visit.run, Visit.node]
      rfl)
  obtain ⟨first, hfirst, hdefine, -⟩ := hlog [0] _ "x" _ rfl rfl
  obtain ⟨second, hsecond, hstore, hother⟩ := hlog [1] _ "x" _ rfl rfl
  refine ⟨log, first, second, hfirst, hdefine.mpr ⟨?_, ?_⟩, hsecond, hother fun h => ?_⟩
  · simp [Place.descend, Place.enter, Place.known, Place.top, Tree.children, Node.toList,
      Place.loopVariable, binding]
  · simp [hnone]
  · refine (hstore.mp h).1 ?_
    simp [Place.descend, Place.enter, Place.known, Place.top, Tree.children, Node.toList,
      Place.loopVariable, binding, assigned_mk]

end Rendition.Physl
