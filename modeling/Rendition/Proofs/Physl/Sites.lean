import Mathlib.Data.List.Pairwise
import Rendition.Proofs.Physl.Place
import Rendition.Proofs.Physl.Support

/-!
# The order in which nodes are rendered

A rendition completes the parts of a node before the node itself, so the nodes that are rendered
come in an order that can be read off the tree, each with its place. Whether an assignment defines a
name can be read off its place, and in the order of the rendition no name is defined twice in a
function.

## Main definitions

* `Physl.Site`: A node that is rendered, with its position and its place.
* `Physl.sites`: The nodes that are rendered in a tree, in the order in which they are complete.
* `Physl.Site.defines`: Whether a node is an assignment that defines a name.

## Theorems

* `mem_sites`, `sites_complete`: The sites are the nodes that are not only looked at.
* `sites_apart`: No position occurs twice.
* `assigned_of_defines`: What a node defines is defined by every tree of the function around it.
* `sites_defines`: A name that was defined before is not defined again.
-/

namespace Rendition.Physl

/-- A node that is rendered. -/
structure Site where
  path : Position
  tree : Tree
  place : Place

/-- The nodes that are rendered in a tree, in the order in which they are complete. -/
def sites (place : Place) (path : Position) (t : Tree) : List Site :=
  ((parts t.node).attach.flatMap fun part =>
    sites (place.descend path t part.1.1) (path ++ part.1.1) part.1.2) ++ [⟨path, t, place⟩]
termination_by t.height
decreasing_by
  rcases t with ⟨span, node⟩
  exact height_parts part.2

variable {place : Place} {path : Position}

theorem sites_mk (place : Place) (path : Position) (span : Span) (node : Node Tree) :
    sites place path (.mk span node) = ((parts node).flatMap fun part =>
      sites (place.descend path (.mk span node) part.1) (path ++ part.1) part.2) ++
        [⟨path, .mk span node, place⟩] := by
  rw [sites]
  simp only [Tree.node_mk, List.flatMap_subtype, List.unattach_attach]

theorem mem_sites_mk {span : Span} {node : Node Tree} {site : Site} :
    site ∈ sites place path (.mk span node) ↔
      (∃ part ∈ parts node,
        site ∈ sites (place.descend path (.mk span node) part.1) (path ++ part.1) part.2) ∨
          site = ⟨path, .mk span node, place⟩ := by
  rw [sites_mk, List.mem_append, List.mem_flatMap, List.mem_singleton]

/-- A site is a tree on the way down, with the place that the way leads to. -/
theorem mem_sites (t : Tree) : ∀ {place : Place} {path : Position} {site : Site},
    site ∈ sites place path t → ∃ rest, t.descend? rest = some site.tree ∧
      site.path = path ++ rest ∧ site.place = place.descend path t rest := by
  induction t using partsInduction with
  | step span node ih =>
    intro place path site h
    rcases mem_sites_mk.mp h with ⟨part, hpart, hsite⟩ | rfl
    · obtain ⟨rest, htree, hpath, hplace⟩ := ih part hpart hsite
      refine ⟨part.1 ++ rest, ?_, ?_, ?_⟩
      · rw [Tree.descend_append, descend_parts hpart, Option.bind_some, htree]
      · rw [hpath, List.append_assoc]
      · rw [hplace, Place.descend_append rest part.1 (descend_parts hpart)]
    · exact ⟨[], rfl, (List.append_nil path).symm, rfl⟩

/-- A site lies in the function of the tree or in one that begins inside it. -/
theorem owner_sites {t : Tree} {site : Site} (h : site ∈ sites place path t) :
    site.place.owner = place.owner ∨ ∃ r, site.place.owner = some (path ++ r) := by
  obtain ⟨rest, -, -, hplace⟩ := mem_sites t h
  rw [hplace]
  exact Place.owner_descend rest place path t

theorem known_sites {t : Tree} {site : Site} (hout : Place.Outside place.owner path)
    (h : site ∈ sites place path t) (howner : site.place.owner = place.owner) :
    place.known ⊆ site.place.known := by
  obtain ⟨rest, -, -, hplace⟩ := mem_sites t h
  rw [hplace] at howner ⊢
  exact Place.known_descend rest hout howner

/-- In a tree that is not refused every tree on a way down is a site, unless it is only looked
    at. -/
theorem sites_complete (t : Tree) (h : refusal t = none) :
    ∀ (place : Place) (path : Position) {rest : Position} {d : Tree}, t.descend? rest = some d →
      isGlance d = false → ⟨path ++ rest, d, place.descend path t rest⟩ ∈ sites place path t := by
  induction t using partsInduction with
  | step span node ih =>
    intro place path rest d hd hglance
    obtain ⟨hrefuses, hparts, hdeclines⟩ := refusal_mk_none.mp h
    rw [mem_sites_mk]
    by_cases hrest : rest = []
    · subst hrest
      obtain rfl := Option.some.inj hd
      exact .inr (by rw [List.append_nil]; rfl)
    rcases reach_parts hrefuses hdeclines hrest hd with ⟨part, hpart, q, rfl, hq⟩ | hlooked
    · refine .inl ⟨part, hpart, ?_⟩
      rw [← List.append_assoc, Place.descend_append q part.1 (descend_parts hpart)]
      exact ih part hpart (hparts part hpart) _ _ hq hglance
    · exact absurd hlooked (by rw [hglance]; decide)

/-- No position occurs twice. -/
theorem sites_apart (t : Tree) : ∀ (place : Place) (path : Position),
    (sites place path t).Pairwise fun a b => a.path ≠ b.path := by
  induction t using partsInduction with
  | step span node ih =>
    intro place path
    rw [sites_mk, List.pairwise_append, List.pairwise_flatMap]
    refine ⟨⟨fun part hpart => ih part hpart _ _, ?_⟩, List.pairwise_singleton .., ?_⟩
    · refine apart_parts.imp fun {p q} hapart a ha b hb => ?_
      obtain ⟨rest, -, hpath, -⟩ := mem_sites p.2 ha
      obtain ⟨rest', -, hpath', -⟩ := mem_sites q.2 hb
      rw [hpath, hpath']
      exact hapart.append_left path rest rest'
    · intro a ha b hb
      obtain ⟨part, hpart, ha⟩ := List.mem_flatMap.mp ha
      obtain ⟨rest, -, hpath, -⟩ := mem_sites part.2 ha
      rw [List.mem_singleton.mp hb, hpath, List.append_assoc]
      intro heq
      have hnil := List.append_eq_nil_iff.mp (List.append_right_eq_self.mp heq)
      exact parts_ne_nil hpart hnil.1

/-- The name that a tree assigns to, and the value. -/
def assignment? (t : Tree) : Option (String × Tree) :=
  match t.node with
  | .assign target value => match target.node with
    | .ident id => some (id, value)
    | _ => none
  | _ => none

/-- Whether an assignment at the place defines the name: nothing makes it known there, nor does the
    value, which is rendered first. -/
def Place.defines (place : Place) (id : String) (value : Tree) : Prop :=
  id ∉ place.known ∧ id ∉ assigned value

theorem assignment_eq_some {t : Tree} {id : String} {value : Tree} :
    assignment? t = some (id, value) ↔
      ∃ target, t.node = .assign target value ∧ target.node = .ident id := by
  rcases t with ⟨span, node⟩
  cases node with
  | assign target value' =>
    rcases target with ⟨tspan, tnode⟩
    cases tnode <;> simp [assignment?, and_comm]
  | _ => simp [assignment?]

/-- What a node defines is defined by every tree around it in the function. -/
theorem assigned_of_defines (t : Tree) (h : refusal t = none) :
    ∀ {place : Place} {path : Position} {site : Site}, Place.Outside place.owner path →
      site ∈ sites place path t → site.place.owner = place.owner → ∀ {id : String} {value : Tree},
        assignment? site.tree = some (id, value) → site.place.defines id value →
          id ∈ assigned t := by
  induction t using partsInduction with
  | step span node ih =>
    intro place path site hout hsite howner id value hassign hdefines
    obtain ⟨hrefuses, hparts, hdeclines⟩ := refusal_mk_none.mp h
    rw [← definedBy_eq span hrefuses hdeclines]
    rcases mem_sites_mk.mp hsite with ⟨part, hpart, hsite⟩ | rfl
    case inr =>
      obtain ⟨target, hnode, hid⟩ := assignment_eq_some.mp hassign
      obtain rfl : node = .assign target value := hnode
      simp [definedBy, binding, hid]
    have hout' : Place.Outside (place.descend path (.mk span node) part.1).owner
        (path ++ part.1) := by
      rw [Place.owner_parts hpart]
      exact Place.outside_parts hout hpart
    -- The site lies in the same function as the part, and the part in the same as the node.
    have hsame : site.place.owner = (place.descend path (.mk span node) part.1).owner := by
      refine (owner_sites hsite).resolve_right ?_
      rintro ⟨r, hr⟩
      refine hout.append part.1 r ?_
      rw [← howner, hr]
    have hnode : place.ownerBelow path node = place.owner := by
      rw [← howner, hsame, Place.owner_parts hpart]
    have hmem : id ∈ assigned part.2 :=
      ih part hpart (hparts part hpart) hout' hsite hsame hassign hdefines
    have hknown := known_sites hout' hsite hsame
    rcases hbinding : binding node with _ | ⟨name, params⟩ | params | name | name
    case none =>
      simp only [definedBy, hbinding]
      exact mem_assignedAll.mpr ⟨part.2, List.mem_map_of_mem hpart, hmem⟩
    case function =>
      refine absurd ?_ (hout [])
      rw [← hnode, Place.ownerBelow, hbinding, List.append_nil]
    case lambda =>
      refine absurd ?_ (hout [])
      rw [← hnode, Place.ownerBelow, hbinding, List.append_nil]
    case name =>
      simp only [definedBy, hbinding]
      exact Finset.mem_insert_of_mem (mem_assignedAll.mpr ⟨part.2, List.mem_map_of_mem hpart, hmem⟩)
    case loop =>
      obtain ⟨iter, body, hloop⟩ := parts_of_loop hbinding
      obtain ⟨j, hj⟩ := List.mem_iff_getElem?.mp hpart
      rw [Place.known_parts place path span hrefuses hj, Place.base, hbinding] at hknown
      simp only [definedBy, hbinding, hloop, List.map_cons]
      rcases j with _ | j
      · rw [hloop] at hj
        obtain rfl := Option.some.inj hj
        exact Finset.mem_union_left _ hmem
      · rw [hloop, List.getElem?_cons_succ] at hj
        have hvariable : id ≠ name := by
          rintro rfl
          exact hdefines.1 (hknown (Finset.mem_union_left _ (Finset.mem_insert_self ..)))
        refine Finset.mem_union_right _ (Finset.mem_erase.mpr ⟨hvariable, ?_⟩)
        exact mem_assignedAll.mpr ⟨part.2, List.mem_map_of_mem (List.mem_of_getElem? hj), hmem⟩

/-- A name that was defined before in a function is not defined again. -/
theorem sites_defines (t : Tree) (h : refusal t = none) :
    ∀ (place : Place) (path : Position), Place.Outside place.owner path →
      (sites place path t).Pairwise fun a b => ∀ {id : String} {value value' : Tree},
        assignment? a.tree = some (id, value) → assignment? b.tree = some (id, value') →
          a.place.owner = b.place.owner → a.place.defines id value →
            ¬ b.place.defines id value' := by
  induction t using partsInduction with
  | step span node ih =>
    intro place path hout
    obtain ⟨hrefuses, hparts, hdeclines⟩ := refusal_mk_none.mp h
    have hbelow : ∀ part ∈ parts node, Place.Outside
        (place.descend path (.mk span node) part.1).owner (path ++ part.1) := by
      intro part hpart
      rw [Place.owner_parts hpart]
      exact Place.outside_parts hout hpart
    rw [sites_mk, List.pairwise_append, List.pairwise_flatMap]
    refine ⟨⟨fun part hpart => ih part hpart (hparts part hpart) _ _ (hbelow part hpart), ?_⟩,
      List.pairwise_singleton .., ?_⟩
    · refine (apart_parts.and (Place.known_later place path span hrefuses)).imp_of_mem ?_
      rintro p q hp hq ⟨hapart, hlater⟩ a ha b hb id value value' hassign hassign' howner hdefines
      have hbrothers : (place.descend path (.mk span node) p.1).owner =
          (place.descend path (.mk span node) q.1).owner := by
        rw [Place.owner_parts hp, Place.owner_parts hq]
      rcases owner_sites ha with hstay | ⟨r, hleave⟩
      · -- Both lie in the function of the parts.
        have hstay' : b.place.owner = (place.descend path (.mk span node) q.1).owner := by
          rw [← howner, hstay, hbrothers]
        have hmem : id ∈ assigned p.2 := assigned_of_defines p.2 (hparts p hp) (hbelow p hp) ha
          hstay hassign hdefines
        exact fun hdefines' => hdefines'.1 (known_sites (hbelow q hq) hb hstay' (hlater hmem))
      · -- A function inside one part has no sites in another.
        rcases owner_sites hb with hstay' | ⟨r', hleave'⟩
        · refine absurd ?_ (hbelow p hp r)
          rw [hbrothers, ← hstay', ← howner, hleave]
        · rw [hleave, hleave', Option.some.injEq] at howner
          exact absurd howner (hapart.append_left path r r')
    · intro a ha b hb id value value' hassign hassign' howner hdefines hdefines'
      obtain ⟨part, hpart, ha⟩ := List.mem_flatMap.mp ha
      obtain rfl := List.mem_singleton.mp hb
      obtain ⟨target, hnode, hid⟩ := assignment_eq_some.mp hassign'
      obtain rfl : node = .assign target value' := hnode
      have hvalue : part.2 = value' := by
        have hparts' : parts (.assign target value') = [([1], value')] := by
          rw [parts, element, hid]
        rw [hparts', List.mem_singleton] at hpart
        rw [hpart]
      have hsame : a.place.owner =
          (place.descend path (.mk span (.assign target value')) part.1).owner := by
        rw [Place.owner_parts hpart, howner, Place.ownerBelow, binding, hid]
      have hmem := assigned_of_defines part.2 (hparts part hpart) (hbelow part hpart) ha hsame
        hassign hdefines
      rw [hvalue] at hmem
      exact hdefines'.2 hmem

end Rendition.Physl
