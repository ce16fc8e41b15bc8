import Rendition.Proofs.Physl.Lockstep
import Rendition.Proofs.Tree.Replaced

/-!
# Places and PhySL

Where no places are asked for, nothing in a rendition depends on them: not which nodes are refused,
not what is done with the names, not which trees are rendered, and not the texts. A failure names
the place of the node that it is about, so two trees that differ in places only fail at the same
position.

## Main definitions

* `Physl.SamePosition`: Two failures that name the nodes at one position of two trees.

## Theorems

* `refuses_mapSpans`, `binding_mapSpans`, `parts_mapSpans`, `assemble_mapSpans`: What the script
  reads off a node does not depend on places.
* `similar_erase`: Renditions of trees that differ in places only agree.
-/

namespace Rendition.Physl

variable (g : Span → Span)

/-- What the script reads off a node at another place. -/
theorem refuses_mapSpans (t : Tree) : refuses (t.mapSpans g).node = refuses t.node := by
  have hvariable : ∀ target : Tree, isVariable (target.mapSpans g) = isVariable target := by
    rintro ⟨span, node⟩
    cases node <;> simp [Tree.mapSpans_mk, isVariable, Node.map, Node.mapSpans]
  have hcallee : ∀ func : Tree, isCallee (func.mapSpans g) = isCallee func := by
    rintro ⟨span, node⟩
    cases node <;> simp [Tree.mapSpans_mk, isCallee, Node.map, Node.mapSpans]
  rcases t with ⟨span, node⟩
  rw [Tree.mapSpans_mk]
  cases node with
  | augAssign target op value => simp [refuses, Node.map, Node.mapSpans, hvariable]
  | call func args keywords => simp [refuses, Node.map, Node.mapSpans, hcallee]
  | forLoop target iter body =>
    rcases target with ⟨tspan, tnode⟩
    cases tnode <;> simp [Tree.mapSpans_mk, refuses, Node.map, Node.mapSpans]
  | _ => rfl

theorem binding_mapSpans (t : Tree) : binding (t.mapSpans g).node = binding t.node := by
  rcases t with ⟨span, node⟩
  rw [Tree.mapSpans_mk]
  cases node with
  | assign target value =>
    rcases target with ⟨tspan, tnode⟩
    cases tnode <;> simp [Tree.mapSpans_mk, binding, Node.map, Node.mapSpans]
  | forLoop target iter body =>
    rcases target with ⟨tspan, tnode⟩
    cases tnode <;> simp [Tree.mapSpans_mk, binding, Node.map, Node.mapSpans]
  | _ => rfl

theorem isModuleAlias_mapSpans (t : Tree) :
    isModuleAlias (t.mapSpans g).node = isModuleAlias t.node := by
  rcases t with ⟨span, node⟩
  cases node <;> simp [Tree.mapSpans_mk, isModuleAlias, Node.map, Node.mapSpans]

theorem below_mapSpans (path : Position) (start : Nat) (ts : List Tree) :
    below path start (ts.map (Tree.mapSpans g)) =
      (below path start ts).map fun part => (part.1, part.2.mapSpans g) := by
  simp only [below, list_mapIdx_map, list_map_mapIdx]

/-- The parts of a node are at the same positions. -/
theorem parts_mapSpans (t : Tree) : parts (t.mapSpans g).node =
    (parts t.node).map fun part => (part.1, part.2.mapSpans g) := by
  rcases t with ⟨span, node⟩
  have hchildren := below_mapSpans g [] 0 node.toList
  rw [← Node.toList_map, ← Node.toList_mapSpans g] at hchildren
  rw [Tree.mapSpans_mk]
  cases node with
  | assign target value =>
    rcases target with ⟨tspan, tnode⟩
    cases tnode <;> simp [Tree.mapSpans_mk, parts, element, Node.map, Node.mapSpans]
  | forLoop target iter body =>
    simp [parts, Node.map, Node.mapSpans, below_mapSpans]
  | call func args keywords =>
    -- The receiver is a part unless it is the name of a module, and the arguments follow it.
    have hreceiver : receiver (func.mapSpans g) =
        (receiver func).map fun part => (part.1, part.2.mapSpans g) := by
      rcases func with ⟨fspan, fnode⟩
      cases fnode with
      | attr value name =>
        simp only [Tree.mapSpans_mk, receiver, Tree.node_mk, Node.map, Node.mapSpans,
          isModuleAlias_mapSpans]
        split <;> rfl
      | _ => rfl
    have hrest := below_mapSpans g [] 1 (args ++ keywords.map Keyword.value)
    simp only [List.map_append, List.map_map] at hrest
    simp only [parts, Tree.node_mk, Node.map, Node.mapSpans, hreceiver, List.map_append,
      List.map_map, ← hrest]
    rfl
  | attr value name =>
    simp only [parts, Tree.node_mk, Node.map, Node.mapSpans, isModuleAlias_mapSpans]
    split <;> rfl
  | subscript value index =>
    rcases index with ⟨ispan, inode⟩
    cases inode <;>
      simp [Tree.mapSpans_mk, parts, indices, Node.map, Node.mapSpans, below_mapSpans]
  | _ => exact hchildren

theorem pairTexts_span (span span' : Span) :
    ∀ texts, pairTexts false span texts = pairTexts false span' texts
  | _ :: _ :: rest => congrArg (List.cons _) (pairTexts_span span span' rest)
  | [_] | [] => rfl

/-- Where no places are asked for, texts are put together in the same way at another place. -/
theorem assemble_mapSpans (fresh : Bool) (span : Span) (texts : List String) (t : Tree) :
    assemble false fresh span texts (t.mapSpans g).node =
      assemble false fresh t.span texts t.node := by
  rcases t with ⟨tspan, node⟩
  rw [Tree.mapSpans_mk]
  cases node with
  | assign target value =>
    rcases target with ⟨tspan, tnode⟩
    rcases texts with _ | ⟨value, _ | ⟨target, rest⟩⟩ <;> cases tnode <;> rfl
  | forLoop target iter body =>
    rcases target with ⟨tspan, tnode⟩
    rcases texts with _ | ⟨iter, body⟩ <;> cases tnode <;> rfl
  | ifStmt test body orelse =>
    simp only [assemble, Tree.node_mk, Node.map, Node.mapSpans, List.length_map, List.isEmpty_map]
    rcases texts with _ | ⟨test, rest⟩ <;> rfl
  | call func args keywords =>
    have hname : calleeText? false (func.mapSpans g) = calleeText? false func := by
      rcases func with ⟨fspan, fnode⟩
      cases fnode <;> rfl
    have hkeywords : ∀ values, keywordTexts false (keywords.map (Keyword.map (Tree.mapSpans g)))
        values = keywordTexts false keywords values := by
      intro values
      rw [keywordTexts, List.zipWith_map_left]
      rfl
    simp only [assemble, Tree.node_mk, Node.map, Node.mapSpans, hname, hkeywords, List.length_map]
  | attr value name =>
    simp only [assemble, Tree.node_mk, Node.map, Node.mapSpans, isModuleAlias_mapSpans]
    rfl
  | slice lower upper step =>
    have hbounds : boundTexts (lower.map (Tree.mapSpans g)) (upper.map (Tree.mapSpans g)) texts =
        boundTexts lower upper texts := by
      cases lower <;> cases upper <;> cases texts <;> rfl
    simp only [assemble, Tree.node_mk, Node.map, Node.mapSpans, hbounds]
    rfl
  | dict entries =>
    simp only [assemble, Tree.node_mk, Node.map, Node.mapSpans, pairTexts_span span tspan]
    rfl
  | _ => rfl

/-- Two failures that name the nodes at one position of two trees. -/
def SamePosition (a b : Tree) (e e' : Unimplemented) : Prop :=
  ∃ path u v, a.descend? path = some u ∧ b.descend? path = some v ∧ u.kind = v.kind ∧
    e = ⟨u.kind, u.span⟩ ∧ e' = ⟨v.kind, v.span⟩

/-- Renditions of trees that differ in places only agree. -/
theorem similar_erase (a b : Tree) : Similar false false (SamePosition a b) Eq
    fun same u v => same = true ∧ u.erase = v.erase ∧
      ∃ path, a.descend? path = some u ∧ b.descend? path = some v where
  refuses := by
    rintro same u v ⟨-, h, -⟩
    rw [← refuses_mapSpans (fun _ => ⟨0, 0⟩) u, ← refuses_mapSpans (fun _ => ⟨0, 0⟩) v]
    exact congrArg (fun t => refuses t.node) h
  binding := by
    rintro same u v ⟨-, h, -⟩
    rw [← binding_mapSpans (fun _ => ⟨0, 0⟩) u, ← binding_mapSpans (fun _ => ⟨0, 0⟩) v]
    exact congrArg (fun t => binding t.node) h
  name h _ := h.1
  parts := by
    rintro same ⟨span, node⟩ ⟨span', node'⟩ ⟨rfl, h, path, hu, hv⟩
    -- The trees are equal once erased, and so are their parts, at the same positions.
    have hparts := congrArg (fun t => parts t.node) h
    simp only [Tree.erase, parts_mapSpans, Tree.node_mk] at hparts
    rw [← List.forall₂_eq_eq_eq, List.forall₂_map_left_iff, List.forall₂_map_right_iff] at hparts
    refine (forall₂_mem hparts).imp fun part part' h => ?_
    obtain ⟨hpart, hpart', hsame⟩ := h
    obtain ⟨hpath, herase⟩ := Prod.mk.inj hsame
    refine ⟨Bool.true_or _, herase, path ++ part.1, ?_, ?_⟩
    · rw [Tree.descend_append, hu, Option.bind_some, descend_parts hpart]
    · rw [Tree.descend_append, hv, Option.bind_some, hpath, descend_parts hpart']
  failure := by
    rintro same u v ⟨-, h, path, hu, hv⟩
    have hkind : u.kind = v.kind := by
      rw [← Tree.kind_mapSpans (fun _ => ⟨0, 0⟩) u, ← Tree.kind_mapSpans (fun _ => ⟨0, 0⟩) v]
      exact congrArg Tree.kind h
    exact ⟨path, u, v, hu, hv, hkind, rfl, rfl⟩
  assemble := by
    rintro same u v fresh texts texts' ⟨-, h, -⟩ htexts
    -- Both put the texts together as the erased tree does.
    obtain rfl : texts = texts' := by rwa [List.forall₂_eq_eq_eq] at htexts
    have hassemble := congrArg (fun t => assemble false fresh ⟨0, 0⟩ texts t.node) h
    simp only [Tree.erase, assemble_mapSpans] at hassemble
    rw [hassemble]
    rcases assemble false fresh v.span texts v.node with _ | text
    · exact .none
    · exact .some rfl

end Rendition.Physl
