import Rendition.Proofs.Physl.Spans
import Rendition.Proofs.Python.Wording
import Rendition.Proofs.Sexpr.Value

/-!
# Places do not show

What a tree is rendered as depends on what it says and not on where it comes from. As Python and as
s-expressions every tree has a rendition, which is computed without a look at a place. In PhySL,
unless places are asked for, a place shows in nothing but the failure of a rendition, which names
the place of the node that it is about.

## Theorems

* `render_of_erase_eq`: Trees that differ in places only are rendered alike.
-/

namespace Rendition

/-- Trees that differ in the places of nodes and handlers only have the same texts as Python and as
    s-expressions. In PhySL without places they have the same text, or both fail at the same
    position of the tree. -/
theorem render_of_erase_eq {a b : Tree} (h : a.erase = b.erase) (f g : SourceFunction)
    (config : Config) :
    (∃ text, Python.renderer.render ⟨f, a⟩ config = .ok text ∧
      Python.renderer.render ⟨g, b⟩ config = .ok text) ∧
    (∃ text, Sexpr.renderer.render ⟨f, a⟩ config = .ok text ∧
      Sexpr.renderer.render ⟨g, b⟩ config = .ok text) ∧
    (config.annotates = false →
      (∃ text, Physl.renderer.render ⟨f, a⟩ config = .ok text ∧
        Physl.renderer.render ⟨g, b⟩ config = .ok text) ∨
      ∃ path u v, a.descend? path = some u ∧ b.descend? path = some v ∧ u.kind = v.kind ∧
        Physl.renderer.render ⟨f, a⟩ config = .error ⟨u.kind, u.span⟩ ∧
        Physl.renderer.render ⟨g, b⟩ config = .error ⟨v.kind, v.span⟩) := by
  -- Wordings and values are those of the erased tree; PhySL renditions are compared step by step.
  refine ⟨⟨_, Python.render_text _ _, ?_⟩, ⟨_, Sexpr.render_value _ _, ?_⟩, fun hannotates => ?_⟩
  · rw [Python.render_text, ← Python.wording_erase, ← h, Python.wording_erase]
  · rw [Sexpr.render_value, ← Sexpr.value_erase, ← h, Sexpr.value_erase]
  · have hsimilar := Physl.similar_erase a b
    rw [← hannotates] at hsimilar
    have hpaired := @Physl.paired_render _ _ _ ⟨f, a⟩ ⟨g, b⟩ _ _ hsimilar
      ⟨rfl, h, [], rfl, rfl⟩
    rcases paired_iff.mp hpaired with ⟨text, _, htext, htext', rfl⟩ |
      ⟨_, _, herror, herror', path, u, v, hu, hv, hkind, rfl, rfl⟩
    · exact .inl ⟨text, htext, htext'⟩
    · exact .inr ⟨path, u, v, hu, hv, hkind, herror, herror'⟩

/-- A statement that PhySL has no rendition for, at two places. -/
theorem render_of_erase_eq_breakStmt :
    ∃ path u v,
      (Tree.mk ⟨1, 0⟩ (.moduleDef [.mk ⟨1, 0⟩ .breakStmt])).descend? path = some u ∧
      (Tree.mk ⟨1, 0⟩ (.moduleDef [.mk ⟨3, 2⟩ .breakStmt])).descend? path = some v ∧
      u.kind = v.kind ∧
      Physl.renderer.render ⟨⟨"f", "", 1⟩, .mk ⟨1, 0⟩ (.moduleDef [.mk ⟨1, 0⟩ .breakStmt])⟩ {} =
        .error ⟨u.kind, u.span⟩ ∧
      Physl.renderer.render ⟨⟨"f", "", 1⟩, .mk ⟨1, 0⟩ (.moduleDef [.mk ⟨3, 2⟩ .breakStmt])⟩ {} =
        .error ⟨v.kind, v.span⟩ := by
  have herase : (Tree.mk ⟨1, 0⟩ (.moduleDef [.mk ⟨1, 0⟩ .breakStmt])).erase =
      (Tree.mk ⟨1, 0⟩ (.moduleDef [.mk ⟨3, 2⟩ .breakStmt])).erase := by
    simp only [Tree.erase, Tree.mapSpans_mk, Node.map, Node.mapSpans, List.map_cons, List.map_nil]
  have h := (render_of_erase_eq herase ⟨"f", "", 1⟩ ⟨"f", "", 1⟩ {}).2.2 rfl
  refine h.resolve_left ?_
  rintro ⟨text, htext, -⟩
  cases htext

end Rendition
