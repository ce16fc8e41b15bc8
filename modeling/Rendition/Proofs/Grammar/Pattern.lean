import Rendition.Proofs.Grammar.Expression
import Rendition.Source.Grammar.Annotation
import Rendition.Source.Grammar.Pattern

/-!
# Types and patterns along two courses

Types and patterns leave nothing behind, so their parsers are steady.

## Theorems

* `steady_typeAt`, `steady_typeParameters`: Types.
* `steady_patterns`: What a `case` compares with.
-/

namespace Rendition.Source.Course

variable {c : Course} {expr : ExprParser} (hexpr : c.ReadsExprs expr)

/-- Items that leave nothing behind between brackets. -/
theorem gives_steady {item : Parser Unit} (h : c.Steady item) : c.Gives (Items.plain c ()) item :=
  fun k => (h k).mono fun _ _ _ ⟨hab, hj⟩ => ⟨hab, .nil hj⟩

theorem steady_moreItems (f : Frame) (closing : String) {item : Parser Unit} (h : c.Steady item) :
    c.Steady (discard (moreItems f closing (fun _ => ()) item [])) :=
  Follows.discard fun k =>
    (run_moreItems f closing (gives_steady h) (.nil (Nat.le_refl k))).mono fun _ _ _ => Items.Row.le

theorem steady_itemsUntil (f : Frame) (closing : String) {item : Parser Unit} (h : c.Steady item) :
    c.Steady (discard (itemsUntil f closing (fun _ => ()) item)) :=
  Follows.discard fun _ =>
    (run_itemsUntil f closing (gives_steady h)).mono fun _ _ _ => Items.Row.le

theorem steady_listed (f : Frame) {starts : Token → Bool}
    (hstarts : ∀ k t, starts (c.twin k t) = starts t) {item : Parser Unit} (h : c.Steady item) :
    c.Steady (discard (listed f "," (fun _ => ()) starts item)) :=
  Follows.discard fun _ =>
    (run_listed_row f "," hstarts (gives_steady h)).mono fun _ _ _ h => h.2.le

/-! ## Types -/

theorem steady_typeParameters {type : TypeParser} (h : ∀ f bounded, c.Steady (type f bounded))
    (f : Frame) : c.Steady (typeParameters type f) :=
  .bind (follows_mark f.middle "[").discard fun _ => .bind (h f.inside true) fun _ =>
    steady_moreItems f "]" (h f.inside true)

include hexpr in
/-- Types are followed, however deep they are nested. -/
theorem steady_typeAt (fuel : Nat) (f : Frame) (bounded : Bool) :
    c.Steady (typeAt expr fuel f bounded) := by
  induction fuel generalizing f bounded with
  | zero => exact .failure
  | succ fuel ih =>
    have hname : ∀ f, c.Steady (discard (identifier f)) := fun f => (follows_identifier f).discard
    have hrest : ∀ composed : Bool, c.Steady (do
        extend (fun () => do
          if composed && (← atMark ".") then
            discard (shift f.middle)
            discard (identifier f)
            return some ()
          else return none) ()
        if composed && (← atMark "|") then
          discard (shiftOperator f.middle)
          typeAt expr fuel f bounded
        else if bounded && (← atMark ":") then
          discard (shiftOperator f.middle)
          typeAt expr fuel f bounded : Parser Unit) := by
      intro composed
      refine .bind (.extend (fun _ => ?_) ()) fun _ => ?_
      · refine .bind (steady_atMark ".") fun _ => .ite ?_ (.pure _)
        exact .bind (follows_shift f.middle).discard fun _ => .bind (hname f) fun _ => .pure _
      · refine .bind (steady_atMark "|") fun _ => .ite ?_ ?_
        · exact .bind (follows_shiftOperator f.middle).discard fun _ => ih f bounded
        · refine .bind (steady_atMark ":") fun _ => .ite ?_ (.pure _)
          exact .bind (follows_shiftOperator f.middle).discard fun _ => ih f bounded
    refine .peek (fun _ _ => rfl) fun t => .ite ?_
      (.bind (steady_second fun _ => rfl) fun _ => .ite ?_ ?_)
    · exact .bind (follows_shift f.middle).discard fun _ => .bind (hname f) fun _ =>
        .bind (.pure true) hrest
    · exact .bind (follows_shift f).discard fun _ => .bind (steady_typeParameters ih f) fun _ =>
        .bind (.pure true) hrest
    · exact .bind (follows_expr hexpr f Level.any).discard fun _ => .bind (.pure false) hrest

/-! ## Patterns -/

theorem steady_patternNumber (f : Frame) : c.Steady (patternNumber f) :=
  .peek (fun _ _ => rfl) fun _ => .bind (steady_require _) fun _ => (follows_shift f).discard

theorem steady_patternComplex (f : Frame) : c.Steady (patternComplex f) := by
  refine .bind (steady_mark? f.middle "-").follows.discard fun _ =>
    .bind (steady_patternNumber f) fun _ => .bind (steady_atMark "+") fun _ =>
    .bind (steady_atMark "-") fun _ => .ite ?_ (.pure _)
  exact .bind (follows_shift f.middle).discard fun _ => steady_patternNumber f

theorem steady_patternSplat (f : Frame) : c.Steady (patternSplat f) :=
  .bind (follows_shift f.middle).discard fun _ => (follows_identifier f).discard

section Inside

variable {pattern : Frame → Parser Unit} (hpattern : ∀ f, c.Steady (pattern f))

include hpattern

theorem steady_patternsUntil (f : Frame) (opening closing : String) :
    c.Steady (patternsUntil pattern f opening closing) :=
  .bind (follows_mark f.inside opening).discard fun _ => steady_itemsUntil f closing (hpattern _)

include hexpr in
theorem steady_patternTerm (f : Frame) : c.Steady (patternTerm expr pattern f) := by
  intro k
  refine .front fun t ht => ?_
  rw [kind_twin]
  have hliterals : t.kind = .string ∨ t.kind = .formatOpen →
      c.Run k (discard (literals expr f)) (discard (literals expr f)) fun j a b => b = a ∧ k ≤ j :=
    fun hkind => (run_literals hexpr ht hkind f).discard.mono fun _ _ _ ⟨_, _, he⟩ =>
      ⟨rfl, Nat.le_of_lt he.lt⟩
  cases hkind : t.kind with
  | string => exact hliterals (.inl hkind)
  | formatOpen => exact hliterals (.inr hkind)
  | integer => exact steady_patternComplex f k
  | float => exact steady_patternComplex f k
  | word =>
    refine Steady.ite (follows_shift f).discard (.bind (steady_dottedName f) fun _ => ?_) k
    exact .bind (steady_atMark "(") fun _ => .ite (steady_patternsUntil hpattern f _ _) (.pure _)
  | mark =>
    refine Steady.ite (steady_patternComplex f) (.ite (steady_patternsUntil hpattern f _ _)
      (.ite (steady_patternsUntil hpattern f _ _) (.ite ?_ ?_))) k
    · refine .bind (follows_mark f.inside _).discard fun _ => steady_itemsUntil f _ ?_
      refine .bind (steady_atMark "**") fun _ => .ite (steady_patternSplat f.inside) ?_
      exact .bind (hpattern f.middle) fun _ => .bind (follows_mark f.middle ":").discard fun _ =>
        hpattern f.inside
    · exact .bind (steady_require _) fun _ => steady_patternSplat f
  | _ => exact .failure

end Inside

include hexpr

/-- Patterns are followed, however deep they are nested. -/
theorem steady_patternAt (fuel : Nat) (f : Frame) : c.Steady (patternAt expr fuel f) := by
  induction fuel generalizing f with
  | zero => exact .failure
  | succ fuel ih =>
    have hterm := steady_patternTerm hexpr ih f
    have hrest : c.Steady (do
        patternTerm expr (patternAt expr fuel) f
        extend (fun () => do
          if ← mark? f.middle "|" then
            patternTerm expr (patternAt expr fuel) f
            return some ()
          else if ← atWord "as" then
            discard (shift f.middle)
            discard (identifier f)
            return some ()
          else return none) () : Parser Unit) := by
      refine .bind hterm fun _ => .extend (fun _ => ?_) ()
      refine .bind (steady_mark? f.middle "|") fun _ => .ite ?_ ?_
      · exact .bind hterm fun _ => .pure _
      · refine .bind (steady_atWord "as") fun _ => .ite ?_ (.pure _)
        exact .bind (follows_shift f.middle).discard fun _ =>
          .bind (follows_identifier f).discard fun _ => .pure _
    refine .peek (fun _ _ => rfl) fun _ => .bind (steady_second fun _ => rfl) fun _ =>
      .ite ?_ hrest
    exact .bind (follows_shift f).discard fun _ =>
      .bind (follows_shiftOperator f.middle).discard fun _ => hrest

theorem steady_patterns (f : Frame) : c.Steady (patterns expr f) := by
  intro k ts us hat
  rw [patterns, patterns, hat.length_eq]
  exact steady_listed f (fun _ _ => rfl) (steady_patternAt hexpr _ f) k ts us hat

end Rendition.Source.Course
