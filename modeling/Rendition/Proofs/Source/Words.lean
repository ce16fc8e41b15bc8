import Rendition.Proofs.Source.Covered
import Rendition.Proofs.Source.Naming

/-!
# Words are names

A word is found in code only, where it goes from a character that starts a name as far as the
characters continue one. Of the tokens of format strings none is a word, and none of the marks that
are cut in two was one.

## Main definitions

* `Token.Named`: A token that is a name if it is a word.

## Theorems

* `named_tokenize`: All words of a source text are names.
-/

namespace Rendition.Source

/-- A token is a name if it is a word. -/
def Token.Named (t : Token) : Prop :=
  t.kind = .word → Text.IsName t.text

theorem Token.named_of_kind {gap : Gap} {span : Span} {kind : TokenKind} {text : String}
    (h : kind ≠ .word) : Token.Named ⟨gap, span, kind, text⟩ :=
  fun hword => absurd hword h

/-- A word starts like a name and goes on like one. -/
theorem codeToken_word {inField : Bool} {text : List Char}
    (h : (codeToken inField text).1 = .word) :
    Text.IsName (String.ofList (codeToken inField text).2) := by
  rcases text with _ | ⟨c, rest⟩
  · cases h
  by_cases hname : Text.startsName c = true
  · have hword : codeToken inField (c :: rest) =
        (.word, c :: rest.takeWhile Text.continuesName) := by
      rw [codeToken.eq_def]
      exact if_pos hname
    rw [hword]
    exact ⟨c, _, String.toList_ofList, hname, List.all_eq_true.mp List.all_takeWhile⟩
  · refine absurd h ?_
    rw [codeToken.eq_def]
    simp only [hname, Bool.false_eq_true, if_false]
    repeat' split
    all_goals exact TokenKind.noConfusion

/-- A mark that is cut in two was no word. -/
theorem named_found (inField : Bool) (modes : List Mode) (text : List Char) (gap : Gap)
    (span : Span) : Token.Named ⟨gap, span, (codeToken inField text).1,
      String.ofList (cutColon modes (codeToken inField text).2)⟩ := by
  intro hword
  have hname := codeToken_word hword
  rcases cutColon_cases modes (codeToken inField text).2 with hsame | ⟨hbody, -⟩
  · rwa [← hsame] at hname
  · rw [hbody] at hname
    obtain ⟨c, cs, hlist, hc, -⟩ := hname
    rw [String.toList_ofList] at hlist
    cases hlist
    cases hc

/-- Whatever the lexer is inside of, all words it finds are names. -/
theorem named_tokensWithin (fuel : Nat) (modes : List Mode) (span : Span) (text : List Char) :
    ∀ t ∈ tokensWithin fuel modes span text, t.Named := by
  induction fuel generalizing modes span text with
  | zero => exact fun t ht => absurd ht List.not_mem_nil
  | succ fuel ih =>
    have last : ∀ {t : Token}, t.Named → ∀ u ∈ [t], u.Named := fun ht =>
      List.forall_mem_singleton.mpr ht
    have next : ∀ {t : Token} {modes' : List Mode} {span' : Span} {rest : List Char}, t.Named →
        ∀ u ∈ t :: tokensWithin fuel modes' span' rest, u.Named := fun ht =>
      List.forall_mem_cons.mpr ⟨ht, ih _ _ _⟩
    by_cases hcode : inCode modes = true
    · rw [tokensWithin_code hcode, codeTokens]
      dsimp only
      split
      · split
        · exact next (Token.named_of_kind (by decide))
        · split
          · exact next (Token.named_of_kind (by decide))
          · exact last (Token.named_of_kind (by decide))
      · split
        · exact last (named_found _ _ _ _ _)
        · exact next (named_found _ _ _ _ _)
    · rcases modes with _ | ⟨d | ⟨depth, lambdas, afterWord⟩ | _, outer⟩
      · exact absurd rfl hcode
      · rw [tokensWithin]
        split
        · exact next (Token.named_of_kind (by decide))
        · exact List.forall_mem_cons.mpr
            ⟨Token.named_of_kind (by decide), next (Token.named_of_kind (by decide))⟩
        · exact last (Token.named_of_kind (by decide))
      · exact absurd rfl hcode
      · rw [tokensWithin]
        dsimp only
        split
        · exact next (Token.named_of_kind (by decide))
        · split
          · exact next (Token.named_of_kind (by decide))
          · exact next (Token.named_of_kind (by decide))
          · exact last (Token.named_of_kind (by decide))

/-- All words of a source text are names. -/
theorem named_tokenize (text : List Char) : ∀ t ∈ tokenize text, t.Named :=
  named_tokensWithin _ _ _ _

end Rendition.Source
