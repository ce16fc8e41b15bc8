import Mathlib.Data.List.Basic
import Mathlib.Data.Nat.Digits.Defs
import Rendition.Proofs.Source.Numeral
import Rendition.Rendering.Physl
import Rendition.Rendering.Python
import Rendition.Source.Reading

/-!
# Integers

An integer is written by its digits in one of four bases, of which all but the decimal one are told
by a mark in front of the digits. A digit above nine is a letter. The letters of marks and digits
are large or small, and underscores may stand anywhere among the digits. The number that is meant is
the value of the digits in the base, as positional notation has it; what is read is that number, or
nothing if it does not fit into a signed word.

## Main definitions

* `Base`: The bases, with their marks.
* `Spells`: The digits that a text spells.
* `IsInteger`: The written forms of a number.

## Theorems

* `digitsValue?_map`: The value of digits is that of positional notation.
* `integerValue?_of_isInteger`: A written number has its value if it is below the bound.
* `read_integer_exact`: Integers are read exactly or not at all, and what is rendered is read back.
-/

namespace Rendition.Source

/-- The bases in which integers are written. -/
inductive Base where
  | binary | octal | decimal | hexadecimal

namespace Base

/-- The number of digits that there are in a base. -/
def radix : Base → Nat
  | binary => 2
  | octal => 8
  | decimal => 10
  | hexadecimal => 16

/-- What stands in front of the digits, in small letters. -/
def mark : Base → List Char
  | binary => ['0', 'b']
  | octal => ['0', 'o']
  | decimal => []
  | hexadecimal => ['0', 'x']

theorem radix_le (base : Base) : base.radix ≤ 16 := by
  cases base <;> decide

theorem ungrouped_mark (base : Base) : ∀ mark ∈ [base.mark, base.mark.map Char.toUpper],
    (mark.filter (· ≠ '_')).map Char.toLower = base.mark := by
  cases base <;> decide

end Base

/-- The digits that a text spells in a base: each is written as one character, a letter being large
    or small, and underscores between them mean nothing. -/
inductive Spells (radix : Nat) : List Char → List Nat → Prop
  | nil : Spells radix [] []
  | underscore {text : List Char} {digits : List Nat} (rest : Spells radix text digits) :
    Spells radix ('_' :: text) digits
  | digit {text : List Char} {digits : List Nat} {d : Nat} {c : Char} (hd : d < radix)
    (hc : c ∈ [d.digitChar, d.digitChar.toUpper]) (rest : Spells radix text digits) :
    Spells radix (c :: text) (d :: digits)

/-- The written forms of a number: the mark of a base and at least one digit, of which the first
    counts most. -/
inductive IsInteger : List Char → Nat → Prop
  | mk (base : Base) {mark text : List Char} {digits : List Nat}
    (hmark : mark ∈ [base.mark, base.mark.map Char.toUpper])
    (h : Spells base.radix text digits) (hne : digits ≠ []) :
    IsInteger (mark ++ text) (Nat.ofDigits base.radix digits.reverse)

theorem digitChar_written {d : Nat} (hd : d < 16) {c : Char}
    (hc : c ∈ [d.digitChar, d.digitChar.toUpper]) : c ≠ '_' ∧ c.toLower = d.digitChar := by
  have hsmall : ∀ d < 16, d.digitChar ≠ '_' ∧ d.digitChar.toLower = d.digitChar := by decide
  have hlarge : ∀ d < 16, d.digitChar.toUpper ≠ '_' ∧
      d.digitChar.toUpper.toLower = d.digitChar := by decide
  simp only [List.mem_cons, List.not_mem_nil, or_false] at hc
  rcases hc with rfl | rfl
  · exact hsmall d hd
  · exact hlarge d hd

theorem digitChar_value : ∀ d < 16, d.digitChar.isAlphanum = true ∧ digitValue d.digitChar = d := by
  decide

variable {radix : Nat} {text : List Char} {digits : List Nat}

namespace Spells

theorem lt_radix (h : Spells radix text digits) : ∀ d ∈ digits, d < radix := by
  induction h with
  | nil => intro d hd; cases hd
  | underscore _ ih => exact ih
  | digit hd _ _ ih => exact List.forall_mem_cons.mpr ⟨hd, ih⟩

/-- Without its underscores and in small letters, a text is made of the digits that it spells. -/
theorem ungrouped (h : Spells radix text digits) (hradix : radix ≤ 16) :
    (text.filter (· ≠ '_')).map Char.toLower = digits.map Nat.digitChar := by
  induction h with
  | nil => rfl
  | underscore _ ih => exact ih
  | @digit text digits d c hd hc _ ih =>
    obtain ⟨hline, hlower⟩ := digitChar_written (Nat.lt_of_lt_of_le hd hradix) hc
    have hkept : decide (c ≠ '_') = true := decide_eq_true hline
    rw [List.filter_cons, if_pos hkept, List.map_cons, List.map_cons, ih, hlower]

end Spells

/-! ## The value of digits -/

/-- Computing the value goes from the first digit on; positional notation starts with the last. -/
theorem foldl_digitValue (hdigits : ∀ d ∈ digits, d < 16) :
    (digits.map Nat.digitChar).foldl (fun n c => radix * n + digitValue c) 0 =
      Nat.ofDigits radix digits.reverse := by
  rw [List.foldl_map, Nat.ofDigits_eq_foldr, List.foldr_reverse]
  -- Both are folds from the left now, and each step does the same to the number so far.
  refine List.foldl_ext _ _ _ fun n d hd => ?_
  rw [(digitChar_value d (hdigits d hd)).2, Nat.add_comm, Nat.cast_id]

/-- Digits have a value if there are any. -/
theorem digitsValue?_map (hradix : radix ≤ 16) (hne : digits ≠ [])
    (hdigits : ∀ d ∈ digits, d < radix) :
    digitsValue? radix (digits.map Nat.digitChar) = some (Nat.ofDigits radix digits.reverse) := by
  have hbound : ∀ d ∈ digits, d < 16 := fun d hd => Nat.lt_of_lt_of_le (hdigits d hd) hradix
  have hall : ((digits.map Nat.digitChar).all
      fun c => c.isAlphanum && digitValue c < radix) = true := by
    rw [List.all_map, List.all_eq_true]
    intro d hd
    obtain ⟨halpha, hvalue⟩ := digitChar_value d (hbound d hd)
    simp only [Function.comp_apply, halpha, hvalue, hdigits d hd, decide_true, Bool.and_self]
  have hsome : digits.map Nat.digitChar ≠ [] := fun h => hne (List.map_eq_nil_iff.mp h)
  rw [digitsValue?, if_pos ⟨hsome, hall⟩, foldl_digitValue hbound]

/-! ## The value of a literal -/

/-- The mark decides in which base the digits behind it are read. -/
theorem integerValue?_mark {text : String} (base : Base)
    (htext : (ungrouped text).map Char.toLower = base.mark ++ digits.map Nat.digitChar)
    (hdigits : ∀ d ∈ digits, d < base.radix) :
    integerValue? text = (digitsValue? base.radix (digits.map Nat.digitChar)).bind fun value =>
      if value < Word.signedBound then some (value : Int) else none := by
  cases base with
  | binary => rw [integerValue?, htext]; rfl
  | octal => rw [integerValue?, htext]; rfl
  | hexadecimal => rw [integerValue?, htext]; rfl
  | decimal =>
    -- The digits stand where a mark would, and must not look like one.
    refine Lexeme.integerValue?_decimal htext fun c hc => ?_
    obtain ⟨d, hd, rfl⟩ := List.mem_map.mp hc
    have hdigit : ∀ d < 10, d.digitChar.isDigit = true := by decide
    exact hdigit d (hdigits d hd)

/-- A written number has its value, unless that is too large. -/
theorem integerValue?_of_isInteger {text : String} {n : Nat} (h : IsInteger text.toList n) :
    integerValue? text = if n < 2 ^ 63 then some (n : Int) else none := by
  generalize htext : text.toList = chars at h
  cases h with
  | @mk base mark rest digits hmark h hne =>
    have hlt := h.lt_radix
    have hungrouped : (ungrouped text).map Char.toLower =
        base.mark ++ digits.map Nat.digitChar := by
      rw [Source.ungrouped, htext, List.filter_append, List.map_append,
        base.ungrouped_mark mark hmark, h.ungrouped base.radix_le]
    rw [integerValue?_mark base hungrouped hlt, digitsValue?_map base.radix_le hne hlt]
    rfl

/-- An integer that is written in any base is read as its value or, if that does not fit into a
    signed word, not at all. Both renditions write an integer that fits in the same way, in whatever
    state they are, and it is read back from there. -/
theorem read_integer_exact :
    (∀ text n, IsInteger text.toList n → ∀ span, (Expr.integer span text).read =
      if n < 2 ^ 63 then .ok (.mk span (.constant (.int n)))
      else .error (.unsupported "integer" span)) ∧
    ∀ n : Nat, n < 2 ^ 63 → ∃ text,
      (∀ span s, (Physl.renderer.fragment (.mk span (.constant (.int n)))).run.run s =
        (.ok text, s)) ∧
      (∀ span s, (Python.renderer.fragment (.mk span (.constant (.int n)))).run.run s =
        (.ok text, s)) ∧
      ∀ span, (Expr.integer span text).read = .ok (.mk span (.constant (.int n))) := by
  refine ⟨?_, ?_⟩
  · intro text n h span
    rw [Expr.read, readInteger, integerValue?_of_isInteger h]
    split_ifs <;> rfl
  · intro n hn
    refine ⟨toString (n : Int), fun _ _ => rfl, fun _ _ => rfl, fun span => ?_⟩
    have hbound : (n : Int) < Word.signedBound := Int.ofNat_lt.mpr hn
    rw [Expr.read, readInteger, Lexeme.integerValue?_toString (Int.natCast_nonneg n) hbound]

/-- The first number that does not fit, and the last one that does. -/
theorem read_integer_exact_bound :
    (Expr.integer ⟨1, 0⟩ "0X_f__F_").read = .ok (.mk ⟨1, 0⟩ (.constant (.int 255))) ∧
      (Expr.integer ⟨1, 0⟩ "0x8000000000000000").read = .error (.unsupported "integer" ⟨1, 0⟩) ∧
      ∃ text, (Physl.renderer.fragment (.mk ⟨1, 0⟩ (.constant (.int (2 ^ 63 - 1 : Nat))))).run.run
        ⟨false, [[]], ""⟩ = (.ok text, ⟨false, [[]], ""⟩) ∧
        (Expr.integer ⟨1, 0⟩ text).read =
          .ok (.mk ⟨1, 0⟩ (.constant (.int (2 ^ 63 - 1 : Nat)))) := by
  have hgrouped : IsInteger "0X_f__F_".toList 255 :=
    @IsInteger.mk .hexadecimal ['0', 'X'] ['_', 'f', '_', '_', 'F', '_'] [15, 15] (by decide)
      (.underscore <| .digit (by decide) (by decide) <| .underscore <| .underscore <|
        .digit (by decide) (by decide) <| .underscore .nil) (by decide)
  have hzeros : ∀ k, Spells 16 (List.replicate k '0') (List.replicate k 0) := by
    intro k
    induction k with
    | zero => exact .nil
    | succ k ih => exact .digit (by decide) (by decide) ih
  have hlarge : IsInteger "0x8000000000000000".toList (2 ^ 63) :=
    @IsInteger.mk .hexadecimal ['0', 'x'] ('8' :: List.replicate 15 '0') (8 :: List.replicate 15 0)
      (by decide) (.digit (by decide) (by decide) (hzeros 15)) (by decide)
  obtain ⟨text, hphysl, -, hread⟩ := read_integer_exact.2 (2 ^ 63 - 1) (by decide)
  exact ⟨read_integer_exact.1 _ _ hgrouped ⟨1, 0⟩, read_integer_exact.1 _ _ hlarge ⟨1, 0⟩, text,
    hphysl _ _, hread _⟩

end Rendition.Source
