import Rendition.Proofs.Decimal.Shortest
import Rendition.Proofs.Source.Numeral

/-!
# Written numbers

A finite double is written with digits, a point or an exponent among them. The text denotes the
shortest decimal, which rounds to the double and to no other one. So the written form of a double
says which double it is.

## Main definitions

* `Decimal.Numeral`: The written form of a number, with the decimal that it denotes.

## Theorems

* `Numeral.ofText?_eq`: A written number is read as what it denotes.
* `numeral_decimalText`: A decimal is written as a number of the same value.
* `text_inj`: No two finite doubles have the same written form.
-/

namespace Rendition

namespace Decimal

open Source.Lexeme (digits_toDigits forall_isDigit_append forall_isDigit_zeros toList_toString_nat)

/-- An exponent behind a number, with its value. -/
inductive Power : List Char → Int → Prop where
  | absent : Power [] 0
  | positive {digits : List Char} (hne : digits ≠ []) (h : ∀ d ∈ digits, d.isDigit = true) :
    Power ('e' :: digits) (natOfDigits digits)
  | negative {digits : List Char} (hne : digits ≠ []) (h : ∀ d ∈ digits, d.isDigit = true) :
    Power ('e' :: '-' :: digits) (-natOfDigits digits)

/-- The written form of a number that has a point or an exponent, with the decimal it denotes. -/
inductive Numeral : List Char → Decimal → Prop where
  | pointed {whole fraction power : List Char} {exponent : Int} (hwhole : whole ≠ [])
    (h : ∀ d ∈ whole, d.isDigit = true) (hne : fraction ≠ [])
    (hfraction : ∀ d ∈ fraction, d.isDigit = true) (hpower : Power power exponent) :
    Numeral (whole ++ '.' :: (fraction ++ power))
      ⟨natOfDigits (whole ++ fraction), exponent - fraction.length⟩
  | scaled {whole power : List Char} {exponent : Int} (hwhole : whole ≠ [])
    (h : ∀ d ∈ whole, d.isDigit = true) (hpower : Power power exponent) (hne : power ≠ []) :
    Numeral (whole ++ power) ⟨natOfDigits whole, exponent⟩

/-! ## Reading -/

theorem intOfText?_digits {digits : List Char} (hne : digits ≠ [])
    (h : ∀ d ∈ digits, d.isDigit = true) :
    intOfText? digits = some (natOfDigits digits : Int) ∧
      intOfText? ('-' :: digits) = some (-natOfDigits digits : Int) := by
  have hall : digits ≠ [] ∧ digits.all Char.isDigit = true := ⟨hne, List.all_eq_true.mpr h⟩
  have hsign : ∀ c rest, digits = c :: rest → c ≠ '-' ∧ c ≠ '+' := by
    rintro c rest rfl
    constructor <;> rintro rfl <;> exact absurd (h _ List.mem_cons_self) (by decide)
  constructor
  · rw [intOfText?.eq_def]
    split
    next sign rest heq =>
      split at heq
      next more => exact absurd rfl (hsign '-' more rfl).1
      next more => exact absurd rfl (hsign '+' more rfl).2
      next =>
        cases heq
        rw [if_pos hall, one_mul]
  · simp only [intOfText?, if_pos hall, neg_one_mul]

/-- A number is cut at its exponent and at its point. -/
theorem ofText?_append {whole fraction tail power : List Char} {exponent : Int}
    (hwhole : whole ≠ []) (h : ∀ d ∈ whole, d.isDigit = true)
    (hfraction : ∀ d ∈ fraction, d.isDigit = true)
    (htail : tail = '.' :: fraction ∨ tail = [] ∧ fraction = []) (hpower : Power power exponent) :
    ofText? (whole ++ tail ++ power) =
      some ⟨natOfDigits (whole ++ fraction), exponent - fraction.length⟩ := by
  have hmantissa : ∀ c ∈ whole ++ tail, (!(decide (c = 'e') || decide (c = 'E'))) = true := by
    have hdigit : ∀ c : Char, c.isDigit = true →
        (!(decide (c = 'e') || decide (c = 'E'))) = true := by
      intro c hc
      have hletters : c ≠ 'e' ∧ c ≠ 'E' := by
        constructor <;> rintro rfl <;> exact absurd hc (by decide)
      simp only [hletters.1, hletters.2, decide_false, Bool.or_self, Bool.not_false]
    refine List.forall_mem_append.mpr ⟨fun c hc => hdigit c (h c hc), ?_⟩
    rcases htail with rfl | ⟨rfl, -⟩
    · exact List.forall_mem_cons.mpr ⟨by decide, fun c hc => hdigit c (hfraction c hc)⟩
    · exact fun c hc => nomatch hc
  have hpoint : ∀ c ∈ whole, decide (c ≠ '.') = true := by
    intro c hc
    rw [decide_eq_true_eq]
    rintro rfl
    exact absurd (h _ hc) (by decide)
  have hwhole' : (whole ++ tail).takeWhile (fun c => decide (c ≠ '.')) = whole := by
    rw [List.takeWhile_append_of_pos hpoint]
    rcases htail with rfl | ⟨rfl, -⟩ <;> exact List.append_nil whole
  have hfraction' : ((whole ++ tail).dropWhile (fun c => decide (c ≠ '.'))).drop 1 = fraction := by
    rw [List.dropWhile_append_of_pos hpoint]
    rcases htail with rfl | ⟨rfl, rfl⟩ <;> rfl
  have hdigits : whole ++ fraction ≠ [] ∧ (whole ++ fraction).all Char.isDigit = true :=
    ⟨List.append_ne_nil_of_left_ne_nil hwhole _,
      List.all_eq_true.mpr (forall_isDigit_append h hfraction)⟩
  have htake : (whole ++ tail ++ power).takeWhile
      (fun c => !(decide (c = 'e') || decide (c = 'E'))) = whole ++ tail := by
    rw [List.takeWhile_append_of_pos hmantissa]
    cases hpower <;> exact List.append_nil _
  have hdrop : (whole ++ tail ++ power).dropWhile
      (fun c => !(decide (c = 'e') || decide (c = 'E'))) = power := by
    rw [List.dropWhile_append_of_pos hmantissa]
    cases hpower <;> rfl
  rw [ofText?]
  simp only [htake, hdrop, hwhole', hfraction', if_pos hdigits]
  cases hpower with
  | absent => rfl
  | positive hne hpower => exact congrArg (Option.map _) (intOfText?_digits hne hpower).1
  | negative hne hpower => exact congrArg (Option.map _) (intOfText?_digits hne hpower).2

/-- A written number is read as what it denotes. -/
theorem Numeral.ofText?_eq {text : List Char} {d : Decimal} (h : Numeral text d) :
    ofText? text = some d := by
  cases h with
  | pointed hwhole h hne hfraction hpower =>
    rw [← List.cons_append, ← List.append_assoc]
    exact ofText?_append hwhole h hfraction (.inl rfl) hpower
  | @scaled whole power exponent hwhole h hpower hne =>
    have hnone : ∀ d ∈ ([] : List Char), d.isDigit = true := fun d hd => absurd hd List.not_mem_nil
    have hread := ofText?_append hwhole h hnone (.inr ⟨rfl, rfl⟩) hpower
    simpa only [List.append_nil, List.length_nil, Nat.cast_zero, sub_zero] using hread

/-! ## Writing -/

theorem natOfDigits_toDigits (n : Nat) : natOfDigits (Nat.toDigits 10 n) = n :=
  Nat.ofDigitChars_ten_toDigits

theorem natOfDigits_zeros (n : Nat) (digits : List Char) :
    natOfDigits (['0'] ++ ((Style.zeros n).toList ++ digits)) = natOfDigits digits := by
  rw [Style.zeros, String.toList_ofList]
  change Nat.ofDigitChars 10 (List.replicate n '0' ++ digits) 0 = Nat.ofDigitChars 10 digits 0
  rw [Nat.ofDigitChars_append, Nat.ofDigitChars_replicate_zero, Nat.mul_zero]

theorem length_zeros (n : Nat) : (Style.zeros n).toList.length = n := by
  rw [Style.zeros, String.toList_ofList, List.length_replicate]

theorem zeros_append_zero (n : Nat) :
    (Style.zeros n).toList ++ ['0'] = (Style.zeros (n + 1)).toList := by
  rw [Style.zeros, Style.zeros, String.toList_ofList, String.toList_ofList, List.replicate_succ']

theorem natOfDigits_append_zeros (n : Nat) (digits : List Char) :
    natOfDigits (digits ++ (Style.zeros n).toList) = 10 ^ n * natOfDigits digits := by
  rw [Style.zeros, String.toList_ofList]
  change Nat.ofDigitChars 10 (digits ++ List.replicate n '0') 0 = _
  rw [Nat.ofDigitChars_append, Nat.ofDigitChars_replicate_zero]
  rfl

/-- Zeros at the end of the coefficient raise the exponent. -/
theorem value_scaled (c n : Nat) (e : Int) :
    (⟨10 ^ n * c, e⟩ : Decimal).value = (⟨c, e + n⟩ : Decimal).value := by
  rw [value, value, zpow_add₀ (by norm_num), zpow_natCast]
  push_cast
  ring

/-- A number without an exponent is written with a digit on each side of its point. -/
theorem numeral_plain (c : Nat) (point : Int) :
    ∃ d, Numeral (Style.plain (Nat.toDigits 10 c) point).toList d ∧
      d.value = (⟨c, point - (Nat.toDigits 10 c).length⟩ : Decimal).value := by
  have hdigits := digits_toDigits c
  have hne : Nat.toDigits 10 c ≠ [] := Nat.toDigits_ne_nil
  have hvalue := natOfDigits_toDigits c
  generalize Nat.toDigits 10 c = digits at hdigits hne hvalue ⊢
  rw [Style.plain]
  split
  next hpoint =>
    -- All digits stand behind the point.
    have hnumeral := @Numeral.pointed ['0'] _ _ _ (List.cons_ne_nil _ _) (by simp)
      (List.append_ne_nil_of_right_ne_nil (Style.zeros (-point).toNat).toList hne)
      (forall_isDigit_append (forall_isDigit_zeros _) hdigits) .absent
    rw [List.append_nil, natOfDigits_zeros, hvalue] at hnumeral
    simp only [String.toList_append, String.toList_ofList, List.append_assoc]
    refine ⟨_, hnumeral, ?_⟩
    rw [List.length_append, length_zeros]
    congr 2
    omega
  next hpoint =>
    by_cases hlength : digits.length ≤ point.toNat
    · -- All digits stand before the point, and a zero behind it.
      have hwhole := List.append_ne_nil_of_left_ne_nil hne
        (Style.zeros (point.toNat - digits.length)).toList
      have hnumeral := @Numeral.pointed _ ['0'] _ _ hwhole
        (forall_isDigit_append hdigits (forall_isDigit_zeros _)) (List.cons_ne_nil _ _) (by simp)
        .absent
      have hcoefficient : natOfDigits
          (digits ++ (Style.zeros (point.toNat - digits.length)).toList ++ ['0']) = 10 ^ (point.toNat - digits.length + 1) * c := by
        rw [List.append_assoc, zeros_append_zero, natOfDigits_append_zeros, hvalue]
      rw [hcoefficient] at hnumeral
      simp only [List.take_of_length_le hlength, List.drop_eq_nil_of_le hlength,
        List.isEmpty_nil, if_true, String.toList_append, String.toList_ofList,
        List.append_assoc _ ".".toList]
      refine ⟨_, hnumeral, ?_⟩
      rw [value_scaled]
      congr 2
      rw [List.length_singleton]
      omega
    · have htake : digits.take point.toNat ≠ [] := by
        rw [ne_eq, List.take_eq_nil_iff, not_or]
        exact ⟨by omega, hne⟩
      have hdrop : digits.drop point.toNat ≠ [] := by
        rw [ne_eq, List.drop_eq_nil_iff]
        exact hlength
      have hnone : Style.zeros (point.toNat - digits.length) = "" := by
        rw [Nat.sub_eq_zero_of_le (Nat.le_of_not_le hlength)]
        rfl
      have hnumeral := @Numeral.pointed _ _ _ _ htake
        (fun d hd => hdigits d (List.mem_of_mem_take hd)) hdrop
        (fun d hd => hdigits d (List.mem_of_mem_drop hd)) .absent
      rw [List.take_append_drop, hvalue] at hnumeral
      rw [List.append_nil] at hnumeral
      simp only [hnone, String.append_empty, List.isEmpty_eq_false_iff.mpr hdrop,
        Bool.false_eq_true, if_false, String.toList_append, String.toList_ofList,
        List.append_assoc _ ".".toList]
      refine ⟨_, hnumeral, ?_⟩
      congr 2
      rw [List.length_drop]
      omega

theorem power_source (exponent : Int) :
    Power ("e" ++ (if exponent < 0 then "-" else Style.source.positive) ++
      toString exponent.natAbs).toList exponent := by
  have hdigits := digits_toDigits exponent.natAbs
  have hvalue : (natOfDigits (Nat.toDigits 10 exponent.natAbs) : Int) = exponent.natAbs := by
    rw [natOfDigits_toDigits]
  rw [String.toList_append, String.toList_append, toList_toString_nat]
  split
  next hneg =>
    have hpower := Power.negative Nat.toDigits_ne_nil hdigits
    rwa [hvalue, Int.ofNat_natAbs_of_nonpos hneg.le, neg_neg] at hpower
  next hpos =>
    have hpower := Power.positive Nat.toDigits_ne_nil hdigits
    rwa [hvalue, Int.natAbs_of_nonneg (not_lt.mp hpos)] at hpower

/-- A number with an exponent is written with one digit before its point. -/
theorem numeral_scientific (c : Nat) (point : Int) :
    ∃ d, Numeral (Style.source.scientific (Nat.toDigits 10 c) point).toList d ∧
      d.value = (⟨c, point - (Nat.toDigits 10 c).length⟩ : Decimal).value := by
  have hdigits := digits_toDigits c
  have hne : Nat.toDigits 10 c ≠ [] := Nat.toDigits_ne_nil
  have hvalue := natOfDigits_toDigits c
  generalize Nat.toDigits 10 c = digits at hdigits hne hvalue ⊢
  have hpower := power_source (point - 1)
  have hsign : ("e" ++ (if point - 1 < 0 then "-" else Style.source.positive) ++
      toString (point - 1).natAbs).toList ≠ [] := by
    rw [String.toList_append, String.toList_append]
    exact List.cons_ne_nil _ _
  obtain ⟨first, rest, rfl⟩ := List.exists_cons_of_ne_nil hne
  have hfirst : ∀ d ∈ [first], d.isDigit = true := by
    simpa only [List.mem_singleton, forall_eq] using hdigits first List.mem_cons_self
  have htext : (Style.source.scientific (first :: rest) point).toList =
      first :: ((if rest.isEmpty then [] else '.' :: rest) ++
        ("e" ++ (if point - 1 < 0 then "-" else Style.source.positive) ++
          toString (point - 1).natAbs).toList) := by
    simp only [Style.scientific, String.toList_append, String.toList_ofList, List.append_assoc,
      List.take_succ_cons, List.take_zero, List.drop_succ_cons, List.drop_zero]
    cases rest
    · rfl
    · simp only [List.isEmpty_cons, Bool.false_eq_true, if_false, String.toList_append,
        String.toList_ofList]
      rfl
  rw [htext]
  rcases rest with _ | ⟨second, rest⟩
  · have hnumeral := Numeral.scaled (List.cons_ne_nil first []) hfirst hpower hsign
    rw [hvalue] at hnumeral
    exact ⟨_, hnumeral, rfl⟩
  · have hnumeral := Numeral.pointed (List.cons_ne_nil first []) hfirst
      (List.cons_ne_nil second rest) (fun d hd => hdigits d (List.mem_cons_of_mem first hd)) hpower
    have hcoefficient : natOfDigits ([first] ++ second :: rest) = c := hvalue
    rw [hcoefficient] at hnumeral
    refine ⟨_, hnumeral, ?_⟩
    congr 2
    simp only [List.length_cons]
    push_cast
    ring

/-- A decimal is written as a number of the same value. -/
theorem numeral_decimalText (d : Decimal) :
    ∃ e, Numeral (Style.source.decimalText d).toList e ∧ e.value = d.value := by
  rw [Style.decimalText]
  have hpoint : d.exponent + (Nat.toDigits 10 d.coefficient).length -
      (Nat.toDigits 10 d.coefficient).length = d.exponent := add_sub_cancel_right _ _
  split
  next hzero =>
    have hnumeral := @Numeral.pointed ['0'] ['0'] _ _ (List.cons_ne_nil _ _) (by simp)
      (List.cons_ne_nil _ _) (by simp) .absent
    refine ⟨_, hnumeral, ?_⟩
    rw [value, value, hzero, Nat.cast_zero, zero_mul]
    exact mul_eq_zero_of_left (by decide) _
  split
  · have hplain := numeral_plain d.coefficient (d.exponent + (Nat.toDigits 10 d.coefficient).length)
    rwa [hpoint] at hplain
  · have hscientific :=
      numeral_scientific d.coefficient (d.exponent + (Nat.toDigits 10 d.coefficient).length)
    rwa [hpoint] at hscientific

end Decimal

open Decimal

theorem isNaN_eq_false {x : Float} (h : x.isFinite = true) : x.isNaN = false := by
  change x.toModel.unpack.isNaN = false
  change x.toModel.unpack.isFinite = true at h
  cases hx : x.toModel.unpack <;> rw [hx] at h <;> first | rfl | cases h

theorem isInf_eq_false {x : Float} (h : x.isFinite = true) : x.isInf = false := by
  change x.toModel.unpack.isInf = false
  change x.toModel.unpack.isFinite = true at h
  cases hx : x.toModel.unpack <;> rw [hx] at h <;> first | rfl | cases h

theorem sign_iff (bits : UInt64) : bits >>> 63 = 1 ↔ 2 ^ 63 ≤ bits.toNat := by
  have hbound := bits.toNat_lt
  rw [← UInt64.toNat_inj, UInt64.toNat_shiftRight, Nat.shiftRight_eq_div_pow]
  simp only [show (63 : UInt64).toNat % 64 = 63 from rfl, show (1 : UInt64).toNat = 1 from rfl]
  omega

/-- The written form of a finite double is that of its shortest decimal, with its sign. -/
theorem text_eq {x : Float} (h : x.isFinite = true) : Style.source.text x =
    (if 2 ^ 63 ≤ x.toBits.toNat then "-" else "") ++
      Style.source.decimalText (shortest .up x) := by
  rw [Style.text, isNaN_eq_false h, isInf_eq_false h]
  simp only [Bool.false_eq_true, if_false, sign_iff]
  rfl

/-- A written number begins with a digit. -/
theorem Decimal.Numeral.exists_digit {text : List Char} {d : Decimal} (h : Numeral text d) :
    ∃ c cs, text = c :: cs ∧ c.isDigit = true := by
  have hhead : ∀ {whole : List Char} (rest : List Char), whole ≠ [] →
      (∀ d ∈ whole, d.isDigit = true) → ∃ c cs, whole ++ rest = c :: cs ∧ c.isDigit = true := by
    intro whole rest hne h
    obtain ⟨c, cs, rfl⟩ := List.exists_cons_of_ne_nil hne
    exact ⟨c, cs ++ rest, rfl, h c List.mem_cons_self⟩
  cases h with
  | pointed hwhole h => exact hhead _ hwhole h
  | scaled hwhole h => exact hhead _ hwhole h

/-- A written number has a point or an exponent. -/
theorem Decimal.Numeral.exists_mark {text : List Char} {d : Decimal} (h : Numeral text d) :
    ∃ c ∈ text, c = '.' ∨ c = 'e' := by
  cases h with
  | pointed => exact ⟨'.', List.mem_append_right _ List.mem_cons_self, .inl rfl⟩
  | scaled hwhole h hpower hne =>
    cases hpower with
    | absent => exact absurd rfl hne
    | positive => exact ⟨'e', List.mem_append_right _ List.mem_cons_self, .inr rfl⟩
    | negative => exact ⟨'e', List.mem_append_right _ List.mem_cons_self, .inr rfl⟩

/-- Decimals that are written alike have the same value. -/
theorem decimalText_inj {d e : Decimal}
    (h : Style.source.decimalText d = Style.source.decimalText e) : d.value = e.value := by
  obtain ⟨d', hd, hvalue⟩ := numeral_decimalText d
  obtain ⟨e', he, hvalue'⟩ := numeral_decimalText e
  have hread := hd.ofText?_eq
  rw [h, he.ofText?_eq] at hread
  rw [← hvalue, ← hvalue', Option.some.inj hread]

/-- No two finite doubles have the same written form. -/
theorem text_inj {x y : Float} (hx : x.isFinite = true) (hy : y.isFinite = true)
    (h : Style.source.text x = Style.source.text y) : x = y := by
  rw [text_eq hx, text_eq hy] at h
  -- A number begins with a digit, so the sign can be told from it.
  have hplain : ∀ d e : Decimal,
      "" ++ Style.source.decimalText d ≠ "-" ++ Style.source.decimalText e := by
    intro d e heq
    obtain ⟨d', hd, -⟩ := numeral_decimalText d
    obtain ⟨c, cs, hcs, hdigit⟩ := hd.exists_digit
    have hhead := congrArg String.toList heq
    rw [String.empty_append, String.toList_append, hcs] at hhead
    obtain ⟨rfl, -⟩ := List.cons.inj hhead
    cases hdigit
  have hdecimal : Style.source.decimalText (shortest .up x) =
      Style.source.decimalText (shortest .up y) ∧
      (2 ^ 63 ≤ x.toBits.toNat ↔ 2 ^ 63 ≤ y.toBits.toNat) := by
    split_ifs at h with hsign hsign' hsign'
    · exact ⟨(String.append_right_inj _).mp h, iff_of_true hsign hsign'⟩
    · exact absurd h.symm (hplain _ _)
    · exact absurd h (hplain _ _)
    · exact ⟨(String.append_right_inj _).mp h, iff_of_false hsign hsign'⟩
  obtain ⟨htext, hsign⟩ := hdecimal
  have hround := rounds_shortest .up x
  rw [decimalText_inj htext] at hround
  have hplace := hround.place_inj (rounds_shortest .up y)
  have hboundx := x.toBits.toNat_lt
  have hboundy := y.toBits.toNat_lt
  exact Float.toBits_inj.mp (UInt64.toNat_inj.mp (by omega))

end Rendition
