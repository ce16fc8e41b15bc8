import Rendition.Decimal.Style
import Rendition.Proofs.Source.Naming
import Rendition.Source.Constant

/-!
# Numerals

The lexer finds a number in front of a character that ends it. A point ends a number that has a
point or an exponent already, but not an integer: there it would belong to the number.

## Main definitions

* `Lexeme.IsPower`, `Lexeme.IsFloat`: The written forms of numbers with a point or an exponent.

## Theorems

* `leads_integer`, `leads_float`: Numbers are found.
-/

namespace Rendition.Source.Lexeme

theorem toNat_of_isDigit {c : Char} (h : c.isDigit = true) : 48 ≤ c.toNat ∧ c.toNat < 58 := by
  simp only [Char.isDigit, Bool.and_eq_true, decide_eq_true_eq, ge_iff_le,
    UInt32.le_iff_toNat_le] at h
  exact ⟨h.1, Nat.lt_succ_of_le h.2⟩

/-- There are ten digits to try. -/
theorem forall_isDigit {p : Char → Bool}
    (h : ∀ n, n < 58 → (Char.ofNat n).isDigit = true → p (Char.ofNat n) = true) {c : Char}
    (hc : c.isDigit = true) : p c = true := by
  have hp := h c.toNat (toNat_of_isDigit hc).2
  rw [Char.ofNat_toNat] at hp
  exact hp hc

theorem decimalRunFrom_append {c : Char} (hdigit : c.isDigit = false) (hline : c ≠ '_')
    (rest : List Char) : ∀ (ds : List Char) (grouping : Bool), (∀ d ∈ ds, d.isDigit = true) →
      Number.decimalRunFrom grouping (ds ++ c :: rest) = ds
  | [], grouping, _ => by
    simp only [List.nil_append, Number.decimalRunFrom, hdigit, hline, Bool.false_eq_true,
      false_and, if_false]
  | d :: ds, grouping, h => by
    simp only [List.cons_append, Number.decimalRunFrom, h d List.mem_cons_self, if_true]
    rw [decimalRunFrom_append hdigit hline rest ds true fun e he => h e (List.mem_cons_of_mem d he)]

/-- A run of digits ends in front of a character that is no digit and does not group digits. -/
theorem decimalRun_append {ds : List Char} (h : ∀ d ∈ ds, d.isDigit = true) {c : Char}
    (hdigit : c.isDigit = false) (hline : c ≠ '_') (rest : List Char) :
    Number.decimalRun (ds ++ c :: rest) = ds :=
  decimalRunFrom_append hdigit hline rest ds false h

/-- Whether a character after digits marks another base, a long or an imaginary number. -/
def marksNumber (c : Char) : Bool :=
  ['x', 'X', 'o', 'O', 'b', 'B', 'j', 'J', 'l', 'L'].contains c

theorem marksNumber_of_isDigit {c : Char} (h : c.isDigit = true) : marksNumber c = false := by
  have hc := forall_isDigit (p := fun c => !marksNumber c) (by decide +kernel) h
  simpa only [Bool.not_eq_true'] using hc

theorem oneOf_eq_nil {letters : List Char} {c : Char} (h : letters.contains c = false)
    (rest : List Char) : Number.oneOf letters (c :: rest) = [] := by
  simp only [Number.oneOf, h, Bool.false_eq_true, if_false]

/-- A number that does not start like one of another base is a run of decimal digits. -/
theorem integer?_append {ds : List Char} (hds : ds ≠ []) (h : ∀ d ∈ ds, d.isDigit = true)
    {c : Char} (hdigit : c.isDigit = false) (hline : c ≠ '_') (hmarks : marksNumber c = false)
    (rest : List Char) : Number.integer? (ds ++ c :: rest) = some ds := by
  have hrun := decimalRun_append h hdigit hline rest
  have hsuffix : ['l', 'L', 'j', 'J'].contains c = false := by
    simp only [marksNumber, List.contains_eq_mem, List.mem_cons, List.not_mem_nil, or_false,
      decide_eq_false_iff_not, not_or] at hmarks ⊢
    exact ⟨hmarks.2.2.2.2.2.2.2.2.1, hmarks.2.2.2.2.2.2.2.2.2, hmarks.2.2.2.2.2.2.1,
      hmarks.2.2.2.2.2.2.2.1⟩
  have hletter : ∀ letter more, ds ++ c :: rest = '0' :: letter :: more →
      marksNumber letter = false := by
    intro letter more heq
    rcases ds with _ | ⟨d, _ | ⟨e, ds⟩⟩
    · exact absurd rfl hds
    · injection heq with hd heq
      injection heq with hc heq
      rw [← hc]
      exact hmarks
    · injection heq with hd heq
      injection heq with he heq
      rw [← he]
      exact marksNumber_of_isDigit (h e (List.mem_cons_of_mem d List.mem_cons_self))
  simp only [Number.integer?, hrun, if_neg hds, List.drop_left, oneOf_eq_nil hsuffix,
    List.append_nil]
  split
  · rename_i letter more heq
    have hother := hletter letter more heq
    simp only [marksNumber, List.contains_eq_mem, List.mem_cons, List.not_mem_nil, or_false,
      decide_eq_false_iff_not, not_or] at hother
    simp only [hother, or_self, if_false, Option.none_or]
  · rfl

theorem isDigit_ends {c : Char} (h : ends c = true) : c.isDigit = false := by
  simp only [ends, List.contains_iff_mem, List.mem_cons, List.not_mem_nil, or_false] at h
  rcases h with rfl | rfl | rfl | rfl | rfl | rfl | rfl | rfl | rfl | rfl | rfl <;> decide

theorem marksNumber_ends {c : Char} (h : ends c = true) : marksNumber c = false := by
  simp only [ends, List.contains_iff_mem, List.mem_cons, List.not_mem_nil, or_false] at h
  rcases h with rfl | rfl | rfl | rfl | rfl | rfl | rfl | rfl | rfl | rfl | rfl <;> decide

theorem ne_line_of_ends {c : Char} (h : ends c = true) : c ≠ '_' := by
  rintro rfl
  exact absurd h (by decide)

/-- The letters that start an exponent. -/
def marksExponent (c : Char) : Bool :=
  c = 'e' || c = 'E'

theorem marksExponent_ends {c : Char} (h : ends c = true) : marksExponent c = false := by
  simp only [ends, List.contains_iff_mem, List.mem_cons, List.not_mem_nil, or_false] at h
  rcases h with rfl | rfl | rfl | rfl | rfl | rfl | rfl | rfl | rfl | rfl | rfl <;> decide

theorem exponent_eq_nil {c : Char} (h : marksExponent c = false) (rest : List Char) :
    Number.exponent (c :: rest) = [] := by
  simp only [marksExponent, Bool.or_eq_false_iff, decide_eq_false_iff_not] at h
  simp only [Number.exponent, h, or_self, if_false]

/-- Digits without a point or an exponent behind them are no floating-point number. -/
theorem float?_eq_none {ds : List Char} (h : ∀ d ∈ ds, d.isDigit = true) {c : Char}
    (hdigit : c.isDigit = false) (hline : c ≠ '_') (hmarks : marksExponent c = false)
    (hpoint : c ≠ '.') (rest : List Char) : Number.float? (ds ++ c :: rest) = none := by
  simp only [Number.float?, decimalRun_append h hdigit hline rest, List.drop_left,
    exponent_eq_nil hmarks]
  split
  · rename_i more heq
    injection heq with hc
    exact absurd hc hpoint
  · simp only [ne_eq, not_true_eq_false, if_false, if_true, ite_self]

theorem isDigit_takes {c : Char} (h : c.isDigit = true) : Gap.takes c = false := by
  have hc := forall_isDigit (p := fun c => !Gap.takes c) (by decide +kernel) h
  simpa only [Bool.not_eq_true'] using hc

theorem startsName_of_isDigit {c : Char} (h : c.isDigit = true) : Text.startsName c = false := by
  have hc := forall_isDigit (p := fun c => !Text.startsName c) (by decide +kernel) h
  simpa only [Bool.not_eq_true'] using hc

theorem isQuote_of_isDigit {c : Char} (h : c.isDigit = true) : isQuote c = false := by
  have hc := forall_isDigit (p := fun c => !isQuote c) (by decide +kernel) h
  simpa only [Bool.not_eq_true'] using hc

theorem letters_of_isDigit {c : Char} (h : c.isDigit = true) :
    Delimiter.letters.contains c = false := by
  have hc := forall_isDigit (p := fun c => !Delimiter.letters.contains c) (by decide +kernel) h
  simpa only [Bool.not_eq_true'] using hc

/-- No string literal starts with a digit. -/
theorem open?_of_isDigit {d : Char} (h : d.isDigit = true) (rest : List Char) :
    Delimiter.open? (d :: rest) = none := by
  refine open?_eq_none fun c hc => ?_
  rw [List.dropWhile_cons_of_neg (by rw [letters_of_isDigit h]; decide)] at hc
  cases hc
  exact isQuote_of_isDigit h

/-- An integer is found in front of a character that ends it, a point excepted. -/
theorem leads_integer {g : Gap} (hg : g.Plain) {text : String} (htext : text.toList ≠ [])
    (hdigits : ∀ d ∈ text.toList, d.isDigit = true) {c : Char} (hc : ends c = true)
    (hpoint : c ≠ '.') (rest : List Char) : Leads ⟨g, .integer, text⟩ (c :: rest) := by
  obtain ⟨d, ds, hlist⟩ := List.exists_cons_of_ne_nil htext
  have hd : d.isDigit = true := hdigits d (by rw [hlist]; exact List.mem_cons_self)
  refine leads_code hg ?_ htext ?_ ?_ ?_
  · intro e he
    rw [hlist] at he
    cases he
    exact isDigit_takes hd
  · rw [hlist]
    exact open?_of_isDigit hd _
  · have hfloat := float?_eq_none hdigits (isDigit_ends hc) (ne_line_of_ends hc)
      (marksExponent_ends hc) hpoint rest
    have hinteger := integer?_append htext hdigits (isDigit_ends hc) (ne_line_of_ends hc)
      (marksNumber_ends hc) rest
    rw [hlist] at hfloat hinteger ⊢
    rw [List.cons_append] at hfloat hinteger ⊢
    simp only [codeToken, startsName_of_isDigit hd, Bool.false_eq_true, if_false, hfloat, hinteger]
  · exact ⟨TokenKind.noConfusion, TokenKind.noConfusion⟩

/-- An exponent of ten as it is written in a number, or nothing. -/
inductive IsPower : List Char → Prop
  | absent : IsPower []
  | positive {ds : List Char} (hds : ds ≠ []) (h : ∀ d ∈ ds, d.isDigit = true) :
    IsPower ('e' :: ds)
  | negative {ds : List Char} (hds : ds ≠ []) (h : ∀ d ∈ ds, d.isDigit = true) :
    IsPower ('e' :: '-' :: ds)

/-- The written form of a number with a point or an exponent. -/
inductive IsFloat : List Char → Prop
  | pointed {whole fraction power : List Char} (hwhole : whole ≠ [])
    (h : ∀ d ∈ whole, d.isDigit = true) (hfraction : ∀ d ∈ fraction, d.isDigit = true)
    (hpower : IsPower power) : IsFloat (whole ++ '.' :: (fraction ++ power))
  | scaled {whole power : List Char} (hwhole : whole ≠ []) (h : ∀ d ∈ whole, d.isDigit = true)
    (hpower : IsPower power) (hne : power ≠ []) : IsFloat (whole ++ power)

theorem exponent_append {power : List Char} (h : IsPower power) {c : Char} (hc : ends c = true)
    (rest : List Char) : Number.exponent (power ++ c :: rest) = power := by
  have hrun {ds : List Char} (hds : ∀ d ∈ ds, d.isDigit = true) :
      Number.decimalRun (ds ++ c :: rest) = ds :=
    decimalRun_append hds (isDigit_ends hc) (ne_line_of_ends hc) rest
  cases h with
  | absent => exact exponent_eq_nil (marksExponent_ends hc) rest
  | @positive ds hds h =>
    obtain ⟨d, more, rfl⟩ := List.exists_cons_of_ne_nil hds
    have hsign : Number.oneOf ['+', '-'] ((d :: more) ++ c :: rest) = [] := by
      refine oneOf_eq_nil (Bool.eq_false_iff.mpr fun hmem => ?_) _
      simp only [List.contains_iff_mem, List.mem_cons, List.not_mem_nil, or_false] at hmem
      have hd := h d List.mem_cons_self
      rcases hmem with rfl | rfl <;> exact absurd hd (by decide)
    simp only [List.cons_append] at hsign
    have hdigits := hrun h
    simp only [List.cons_append] at hdigits
    simp only [Number.exponent, List.cons_append, hsign, List.length_nil, List.drop_zero, hdigits,
      true_or, if_true, reduceCtorEq, if_false, List.nil_append]
  | @negative ds hds h =>
    have hsign : Number.oneOf ['+', '-'] ('-' :: (ds ++ c :: rest)) = ['-'] := rfl
    simp only [Number.exponent, List.cons_append, hsign, List.length_singleton, List.drop_succ_cons,
      List.drop_zero, hrun h, true_or, if_true, hds, if_false, List.cons_append, List.nil_append]

/-- The character behind the fraction or the whole part of a number. -/
theorem head_power {power : List Char} (h : IsPower power) {c : Char} (hc : ends c = true)
    (rest : List Char) : ∃ e more, power ++ c :: rest = e :: more ∧ e.isDigit = false ∧ e ≠ '_' ∧
      marksNumber e = false := by
  cases h with
  | absent => exact ⟨c, rest, rfl, isDigit_ends hc, ne_line_of_ends hc, marksNumber_ends hc⟩
  | positive hds h => exact ⟨'e', _, rfl, by decide, by decide, by decide⟩
  | negative hds h => exact ⟨'e', _, rfl, by decide, by decide, by decide⟩

theorem float?_append {text : List Char} (h : IsFloat text) {c : Char} (hc : ends c = true)
    (rest : List Char) : Number.float? (text ++ c :: rest) = some text := by
  have himaginary : Number.oneOf ['j', 'J'] (c :: rest) = [] := by
    refine oneOf_eq_nil ?_ rest
    have hmarks := marksNumber_ends hc
    simp only [marksNumber, List.contains_eq_mem, List.mem_cons, List.not_mem_nil, or_false,
      decide_eq_false_iff_not, not_or] at hmarks ⊢
    exact ⟨hmarks.2.2.2.2.2.2.1, hmarks.2.2.2.2.2.2.2.1⟩
  cases h with
  | @pointed whole fraction power hwhole h hfraction hpower =>
    obtain ⟨e, more, hhead, hdigit, hline, -⟩ := head_power hpower hc rest
    have hrun : Number.decimalRun (whole ++ '.' :: (fraction ++ e :: more)) = whole :=
      decimalRun_append h (by decide) (by decide) _
    have hbehind : Number.decimalRun (fraction ++ e :: more) = fraction :=
      decimalRun_append hfraction hdigit hline more
    have hpoint : (whole ++ '.' :: fraction).length = whole.length + (fraction.length + 1) := by
      rw [List.length_append, List.length_cons]
    have hdrop : (whole ++ '.' :: (fraction ++ e :: more)).drop
        (whole ++ '.' :: fraction).length = e :: more := by
      rw [← List.cons_append, ← List.append_assoc, List.drop_left]
    have hmantissa : whole ++ '.' :: fraction ≠ [] := List.append_ne_nil_of_left_ne_nil hwhole _
    have hpow := exponent_append hpower hc rest
    rw [hhead] at hpow
    have hend : (whole ++ '.' :: (fraction ++ e :: more)).drop
        ((whole ++ '.' :: fraction).length + power.length) = c :: rest := by
      rw [← List.drop_drop, hdrop, ← hhead, List.drop_left]
    rw [List.append_assoc, List.cons_append, List.append_assoc, hhead]
    simp only [Number.float?, hrun, List.drop_left, hbehind, hwhole, false_and, if_false]
    simp only [hmantissa, ne_eq, not_false_eq_true, if_true, hdrop, hpow, hend, himaginary,
      List.append_nil, List.append_assoc, List.cons_append]
  | @scaled whole power hwhole h hpower hne =>
    obtain ⟨e, more, hhead, hdigit, hline, -⟩ := head_power hpower hc rest
    have hrun : Number.decimalRun (whole ++ e :: more) = whole :=
      decimalRun_append h hdigit hline more
    have hpow := exponent_append hpower hc rest
    rw [hhead] at hpow
    have hend : (e :: more).drop power.length = c :: rest := by rw [← hhead, List.drop_left]
    have he : e = 'e' := by
      cases hpower with
      | absent => exact absurd rfl hne
      | positive hds h => cases hhead; rfl
      | negative hds h => cases hhead; rfl
    subst he
    rw [List.append_assoc, hhead]
    simp only [Number.float?, hrun, List.drop_left]
    split
    · rename_i heq
      injection heq with hchar
      exact absurd hchar (by decide)
    · simp only [ne_eq, not_true_eq_false, if_false, hwhole, not_false_eq_true, if_true, hpow, hne,
        hend, himaginary, List.append_nil]

/-- The integer at the start of a number with a point or an exponent is not longer than it. -/
theorem integer?_of_isFloat {text : List Char} (h : IsFloat text) {c : Char} (hc : ends c = true)
    (rest : List Char) : ∃ whole : List Char, whole.length ≤ text.length ∧
      Number.integer? (text ++ c :: rest) = some whole := by
  cases h with
  | @pointed whole fraction power hwhole h hfraction hpower =>
    refine ⟨whole, ?_, ?_⟩
    · rw [List.length_append]
      exact Nat.le_add_right _ _
    · rw [List.append_assoc, List.cons_append]
      exact integer?_append hwhole h (by decide) (by decide) (by decide) _
  | @scaled whole power hwhole h hpower hne =>
    obtain ⟨e, more, hhead, hdigit, hline, hmarks⟩ := head_power hpower hc rest
    refine ⟨whole, ?_, ?_⟩
    · rw [List.length_append]
      exact Nat.le_add_right _ _
    · rw [List.append_assoc, hhead]
      exact integer?_append hwhole h hdigit hline hmarks more

theorem head_isFloat {text : List Char} (h : IsFloat text) :
    ∃ d ds, text = d :: ds ∧ d.isDigit = true := by
  cases h with
  | @pointed whole fraction power hwhole h hfraction hpower =>
    obtain ⟨d, ds, rfl⟩ := List.exists_cons_of_ne_nil hwhole
    exact ⟨d, _, rfl, h d List.mem_cons_self⟩
  | @scaled whole power hwhole h hpower hne =>
    obtain ⟨d, ds, rfl⟩ := List.exists_cons_of_ne_nil hwhole
    exact ⟨d, _, rfl, h d List.mem_cons_self⟩

/-- A floating-point number is found in front of a character that ends it. -/
theorem leads_float {g : Gap} (hg : g.Plain) {text : String} (hfloat : IsFloat text.toList)
    {c : Char} (hc : ends c = true) (rest : List Char) : Leads ⟨g, .float, text⟩ (c :: rest) := by
  obtain ⟨d, ds, hlist, hd⟩ := head_isFloat hfloat
  obtain ⟨whole, hlength, hinteger⟩ := integer?_of_isFloat hfloat hc rest
  refine leads_code hg ?_ ?_ ?_ ?_ ?_
  · intro e he
    rw [hlist] at he
    cases he
    exact isDigit_takes hd
  · rw [hlist]
    exact List.cons_ne_nil d ds
  · rw [hlist]
    exact open?_of_isDigit hd _
  · have hfound := float?_append hfloat hc rest
    rw [hlist] at hfound hinteger hlength ⊢
    rw [List.cons_append] at hfound hinteger ⊢
    simp only [codeToken, startsName_of_isDigit hd, Bool.false_eq_true, if_false, hfound, hinteger,
      Nat.not_lt.mpr hlength]
  · exact ⟨TokenKind.noConfusion, TokenKind.noConfusion⟩

/-! ## Written forms -/

theorem digits_toDigits (n : Nat) : ∀ d ∈ Nat.toDigits 10 n, d.isDigit = true :=
  fun _ hd => Nat.isDigit_of_mem_toDigits (by decide) (by decide) hd

theorem toList_toString_nat (n : Nat) : (toString n).toList = Nat.toDigits 10 n := by
  rw [Nat.toString_eq_repr, Nat.toList_repr]

theorem forall_isDigit_append {as bs : List Char} (ha : ∀ d ∈ as, d.isDigit = true)
    (hb : ∀ d ∈ bs, d.isDigit = true) : ∀ d ∈ as ++ bs, d.isDigit = true :=
  fun d hd => (List.mem_append.mp hd).elim (ha d) (hb d)

theorem forall_isDigit_zeros (n : Nat) : ∀ d ∈ (Style.zeros n).toList, d.isDigit = true := by
  intro d hd
  rw [Style.zeros, String.toList_ofList] at hd
  rw [List.eq_of_mem_replicate hd]
  decide

/-- A number without an exponent has a digit on each side of its point. -/
theorem isFloat_plain {digits : List Char} (h : ∀ d ∈ digits, d.isDigit = true)
    (hne : digits ≠ []) (point : Int) : IsFloat (Style.plain digits point).toList := by
  unfold Style.plain
  split
  · have hpointed := @IsFloat.pointed ['0'] _ _ (List.cons_ne_nil _ _) (by simp)
      (forall_isDigit_append (forall_isDigit_zeros (-point).toNat) h) .absent
    simpa only [String.toList_append, String.toList_ofList, List.append_nil, List.append_assoc,
      List.cons_append, List.nil_append, show "0.".toList = ['0', '.'] from rfl] using hpointed
  · rename_i hpositive
    have hwhole : ∀ d ∈ digits.take point.toNat ++
        (Style.zeros (point.toNat - digits.length)).toList, d.isDigit = true :=
      forall_isDigit_append (fun d hd => h d (List.mem_of_mem_take hd)) (forall_isDigit_zeros _)
    have htake : digits.take point.toNat ≠ [] := by
      obtain ⟨d, ds, rfl⟩ := List.exists_cons_of_ne_nil hne
      obtain ⟨n, hn⟩ : ∃ n, point.toNat = n + 1 := ⟨point.toNat - 1, by omega⟩
      rw [hn, List.take_succ_cons]
      exact List.cons_ne_nil _ _
    have hfraction : ∀ d ∈ (if (digits.drop point.toNat).isEmpty then "0"
        else String.ofList (digits.drop point.toNat)).toList, d.isDigit = true := by
      intro d hd
      split at hd
      · rw [show "0".toList = ['0'] from rfl, List.mem_singleton] at hd
        rw [hd]
        decide
      · rw [String.toList_ofList] at hd
        exact h d (List.mem_of_mem_drop hd)
    have hpointed := IsFloat.pointed (List.append_ne_nil_of_left_ne_nil htake _) hwhole hfraction
      .absent
    simpa only [String.toList_append, String.toList_ofList, List.append_nil, List.append_assoc,
      List.nil_append, List.cons_append, show ".".toList = ['.'] from rfl] using hpointed

theorem isPower_source (exponent : Int) :
    IsPower ("e" ++ (if exponent < 0 then "-" else Style.source.positive) ++
      toString exponent.natAbs).toList := by
  rw [String.toList_append, String.toList_append, toList_toString_nat]
  split
  · exact .negative Nat.toDigits_ne_nil (digits_toDigits _)
  · exact .positive Nat.toDigits_ne_nil (digits_toDigits _)

/-- A number with an exponent has at least one digit before it. -/
theorem isFloat_scientific {digits : List Char} (h : ∀ d ∈ digits, d.isDigit = true)
    (hne : digits ≠ []) (point : Int) :
    IsFloat (Style.source.scientific digits point).toList := by
  obtain ⟨d, ds, rfl⟩ := List.exists_cons_of_ne_nil hne
  have hfirst : ∀ e ∈ [d], e.isDigit = true := fun e he => h e (by
    rw [List.mem_singleton.mp he]
    exact List.mem_cons_self)
  have hpower := isPower_source (point - 1)
  rcases ds with _ | ⟨e, ds⟩
  · have hscaled := IsFloat.scaled (List.cons_ne_nil d []) hfirst hpower (by
      rw [String.toList_append, String.toList_append]
      exact List.cons_ne_nil _ _)
    simpa only [Style.scientific, String.toList_append, String.toList_ofList,
      List.drop_succ_cons, List.drop_zero, List.isEmpty_nil, if_true, List.take_succ_cons,
      List.take_zero, List.append_assoc, show "".toList = [] from rfl, List.nil_append]
      using hscaled
  · have hpointed := IsFloat.pointed (List.cons_ne_nil d []) hfirst
      (fun a ha => h a (List.mem_cons_of_mem d ha)) hpower
    simpa only [Style.scientific, String.toList_append, String.toList_ofList, List.isEmpty_cons,
      List.drop_succ_cons, List.drop_zero, Bool.false_eq_true, if_false, List.take_succ_cons,
      List.take_zero, List.append_assoc, show ".".toList = ['.'] from rfl, List.cons_append,
      List.nil_append] using hpointed

theorem floatValue?_minus (text : String) : floatValue? ("-" ++ text) = none := by
  have hminus : ungrouped ("-" ++ text) = '-' :: ungrouped text := by
    rw [ungrouped, String.toList_append]
    rfl
  have hwhole : ∀ cs : List Char, ((('-' :: cs).takeWhile fun c => !(c = 'e' || c = 'E')).takeWhile
      fun c => c ≠ '.') = '-' :: ((cs.takeWhile fun c => !(c = 'e' || c = 'E')).takeWhile
      fun c => c ≠ '.') := fun _ => rfl
  simp only [floatValue?, hminus, Decimal.ofText?, hwhole, List.cons_append, List.all_cons,
    show '-'.isDigit = false from rfl, Bool.false_and, Bool.false_eq_true, and_false, if_false,
    Option.map_none]

/-- The written form of a double that can be read back has a point or an exponent. -/
theorem isFloat_text {x y : Float} (h : floatValue? (Style.source.text x) = some y) :
    IsFloat (Style.source.text x).toList := by
  have hnan : floatValue? "NaN" = none := rfl
  have hinf : floatValue? ("" ++ "inf") = none := rfl
  unfold Style.text at h ⊢
  split at h
  · rw [hnan] at h
    cases h
  rename_i hnan
  rw [if_neg hnan]
  split at h
  · rw [floatValue?_minus] at h
    cases h
  rename_i hsign
  rw [if_neg hsign]
  split at h
  · rw [hinf] at h
    cases h
  rename_i hinf
  rw [if_neg hinf, String.empty_append]
  unfold Style.decimalText
  simp only
  split
  · exact @IsFloat.pointed ['0'] ['0'] _ (List.cons_ne_nil _ _) (by simp) (by simp) .absent
  split
  · exact isFloat_plain (digits_toDigits _) Nat.toDigits_ne_nil _
  · exact isFloat_scientific (digits_toDigits _) Nat.toDigits_ne_nil _

/-! ## Values -/

/-- The value of a run of decimal digits is the number that has them. -/
theorem digitsValue?_toDigits (n : Nat) : digitsValue? 10 (Nat.toDigits 10 n) = some n := by
  have hall : ((Nat.toDigits 10 n).all fun c => c.isAlphanum && digitValue c < 10) = true := by
    rw [List.all_eq_true]
    intro c hc
    have hdigit := digits_toDigits n c hc
    have hbound := toNat_of_isDigit hdigit
    rw [Bool.and_eq_true, decide_eq_true_eq]
    refine ⟨?_, ?_⟩
    · rw [Char.isAlphanum, hdigit, Bool.or_true]
    · rw [digitValue, if_pos hdigit, show '0'.toNat = 48 from rfl]
      omega
  have hvalue : (Nat.toDigits 10 n).foldl (fun n c => 10 * n + digitValue c) 0 = n := by
    have hdigits := digits_toDigits n
    conv => rhs; rw [← Nat.ofDigitChars_ten_toDigits (n := n), Nat.ofDigitChars_eq_foldl]
    generalize Nat.toDigits 10 n = digits at hdigits ⊢
    generalize 0 = start
    induction digits generalizing start with
    | nil => rfl
    | cons c rest ih =>
      rw [List.foldl_cons, List.foldl_cons, digitValue, if_pos (hdigits c List.mem_cons_self)]
      exact ih (fun d hd => hdigits d (List.mem_cons_of_mem c hd)) _
  rw [digitsValue?, if_pos ⟨Nat.toDigits_ne_nil, hall⟩, hvalue]

theorem map_toLower_of_isDigit {digits : List Char} (h : ∀ d ∈ digits, d.isDigit = true) :
    digits.map Char.toLower = digits := by
  refine (List.map_congr_left fun d hd => ?_).trans (List.map_id digits)
  have hlower := forall_isDigit (p := fun c => c.toLower = c) (by decide +kernel) (h d hd)
  simpa only [decide_eq_true_eq, id] using hlower

/-- A number without a mark in front is read in base ten: its second character is a digit and so no
    letter of a mark. -/
theorem integerValue?_decimal {text : String} {digits : List Char}
    (htext : (ungrouped text).map Char.toLower = digits)
    (hdigits : ∀ d ∈ digits, d.isDigit = true) :
    integerValue? text = (digitsValue? 10 digits).bind fun value =>
      if value < Word.signedBound then some (value : Int) else none := by
  subst htext
  have hletter : ∀ a b rest, (ungrouped text).map Char.toLower = a :: b :: rest →
      b.isDigit = true :=
    fun a b rest h => hdigits b (by
      rw [h]
      exact List.mem_cons_of_mem a List.mem_cons_self)
  rw [integerValue?]
  split
  · rename_i digits h
    exact absurd (hletter _ _ _ h) (by decide)
  · rename_i digits h
    exact absurd (hletter _ _ _ h) (by decide)
  · rename_i digits h
    exact absurd (hletter _ _ _ h) (by decide)
  · rfl

/-- An integer is read back from its written form. -/
theorem integerValue?_toString {n : Int} (hn : 0 ≤ n) (hbound : n < Word.signedBound) :
    integerValue? (toString n) = some n := by
  obtain ⟨k, rfl⟩ := Int.eq_ofNat_of_zero_le hn
  have htext : (toString (k : Int)).toList = Nat.toDigits 10 k := toList_toString_nat k
  have hdigits := digits_toDigits k
  have hungrouped : ungrouped (toString (k : Int)) = Nat.toDigits 10 k := by
    rw [ungrouped, htext, List.filter_eq_self]
    intro c hc
    rw [decide_eq_true_eq]
    rintro rfl
    exact absurd (hdigits _ hc) (by decide)
  have hlower : (ungrouped (toString (k : Int))).map Char.toLower = Nat.toDigits 10 k := by
    rw [hungrouped, map_toLower_of_isDigit hdigits]
  have hsmall : k < Word.signedBound := Int.ofNat_lt.mp hbound
  rw [integerValue?_decimal hlower hdigits, digitsValue?_toDigits, Option.bind_some,
    if_pos hsmall]

end Rendition.Source.Lexeme
