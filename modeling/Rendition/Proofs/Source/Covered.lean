import Rendition.Proofs.Grammar.Course
import Rendition.Proofs.Source.Numeral
import Rendition.Text.Blank

/-!
# What tokens cover

The gaps and texts of the tokens of a source text are the text, so the place of a token is the one
behind everything before it. Here the lexer is followed token by token: what it finds is at the
start of what remains, is not empty, and starts with a character that shows if a construct can start
with it. A line ends in a gap only where there is a line feed, or where the source ends.

Each step takes up characters, so the number of characters bounds the number of steps, and more
steps make no difference.

## Main definitions

* `Covers`: Tokens cover a text from a place on.
* `TokenKind.isLast`: Whether nothing follows a token of the kind.
* `codeTokens`: The tokens of code, in and outside a replacement field.

## Theorems

* `tokensWithin_cases`: What the lexer does in one step.
* `covers_tokensWithin`: The tokens of a text cover it.
* `tokensWithin_fuel`: How many steps do not matter if they are enough.
-/

namespace Rendition

namespace Text

/-! ## White space -/

/-- The code points of white space. -/
def blankCodes : List Nat :=
  blankRanges.flatMap fun range => List.range' range.1 (range.2 + 1 - range.1)

theorem mem_blankCodes {c : Char} (h : isBlank c = true) : c.toNat ∈ blankCodes := by
  simp only [isBlank, List.any_eq_true, Bool.and_eq_true, decide_eq_true_eq] at h
  obtain ⟨range, hmem, hfirst, hlast⟩ := h
  exact List.mem_flatMap.mpr ⟨range, hmem, List.mem_range'_1.mpr (by omega)⟩

theorem isBlank_of_startsName {c : Char} (h : startsName c = true) : isBlank c = false := by
  have hcodes : ∀ n ∈ blankCodes, startsName (Char.ofNat n) = false := by decide
  refine Bool.eq_false_iff.mpr fun hblank => ?_
  have hname := hcodes c.toNat (mem_blankCodes hblank)
  rw [Char.ofNat_toNat, h] at hname
  cases hname

theorem isBlank_of_isDigit {c : Char} (h : c.isDigit = true) : isBlank c = false := by
  have hcodes : ∀ n ∈ blankCodes, n < 48 ∨ 58 ≤ n := by decide
  refine Bool.eq_false_iff.mpr fun hblank => ?_
  have hdigit := Source.Lexeme.toNat_of_isDigit h
  have hcode := hcodes c.toNat (mem_blankCodes hblank)
  omega

/-- Whether a text starts with a character that shows. -/
def StartsVisibly (text : List Char) : Prop :=
  ∃ c rest, text = c :: rest ∧ isBlank c = false

theorem StartsVisibly.ne_nil {text : List Char} (h : StartsVisibly text) : text ≠ [] := by
  obtain ⟨c, rest, rfl, -⟩ := h
  exact List.cons_ne_nil c rest

theorem StartsVisibly.append {text : List Char} (h : StartsVisibly text) (more : List Char) :
    StartsVisibly (text ++ more) := by
  obtain ⟨c, rest, rfl, hc⟩ := h
  exact ⟨c, rest ++ more, rfl, hc⟩

end Text

theorem Span.after_append (s : Span) (as bs : List Char) :
    s.after (as ++ bs) = (s.after as).after bs :=
  List.foldl_append

namespace Source

open Text (StartsVisibly)

/-- What is in front of a text, and in front of the rest of it. -/
theorem prefix_append_drop {as bs text : List Char} (has : as <+: text)
    (hbs : bs <+: text.drop as.length) : as ++ bs <+: text := by
  rw [← List.prefix_iff_eq_append.mp has]
  exact (List.prefix_append_right_inj as).mpr hbs

/-! ## Gaps -/

namespace Gap

/-- A scan took characters: they are in the gap, the place is behind them, and a line ended only if
    a line feed is among them. -/
structure Scan.Took (s s' : Scan) (taken : List Char) : Prop where
  text : s'.gap.text = s.gap.text ++ taken
  span : s'.span = s.span.after taken
  breaks : s'.gap.breaksLine → s.gap.breaksLine ∨ '\n' ∈ taken

namespace Scan

theorem took_take (s : Scan) (text : List Char) : s.Took (s.take text) text :=
  ⟨rfl, rfl, .inl⟩

theorem took_lineEnd (s : Scan) : s.Took s.lineEnd ['\n'] := by
  rw [lineEnd]
  split
  · exact s.took_take _
  · exact ⟨rfl, rfl, fun _ => .inr (.head _)⟩

theorem took_blank (s : Scan) (c : Char) (width : Nat → Nat) : s.Took (s.blank c width) [c] := by
  simp only [blank]
  split <;> exact ⟨rfl, rfl, .inl⟩

theorem took_comment (s : Scan) : s.Took s.comment ['#'] :=
  ⟨rfl, rfl, .inl⟩

theorem took_continuation (s : Scan) (text : List Char) : s.Took (s.continuation text) text :=
  ⟨rfl, rfl, .inl⟩

end Scan

/-- A scan of a text came to an end: it took characters, and a line ended only with a line feed or
    with the text. -/
def Scan.Ends (s : Scan) (text : List Char) (r : Scan × List Char) : Prop :=
  ∃ taken, text = taken ++ r.2 ∧ r.1.gap.text = s.gap.text ++ taken ∧
    r.1.span = s.span.after taken ∧
    (r.1.gap.breaksLine → s.gap.breaksLine ∨ '\n' ∈ taken ∨ r.2 = [])

namespace Scan

variable {s s' : Scan} {first : List Char} {r : Scan × List Char}

theorem Took.ends (h : s.Took s' first) {rest : List Char} (hrest : s'.Ends rest r) :
    s.Ends (first ++ rest) r := by
  obtain ⟨taken, htext, hgap, hspan, hbreaks⟩ := hrest
  refine ⟨first ++ taken, by rw [List.append_assoc, ← htext], ?_, ?_, fun hr => ?_⟩
  · rw [hgap, h.text, List.append_assoc]
  · rw [hspan, h.span, Span.after_append]
  · rcases hbreaks hr with hbefore | htaken | hend
    · exact (h.breaks hbefore).imp_right fun hfirst => .inl (List.mem_append_left taken hfirst)
    · exact .inr (.inl (List.mem_append_right first htaken))
    · exact .inr (.inr hend)

theorem ends_stop (s : Scan) (text : List Char) : s.Ends text (s, text) :=
  ⟨[], rfl, (List.append_nil _).symm, rfl, .inl⟩

theorem ends_sourceEnd (s : Scan) : s.Ends [] (s.sourceEnd, []) := by
  rw [sourceEnd]
  split
  · exact s.ends_stop []
  · exact ⟨[], rfl, (List.append_nil _).symm, rfl, fun _ => .inr (.inr rfl)⟩

end Scan

theorem scanFrom_ends (s : Scan) (text : List Char) : s.Ends text (scanFrom s text) := by
  fun_induction scanFrom s text with
  | case1 s => exact s.ends_sourceEnd
  | case2 s rest hcomment ih =>
    have hline := Scan.took_lineEnd { s with inComment := false }
    exact Scan.Took.ends ⟨hline.text, hline.span, hline.breaks⟩ ih
  | case3 s c rest hcomment hline ih => exact (s.took_take [c]).ends ih
  | case4 s rest hcomment ih => exact s.took_lineEnd.ends ih
  | case5 s rest hcomment hline ih => exact (s.took_blank _ _).ends ih
  | case6 s rest hcomment hline hblank ih => exact (s.took_blank _ _).ends ih
  | case7 s c rest hcomment hline hblank htab hreturn ih => exact (s.took_blank _ _).ends ih
  | case8 s c rest hcomment hline hblank htab hreturn hseparator ih =>
    have htook : s.Took { s.take [c] with blind := true } [c] := ⟨rfl, rfl, .inl⟩
    exact htook.ends ih
  | case9 => exact (Scan.took_comment _).ends ‹_›
  | case10 s => exact (s.took_continuation ['\\']).ends (Scan.ends_sourceEnd _)
  | case11 => exact (Scan.took_continuation _ _).ends ‹_›
  | case12 => exact (Scan.took_continuation _ _).ends ‹_›
  | case13 s => exact s.ends_stop _
  | case14 s => exact s.ends_stop _

/-- The gap at the start of a text is in front of the rest. -/
theorem scan_text (span : Span) (text : List Char) :
    text = (scan span text).1.text ++ (scan span text).2.2 ∧
      (scan span text).2.1 = span.after (scan span text).1.text ∧
      ((scan span text).1.breaksLine → '\n' ∈ (scan span text).1.text ∨
        (scan span text).2.2 = []) := by
  obtain ⟨taken, htext, hgap, hspan, hbreaks⟩ := scanFrom_ends { gap := {}, span } text
  obtain rfl : (scan span text).1.text = taken := hgap
  exact ⟨htext, hspan, fun h => (hbreaks h).resolve_left nofun⟩

end Gap

/-! ## Numbers -/

namespace Number

theorem prefix_decimalRunFrom (grouping : Bool) (text : List Char) :
    decimalRunFrom grouping text <+: text := by
  fun_induction decimalRunFrom grouping text with
  | case1 => exact List.nil_prefix
  | case2 grouping c rest hdigit ih => exact (List.prefix_cons_inj c).mpr ih
  | case3 => exact (List.prefix_cons_inj _).mpr ‹_›
  | case4 => exact List.nil_prefix

theorem prefix_decimalRun (text : List Char) : decimalRun text <+: text :=
  prefix_decimalRunFrom false text

/-- A run of decimal digits starts with a digit. -/
theorem isDigit_decimalRun {text : List Char} {c : Char} {rest : List Char}
    (h : decimalRun text = c :: rest) : c.isDigit = true := by
  rcases text with _ | ⟨d, more⟩
  · cases h
  · by_cases hdigit : d.isDigit = true
    · rw [decimalRun, decimalRunFrom, if_pos hdigit] at h
      exact (List.cons.inj h).1 ▸ hdigit
    · rw [Lexeme.decimalRun_eq_nil (Bool.eq_false_iff.mpr hdigit)] at h
      cases h

theorem prefix_baseRun (isDigit : Char → Bool) (text : List Char) :
    baseRun isDigit text <+: text := by
  fun_induction baseRun isDigit text with
  | case1 => exact List.nil_prefix
  | case2 c rest hdigit ih => exact (List.prefix_cons_inj c).mpr ih
  | case3 => exact (List.prefix_cons_inj _).mpr ‹_›
  | case4 => exact List.nil_prefix
  | case5 => exact List.nil_prefix
  | case6 => exact List.nil_prefix

theorem prefix_oneOf (letters text : List Char) : oneOf letters text <+: text := by
  rcases text with _ | ⟨c, rest⟩
  · exact List.nil_prefix
  · rw [oneOf]
    split
    · exact ⟨rest, rfl⟩
    · exact List.nil_prefix

theorem prefix_exponent (text : List Char) : exponent text <+: text := by
  rcases text with _ | ⟨letter, rest⟩
  · exact List.nil_prefix
  · simp only [exponent]
    split
    · split
      · exact List.nil_prefix
      · exact (List.prefix_cons_inj letter).mpr
          (prefix_append_drop (prefix_oneOf _ rest) (prefix_decimalRun _))
    · exact List.nil_prefix

/-- Digits of another base, with the letter before them and the mark after them. -/
theorem prefix_based {isDigit : Char → Bool} {letter : Char} {rest number : List Char}
    (h : (if baseRun isDigit rest = [] then none
      else some (['0', letter] ++ baseRun isDigit rest ++
        oneOf ['l', 'L'] (rest.drop (baseRun isDigit rest).length))) = some number) :
    number <+: '0' :: letter :: rest ∧ StartsVisibly number := by
  split at h
  · cases h
  · cases h
    refine ⟨?_, '0', _, rfl, by decide⟩
    rw [List.append_assoc]
    exact (List.prefix_append_right_inj ['0', letter]).mpr
      (prefix_append_drop (prefix_baseRun _ _) (prefix_oneOf _ _))

/-- An integer literal is at the start of a text and starts with a digit. -/
theorem integer?_prefix {text number : List Char} (h : integer? text = some number) :
    number <+: text ∧ StartsVisibly number := by
  simp only [integer?, Option.or_eq_some_iff] at h
  rcases h with h | ⟨-, h⟩
  · split at h
    · split at h
      · exact prefix_based h
      · split at h
        · exact prefix_based h
        · split at h
          · exact prefix_based h
          · cases h
    · cases h
  · split at h
    · cases h
    · next hne =>
      cases h
      obtain ⟨c, rest, hrun⟩ := List.exists_cons_of_ne_nil hne
      refine ⟨prefix_append_drop (prefix_decimalRun text) (prefix_oneOf _ _),
        StartsVisibly.append ?_ _⟩
      exact ⟨c, rest, hrun, Text.isBlank_of_isDigit (isDigit_decimalRun hrun)⟩

/-- A floating-point literal is at the start of a text and starts with a digit or a point. -/
theorem float?_prefix {text number : List Char} (h : float? text = some number) :
    number <+: text ∧ StartsVisibly number := by
  unfold float? at h
  extract_lets whole rest mantissa at h
  have hwhole : ∀ more, whole ≠ [] → StartsVisibly (whole ++ more) := by
    intro more hne
    obtain ⟨c, digits, hrun⟩ := List.exists_cons_of_ne_nil hne
    exact StartsVisibly.append ⟨c, digits, hrun,
      Text.isBlank_of_isDigit (isDigit_decimalRun hrun)⟩ more
  have hrest : text.drop whole.length = rest := rfl
  have hmantissa : mantissa <+: text ∧ (mantissa ≠ [] → StartsVisibly mantissa) := by
    clear_value rest
    unfold mantissa
    split
    · next more _ _ =>
      dsimp only
      split
      · exact ⟨List.nil_prefix, fun hne => absurd rfl hne⟩
      · refine ⟨prefix_append_drop (prefix_decimalRun text) ?_, fun _ => ?_⟩
        · rw [show text.drop (decimalRun text).length = '.' :: more from hrest]
          exact (List.prefix_cons_inj '.').mpr (prefix_decimalRun more)
        · by_cases hempty : whole = []
          · rw [hempty]
            exact ⟨'.', _, rfl, by decide⟩
          · exact hwhole _ hempty
    · exact ⟨List.nil_prefix, fun hne => absurd rfl hne⟩
  by_cases hne : mantissa ≠ []
  · rw [if_pos hne] at h
    cases h
    refine ⟨prefix_append_drop (prefix_append_drop hmantissa.1 (prefix_exponent _)) ?_,
      ((hmantissa.2 hne).append _).append _⟩
    rw [List.length_append]
    exact prefix_oneOf _ _
  · rw [if_neg hne] at h
    by_cases hwhole' : whole ≠ []
    · rw [if_pos hwhole'] at h
      split at h
      · cases h
      · cases h
        rw [List.append_assoc]
        exact ⟨prefix_append_drop (prefix_decimalRun text)
          (prefix_append_drop (prefix_exponent _) (prefix_oneOf _ _)), hwhole _ hwhole'⟩
    · rw [if_neg hwhole'] at h
      cases h

end Number

/-! ## String literals -/

namespace Delimiter

/-- The opening of a literal is at the start of a text. -/
theorem open?_prefix {text opening : List Char} {d : Delimiter}
    (h : open? text = some (d, opening)) : opening <+: text ∧ StartsVisibly opening := by
  have hletters : ∀ c ∈ letters, Text.isBlank c = false := by
    have hall : letters.all (fun c => Text.isBlank c == false) = true := by decide
    exact fun c hc => beq_iff_eq.mp (List.all_eq_true.mp hall c hc)
  -- Letters show, and so does a quote.
  have hopening : ∀ {q : Char} {quotes : List Char}, Text.isBlank q = false →
      StartsVisibly (text.takeWhile letters.contains ++ q :: quotes) := by
    intro q quotes hq
    rcases hflags : text.takeWhile letters.contains with _ | ⟨c, flags⟩
    · exact ⟨q, quotes, rfl, hq⟩
    · have hc := List.all_eq_true.mp List.all_takeWhile c (hflags ▸ List.mem_cons_self)
      exact ⟨c, _, rfl, hletters c (List.contains_iff_mem.mp hc)⟩
  have hflags := List.takeWhile_prefix (p := letters.contains) (l := text)
  simp only [open?] at h
  split at h
  · next q rest hrest =>
    have hquote : [q] <+: text.drop (text.takeWhile letters.contains).length := by
      rw [hrest]
      exact ⟨rest, rfl⟩
    split at h
    · next hq =>
      cases h
      exact ⟨prefix_append_drop hflags hquote, hopening (hq ▸ by decide)⟩
    · split at h
      · next hq =>
        have hvisible : Text.isBlank q = false := by rcases hq with rfl | rfl <;> decide
        split at h
        · next hquotes =>
          cases h
          refine ⟨prefix_append_drop hflags ?_, hopening hvisible⟩
          rw [hrest, ← List.take_append_drop 2 rest, hquotes]
          exact List.prefix_append [q, q, q] _
        · cases h
          exact ⟨prefix_append_drop hflags hquote, hopening hvisible⟩
      · cases h
  · cases h

/-- Where a scan came to an end inside a text. A closing quote takes up a character. -/
def Stop.Within (text : List Char) : Stop → Prop
  | closed body => body <+: text ∧ body ≠ []
  | field body => body ++ ['\x7b'] <+: text
  | broken => True

theorem Stop.Within.prepend {front rest : List Char} {stop : Stop} (h : stop.Within rest) :
    (stop.prepend front).Within (front ++ rest) := by
  cases stop with
  | closed body =>
    exact ⟨(List.prefix_append_right_inj front).mpr h.1, List.append_ne_nil_of_right_ne_nil _ h.2⟩
  | field body =>
    rw [Stop.prepend, Within, List.append_assoc]
    exact (List.prefix_append_right_inj front).mpr h
  | broken => exact h

theorem scanWithin_within (d : Delimiter) (fuel : Nat) (fresh : Bool) (text : List Char) :
    (d.scanWithin fuel fresh text).Within text := by
  -- What is passed over in one step is in front of the rest.
  have step : ∀ {c : Char} {rest : List Char} (n : Nat) {stop : Stop},
      stop.Within (rest.drop n) → (stop.prepend (c :: rest.take n)).Within (c :: rest) := by
    intro c rest n stop h
    have h : (stop.prepend (c :: rest.take n)).Within (c :: rest.take n ++ rest.drop n) := h.prepend
    rwa [List.cons_append, List.take_append_drop] at h
  fun_induction scanWithin d fuel fresh text with
  | case4 => exact step 1 ‹_›
  | case9 | case10 | case11 => exact step _ ‹_›
  | case13 | case16 => exact step 0 ‹_›
  | case5 | case7 => exact List.prefix_append _ _
  | case12 fuel fresh rest _ _ _ _ hquotes =>
    refine ⟨?_, List.cons_ne_nil _ _⟩
    rw [← List.take_append_drop 2 rest, hquotes]
    exact List.prefix_append [d.quote, d.quote, d.quote] _
  | case14 => exact ⟨List.prefix_append [d.quote] _, List.cons_ne_nil _ _⟩
  | case1 | case2 | case3 | case6 | case8 | case15 => exact trivial

end Delimiter

/-! ## Tokens -/

/-- A mark shows. -/
theorem longestMark?_prefix {text : List Char} {mark : String} (h : longestMark? text = some mark) :
    mark.toList <+: text ∧ StartsVisibly mark.toList := by
  have hmarks : ∀ m ∈ marks, m.toList.head?.any (fun c => !Text.isBlank c) = true := by
    decide +kernel
  rw [longestMark?] at h
  have hfront := List.find?_some h
  refine ⟨List.isPrefixOf_iff_prefix.mp hfront, ?_⟩
  have hhead := hmarks mark (List.mem_of_find?_eq_some h)
  rcases hlist : mark.toList with _ | ⟨c, rest⟩
  · rw [hlist] at hhead
    cases hhead
  · rw [hlist, List.head?_cons, Option.any_some, Bool.not_eq_true'] at hhead
    exact ⟨c, rest, rfl, hhead⟩

/-- Whether nothing follows a token of the kind. -/
def TokenKind.isLast : TokenKind → Bool
  | sourceEnd | unknown => true
  | _ => false

theorem TokenKind.isLast_iff {kind : TokenKind} :
    kind.isLast = true ↔ kind = .sourceEnd ∨ kind = .unknown := by
  cases kind <;> decide

/-- Whether tokens of the kind stand in front of others in a text. -/
def TokenKind.isInner (kind : TokenKind) : Bool :=
  !kind.isLast && kind != .lineEnd

theorem TokenKind.isInner_iff {kind : TokenKind} :
    kind.isInner = true ↔ kind.isLast = false ∧ kind ≠ .lineEnd := by
  rw [isInner, Bool.and_eq_true, Bool.not_eq_true', bne_iff_ne]

/-- What the lexer finds in code is at the start of the text and shows, unless it ends there. -/
structure Found (text : List Char) (found : TokenKind × List Char) : Prop where
  front : found.2 <+: text
  kind : found.1 ≠ .lineEnd
  visible : found.1.isLast = false → StartsVisibly found.2

theorem found_codeToken (inField : Bool) (text : List Char) :
    Found text (codeToken inField text) := by
  rcases text with _ | ⟨c, rest⟩
  · exact ⟨List.nil_prefix, nofun, nofun⟩
  have hconversion : ∀ {letter : Char} {more : List Char},
      Found ('!' :: letter :: more) (.conversion, ['!', letter]) := fun {letter more} =>
    ⟨List.prefix_append ['!', letter] more, nofun, fun _ => ⟨'!', _, rfl, by decide⟩⟩
  have hunknown : Found (c :: rest) (.unknown, [c]) := ⟨List.prefix_append [c] rest, nofun, nofun⟩
  rw [codeToken.eq_def]
  dsimp only
  split
  · next hname =>
    exact ⟨(List.prefix_cons_inj c).mpr (List.takeWhile_prefix _), nofun,
      fun _ => ⟨c, _, rfl, Text.isBlank_of_startsName hname⟩⟩
  · split
    · next float integer hfloat hinteger =>
      obtain ⟨hfront, hvisible⟩ := Number.float?_prefix hfloat
      obtain ⟨hfront', hvisible'⟩ := Number.integer?_prefix hinteger
      split
      · exact ⟨hfront', nofun, fun _ => hvisible'⟩
      · exact ⟨hfront, nofun, fun _ => hvisible⟩
    · next float hfloat _ =>
      obtain ⟨hfront, hvisible⟩ := Number.float?_prefix hfloat
      exact ⟨hfront, nofun, fun _ => hvisible⟩
    · next integer _ hinteger =>
      obtain ⟨hfront, hvisible⟩ := Number.integer?_prefix hinteger
      exact ⟨hfront, nofun, fun _ => hvisible⟩
    · rcases hmark : longestMark? (c :: rest) with _ | mark
      · dsimp only
        split
        · split
          · exact hconversion
          · exact hunknown
        · exact hunknown
      · obtain ⟨hfront, hvisible⟩ := longestMark?_prefix hmark
        have hfound : Found (c :: rest) (.mark, mark.toList) := ⟨hfront, nofun, fun _ => hvisible⟩
        dsimp only
        split
        · split
          · exact hconversion
          · exact hfound
        · exact hfound

/-- A token is in front of a text: the gap before it is, and then its own text. -/
structure Token.Fronts (t : Token) (span : Span) (text rest : List Char) : Prop where
  text : text = t.gap.text ++ (t.text.toList ++ rest)
  span : t.span = span.after t.gap.text
  inner : t.kind.isInner
  breaks : t.gap.breaksLine → '\n' ∈ t.gap.text
  visible : t.kind.isSolid → StartsVisibly t.text.toList

/-- Tokens cover a text from a place on, up to a token that nothing follows. -/
inductive Covers : Span → List Char → List Token → Prop
  | nil {span : Span} {text : List Char} : Covers span text []
  | last {span : Span} {text rest : List Char} {t : Token} (htext : text = t.gap.text ++ rest)
    (hspan : t.span = span.after t.gap.text) (hlast : t.kind.isLast) : Covers span text [t]
  | cons {span : Span} {text rest : List Char} {t : Token} {ts : List Token}
    (ht : t.Fronts span text rest) (hrest : Covers (t.span.after t.text.toList) rest ts) :
    Covers span text (t :: ts)

/-- A token without a gap before it. -/
theorem fronts_inside (kind : TokenKind) {body text : List Char} (hbody : body <+: text)
    (span : Span) (hinner : kind.isInner) (hvisible : kind.isSolid = false ∨ StartsVisibly body) :
    Token.Fronts ⟨{}, span, kind, String.ofList body⟩ span text (text.drop body.length) where
  text := by
    rw [String.toList_ofList, List.prefix_iff_eq_append.mp hbody]
    rfl
  span := rfl
  inner := hinner
  breaks := nofun
  visible hsolid := by
    rw [String.toList_ofList]
    exact hvisible.resolve_left fun h => Bool.false_ne_true (h.symm.trans hsolid)

/-- A token behind a gap. -/
theorem fronts_scan (gap' : Gap) (kind : TokenKind) {body : List Char} {gap : Gap}
    {span span' : Span} {text rest : List Char} (hscan : Gap.scan span text = (gap, span', rest))
    (hgap : gap'.text = gap.text) (hbreaks : gap'.breaksLine = gap.breaksLine)
    (hbody : body <+: rest) (hinner : kind.isInner) (hvisible : StartsVisibly body) :
    Token.Fronts ⟨gap', span', kind, String.ofList body⟩ span text (rest.drop body.length) := by
  obtain ⟨htext, hspan, hend⟩ := Gap.scan_text span text
  rw [hscan] at htext hspan hend
  refine ⟨?_, ?_, hinner, fun h => ?_, fun _ => ?_⟩
  · rw [String.toList_ofList, List.prefix_iff_eq_append.mp hbody, hgap]
    exact htext
  · rw [hgap]
    exact hspan
  · rw [hgap]
    refine (hend (hbreaks ▸ h)).resolve_right fun hnil => ?_
    rw [show rest = [] from hnil] at hbody
    exact hvisible.ne_nil (List.prefix_nil.mp hbody)
  · rwa [String.toList_ofList]

/-- A token that nothing follows, behind a gap. -/
theorem covers_last (gap' : Gap) (kind : TokenKind) {gap : Gap} {span span' : Span}
    {text rest : List Char} (hscan : Gap.scan span text = (gap, span', rest))
    (hgap : gap'.text = gap.text) (hlast : kind.isLast) (s : String) :
    Covers span text [⟨gap', span', kind, s⟩] := by
  obtain ⟨htext, hspan, -⟩ := Gap.scan_text span text
  rw [hscan, ← hgap] at htext hspan
  exact .last htext hspan hlast

theorem Token.Fronts.length_lt {t : Token} {span : Span} {text rest : List Char}
    (h : t.Fronts span text rest) (hne : t.text.toList ≠ []) : rest.length < text.length := by
  have hpos := List.length_pos_iff.mpr hne
  rw [h.text, List.length_append, List.length_append]
  omega

/-- One step of the lexer: it ends with a token that nothing follows, or it finds some tokens and
    goes on behind them. -/
def Steps (modes : List Mode) (span : Span) (text : List Char) : Prop :=
  (∃ t, Covers span text [t] ∧ ∀ fuel, tokensWithin (fuel + 1) modes span text = [t]) ∨
    ∃ ts modes' span' rest, (∀ us, Covers span' rest us → Covers span text (ts ++ us)) ∧
      rest.length < text.length ∧ ∀ fuel, tokensWithin (fuel + 1) modes span text =
        ts ++ tokensWithin fuel modes' span' rest

variable {modes outer : List Mode} {span : Span} {text : List Char}

/-- One token is found, and the lexer goes on behind it. -/
theorem Token.Fronts.steps {t : Token} {rest : List Char} (h : t.Fronts span text rest)
    (hne : t.text.toList ≠ []) (modes' : List Mode)
    (heq : ∀ fuel, tokensWithin (fuel + 1) modes span text =
      t :: tokensWithin fuel modes' (t.span.after t.text.toList) rest) : Steps modes span text :=
  .inr ⟨[t], modes', _, rest, fun _ hus => .cons h hus, h.length_lt hne, heq⟩

/-- Inside the text of a format string. -/
theorem steps_text (d : Delimiter) : Steps (.text d :: outer) span text := by
  have hwithin : (d.scan text).Within text := d.scanWithin_within _ true text
  rcases hstop : d.scan text with body | body | _
  · rw [hstop] at hwithin
    refine (fronts_inside .formatClose hwithin.1 span rfl (.inl rfl)).steps ?_ outer
      fun fuel => ?_
    · rw [String.toList_ofList]
      exact hwithin.2
    · rw [tokensWithin, hstop, String.toList_ofList]
  · rw [hstop] at hwithin
    -- The brace of the field follows the text, which may be empty.
    have htext := fronts_inside .formatText (List.prefix_append _ _ |>.trans hwithin) span rfl
      (.inl rfl)
    have hbrace : ['\x7b'] <+: text.drop body.length := by
      rw [← List.prefix_iff_eq_append.mp hwithin, List.append_assoc, List.drop_left]
      exact List.prefix_append _ _
    have hmark := fronts_inside .mark hbrace (span.after (String.ofList body).toList) rfl
      (.inr ⟨_, _, rfl, by decide⟩)
    refine .inr ⟨[_, _], .field 0 0 false :: .text d :: outer, _, _, fun us hus =>
      .cons htext (.cons hmark hus), ?_, fun fuel => ?_⟩
    · refine Nat.lt_of_lt_of_le (hmark.length_lt ?_) (List.drop_sublist _ _).length_le
      rw [String.toList_ofList]
      exact List.cons_ne_nil _ _
    · rw [tokensWithin, hstop]
      simp only [String.toList_ofList, List.drop_drop]
      rfl
  · have hlast : Covers span text [⟨{}, span, .unknown, ""⟩] :=
      .last (List.nil_append text).symm rfl rfl
    refine .inl ⟨_, hlast, fun fuel => ?_⟩
    rw [tokensWithin, hstop]

/-- Inside the format of a replacement field. -/
theorem steps_spec : Steps (.spec :: outer) span text := by
  by_cases hbody : specText text = []
  · rcases hscan : Gap.scan span text with ⟨gap, span', rest⟩
    have brace : ∀ {c : Char} {more : List Char} (modes' : List Mode), rest = c :: more →
        Text.isBlank c = false → (∀ fuel, tokensWithin (fuel + 1) (.spec :: outer) span text =
          ⟨gap, span', .mark, String.ofList [c]⟩ :: tokensWithin fuel modes' (span'.next c) more) →
        Steps (.spec :: outer) span text := by
      rintro c more modes' rfl hc heq
      have hmark := fronts_scan gap .mark hscan rfl rfl (List.prefix_append [c] more) rfl
        ⟨c, [], rfl, hc⟩
      refine hmark.steps ?_ modes' fun fuel => ?_
      · rw [String.toList_ofList]
        exact List.cons_ne_nil c []
      · rw [heq, String.toList_ofList]
        rfl
    have heq := fun fuel => tokensWithin.eq_3 span text fuel outer
    simp only [hbody, hscan, ne_eq, not_true_eq_false, if_false] at heq
    split at heq
    · exact brace _ rfl (by decide) heq
    · exact brace _ rfl (by decide) heq
    · exact .inl ⟨_, covers_last _ _ hscan rfl rfl "", heq⟩
  · have hfront : specText text <+: text := List.takeWhile_prefix _
    refine (fronts_inside .formatSpec hfront span rfl (.inl rfl)).steps ?_
      (.spec :: outer) fun fuel => ?_
    · rwa [String.toList_ofList]
    · rw [tokensWithin, if_pos hbody, String.toList_ofList]

/-- Whether the lexer is in code, and not in the text or the format of a literal. -/
def inCode : List Mode → Bool
  | .text _ :: _ | .spec :: _ => false
  | _ => true

/-- What stands around a literal in code. -/
def modesAround : List Mode → List Mode
  | .field depth lambdas _ :: outer => .field depth lambdas false :: outer
  | _ => []

/-- What the lexer is inside of behind a token of code. -/
def modesAfter (kind : TokenKind) (body : List Char) : List Mode → List Mode
  | .field depth lambdas _ :: outer => fieldMode depth lambdas outer kind body
  | _ => []

/-- Outside brackets of a replacement field a colon is cut from an equals sign, except right after a
    word. -/
def cutColon : List Mode → List Char → List Char
  | .field 0 _ false :: _, body => if body = [':', '='] then [':'] else body
  | _, body => body

theorem cutColon_cases (modes : List Mode) (body : List Char) :
    cutColon modes body = body ∨ body = [':', '='] ∧ cutColon modes body = [':'] := by
  rw [cutColon.eq_def]
  split
  · by_cases h : body = [':', '=']
    · exact .inr ⟨h, if_pos h⟩
    · exact .inl (if_neg h)
  · exact .inl rfl

/-- The tokens of code, where `go` finds those behind the first one. -/
def codeTokens (modes : List Mode) (go : List Mode → Span → List Char → List Token) (span : Span)
    (text : List Char) : List Token :=
  let (gap, span, rest) := Gap.scan span text
  match Delimiter.open? rest with
  | some (d, opening) =>
    let after := rest.drop opening.length
    if d.format then
      ⟨gap.absorbed, span, .formatOpen, String.ofList opening⟩ ::
        go (.text d :: modesAround modes) (span.after opening) after
    else match d.scan after with
      | .closed body =>
        ⟨gap.absorbed, span, .string, String.ofList (opening ++ body)⟩ ::
          go (modesAround modes) ((span.after opening).after body) (after.drop body.length)
      | _ => [⟨gap.absorbed, span, .unknown, ""⟩]
  | none =>
    let found := codeToken (!modes.isEmpty) rest
    let body := cutColon modes found.2
    if found.1.isLast then [⟨gap, span, found.1, String.ofList body⟩]
    else ⟨gap, span, found.1, String.ofList body⟩ ::
      go (modesAfter found.1 body modes) (span.after body) (rest.drop body.length)

/-- In and outside a replacement field the tokens of code are found alike. -/
theorem tokensWithin_code (h : inCode modes) (fuel : Nat) (span : Span) (text : List Char) :
    tokensWithin (fuel + 1) modes span text = codeTokens modes (tokensWithin fuel) span text := by
  rcases modes with _ | ⟨d | ⟨depth, lambdas, afterWord⟩ | _, outer⟩
  · rw [tokensWithin.eq_5 _ _ _ _ (by simp) (by simp) (by simp)]
    simp only [codeTokens, TokenKind.isLast_iff]
    rfl
  · cases h
  · rw [tokensWithin.eq_4]
    simp only [codeTokens, TokenKind.isLast_iff]
    cases depth <;> cases afterWord <;> rfl
  · cases h

/-- In code, in or outside a replacement field. -/
theorem steps_code (h : inCode modes) : Steps modes span text := by
  have heq := fun fuel => tokensWithin_code h fuel span text
  simp only [codeTokens] at heq
  rcases hscan : Gap.scan span text with ⟨gap, span', rest⟩
  rcases hopen : Delimiter.open? rest with _ | ⟨d, opening⟩
  · simp only [hscan, hopen] at heq
    have hfound := found_codeToken (!modes.isEmpty) rest
    generalize codeToken (!modes.isEmpty) rest = found at hfound heq
    rcases found with ⟨kind, body⟩
    by_cases hkind : kind.isLast = true
    · simp only [hkind, if_true] at heq
      exact .inl ⟨_, covers_last _ _ hscan rfl hkind _, heq⟩
    · have hlast := Bool.eq_false_iff.mpr hkind
      simp only [hlast, Bool.false_eq_true, if_false] at heq
      -- A mark that is cut in two is a colon and shows too.
      have hcut : cutColon modes body <+: rest ∧ StartsVisibly (cutColon modes body) := by
        rcases cutColon_cases modes body with hsame | ⟨hbody, hcolon⟩
        · rw [hsame]
          exact ⟨hfound.front, hfound.visible hlast⟩
        · rw [hcolon]
          have hfront : [':', '='] <+: rest := hbody ▸ hfound.front
          exact ⟨(List.prefix_append [':'] ['=']).trans hfront, ':', [], rfl, by decide⟩
      have hinner := TokenKind.isInner_iff.mpr ⟨hlast, hfound.kind⟩
      refine (fronts_scan gap kind hscan rfl rfl hcut.1 hinner hcut.2).steps ?_
        (modesAfter kind (cutColon modes body) modes) fun fuel => ?_
      · rw [String.toList_ofList]
        exact hcut.2.ne_nil
      · rw [heq, String.toList_ofList]
  · simp only [hscan, hopen] at heq
    obtain ⟨hfront, hvisible⟩ := Delimiter.open?_prefix hopen
    by_cases hformat : d.format = true
    · simp only [hformat, if_true] at heq
      refine (fronts_scan gap.absorbed .formatOpen hscan rfl rfl hfront rfl hvisible).steps
        ?_ (.text d :: modesAround modes) fun fuel => ?_
      · rw [String.toList_ofList]
        exact hvisible.ne_nil
      · rw [heq, String.toList_ofList]
    · simp only [Bool.eq_false_iff.mpr hformat, Bool.false_eq_true, if_false] at heq
      have hwithin : (d.scan (rest.drop opening.length)).Within (rest.drop opening.length) :=
        d.scanWithin_within _ true _
      rcases hstop : d.scan (rest.drop opening.length) with body | body | _
      · simp only [hstop] at heq hwithin
        refine (fronts_scan gap.absorbed .string hscan rfl rfl
          (prefix_append_drop hfront hwithin.1) rfl (hvisible.append body)).steps ?_
            (modesAround modes) fun fuel => ?_
        · rw [String.toList_ofList]
          exact (hvisible.append body).ne_nil
        · rw [heq, String.toList_ofList, Span.after_append, List.length_append, List.drop_drop]
      all_goals
        simp only [hstop] at heq
        exact .inl ⟨_, covers_last gap.absorbed .unknown hscan rfl rfl "", heq⟩

/-- What the lexer does in one step. -/
theorem tokensWithin_cases (modes : List Mode) (span : Span) (text : List Char) :
    Steps modes span text := by
  rcases modes with _ | ⟨_ | _ | _, outer⟩
  · exact steps_code rfl
  · exact steps_text _
  · exact steps_code rfl
  · exact steps_spec

/-- The tokens of a text cover it. -/
theorem covers_tokensWithin (fuel : Nat) (modes : List Mode) (span : Span) (text : List Char) :
    Covers span text (tokensWithin fuel modes span text) := by
  induction fuel generalizing modes span text with
  | zero => exact .nil
  | succ fuel ih =>
    obtain ⟨t, ht, heq⟩ | ⟨ts, modes', span', rest, hcovers, -, heq⟩ :=
      tokensWithin_cases modes span text
    · rw [heq]
      exact ht
    · rw [heq]
      exact hcovers _ (ih modes' span' rest)

end Source

end Rendition
