import Rendition.Proofs.Python.Spelling
import Rendition.Proofs.Rendering.Quiet

/-!
# Renditions are spelled lexemes

What an expression is rendered as is what its phrase spells.

## Main definitions

* `Python.written`: The text of a phrase.

## Theorems

* `run_phrase`: Expressions are rendered as their phrases.
-/

namespace Rendition.Python

open Source Source.Lexeme

/-- The text of a phrase. -/
def written (p : Phrase) : String :=
  String.ofList (spell (p {}))

theorem toList_written (p : Phrase) : (written p).toList = spell (p {}) := by
  rw [written, String.toList_ofList]

/-- Lexemes spell what their parts spell. -/
theorem spell_cons (l : Lexeme) (ls : List Lexeme) : spell (l :: ls) = l.chars ++ spell ls := rfl

theorem spell_nil : spell [] = [] := rfl

theorem chars_word (text : String) : (word text {}).chars = text.toList := rfl

theorem chars_mark (text : String) : (mark text {}).chars = text.toList := rfl

theorem chars_word_blank (text : String) : (word text .blank).chars = ' ' :: text.toList := rfl

theorem chars_mark_blank (text : String) : (mark text .blank).chars = ' ' :: text.toList := rfl

theorem spell_enclosed (inner : List Lexeme) :
    spell (enclosed inner {}) = '(' :: (spell inner ++ [')']) := by
  simp only [enclosed, spell_cons, spell_append, spell_nil, chars_mark, List.append_nil]
  rfl

theorem Spelled.spell_blank {stop : Char → Bool} {p : Phrase} (h : Spelled stop p) :
    spell (p .blank) = ' ' :: spell (p {}) :=
  h.moves .blank

/-- Phrases with commas between them spell a listing of their texts. -/
theorem listing_written {stop : Char → Bool} {ps : List Phrase} (h : ∀ p ∈ ps, Spelled stop p) :
    listing (ps.map written) = written (row ps) := by
  induction ps with
  | nil => rfl
  | cons p rest ih =>
    have hrest := ih fun q hq => h q (List.mem_cons_of_mem p hq)
    rcases rest with _ | ⟨q, rest⟩
    · simp only [listing, List.map_cons, List.map_nil, String.intercalate_singleton, written, row,
        List.flatMap_nil, List.append_nil]
    · have hq := (h q (List.mem_cons_of_mem p List.mem_cons_self)).spell_blank
      rw [← String.toList_inj] at hrest ⊢
      simp only [listing, List.map_cons, String.intercalate_cons_cons, String.toList_append,
        toList_written] at hrest ⊢
      rw [hrest]
      simp only [row, List.flatMap_cons, List.cons_append, spell_append, spell_cons, chars_mark, hq,
        List.append_assoc]
      rfl

/-- The same for what stands in a list. -/
theorem listing_spelled {stop : Char → Bool} {α : Type} {as : List α} {p : α → Phrase}
    (h : ∀ a ∈ as, Spelled stop (p a)) :
    (listing (as.map fun a => written (p a))).toList = spell (row (as.map p) {}) := by
  have hwritten := @listing_written stop (as.map p) fun q hq => by
    obtain ⟨a, ha, rfl⟩ := List.mem_map.mp hq
    exact h a ha
  rw [List.map_map] at hwritten
  rw [← toList_written, ← hwritten]
  rfl

/-- Names are listed as they are. -/
theorem listing_names {names : List String}
    (h : ∀ name ∈ names, Spelled ends fun g => [word name g]) :
    (listing names).toList = spell (row (names.map fun name g => [word name g]) {}) := by
  have hname : ∀ name : String, written (fun g => [word name g]) = name := by
    intro name
    rw [← String.toList_inj, toList_written]
    exact spell_singleton .word name
  rw [← listing_spelled h]
  simp only [hname, List.map_id']

/-- Phrases with commas between them are spelled out behind their gap. -/
theorem spell_row_blank {stop : Char → Bool} {ps : List Phrase} (hne : ps ≠ [])
    (h : ∀ p ∈ ps, Spelled stop p) : spell (row ps .blank) = ' ' :: spell (row ps {}) := by
  obtain ⟨p, rest, rfl⟩ := List.exists_cons_of_ne_nil hne
  simp only [row, spell_append, (h p List.mem_cons_self).spell_blank, List.cons_append]

theorem written_keyword (keyword : Keyword Tree) :
    written (keywordPhrase keyword) = keyword.name ++ "=" ++ written (phrase keyword.value) := by
  rw [← String.toList_inj]
  simp only [String.toList_append, toList_written, keywordPhrase, spell_cons, chars_word, chars_mark,
    List.append_assoc]

theorem written_entry {entry : Tree × Tree} (h : Spelled closes (phrase entry.2)) :
    written (entryPhrase entry) =
      written (phrase entry.1) ++ ": " ++ written (phrase entry.2) := by
  rw [← String.toList_inj]
  simp only [String.toList_append, toList_written, entryPhrase, spell_append, spell_cons, chars_mark,
    h.spell_blank, List.append_assoc]
  rfl

section Run

variable {m : Type → Type} [Monad m] [LawfulMonad m] [MonadExceptOf Unimplemented m]
  (indent : String)

theorem runAll_visit {ts : List Tree} {text : Tree → String}
    (h : ∀ t ∈ ts, (Tree.visit (m := m) (rule indent) t).run = pure (text t)) :
    runAll (ts.map (Tree.visit (m := m) (rule indent))) = pure (ts.map text) :=
  mapM_eq_pure h

variable {indent}

theorem run_of_rule {span : Span} {node : Node Tree} {text : String} {p : Phrase}
    (h : rule (m := m) indent span (node.map (Tree.visit (rule indent))) = pure (some text))
    (hphrase : phrase (.mk span node) = p) (htext : text.toList = spell (p {})) :
    (Tree.visit (m := m) (rule indent) (.mk span node)).run =
      pure (written (phrase (.mk span node))) := by
  rw [run_eq_pure h, hphrase, written, ← htext, String.ofList_toList]

/-- Links of a chain spell what the rule writes for them. -/
theorem links_written {ops : List Comparison} {ts : List Tree}
    (h : ∀ t ∈ ts, Spelled closes (phrase t)) :
    (links ops ((ts.take ops.length).map fun t => written (phrase t))).toList =
      spell ((ops.zip ts).flatMap fun link => comparison link.1 ++ phrase link.2 .blank) := by
  have hop : ∀ op : Comparison, spell (comparison op) = ' ' :: op.symbol.toList := by
    intro op
    cases op <;> decide
  induction ops generalizing ts with
  | nil => rfl
  | cons op ops ih =>
    rcases ts with _ | ⟨t, ts⟩
    · rfl
    · simp only [List.length_cons, List.take_succ_cons, List.map_cons, links, String.toList_append,
        toList_written, ih fun u hu => h u (List.mem_cons_of_mem t hu), List.zip_cons_cons,
        List.flatMap_cons, spell_append, hop, (h t List.mem_cons_self).spell_blank,
        List.append_assoc]
      rfl

/-- Operands of a connective spell what the rule writes for them. -/
theorem joined_written (symbol : String) {first : Tree} {rest : List Tree}
    (h : ∀ t ∈ first :: rest, Spelled closes (phrase t)) :
    ((" " ++ symbol ++ " ").intercalate ((first :: rest).map fun t => written (phrase t))).toList =
      spell (phrase first {}) ++
        spell (rest.flatMap fun value => word symbol .blank :: phrase value .blank) := by
  induction rest generalizing first with
  | nil => simp only [List.map_cons, List.map_nil, String.intercalate_singleton, toList_written,
      List.flatMap_nil, spell_nil, List.append_nil]
  | cons second rest ih =>
    have hsecond := h second (List.mem_cons_of_mem first List.mem_cons_self)
    have hrest := ih fun t ht => h t (List.mem_cons_of_mem first ht)
    simp only [List.map_cons] at hrest ⊢
    simp only [String.intercalate_cons_cons, String.toList_append, hrest, toList_written,
      List.flatMap_cons, List.cons_append, spell_cons, spell_append, chars_word_blank,
      hsecond.spell_blank, List.append_assoc]
    rfl

omit [LawfulMonad m] in
/-- A part that may be absent is rendered as its phrase. -/
theorem runOr_phrase {t : Option Tree}
    (h : ∀ e ∈ t, (Tree.visit (m := m) (rule indent) e).run = pure (written (phrase e))) :
    runOr "" (t.map (Tree.visit (m := m) (rule indent))) = pure (written (optionalPhrase t)) := by
  rcases t with _ | t
  · rfl
  · exact h t rfl

/-- An index is rendered as its phrase if the expressions in it are. -/
theorem run_index {t : Tree}
    (hrun : ∀ e ∈ t.bounds, (Tree.visit (m := m) (rule indent) e).run = pure (written (phrase e)))
    (h : ∀ e ∈ t.bounds, Stands e) :
    (Tree.visit (m := m) (rule indent) t).run = pure (written (phrase t)) := by
  rcases t with ⟨span, node⟩
  cases node with
  | slice lower upper step =>
    simp only [Tree.bounds, Tree.node_mk, List.mem_append, Option.mem_toList] at hrun h
    have hlower := runOr_phrase fun e he => hrun e (.inl (.inl he))
    have hupper := runOr_phrase fun e he => hrun e (.inl (.inr he))
    have hstep : (step.map (Tree.visit (m := m) (rule indent))).toList.mapM Visit.run =
        pure (step.toList.map fun e => written (phrase e)) := by
      rcases step with _ | step
      · rfl
      · exact runAll_visit indent fun e he => hrun e (.inr (Option.mem_toList.mp he))
    refine run_of_rule (by simp only [rule, Node.map, hlower, hupper, hstep, pure_bind]; rfl)
      (phrase_slice span lower upper step) ?_
    have hbefore : spell (lowerPhrase lower {}) =
        spell (optionalPhrase lower {}) ++ ":".toList := by
      rcases lower with _ | lower
      · rfl
      · simp only [lowerPhrase, optionalPhrase, Option.map_some, optional, draft_phrase,
          spell_append, spell_cons, chars_mark, spell_nil, List.append_nil]
    have hafter : (String.join ((step.toList.map fun e => written (phrase e)).map (":" ++ ·))).toList =
        spell (stepPhrase step) := by
      rcases step with _ | step
      · rfl
      · simp only [Option.toList_some, List.map_cons, List.map_nil, String.join_cons,
          String.join_nil, String.toList_append, toList_written, stepPhrase, spell_cons, chars_mark]
        exact List.append_nil _
    simp only [String.toList_append, toList_written, spell_append, hbefore, hafter,
      List.append_assoc]
  | _ => exact hrun _ (List.mem_singleton.mpr rfl)

/-- The indices of a subscript are rendered as a listing. -/
theorem rule_subscript {span : Span} {value index : Tree}
    (hvalue : (Tree.visit (m := m) (rule indent) value).run = pure (written (phrase value)))
    (h : ∀ i ∈ index.indices,
      (Tree.visit (m := m) (rule indent) i).run = pure (written (phrase i))) :
    rule indent span (.subscript (Tree.visit (m := m) (rule indent) value)
      (Tree.visit (m := m) (rule indent) index)) =
      pure (some (written (phrase value) ++ "[" ++
        listing (index.indices.map fun i => written (phrase i)) ++ "]")) := by
  rcases index with ⟨ispan, node⟩
  have hnode : (Tree.visit (m := m) (rule indent) (.mk ispan node)).node =
      node.map (Tree.visit (rule indent)) := by rw [Tree.visit_mk, Visit.node]
  have hsingle (hindices : Tree.indices (.mk ispan node) = [.mk ispan node]) :
      (Tree.visit (m := m) (rule indent) (.mk ispan node)).run =
        pure (listing ((Tree.indices (.mk ispan node)).map fun i => written (phrase i))) := by
    rw [h _ (by rw [hindices]; exact List.mem_cons_self), hindices, List.map_singleton, listing,
      String.intercalate_singleton]
  simp only [rule, hvalue, pure_bind]
  rw [hnode]
  cases node with
  | tuple items =>
    rcases items with _ | ⟨first, rest⟩
    · simp only [Node.map, List.map_nil, hsingle rfl, pure_bind]
    · have hrun := runAll_visit indent (show ∀ i ∈ first :: rest, _ from h)
      rw [List.map_cons] at hrun
      simp only [Node.map, List.map_cons, hrun, map_pure, pure_bind]
      rfl
  | _ => simp only [Node.map, hsingle rfl, pure_bind]

/-- Expressions are rendered as their phrases. -/
theorem run_phrase {t : Tree} (h : t.IsExpression Faithful) :
    (Tree.visit (m := m) (rule indent) t).run = pure (written (phrase t)) := by
  induction h with
  | @ident span id hok hname hvariable =>
    exact run_of_rule rfl (phrase_ident span id) (spell_singleton .word id).symm
  | @constant span value hok hint =>
    refine run_of_rule rfl (phrase_constant span value) ?_
    cases value with
    | bool value => cases value <;> exact (spell_singleton _ _).symm
    | _ => exact (spell_singleton _ _).symm
  | @binOp span left right op hok hleft hright ihleft ihright =>
    refine run_of_rule (by simp only [rule, Node.map, ihleft, ihright, pure_bind]; rfl)
      (phrase_binOp span left right op) ?_
    simp only [String.toList_append, toList_written, spell_enclosed, spell_append, spell_cons,
      chars_mark_blank, (stands_phrase hright).sound.toSpelled.spell_blank, List.append_assoc]
    rfl
  | @unaryOp span op operand hok hoperand ih =>
    refine run_of_rule (by simp only [rule, Node.map, ih, pure_bind]; rfl)
      (phrase_unaryOp span op operand) ?_
    by_cases hop : op = .not
    · subst hop
      simp only [if_pos, String.toList_append, toList_written, spell_enclosed, spell_cons,
        (stands_phrase hoperand).sound.toSpelled.spell_blank, List.append_assoc]
      rfl
    · simp only [if_neg hop, String.toList_append, toList_written, spell_enclosed, spell_cons,
        chars_mark, List.append_assoc]
      rfl
  | @compare span left ops comparators hok hops hlength hleft hcomparators ihleft ih =>
    have hrun := runAll_visit indent fun c (hc : c ∈ comparators.take ops.length) =>
      ih c (List.mem_of_mem_take hc)
    refine run_of_rule (by
      simp only [rule, Node.map, ihleft, pure_bind, ← List.map_take, hrun]; rfl)
      (phrase_compare span left ops comparators) ?_
    simp only [String.toList_append, toList_written, spell_enclosed, spell_append,
      links_written fun c hc => (stands_phrase (hcomparators c hc)).sound.toSpelled,
      List.append_assoc]
    rfl
  | @boolOp span op values hok hlength hvalues ih =>
    rcases values with _ | ⟨first, rest⟩
    · exact absurd hlength (by decide)
    refine run_of_rule (by simp only [rule, Node.map, runAll_visit indent ih, pure_bind]; rfl)
      (phrase_boolOp span op first rest) ?_
    simp only [String.toList_append, spell_enclosed, spell_append, joined_written op.symbol
      fun v hv => (stands_phrase (hvalues v hv)).sound.toSpelled]
    rfl
  | @call span func args keywords hok hfunc hargs hnames hkeywords ihfunc ihargs ih =>
    have hkeyword : (keywords.map (Keyword.map (Tree.visit (m := m) (rule indent)))).mapM
        (fun k => do return k.name ++ "=" ++ (← k.value.run)) =
        pure (keywords.map fun k => written (keywordPhrase k)) := by
      refine mapM_eq_pure fun k hk => ?_
      simp only [Keyword.map, ih k hk, pure_bind, written_keyword]
    refine run_of_rule (by
      simp only [rule, Node.map, ihfunc, pure_bind, runAll_visit indent ihargs, hkeyword]; rfl)
      (phrase_call span func args keywords) ?_
    have hrow := @listing_written closes (args.map phrase ++ keywords.map keywordPhrase)
      fun p hp => by
        rcases List.mem_append.mp hp with hp | hp
        · obtain ⟨a, ha, rfl⟩ := List.mem_map.mp hp
          exact (stands_phrase (hargs a ha)).sound.toSpelled
        · obtain ⟨k, hk, rfl⟩ := List.mem_map.mp hp
          exact spelled_keyword (hnames k hk).1 (stands_phrase (hkeywords k hk)).sound
    rw [List.map_append, List.map_map, List.map_map] at hrow
    simp only [Function.comp_def] at hrow
    simp only [String.toList_append, hrow, toList_written, spell_enclosed, spell_append,
      List.append_assoc]
    rfl
  | @attr span value name hok hvalue hname ih =>
    refine run_of_rule (by simp only [rule, Node.map, ih, pure_bind]; rfl)
      (phrase_attr span value name) ?_
    simp only [String.toList_append, toList_written, spell_append, spell_cons, chars_mark,
      chars_word, spell_nil, List.append_nil, List.append_assoc]
  | @subscript span value index hok hvalue hindex ihvalue ih =>
    have hspelled : ∀ i ∈ index.indices, Spelled closesSlice (phrase i) :=
      fun i hi => spelled_index fun e he => stands_phrase (hindex i hi e he)
    have hrun : ∀ i ∈ index.indices, (Tree.visit (m := m) (rule indent) i).run =
        pure (written (phrase i)) :=
      fun i hi => run_index (fun e he => ih i hi e he) fun e he => stands_phrase (hindex i hi e he)
    refine run_of_rule (rule_subscript ihvalue hrun) (phrase_subscript span value index) ?_
    simp only [String.toList_append, toList_written, spell_append, spell_cons, chars_mark,
      indexPhrase_eq, listing_spelled hspelled, spell_nil, List.append_nil, List.append_assoc]
  | @list span items hok hitems ih =>
    refine run_of_rule (by simp only [rule, Node.map, runAll_visit indent ih, pure_bind]; rfl)
      (phrase_list span items) ?_
    simp only [String.toList_append, spell_cons, spell_append, chars_mark, spell_nil,
      listing_spelled fun i hi => (stands_phrase (hitems i hi)).sound.toSpelled, List.append_nil,
      List.append_assoc]
  | @tuple span items hok hitems ih =>
    have hrow := listing_spelled fun i hi => (stands_phrase (hitems i hi)).sound.toSpelled
    have hrule : rule (m := m) indent span
        (Node.map (Tree.visit (rule indent)) (.tuple items)) =
        pure (some (tuple (items.map fun i => written (phrase i)))) := by
      simp only [rule, Node.map, runAll_visit indent ih, pure_bind]
    by_cases hsingle : items.length = 1
    · obtain ⟨single, rfl⟩ := List.length_eq_one_iff.mp hsingle
      refine run_of_rule hrule (phrase_tuple_single span single) ?_
      simp only [List.map_cons, List.map_nil, tuple, String.toList_append, toList_written,
        spell_enclosed, spell_append, spell_cons, chars_mark, spell_nil, List.append_nil,
        List.append_assoc]
      rfl
    · refine run_of_rule hrule (phrase_tuple span items hsingle) ?_
      rw [spell_enclosed, ← hrow]
      rcases items with _ | ⟨first, _ | ⟨second, rest⟩⟩
      · rfl
      · exact absurd rfl hsingle
      · simp only [List.map_cons, tuple, String.toList_append]
        rfl
  | @dict span entries hok hkeys hvalues ihkeys ihvalues =>
    have hentry : (entries.map fun e => (Tree.visit (m := m) (rule indent) e.1,
        Tree.visit (m := m) (rule indent) e.2)).mapM
        (fun entry => do
          let key ← entry.1.run
          return key ++ ": " ++ (← entry.2.run)) =
        pure (entries.map fun e => written (entryPhrase e)) := by
      refine mapM_eq_pure fun e he => ?_
      simp only [ihkeys e he, ihvalues e he, pure_bind,
        written_entry (stands_phrase (hvalues e he)).sound.toSpelled]
    refine run_of_rule (by simp only [rule, Node.map, hentry, pure_bind]; rfl)
      (phrase_dict span entries) ?_
    simp only [String.toList_append, spell_cons, spell_append, chars_mark, spell_nil,
      listing_spelled fun e he => spelled_entry (stands_phrase (hkeys e he)).sound
        (stands_phrase (hvalues e he)).sound, List.append_nil, List.append_assoc]
  | @ifExp span test body orelse hok htest hbody horelse ihtest ihbody ihorelse =>
    refine run_of_rule (by simp only [rule, Node.map, ihtest, ihbody, ihorelse, pure_bind]; rfl)
      (phrase_ifExp span test body orelse) ?_
    simp only [String.toList_append, toList_written, spell_enclosed, spell_append, spell_cons,
      chars_word_blank, (stands_phrase htest).sound.toSpelled.spell_blank,
      (stands_phrase horelse).sound.toSpelled.spell_blank, List.append_assoc]
    rfl
  | @lambda span params body hok hparams hbody ih =>
    refine run_of_rule (by simp only [rule, Node.map, ih, pure_bind]; rfl)
      (phrase_lambda span params body) ?_
    have hparam : ∀ p ∈ params, Spelled ends fun g => [word p g] :=
      fun p hp => (sound_word (hparams p hp).1).toSpelled
    have hbody := (stands_phrase hbody).sound.toSpelled.spell_blank
    have hhead : (if params.isEmpty then "lambda" else "lambda " ++ listing params).toList =
        "lambda".toList ++ spell (row (params.map fun p g => [word p g]) .blank) := by
      rcases params with _ | ⟨param, params⟩
      · rfl
      · have hlisting := listing_names hparam
        have hblank := @spell_row_blank _ ((param :: params).map fun p g => [word p g])
          (List.cons_ne_nil _ _) fun p hp => by
            obtain ⟨q, hq, rfl⟩ := List.mem_map.mp hp
            exact hparam q hq
        rw [hblank, ← hlisting]
        simp only [List.isEmpty_cons, Bool.false_eq_true, if_false, String.toList_append]
        rfl
    simp only [String.toList_append, hhead, toList_written, spell_enclosed,
      spell_append, spell_cons, chars_mark, chars_word, hbody, List.append_assoc]
    rfl

end Run

end Rendition.Python
