import Rendition.Proofs.Readable.Parts

/-!
# The text of an expression says all of it

No two expressions have the same text as Python, unless they differ in places only. The text says
how its brackets match, so it says which figure it is of. The kind of the tree is read off the
figure, and then its parts are told apart one by one, by induction.

## Main definitions

* `Readable.Told`: Trees that no other legible tree has the figure of.

## Theorems

* `told_of_bounds`, `told_index`: Indices are told by the bounds in them.
* `Legible.told`: Every legible tree is told by its figure.
* `render_unambiguous`: Expressions that are rendered alike are alike.
-/

namespace Rendition.Python.Readable

/-- Trees that no other legible tree has the figure of. -/
def Told (t : Tree) : Prop :=
  ∀ u : Tree, Legible u → (figure t).text = (figure u).text → t.erase = u.erase

theorem erase_eq_of_map {span span' : Span} {node node' : Node Tree}
    (h : node.map Tree.erase = node'.map Tree.erase) :
    (Tree.mk span node).erase = (Tree.mk span' node').erase := by
  rw [Tree.erase, Tree.erase, Tree.mapSpans_mk, Tree.mapSpans_mk]
  exact congrArg (fun node => Tree.mk ⟨0, 0⟩ (node.mapSpans fun _ => ⟨0, 0⟩)) h

theorem Told.map {ts us : List Tree} (hts : ∀ t ∈ ts, Told t) (hus : ∀ u ∈ us, Legible u)
    (h : (ts.map figure).map Figure.text = (us.map figure).map Figure.text) :
    ts.map Tree.erase = us.map Tree.erase := by
  rw [List.map_map, List.map_map] at h
  exact map_eq_of_map_eq (fun t ht u hu => hts t ht u (hus u hu)) h

theorem Legible.operands {ts : List Tree} (h : ∀ t ∈ ts, Legible t) :
    ∀ item ∈ (ts.map figure).map Figure.text, Operand item := by
  rw [List.map_map, List.forall_mem_map]
  exact fun t ht => (h t ht).operand

theorem Operand.item {gs : List Glyph} (h : Operand gs) : gs ≠ [] ∧ .char ',' ∉ gs :=
  ⟨h.ne, h.not_mem rfl⟩

/-- Trees between commas. -/
theorem Told.listed {ts us : List Tree} (hts : ∀ t ∈ ts, Legible t) (htold : ∀ t ∈ ts, Told t)
    (hus : ∀ u ∈ us, Legible u) (h : Readable.listed ((ts.map figure).map Figure.text) =
      Readable.listed ((us.map figure).map Figure.text)) :
    ts.map Tree.erase = us.map Tree.erase :=
  Told.map htold hus (listed_inj (fun item hitem => (Legible.operands hts item hitem).item)
    (fun item hitem => (Legible.operands hus item hitem).item) h)

/-! ## Indices -/

theorem bound_not_mem {bound : Option Tree} (h : ∀ e ∈ bound, Legible e) {c : Char}
    (hc : separates c = true) : .char c ∉ (bound.map fun e => (figure e).text).getD [] := by
  cases bound with
  | none => exact List.not_mem_nil
  | some e => exact (h e rfl).operand.not_mem hc

/-- Bounds that may be absent. -/
theorem Told.bound {bound bound' : Option Tree} (h : ∀ e ∈ bound, Legible e)
    (htold : ∀ e ∈ bound, Told e) (h' : ∀ e ∈ bound', Legible e)
    (heq : (bound.map fun e => (figure e).text).getD [] =
      (bound'.map fun e => (figure e).text).getD []) :
    bound.map Tree.erase = bound'.map Tree.erase := by
  rcases bound with _ | e <;> rcases bound' with _ | e'
  · rfl
  · exact absurd heq.symm (h' e' rfl).operand.ne
  · exact absurd heq (h e rfl).operand.ne
  · exact congrArg some (htold e rfl e' (h' e' rfl) heq)

/-- The bounds of an index, which are what it is told by. -/
theorem index_item {i : Tree} (h : ∀ e ∈ i.bounds, Legible e) :
    (figure i).text ≠ [] ∧ .char ',' ∉ (figure i).text := by
  rcases Tree.slice_or_bounds i with ⟨span, lower, upper, step, rfl⟩ | hbounds
  · simp only [Tree.bounds, Tree.node_mk, List.forall_mem_append, Option.mem_toList] at h
    obtain ⟨⟨hlower, hupper⟩, hstep⟩ := h
    rw [figure_slice]
    refine ⟨List.append_ne_nil_of_right_ne_nil _ (List.cons_ne_nil _ _), ?_⟩
    have hlast : Glyph.char ',' ∉ (step.map fun e => .char ':' :: (figure e).text).getD [] := by
      cases step with
      | none => exact List.not_mem_nil
      | some e =>
        have hcomma : .char ',' ∉ (figure e).text := (hstep e rfl).operand.item.2
        simpa using hcomma
    simp only [List.mem_append, List.mem_cons, not_or]
    exact ⟨bound_not_mem hlower rfl, by simp, bound_not_mem hupper rfl, hlast⟩
  · exact (h i (by rw [hbounds]; exact List.mem_cons_self)).operand.item

/-- Indices are told by the bounds in them. -/
theorem told_of_bounds {i j : Tree} (hi : ∀ e ∈ i.bounds, Legible e)
    (htold : ∀ e ∈ i.bounds, Told e) (hj : ∀ e ∈ j.bounds, Legible e)
    (h : (figure i).text = (figure j).text) : i.erase = j.erase := by
  -- A slice has a colon, and an operand has none.
  have hcolon : ∀ {t : Tree} (span : Span) (lower upper step : Option Tree), Legible t →
      (figure t).text ≠ (figure (.mk span (.slice lower upper step))).text := by
    intro t span lower upper step ht heq
    refine ht.operand.not_mem (rfl : separates ':' = true) ?_
    rw [heq, figure_slice]
    exact List.mem_append_right _ List.mem_cons_self
  rcases Tree.slice_or_bounds i with ⟨span, lower, upper, step, rfl⟩ | hbounds <;>
    rcases Tree.slice_or_bounds j with ⟨span', lower', upper', step', rfl⟩ | hbounds'
  · simp only [Tree.bounds, Tree.node_mk, List.forall_mem_append, Option.mem_toList]
      at hi hj htold
    rw [figure_slice, figure_slice] at h
    obtain ⟨hlower, hrest⟩ :=
      append_cons_inj (bound_not_mem hi.1.1 rfl) (bound_not_mem hj.1.1 rfl) h
    have hlower := Told.bound hi.1.1 htold.1.1 hj.1.1 hlower
    have hrests : upper.map Tree.erase = upper'.map Tree.erase ∧
        step.map Tree.erase = step'.map Tree.erase := by
      -- The second colon stands where the upper bound ends.
      have hnone : ∀ {bound bound' : Option Tree} (e : Tree), (∀ e ∈ bound, Legible e) →
          (bound.map fun e => (figure e).text).getD [] ++ [] ≠
            (bound'.map fun e => (figure e).text).getD [] ++ .char ':' :: (figure e).text := by
        intro bound bound' e hbound heq
        refine bound_not_mem hbound (rfl : separates ':' = true) ?_
        rw [← List.append_nil (Option.getD _ _), heq]
        exact List.mem_append_right _ List.mem_cons_self
      rcases step with _ | e <;> rcases step' with _ | e'
      · exact ⟨Told.bound hi.1.2 htold.1.2 hj.1.2 (List.append_cancel_right hrest), rfl⟩
      · exact absurd hrest (hnone e' hi.1.2)
      · exact absurd hrest.symm (hnone e hj.1.2)
      · obtain ⟨hupper, hstep⟩ :=
          append_cons_inj (bound_not_mem hi.1.2 rfl) (bound_not_mem hj.1.2 rfl) hrest
        exact ⟨Told.bound hi.1.2 htold.1.2 hj.1.2 hupper,
          congrArg some (htold.2 e rfl e' (hj.2 e' rfl) hstep)⟩
    refine erase_eq_of_map ?_
    simp only [Node.map, hlower, hrests]
  · exact absurd h.symm (hcolon _ _ _ _ (hj j (by rw [hbounds']; exact List.mem_cons_self)))
  · exact absurd h (hcolon _ _ _ _ (hi i (by rw [hbounds]; exact List.mem_cons_self)))
  · rw [hbounds, List.forall_mem_singleton] at htold
    rw [hbounds', List.forall_mem_singleton] at hj
    exact htold j hj h

/-- The indices of a subscript are told by what stands between its brackets. -/
theorem told_index {index index' : Tree} (hindex : ∀ i ∈ index.indices, ∀ e ∈ i.bounds, Legible e)
    (htold : ∀ i ∈ index.indices, ∀ e ∈ i.bounds, Told e)
    (hindex' : ∀ i ∈ index'.indices, ∀ e ∈ i.bounds, Legible e)
    (h : (figure index).index = (figure index').index) :
    index.indices.map Tree.erase = index'.indices.map Tree.erase := by
  have hitem : ∀ {index : Tree}, (∀ i ∈ index.indices, ∀ e ∈ i.bounds, Legible e) →
      ∀ item ∈ index.indices.map fun i => (figure i).text, item ≠ [] ∧ .char ',' ∉ item :=
    fun hindex => List.forall_mem_map.mpr fun i hi => index_item (hindex i hi)
  rw [figure_index, figure_index] at h
  exact map_eq_of_map_eq
    (fun i hi j hj => told_of_bounds (hindex i hi) (htold i hi) (hindex' j hj))
    (listed_inj (hitem hindex) (hitem hindex') h)

/-! ## Expressions -/

/-- Trees with the same figure are of the same kind. -/
theorem Legible.kind_eq {t u : Tree} (ht : Legible t) (hu : Legible u)
    (h : (figure t).text = (figure u).text) : t.kind = u.kind := by
  rw [← kindOf_figure ht, h, kindOf_figure hu]

/-- The operands of a comparison are no words before other words. -/
theorem Operand.ne_not {gs : List Glyph} (h : Operand gs) : gs ≠ word "not" :=
  fun heq => (h.unreserved _ heq).2 rfl

theorem Told.keywords {keywords keywords' : List (Keyword Tree)}
    (htold : ∀ k ∈ keywords, Told k.value) (hnames : ∀ k ∈ keywords, Text.IsIdentifier k.name)
    (hnames' : ∀ k ∈ keywords', Text.IsIdentifier k.name)
    (hvalues' : ∀ k ∈ keywords', Legible k.value)
    (h : keywords.map keywordText = keywords'.map keywordText) :
    keywords.map (Keyword.map Tree.erase) = keywords'.map (Keyword.map Tree.erase) := by
  refine map_eq_of_map_eq (fun k hk k' hk' heq => ?_) h
  obtain ⟨hname, hvalue⟩ := append_cons_inj (not_mem_name (hnames k hk) (by decide))
    (not_mem_name (hnames' k' hk') (by decide)) heq
  rw [Keyword.map, Keyword.map, word_inj hname, htold k hk k'.value (hvalues' k' hk') hvalue]

/-- The arguments of a call: the keywords are what has an equals sign in it. -/
theorem arguments_inj {args args' : List Tree} {keywords keywords' : List (Keyword Tree)}
    (hargs : ∀ a ∈ args, Legible a) (hargs' : ∀ a ∈ args', Legible a)
    (hvalues : ∀ k ∈ keywords, Legible k.value) (hvalues' : ∀ k ∈ keywords', Legible k.value)
    (hnames : ∀ k ∈ keywords, Text.IsIdentifier k.name)
    (hnames' : ∀ k ∈ keywords', Text.IsIdentifier k.name)
    (h : Readable.listed ((args.map figure).map Figure.text ++ keywords.map keywordText) =
      Readable.listed ((args'.map figure).map Figure.text ++ keywords'.map keywordText)) :
    (args.map figure).map Figure.text = (args'.map figure).map Figure.text ∧
      keywords.map keywordText = keywords'.map keywordText := by
  have hkeyword : ∀ {keywords : List (Keyword Tree)},
      (∀ k ∈ keywords, Text.IsIdentifier k.name) → (∀ k ∈ keywords, Legible k.value) →
      ∀ item ∈ keywords.map keywordText, item ≠ [] ∧ .char ',' ∉ item := by
    intro keywords hnames hvalues
    refine List.forall_mem_map.mpr fun k hk =>
      ⟨List.append_ne_nil_of_right_ne_nil _ (List.cons_ne_nil _ _), ?_⟩
    rw [keywordText, List.mem_append, List.mem_cons, not_or, not_or]
    exact ⟨not_mem_name (hnames k hk) (by decide), by simp, (hvalues k hk).operand.item.2⟩
  have hitem : ∀ {args : List Tree} {keywords : List (Keyword Tree)}, (∀ a ∈ args, Legible a) →
      (∀ k ∈ keywords, Text.IsIdentifier k.name) → (∀ k ∈ keywords, Legible k.value) →
      ∀ item ∈ (args.map figure).map Figure.text ++ keywords.map keywordText,
        item ≠ [] ∧ .char ',' ∉ item := by
    intro args keywords hargs hnames hvalues
    rw [List.forall_mem_append]
    exact ⟨fun item hitem => (Legible.operands hargs item hitem).item, hkeyword hnames hvalues⟩
  have hequals : ∀ keywords : List (Keyword Tree),
      ∀ item ∈ keywords.map keywordText, ¬Glyph.char '=' ∉ item :=
    fun keywords => List.forall_mem_map.mpr fun k hk =>
      not_not.mpr (List.mem_append_right _ List.mem_cons_self)
  have hnone : ∀ {args : List Tree}, (∀ a ∈ args, Legible a) →
      ∀ item ∈ (args.map figure).map Figure.text, Glyph.char '=' ∉ item :=
    fun hargs item hitem => (Legible.operands hargs item hitem).not_mem rfl
  exact append_inj_of_forall (hnone hargs) (hnone hargs') (hequals keywords) (hequals keywords')
    (listed_inj (hitem hargs hnames hvalues) (hitem hargs' hnames' hvalues') h)

theorem Told.entries {entries entries' : List (Tree × Tree)} (hkeys : ∀ e ∈ entries, Legible e.1)
    (hkeys' : ∀ e ∈ entries', Legible e.1) (hvalues : ∀ e ∈ entries, Legible e.2)
    (hvalues' : ∀ e ∈ entries', Legible e.2) (htold : ∀ e ∈ entries, Told e.1)
    (htold' : ∀ e ∈ entries, Told e.2)
    (h : Readable.listed (entries.map entryText) = Readable.listed (entries'.map entryText)) :
    (entries.map fun e => (e.1.erase, e.2.erase)) =
      entries'.map fun e => (e.1.erase, e.2.erase) := by
  have hitem : ∀ {entries : List (Tree × Tree)}, (∀ e ∈ entries, Legible e.1) →
      (∀ e ∈ entries, Legible e.2) →
      ∀ item ∈ entries.map entryText, item ≠ [] ∧ .char ',' ∉ item := by
    intro entries hkeys hvalues
    refine List.forall_mem_map.mpr fun e he =>
      ⟨List.append_ne_nil_of_right_ne_nil _ (List.cons_ne_nil _ _), ?_⟩
    simp only [entryText, List.mem_append, List.mem_cons, not_or]
    exact ⟨(hkeys e he).operand.item.2, by simp, by simp, (hvalues e he).operand.item.2⟩
  refine map_eq_of_map_eq (fun e he e' he' heq => ?_)
    (listed_inj (hitem hkeys hvalues) (hitem hkeys' hvalues') h)
  obtain ⟨hkey, hvalue⟩ := append_cons_inj ((hkeys e he).operand.not_mem rfl)
    ((hkeys' e' he').operand.not_mem rfl) heq
  rw [htold e he e'.1 (hkeys' e' he') hkey,
    htold' e he e'.2 (hvalues' e' he') (List.cons.inj hvalue).2]

/-- The items of a tuple. -/
theorem Told.items {items items' : List Tree} (hitems : ∀ i ∈ items, Legible i)
    (htold : ∀ i ∈ items, Told i) (hitems' : ∀ i ∈ items', Legible i)
    (h : depict ((Node.tuple items).map figure) = depict ((Node.tuple items').map figure)) :
    items.map Tree.erase = items'.map Tree.erase := by
  -- A single item has a comma behind it, and more items have commas between them.
  have hmore : ∀ {item : Tree} {items : List Tree}, Legible item → (∀ i ∈ items, Legible i) →
      (figure item).text ++ [.char ','] ≠ Readable.listed ((items.map figure).map Figure.text) := by
    intro item items hitem hitems heq
    rcases items with _ | ⟨first, _ | ⟨second, rest⟩⟩
    · exact List.append_ne_nil_of_right_ne_nil _ (List.cons_ne_nil _ _) heq
    · simp only [List.map_cons, List.map_nil, listed_singleton] at heq
      refine (hitems first List.mem_cons_self).operand.item.2 ?_
      rw [← heq]
      exact List.mem_append_right _ List.mem_cons_self
    · simp only [List.map_cons, listed_cons] at heq
      have hrest := (append_cons_inj hitem.operand.item.2
        (hitems first List.mem_cons_self).operand.item.2 heq).2
      cases hrest
  rcases items with _ | ⟨first, _ | ⟨second, rest⟩⟩ <;>
    rcases items' with _ | ⟨first', _ | ⟨second', rest'⟩⟩
  · rfl
  · exact absurd (group_inj h).symm (hmore (hitems' first' List.mem_cons_self) hitems)
  · exact Told.listed hitems htold hitems' (group_inj h)
  · exact absurd (group_inj h) (hmore (hitems first List.mem_cons_self) hitems')
  · rw [List.map_singleton, List.map_singleton, htold first List.mem_cons_self first'
      (hitems' first' List.mem_cons_self) (List.append_cancel_right (group_inj h))]
  · exact absurd (group_inj h) (hmore (hitems first List.mem_cons_self) hitems')
  · exact Told.listed hitems htold hitems' (group_inj h)
  · exact absurd (group_inj h).symm (hmore (hitems' first' List.mem_cons_self) hitems)
  · exact Told.listed hitems htold hitems' (group_inj h)

/-- The words of a comparison. -/
theorem Legible.not_blank_chain {left : Tree} {ops : List Comparison} {comparators : List Tree}
    (hleft : Legible left) (hcomparators : ∀ c ∈ comparators, Legible c) :
    ∀ part ∈ (figure left).text :: chain ops ((comparators.map figure).map Figure.text),
      .char ' ' ∉ part := by
  refine List.forall_mem_cons.mpr ⟨hleft.operand.not_blank, forall_mem_chain (fun op symbol h => ?_)
    fun operand h => (Legible.operands hcomparators operand h).not_blank⟩
  have hsymbols : ∀ symbol ∈ op.words, ' ' ∉ symbol.toList := by cases op <;> decide
  exact blank_not_mem_word (hsymbols symbol h)

/-- Every legible tree is told by its figure. -/
theorem Legible.told {t : Tree} (h : Legible t) : Told t := by
  -- The other tree is of the same kind, so it is put together in the same way.
  induction h with
  | @ident span id hid =>
    intro u hu h
    have hkind := (Legible.ident hid).kind_eq hu h
    cases hu with
    | ident hid' =>
      rw [figure_mk, figure_mk] at h
      obtain rfl := word_inj h
      exact erase_eq_of_map rfl
    | _ => cases hkind
  | @constant span value hfinite =>
    intro u hu h
    have hkind := (Legible.constant hfinite).kind_eq hu h
    cases hu with
    | constant hfinite' =>
      rw [figure_mk, figure_mk] at h
      obtain rfl := constant_inj hfinite hfinite' h
      exact erase_eq_of_map rfl
    | _ => cases hkind
  | @binOp span left right op hleft hright ihleft ihright =>
    intro u hu h
    have hkind := (Legible.binOp hleft hright).kind_eq hu h
    cases hu with
    | @binOp span' left' right' op' hleft' hright' =>
      have hwords : ∀ {left right : Tree} (op : Operator), Legible left → Legible right →
          ∀ p ∈ [(figure left).text, word op.symbol, (figure right).text], .char ' ' ∉ p := by
        intro left right op hleft hright
        simp only [List.forall_mem_cons]
        exact ⟨hleft.operand.not_blank, blank_not_mem_word (by cases op <;> decide),
          hright.operand.not_blank, List.forall_mem_nil _⟩
      rw [figure_mk, figure_mk] at h
      have hparts := spaced_inj (hwords op hleft hright) (hwords op' hleft' hright') (group_inj h)
      simp only [List.cons.injEq, and_true] at hparts
      refine erase_eq_of_map ?_
      simp only [Node.map, ihleft _ hleft' hparts.1, symbol_inj hparts.2.1,
        ihright _ hright' hparts.2.2]
    | _ => cases hkind
  | @unaryOp span op operand hoperand ih =>
    intro u hu h
    have hkind := (Legible.unaryOp hoperand).kind_eq hu h
    cases hu with
    | @unaryOp span' op' operand' hoperand' =>
      rw [figure_mk, figure_mk] at h
      obtain ⟨rfl, hoperands⟩ := unary_inj (group_inj h)
      refine erase_eq_of_map ?_
      simp only [Node.map, ih _ hoperand' hoperands]
    | _ => cases hkind
  | @compare span left ops comparators hops hlength hleft hcomparators ihleft ih =>
    intro u hu h
    have hkind := (Legible.compare hops hlength hleft hcomparators).kind_eq hu h
    cases hu with
    | @compare span' left' ops' comparators' hops' hlength' hleft' hcomparators' =>
      rw [figure_mk, figure_mk] at h
      -- With as many operators as operands, the words say where each operand is.
      obtain ⟨hlefts, hchain⟩ := List.cons.inj (spaced_inj (hleft.not_blank_chain hcomparators)
        (hleft'.not_blank_chain hcomparators') (group_inj h))
      have hoperand : ∀ {comparators : List Tree}, (∀ c ∈ comparators, Legible c) →
          ∀ operand ∈ (comparators.map figure).map Figure.text, operand ≠ word "not" :=
        fun hcomparators operand hmem => (Legible.operands hcomparators operand hmem).ne_not
      obtain ⟨rfl, hoperands⟩ := chain_inj (by rw [hlength, List.length_map, List.length_map])
        (by rw [hlength', List.length_map, List.length_map]) (hoperand hcomparators)
        (hoperand hcomparators') hchain
      refine erase_eq_of_map ?_
      simp only [Node.map, ihleft _ hleft' hlefts, Told.map ih hcomparators' hoperands]
    | _ => cases hkind
  | @boolOp span op values hlength hvalues ih =>
    intro u hu h
    have hkind := (Legible.boolOp hlength hvalues).kind_eq hu h
    cases hu with
    | @boolOp span' op' values' hlength' hvalues' =>
      rw [figure_mk, figure_mk] at h
      have hblank : ∀ {values : List Tree}, (∀ v ∈ values, Legible v) →
          ∀ item ∈ (values.map figure).map Figure.text, .char ' ' ∉ item :=
        fun hvalues item hmem => (Legible.operands hvalues item hmem).not_blank
      obtain ⟨rfl, hitems⟩ := connected_inj (by rwa [List.length_map, List.length_map])
        (by rwa [List.length_map, List.length_map]) (hblank hvalues) (hblank hvalues') (group_inj h)
      refine erase_eq_of_map ?_
      simp only [Node.map, Told.map ih hvalues' hitems]
    | _ => cases hkind
  | @call span func args keywords hfunc hargs hnames hkeywords ihfunc ihargs ihkeywords =>
    intro u hu h
    have hkind := (Legible.call hfunc hargs hnames hkeywords).kind_eq hu h
    cases hu with
    | @call span' func' args' keywords' hfunc' hargs' hnames' hkeywords' =>
      rw [figure_call, figure_call] at h
      obtain ⟨hfuncs, harguments⟩ := append_group_inj h
      obtain ⟨hpositional, hnamed⟩ :=
        arguments_inj hargs hargs' hkeywords hkeywords' hnames hnames' harguments
      refine erase_eq_of_map ?_
      simp only [Node.map, ihfunc _ hfunc' hfuncs, Told.map ihargs hargs' hpositional,
        Told.keywords ihkeywords hnames hnames' hkeywords' hnamed]
    | _ => cases hkind
  | @attr span value name hvalue hname ih =>
    intro u hu h
    have hkind := (Legible.attr hvalue hname).kind_eq hu h
    cases hu with
    | @attr span' value' name' hvalue' hname' =>
      rw [figure_mk, figure_mk] at h
      -- The name is what follows the last point.
      obtain ⟨hvalues, hnames⟩ := append_cons_inj_right (not_mem_name hname (by decide))
        (not_mem_name hname' (by decide)) h
      refine erase_eq_of_map ?_
      simp only [Node.map, ih _ hvalue' hvalues, word_inj hnames]
    | _ => cases hkind
  | @subscript span value index hvalue hsingle hindex ihvalue ihindex =>
    intro u hu h
    have hkind := (Legible.subscript hvalue hsingle hindex).kind_eq hu h
    cases hu with
    | @subscript span' value' index' hvalue' hsingle' hindex' =>
      rw [figure_mk, figure_mk] at h
      obtain ⟨hvalues, hindices⟩ := append_group_inj h
      have hindices := told_index hindex ihindex hindex' hindices
      refine erase_eq_of_map ?_
      simp only [Node.map, ihvalue _ hvalue' hvalues, Tree.erase_index hsingle hsingle' hindices]
    | _ => cases hkind
  | @list span items hitems ih =>
    intro u hu h
    have hkind := (Legible.list hitems).kind_eq hu h
    cases hu with
    | @list span' items' hitems' =>
      rw [figure_mk, figure_mk] at h
      refine erase_eq_of_map ?_
      simp only [Node.map, Told.listed hitems ih hitems' (group_inj h)]
    | _ => cases hkind
  | @tuple span items hitems ih =>
    intro u hu h
    have hkind := (Legible.tuple hitems).kind_eq hu h
    cases hu with
    | @tuple span' items' hitems' =>
      rw [figure_mk, figure_mk] at h
      refine erase_eq_of_map ?_
      simp only [Node.map, Told.items hitems ih hitems' h]
    | _ => cases hkind
  | @dict span entries hkeys hvalues ihkeys ihvalues =>
    intro u hu h
    have hkind := (Legible.dict hkeys hvalues).kind_eq hu h
    cases hu with
    | @dict span' entries' hkeys' hvalues' =>
      rw [figure_dict, figure_dict] at h
      refine erase_eq_of_map ?_
      simp only [Node.map, Told.entries hkeys hkeys' hvalues hvalues' ihkeys ihvalues (group_inj h)]
    | _ => cases hkind
  | @ifExp span test body orelse htest hbody horelse ihtest ihbody ihorelse =>
    intro u hu h
    have hkind := (Legible.ifExp htest hbody horelse).kind_eq hu h
    cases hu with
    | @ifExp span' test' body' orelse' htest' hbody' horelse' =>
      have hwords : ∀ {test body orelse : Tree}, Legible test → Legible body → Legible orelse →
          ∀ p ∈ [(figure body).text, word "if", (figure test).text, word "else",
            (figure orelse).text], .char ' ' ∉ p := by
        intro test body orelse htest hbody horelse
        simp only [List.forall_mem_cons]
        exact ⟨hbody.operand.not_blank, blank_not_mem_word (by decide), htest.operand.not_blank,
          blank_not_mem_word (by decide), horelse.operand.not_blank, List.forall_mem_nil _⟩
      rw [figure_mk, figure_mk] at h
      have hparts := spaced_inj (hwords htest hbody horelse) (hwords htest' hbody' horelse')
        (group_inj h)
      simp only [List.cons.injEq, and_true, true_and] at hparts
      obtain ⟨hbodies, htests, horelses⟩ := hparts
      refine erase_eq_of_map ?_
      simp only [Node.map, ihtest _ htest' htests, ihbody _ hbody' hbodies,
        ihorelse _ horelse' horelses]
    | _ => cases hkind
  | @lambda span params body hparams hbody ih =>
    intro u hu h
    have hkind := (Legible.lambda hparams hbody).kind_eq hu h
    cases hu with
    | @lambda span' params' body' hparams' hbody' =>
      rw [figure_mk, figure_mk] at h
      -- The parameters end at the first colon, and a blank follows it.
      obtain ⟨hheads, hbodies⟩ := append_cons_inj (not_mem_lambdaHead hparams)
        (not_mem_lambdaHead hparams') (group_inj h)
      obtain rfl := lambdaHead_inj hparams hparams' (word_inj hheads)
      refine erase_eq_of_map ?_
      simp only [Node.map, ih _ hbody' (List.cons.inj hbodies).2]
    | _ => cases hkind

/-- Expressions that are rendered alike differ in places only, and so they are alike. -/
theorem render_unambiguous {a b : Tree} (ha : Legible a) (hb : Legible b)
    {f g : SourceFunction} {config config' : Config}
    (h : renderer.render ⟨f, a⟩ config = renderer.render ⟨g, b⟩ config') :
    a.erase = b.erase ∧ a.alike b = true := by
  rw [render_text, render_text] at h
  have htext := congrArg String.toList (Except.ok.inj h)
  obtain ⟨hsound, hspelled⟩ := ha.depicted
  obtain ⟨hsound', hspelled'⟩ := hb.depicted
  have hfigure : (figure a).text = (figure b).text :=
    hsound.eq_of_spell_eq hsound' ((hspelled.trans htext).trans hspelled'.symm)
  have herase := ha.told b hb hfigure
  refine ⟨herase, (Tree.alike_iff a b).mpr ⟨ha.regular, hb.regular, ?_⟩⟩
  rw [Tree.core, Tree.core, herase]

/-- An expression in two places, rendered with two widths. -/
theorem render_unambiguous_places :
    let expression (line : Nat) : Tree := .mk ⟨line, 0⟩ (.subscript
      (.mk ⟨line, 0⟩ (.ident "x"))
      (.mk ⟨line, 2⟩ (.slice none (some (.mk ⟨line, 3⟩ (.unaryOp .uSub
        (.mk ⟨line, 4⟩ (.constant (.int 1)))))) none)))
    let f : SourceFunction := ⟨"f", "", 1⟩
    (Legible (expression 1) ∧ Legible (expression 7) ∧
      renderer.render ⟨f, expression 1⟩ {} =
        renderer.render ⟨f, expression 7⟩ { indentWidth := some 2 }) ∧
    (expression 1).erase = (expression 7).erase ∧
      (expression 1).alike (expression 7) = true := by
  intro expression f
  have hlegible : ∀ line, Legible (expression line) := by
    intro line
    exact .subscript (.ident ⟨⟨'x', [], rfl, rfl, List.forall_mem_nil _⟩, rfl⟩)
      (fun item h => nomatch h) (List.forall_mem_singleton.mpr
        (List.forall_mem_singleton.mpr (.unaryOp (.constant fun x h => nomatch h))))
  have hrender : renderer.render ⟨f, expression 1⟩ {} =
      renderer.render ⟨f, expression 7⟩ { indentWidth := some 2 } := by
    rw [render_text, render_text]
    rfl
  exact ⟨⟨hlegible 1, hlegible 7, hrender⟩, render_unambiguous (hlegible 1) (hlegible 7) hrender⟩

end Rendition.Python.Readable
