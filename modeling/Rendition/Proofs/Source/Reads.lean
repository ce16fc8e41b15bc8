import Mathlib.Data.List.Forall2
import Rendition.Proofs.Source.Parts
import Rendition.Source.Read

/-!
# What constructs are read as

Reading fails as soon as a part cannot be read, so a tree that reading returns is made of the trees
of the parts. The relations here say how, construct by construct, and leave out the order in which
the parts are read: what holds of all trees that are read is an induction over them. Lists of parts
and of their trees have one length, and the pairs at one position are related.

## Main definitions

* `Expr.Reads`: An expression is read as a tree.
* `Expr.Targets`: An expression is read as the target of an assignment.
* `Expr.ReadsItem`: An expression is read as an item of a `with` statement.
* `Stmt.Reads`: A statement is read as a tree.

## Theorems

* `Expr.reads_of_read`: A tree of an expression is related to it.
* `Expr.targets_of_readTarget`: The same for targets.
* `Stmt.reads_of_read`: The same for statements.
* `read_eq_ok`: The tree of a source text is made of what its statements are read as.
-/

namespace Rendition.Source

variable {ε α β : Type}

/-! ## Computations that succeed -/

/-- One computation after another succeeds if both do. -/
theorem bind_eq_ok {x : Except ε α} {k : α → Except ε β} {b : β} :
    x >>= k = .ok b ↔ ∃ a, x = .ok a ∧ k a = .ok b := by
  rcases x with e | a
  · exact ⟨nofun, nofun⟩
  · refine ⟨fun h => ⟨a, rfl, h⟩, fun ⟨a', ha, hk⟩ => ?_⟩
    cases ha
    exact hk

theorem ok_bind (a : α) (k : α → Except ε β) : (Except.ok a >>= k) = k a := rfl

theorem pure_eq_ok {a b : α} : (pure a : Except ε α) = .ok b ↔ a = b :=
  ⟨Except.ok.inj, congrArg Except.ok⟩

/-- A traversal succeeds if each step does. -/
theorem forall₂_of_mapM {f : α → Except ε β} {as : List α} {bs : List β}
    (h : as.mapM f = .ok bs) : List.Forall₂ (fun a b => f a = .ok b) as bs := by
  induction as generalizing bs with
  | nil =>
    obtain rfl := Except.ok.inj h
    exact .nil
  | cons a as ih =>
    simp only [List.mapM_cons, bind_eq_ok, pure_eq_ok] at h
    obtain ⟨b, hb, bs, hbs, rfl⟩ := h
    exact .cons hb (ih hbs)

/-- What holds of related elements makes two lists have the same image. -/
theorem map_eq_of_forall₂ {γ : Type} {r : α → β → Prop} {f : α → γ} {g : β → γ} {as : List α}
    {bs : List β} (h : List.Forall₂ r as bs) (hr : ∀ a b, r a b → f a = g b) :
    as.map f = bs.map g := by
  induction h with
  | nil => rfl
  | cons hab _ ih => rw [List.map_cons, List.map_cons, hr _ _ hab, ih]

/-- Two lists whose elements are related one by one are related in another way too, if elements of
    the first one are. -/
theorem zip_of_forall₂ {r R : α → β → Prop} {as : List α} {bs : List β}
    (ih : ∀ a ∈ as, ∀ b, r a b → R a b) (h : List.Forall₂ r as bs) :
    as.length = bs.length ∧ ∀ p ∈ as.zip bs, R p.1 p.2 :=
  ⟨h.length_eq, fun p hp => ih p.1 (List.of_mem_zip hp).1 p.2 (List.forall₂_zip h hp)⟩

/-- What holds of the second parts of pairs holds of the whole second list. -/
theorem forall_of_zip {P : β → Prop} {as : List α} {bs : List β} (hlength : as.length = bs.length)
    (h : ∀ p ∈ as.zip bs, P p.2) : ∀ b ∈ bs, P b := by
  intro b hb
  rw [← @List.map_snd_zip _ _ as bs (Nat.le_of_eq hlength.symm)] at hb
  obtain ⟨p, hp, rfl⟩ := List.mem_map.mp hb
  exact h p hp

/-- What holds of pairs holds of the whole first list and something. -/
theorem exists_of_zip {R : α → β → Prop} {as : List α} {bs : List β}
    (hlength : as.length = bs.length) (h : ∀ p ∈ as.zip bs, R p.1 p.2) :
    ∀ a ∈ as, ∃ b, R a b := by
  intro a ha
  rw [← @List.map_fst_zip _ _ as bs (Nat.le_of_eq hlength)] at ha
  obtain ⟨p, hp, rfl⟩ := List.mem_map.mp ha
  exact ⟨p.2, h p hp⟩

/-! ## Expressions -/

namespace Expr

/-- An expression is read as a tree. -/
inductive Reads : Expr → Tree → Prop
  | ident {span : Span} {name : String} : Reads (.ident span name) (.mk span (.ident name))
  | integer {span : Span} {text : String} {value : Int} (hvalue : integerValue? text = some value) :
    Reads (.integer span text) (.mk span (.constant (.int value)))
  | float {span : Span} {text : String} {value : Float} (hvalue : floatValue? text = some value) :
    Reads (.float span text) (.mk span (.constant (.float value)))
  | string {span : Span} {text value : String} (hvalue : stringValue span text = .ok value) :
    Reads (.string span text) (.mk span (.constant (.str value)))
  | strings {span : Span} {literals : List (Span × String)} {texts : List String}
    (htexts : List.Forall₂ (fun literal text => stringValue literal.1 literal.2 = .ok text)
      literals texts) :
    Reads (.strings span literals) (.mk span (.constant (.str (String.join texts))))
  | truth {span : Span} {value : Bool} :
    Reads (.truth span value) (.mk span (.constant (.bool value)))
  | nothing {span : Span} : Reads (.nothing span) (.mk span (.constant .none))
  | unary {span : Span} {op : UnaryOperator} {operand : Expr} {operand' : Tree}
    (hoperand : Reads operand operand') :
    Reads (.unary span op operand) (.mk span (.unaryOp op operand'))
  | negation {span : Span} {operand : Expr} {operand' : Tree} (hoperand : Reads operand operand') :
    Reads (.negation span operand) (.mk span (.unaryOp .not operand'))
  | binary {span : Span} {op : Operator} {left right : Expr} {left' right' : Tree}
    (hleft : Reads left left') (hright : Reads right right') :
    Reads (.binary span left op right) (.mk span (.binOp left' op right'))
  | boolean {span : Span} {op : Connective} {left right : Expr} {left' right' : Tree}
    (hleft : Reads left left') (hright : Reads right right') :
    Reads (.boolean span left op right) (.mk span (.boolOp op (joined op left left' ++ [right'])))
  | comparison {span : Span} {left : Expr} {link : Link Expr} {links : List (Link Expr)}
    {left' : Tree} {ops : List Comparison} {comparators : List Tree} (hleft : Reads left left')
    (hops : (link :: links).map (fun link => Comparison.ofSymbol? link.op) = ops.map some)
    (hlength : (link :: links).length = comparators.length)
    (hcomparators : ∀ p ∈ ((link :: links).map Link.operand).zip comparators, Reads p.1 p.2) :
    Reads (.comparison span left link links) (.mk span (.compare left' ops comparators))
  | conditional {span : Span} {body test orelse : Expr} {body' test' orelse' : Tree}
    (hbody : Reads body body') (htest : Reads test test') (horelse : Reads orelse orelse') :
    Reads (.conditional span false body test orelse) (.mk span (.ifExp test' body' orelse'))
  | lambda {span : Span} {names : List String} {body : Expr} {body' : Tree}
    (hbody : Reads body body') :
    Reads (.lambda span (names.map .named) body) (.mk span (.lambda names body'))
  | attr {span : Span} {object : Expr} {name : String} {object' : Tree}
    (hobject : Reads object object') :
    Reads (.attr span object name) (.mk span (.attr object' name))
  | subscript {span : Span} {object index : Expr} {object' index' : Tree}
    (hobject : Reads object object') (hindex : Reads index index') :
    Reads (.subscript span object index []) (.mk span (.subscript object' index'))
  | subscripts {span : Span} {object first second : Expr} {rest : List Expr} {object' : Tree}
    {items : List Tree} (hobject : Reads object object')
    (hlength : (first :: second :: rest).length = items.length)
    (hitems : ∀ p ∈ (first :: second :: rest).zip items, Reads p.1 p.2) :
    Reads (.subscript span object first (second :: rest))
      (.mk span (.subscript object' (.mk first.span (.tuple items))))
  | slice {span : Span} {parts : List (Option Expr)} {trees : List (Option Tree)}
    (hlength : parts.length = trees.length)
    (hcolons : ∀ p ∈ parts.zip trees, p.1.isSome = p.2.isSome)
    (hparts : ∀ p ∈ parts.zip trees, ∀ e ∈ p.1, ∀ t ∈ p.2, Reads e t) :
    Reads (.slice span parts) (.mk span (.slice (bounds trees)[0]?.join (bounds trees)[1]?.join
      (bounds trees)[2]?.join))
  | call {span : Span} {func : Expr} {args : List (Option String × Expr)} {func' : Tree}
    {args' : List Tree} {keywords : List (Keyword Tree)} (hfunc : Reads func func')
    (hlength : (positional args).length = args'.length)
    (hargs : ∀ p ∈ (positional args).zip args', Reads p.1 p.2)
    (hcount : (named args).length = keywords.length)
    (hnames : ∀ p ∈ (named args).zip keywords, p.1.1 = p.2.name)
    (hkeywords : ∀ p ∈ (named args).zip keywords, Reads p.1.2 p.2.value) :
    Reads (.call span func args) (.mk span (.call func' args' keywords))
  | list {span : Span} {items : List Expr} {items' : List Tree}
    (hlength : items.length = items'.length) (hitems : ∀ p ∈ items.zip items', Reads p.1 p.2) :
    Reads (.list span items) (.mk span (.list items'))
  | tuple {span : Span} {items : List Expr} {items' : List Tree}
    (hlength : items.length = items'.length) (hitems : ∀ p ∈ items.zip items', Reads p.1 p.2) :
    Reads (.tuple span items) (.mk span (.tuple items'))
  | sequence {span : Span} {items : List Expr} {items' : List Tree}
    (hlength : items.length = items'.length) (hitems : ∀ p ∈ items.zip items', Reads p.1 p.2) :
    Reads (.sequence span items) (.mk span (.tuple items'))
  | parens {span : Span} {item : Expr} {items : List Expr} {t : Tree} (hitem : Reads item t) :
    Reads (.parens span item items) t
  | dict {span : Span} {pairs : List (Expr × Expr)} {entries : List (Tree × Tree)}
    (hlength : pairs.length = entries.length)
    (hkeys : ∀ p ∈ pairs.zip entries, Reads p.1.1 p.2.1)
    (hvalues : ∀ p ∈ pairs.zip entries, Reads p.1.2 p.2.2) :
    Reads (.dict span (pairs.map fun pair => (pair.1, some pair.2))) (.mk span (.dict entries))

theorem readAll_eq (es : List Expr) : readAll es = es.mapM read := by
  induction es with
  | nil => rfl
  | cons e es ih => simp only [readAll, List.mapM_cons, ih]

/-- An operator with the operand after it, where no line is continued. -/
theorem readLink_eq_ok {link : Link Expr} {op : Comparison} {operand : Tree}
    (h : readLink link = .ok (op, operand)) :
    Comparison.ofSymbol? link.op = some op ∧ link.operand.read = .ok operand := by
  rcases link with ⟨before, symbol, after, e⟩
  simp only [readLink, bind_eq_ok, pure_eq_ok, Prod.mk.injEq] at h
  obtain ⟨-, -, op', hop, -, -, operand', hread, rfl, rfl⟩ := h
  refine ⟨?_, hread⟩
  rw [readComparison] at hop
  split at hop
  · next hsymbol => rw [hsymbol, Except.ok.inj hop]
  · cases hop

theorem readLinks_eq (links : List (Link Expr)) : readLinks links = links.mapM readLink := by
  induction links with
  | nil => rfl
  | cons link links ih => simp only [readLinks, List.mapM_cons, ih]

/-- The parts of a slice, of which the colons remain. -/
theorem readParts_eq (parts : List (Option Expr)) : readParts parts = parts.mapM readOptional := by
  induction parts with
  | nil => rfl
  | cons part parts ih =>
    rw [List.mapM_cons, ← ih]
    cases part with
    | none => rfl
    | some e =>
      rw [readParts, readOptional]
      rcases e.read with _ | t <;> rfl

theorem readOptional_eq_ok {e : Option Expr} {t : Option Tree} (h : readOptional e = .ok t) :
    e.isSome = t.isSome ∧ ∀ e' ∈ e, ∀ t' ∈ t, e'.read = .ok t' := by
  cases e with
  | none =>
    obtain rfl := Except.ok.inj h
    exact ⟨rfl, nofun⟩
  | some e =>
    rw [readOptional] at h
    rcases hread : e.read with _ | t'
    · rw [hread] at h
      cases h
    · rw [hread] at h
      obtain rfl := Except.ok.inj h
      refine ⟨rfl, fun e' he t'' ht => ?_⟩
      cases he
      cases ht
      exact hread

/-- Every entry is a pair of a key and a value. -/
theorem readEntries_eq_ok {entries : List (Expr × Option Expr)} {trees : List (Tree × Tree)}
    (h : readEntries entries = .ok trees) :
    ∃ pairs : List (Expr × Expr), entries = pairs.map (fun pair => (pair.1, some pair.2)) ∧
      List.Forall₂ (fun pair tree => pair.1.read = .ok tree.1 ∧ pair.2.read = .ok tree.2) pairs
        trees := by
  induction entries generalizing trees with
  | nil =>
    obtain rfl := Except.ok.inj h
    exact ⟨[], rfl, .nil⟩
  | cons entry entries ih =>
    rcases entry with ⟨key, _ | value⟩
    · cases h
    · simp only [readEntries, bind_eq_ok, pure_eq_ok] at h
      obtain ⟨key', hkey, value', hvalue, rest, hrest, rfl⟩ := h
      obtain ⟨pairs, rfl, hpairs⟩ := ih hrest
      exact ⟨(key, value) :: pairs, rfl, .cons ⟨hkey, hvalue⟩ hpairs⟩

/-- Arguments with and without a name are told apart and keep their order. -/
theorem readArguments_eq_ok {args : List (Option String × Expr)} {trees : List Tree}
    {keywords : List (Keyword Tree)} (h : readArguments args = .ok (trees, keywords)) :
    List.Forall₂ (fun e t => e.read = .ok t) (positional args) trees ∧
      List.Forall₂ (fun arg keyword => arg.1 = keyword.name ∧ arg.2.read = .ok keyword.value)
        (named args) keywords := by
  induction args generalizing trees keywords with
  | nil =>
    cases h
    exact ⟨.nil, .nil⟩
  | cons arg args ih =>
    rcases arg with ⟨name, e⟩
    simp only [readArguments, bind_eq_ok] at h
    obtain ⟨tree, htree, ⟨trees', keywords'⟩, hrest, h⟩ := h
    obtain ⟨htrees, hkeywords⟩ := ih hrest
    cases name with
    | none =>
      cases h
      exact ⟨.cons htree htrees, hkeywords⟩
    | some name =>
      cases h
      exact ⟨htrees, .cons ⟨rfl, htree⟩ hkeywords⟩

/-- The names of parameters. -/
theorem params_eq_ok {params : List Param} {names : List String}
    (h : params.mapM Param.read = .ok names) : params = names.map .named := by
  induction params generalizing names with
  | nil =>
    obtain rfl := Except.ok.inj h
    rfl
  | cons param params ih =>
    simp only [List.mapM_cons, bind_eq_ok, pure_eq_ok] at h
    obtain ⟨name, hname, names, hnames, rfl⟩ := h
    cases param with
    | named =>
      cases hname
      rw [ih hnames, List.map_cons]
    | other => cases hname

theorem mem_of_mem_positional {args : List (Option String × Expr)} {e : Expr}
    (h : e ∈ positional args) : e ∈ args.map Prod.snd := by
  simp only [positional, List.mem_filterMap, Option.ite_none_right_eq_some, Option.some.injEq] at h
  obtain ⟨arg, hmem, -, rfl⟩ := h
  exact List.mem_map_of_mem hmem

theorem mem_of_mem_named {args : List (Option String × Expr)} {arg : String × Expr}
    (h : arg ∈ named args) : arg.2 ∈ args.map Prod.snd := by
  simp only [named, List.mem_filterMap, Option.map_eq_some_iff] at h
  obtain ⟨arg, hmem, name, -, rfl⟩ := h
  exact List.mem_map_of_mem hmem

/-- The tree that reading an expression returns is one that the expression is read as. -/
theorem reads_of_read {e : Expr} {t : Tree} (h : e.read = .ok t) : Reads e t := by
  induction e using inductionOn generalizing t with
  | step e ih =>
    have ih : ∀ p ∈ e.parts, ∀ t, p.read = .ok t → Reads p t := fun p hp t h => ih p hp h
    cases e with
    | ident | truth | nothing =>
      cases h
      constructor
    | integer span text =>
      rw [read, readInteger] at h
      split at h
      · next hvalue =>
        cases h
        exact .integer hvalue
      · cases h
    | float span text =>
      rw [read, readFloat] at h
      split at h
      · next hvalue =>
        cases h
        exact .float hvalue
      · cases h
    | string span text =>
      simp only [read, bind_eq_ok, pure_eq_ok] at h
      obtain ⟨value, hvalue, rfl⟩ := h
      exact .string hvalue
    | strings span literals =>
      simp only [read, bind_eq_ok, pure_eq_ok] at h
      obtain ⟨texts, htexts, rfl⟩ := h
      exact .strings (forall₂_of_mapM htexts)
    | unary span op operand =>
      simp only [read, bind_eq_ok, pure_eq_ok] at h
      obtain ⟨operand', hoperand, rfl⟩ := h
      exact .unary (ih _ (.head _) _ hoperand)
    | negation span operand =>
      simp only [read, bind_eq_ok, pure_eq_ok] at h
      obtain ⟨operand', hoperand, rfl⟩ := h
      exact .negation (ih _ (.head _) _ hoperand)
    | binary span left op right =>
      simp only [read, bind_eq_ok, pure_eq_ok] at h
      obtain ⟨left', hleft, right', hright, rfl⟩ := h
      exact .binary (ih _ (.head _) _ hleft) (ih _ (.tail _ (.head _)) _ hright)
    | boolean span left op right =>
      simp only [read, bind_eq_ok, pure_eq_ok] at h
      obtain ⟨left', hleft, right', hright, rfl⟩ := h
      exact .boolean (ih _ (.head _) _ hleft) (ih _ (.tail _ (.head _)) _ hright)
    | comparison span left link links =>
      simp only [read, bind_eq_ok, pure_eq_ok, readLinks_eq] at h
      obtain ⟨left', hleft, ⟨op, operand⟩, hlink, rest, hlinks, rfl⟩ := h
      -- The link that every comparison has is read like the others.
      have hall : List.Forall₂ (fun link pair => readLink link = .ok pair) (link :: links)
        ((op, operand) :: rest) := .cons hlink (forall₂_of_mapM hlinks)
      have hops := map_eq_of_forall₂ hall fun link pair h => (readLink_eq_ok h).1
      have hread : List.Forall₂ (fun e t => e.read = .ok t) ((link :: links).map Link.operand)
          (((op, operand) :: rest).map Prod.snd) :=
        List.forall₂_map_left_iff.mpr (List.forall₂_map_right_iff.mpr
          (hall.imp fun link pair h => (readLink_eq_ok h).2))
      obtain ⟨hlength, hcomparators⟩ := zip_of_forall₂ (fun e he => ih e (.tail _ he)) hread
      exact .comparison (ih _ (.head _) _ hleft) (by rw [hops]; simp) (by simpa using hlength)
        hcomparators
    | conditional span continued body test orelse =>
      cases continued with
      | true => cases h
      | false =>
        simp only [read, Bool.false_eq_true, if_false, bind_eq_ok, pure_eq_ok] at h
        obtain ⟨test', htest, body', hbody, orelse', horelse, rfl⟩ := h
        exact .conditional (ih _ (.head _) _ hbody) (ih _ (.tail _ (.head _)) _ htest)
          (ih _ (.tail _ (.tail _ (.head _))) _ horelse)
    | lambda span params body =>
      simp only [read, bind_eq_ok, pure_eq_ok] at h
      obtain ⟨names, hnames, body', hbody, rfl⟩ := h
      rw [params_eq_ok hnames]
      exact .lambda (ih _ (.head _) _ hbody)
    | attr span object name =>
      simp only [read, bind_eq_ok, pure_eq_ok] at h
      obtain ⟨object', hobject, rfl⟩ := h
      exact .attr (ih _ (.head _) _ hobject)
    | subscript span object index indices =>
      simp only [read, bind_eq_ok, readAll_eq] at h
      obtain ⟨object', hobject, first, hfirst, rest, hrest, h⟩ := h
      have hrest := forall₂_of_mapM hrest
      have hobject := ih _ (.head _) _ hobject
      -- Several indices are the elements of a tuple.
      cases hrest with
      | nil =>
        cases h
        exact .subscript hobject (ih _ (.tail _ (.head _)) _ hfirst)
      | cons hsecond hothers =>
        cases h
        obtain ⟨hlength, hitems⟩ := zip_of_forall₂ (fun e he => ih e (.tail _ he))
          (.cons hfirst (.cons hsecond hothers))
        exact .subscripts hobject hlength hitems
    | slice span parts =>
      simp only [read, bind_eq_ok, pure_eq_ok, readParts_eq] at h
      obtain ⟨trees, htrees, rfl⟩ := h
      have htrees := forall₂_of_mapM htrees
      refine .slice htrees.length_eq
        (fun p hp => (readOptional_eq_ok (List.forall₂_zip htrees hp)).1) fun p hp e he t ht => ?_
      have hmem : e ∈ parts.flatMap Option.toList :=
        List.mem_flatMap.mpr ⟨p.1, (List.of_mem_zip hp).1, Option.mem_toList.mpr he⟩
      exact ih e hmem t ((readOptional_eq_ok (List.forall₂_zip htrees hp)).2 e he t ht)
    | call span func args =>
      simp only [read, bind_eq_ok, pure_eq_ok] at h
      obtain ⟨⟨args', keywords⟩, hargs, func', hfunc, rfl⟩ := h
      obtain ⟨hargs, hkeywords⟩ := readArguments_eq_ok hargs
      obtain ⟨hlength, hargs⟩ :=
        zip_of_forall₂ (fun e he => ih e (.tail _ (mem_of_mem_positional he))) hargs
      refine .call (ih _ (.head _) _ hfunc) hlength hargs hkeywords.length_eq
        (fun p hp => (List.forall₂_zip hkeywords hp).1) fun p hp => ?_
      exact ih _ (.tail _ (mem_of_mem_named (List.of_mem_zip hp).1)) _
        (List.forall₂_zip hkeywords hp).2
    | list span items =>
      simp only [read, bind_eq_ok, pure_eq_ok, readAll_eq] at h
      obtain ⟨items', hitems, rfl⟩ := h
      obtain ⟨hlength, hitems⟩ := zip_of_forall₂ ih (forall₂_of_mapM hitems)
      exact .list hlength hitems
    | tuple span items =>
      simp only [read, bind_eq_ok, pure_eq_ok, readAll_eq] at h
      obtain ⟨items', hitems, rfl⟩ := h
      obtain ⟨hlength, hitems⟩ := zip_of_forall₂ ih (forall₂_of_mapM hitems)
      exact .tuple hlength hitems
    | sequence span items =>
      simp only [read, bind_eq_ok, pure_eq_ok, readAll_eq] at h
      obtain ⟨items', hitems, rfl⟩ := h
      obtain ⟨hlength, hitems⟩ := zip_of_forall₂ ih (forall₂_of_mapM hitems)
      exact .sequence hlength hitems
    | parens span item items => exact .parens (ih _ (.head _) _ h)
    | dict span entries =>
      simp only [read, bind_eq_ok, pure_eq_ok] at h
      obtain ⟨trees, htrees, rfl⟩ := h
      obtain ⟨pairs, rfl, hpairs⟩ := readEntries_eq_ok htrees
      have hpart : ∀ pair ∈ pairs, ∀ e ∈ [pair.1, pair.2],
          e ∈ (dict span (pairs.map fun pair => (pair.1, some pair.2))).parts := by
        intro pair hpair e he
        exact List.mem_flatMap.mpr ⟨_, List.mem_map_of_mem hpair, he⟩
      refine .dict hpairs.length_eq (fun p hp => ?_) fun p hp => ?_
      · exact ih _ (hpart _ (List.of_mem_zip hp).1 _ (.head _)) _ (List.forall₂_zip hpairs hp).1
      · exact ih _ (hpart _ (List.of_mem_zip hp).1 _ (.tail _ (.head _))) _
          (List.forall₂_zip hpairs hp).2
    | generatorCall | aliased | splat | continuation | other => cases h

/-! ## Targets and items -/

/-- An expression is read as the target of an assignment. -/
inductive Targets : Expr → Tree → Prop
  | place {e : Expr} {t : Tree} (h : Reads e t) : Targets e t
  | sequence {span : Span} {items : List Expr} {items' : List Tree}
    (hlength : items.length = items'.length) (hitems : ∀ p ∈ items.zip items', Targets p.1 p.2) :
    Targets (.sequence span items) (.mk span (.tuple items'))
  | tuple {span : Span} {items : List Expr} {items' : List Tree}
    (hlength : items.length = items'.length) (hitems : ∀ p ∈ items.zip items', Targets p.1 p.2) :
    Targets (.tuple span items) (.mk span (.tuple items'))
  | parens {span : Span} {item : Expr} {items : List Expr} {items' : List Tree}
    (hlength : (item :: items).length = items'.length)
    (hitems : ∀ p ∈ (item :: items).zip items', Targets p.1 p.2) :
    Targets (.parens span item items) (.mk span (.tuple items'))
  | list {span : Span} {items : List Expr} {items' : List Tree}
    (hlength : items.length = items'.length) (hitems : ∀ p ∈ items.zip items', Targets p.1 p.2) :
    Targets (.list span items) (.mk span (.list items'))

theorem readTargets_eq (es : List Expr) : readTargets es = es.mapM readTarget := by
  induction es with
  | nil => rfl
  | cons e es ih => simp only [readTargets, List.mapM_cons, ih]

/-- The tree that reading a target returns is one that the target is read as. -/
theorem targets_of_readTarget {e : Expr} {t : Tree} (h : e.readTarget = .ok t) : Targets e t := by
  induction e using inductionOn generalizing t with
  | step e ih =>
    have ih : ∀ p ∈ e.parts, ∀ t, p.readTarget = .ok t → Targets p t := fun p hp t h => ih p hp h
    cases e with
    | sequence span items =>
      simp only [readTarget, bind_eq_ok, pure_eq_ok, readTargets_eq] at h
      obtain ⟨items', hitems, rfl⟩ := h
      obtain ⟨hlength, hitems⟩ := zip_of_forall₂ ih (forall₂_of_mapM hitems)
      exact .sequence hlength hitems
    | tuple span items =>
      simp only [readTarget, bind_eq_ok, pure_eq_ok, readTargets_eq] at h
      obtain ⟨items', hitems, rfl⟩ := h
      obtain ⟨hlength, hitems⟩ := zip_of_forall₂ ih (forall₂_of_mapM hitems)
      exact .tuple hlength hitems
    | parens span item items =>
      simp only [readTarget, bind_eq_ok, pure_eq_ok, readTargets_eq] at h
      obtain ⟨first, hfirst, rest, hrest, rfl⟩ := h
      obtain ⟨hlength, hitems⟩ := zip_of_forall₂ ih (.cons hfirst (forall₂_of_mapM hrest))
      exact .parens hlength hitems
    | list span items =>
      simp only [readTarget, bind_eq_ok, pure_eq_ok, readTargets_eq] at h
      obtain ⟨items', hitems, rfl⟩ := h
      obtain ⟨hlength, hitems⟩ := zip_of_forall₂ ih (forall₂_of_mapM hitems)
      exact .list hlength hitems
    | splat => cases h
    | _ => exact .place (reads_of_read h)

/-- An expression is read as an item of a `with` statement. -/
inductive ReadsItem : Expr → WithItem Tree → Prop
  | aliased {span : Span} {value : Expr} {name : String} {t : Tree} (h : Reads value t) :
    ReadsItem (.aliased span value name) ⟨t, some name⟩
  | plain {e : Expr} {t : Tree} (h : Reads e t) : ReadsItem e ⟨t, none⟩

/-- The expression of an item is read as its context. -/
theorem ReadsItem.context {e : Expr} {item : WithItem Tree} (h : ReadsItem e item) :
    Reads e.context item.context := by
  cases h with
  | aliased h => exact h
  | plain h => cases h <;> constructor <;> assumption

theorem readsItem_of_readItem {e : Expr} {item : WithItem Tree} (h : readItem e = .ok item) :
    ReadsItem e item := by
  cases e with
  | aliased span value name =>
    simp only [readItem, bind_eq_ok, pure_eq_ok] at h
    obtain ⟨t, ht, rfl⟩ := h
    exact .aliased (reads_of_read ht)
  | _ =>
    simp only [readItem, bind_eq_ok, pure_eq_ok] at h
    obtain ⟨t, ht, rfl⟩ := h
    exact .plain (reads_of_read ht)

theorem rel_of_readOptional {e : Option Expr} {t : Option Tree} (h : readOptional e = .ok t) :
    Option.Rel Reads e t := by
  obtain ⟨hsome, hread⟩ := readOptional_eq_ok h
  rcases e with _ | e <;> rcases t with _ | t
  · exact .none
  · cases hsome
  · cases hsome
  · exact .some (reads_of_read (hread e rfl t rfl))

end Expr

/-! ## Handlers -/

/-- After what came before, expressions are read as an exception and its name. -/
structure ReadsCaught (before : Option Tree × Option String) (exprs : List Expr)
    (after : Option Tree × Option String) : Prop where
  /-- Only an exception has a name. -/
  named : (before.2.isSome → before.1.isSome) → after.2.isSome → after.1.isSome
  /-- The exception is one of the expressions. -/
  read : ∀ t ∈ after.1, t ∈ before.1 ∨ ∃ e ∈ exprs, e.Reads t
  all : ∀ e ∈ exprs, ∃ t, e.Reads t

/-- One more expression is caught in front of others. -/
theorem ReadsCaught.cons {before after : Option Tree × Option String} {e : Expr} {t : Tree}
    {name : Option String} {exprs : List Expr} (ht : e.Reads t)
    (h : ReadsCaught (some t, name) exprs after) : ReadsCaught before (e :: exprs) after where
  named _ := h.named fun _ => rfl
  read t' ht' := by
    rcases h.read t' ht' with heq | ⟨e', he', hreads⟩
    · cases heq
      exact .inr ⟨e, .head _, ht⟩
    · exact .inr ⟨e', .tail _ he', hreads⟩
  all := List.forall_mem_cons.mpr ⟨⟨t, ht⟩, h.all⟩

/-- What an `except` clause lists is read after what came before. -/
theorem readsCaught_of_readCaught {before after : Option Tree × Option String}
    {caught : List Caught} (h : readCaught before caught = .ok after) :
    ReadsCaught before (Caught.exprs before.1.isSome caught) after := by
  induction before, caught using readCaught.induct with
  | case1 before =>
    obtain rfl := Except.ok.inj h
    exact ⟨id, fun t ht => .inl ht, nofun⟩
  | case2 exception name text rest span value asName ih =>
    rw [readCaught, bind_eq_ok] at h
    obtain ⟨t, ht, h⟩ := h
    rw [Caught.exprs]
    exact (ih t h).cons (Expr.reads_of_read ht)
  | case3 name e text rest hplain ih =>
    simp only [readCaught, bind_eq_ok] at h
    obtain ⟨t, ht, h⟩ := h
    simp only [Option.isSome_none, Caught.exprs]
    exact (ih t h).cons (Expr.reads_of_read ht)
  | case4 e text rest exception hplain ih =>
    -- What comes second is a name and nothing that is read.
    simp only [readCaught] at h
    obtain ⟨hnamed, hread, hall⟩ := ih h
    simp only [Option.isSome_some, Caught.exprs]
    exact ⟨fun _ => hnamed fun _ => rfl, hread, hall⟩
  | case5 e text rest exception name hplain =>
    simp only [readCaught, reduceCtorEq] at h

/-! ## Statements -/

namespace Stmt

/-- A statement is read as a tree. -/
inductive Reads : Stmt → Tree → Prop
  | expression {span : Span} {value : Expr} {value' : Tree} (hvalue : value.Reads value') :
    Reads (.expression span value) (.mk span (.exprStmt value'))
  | assign {span : Span} {target value : Expr} {target' value' : Tree}
    (htarget : target.Targets target') (hvalue : value.Reads value') :
    Reads (.assign span target (some value)) (.mk span (.assign target' value'))
  | augAssign {span : Span} {target value : Expr} {op : Operator} {target' value' : Tree}
    (htarget : target.Targets target') (hvalue : value.Reads value') :
    Reads (.augAssign span target op value) (.mk span (.augAssign target' op value'))
  | functionDef {span : Span} {name : String} {params : List String} {body : List Stmt}
    {body' : List Tree} (hlength : body.length = body'.length)
    (hbody : ∀ p ∈ body.zip body', Reads p.1 p.2) :
    Reads (.functionDef span name (params.map .named) body)
      (.mk span (.functionDef name params body'))
  | classDef {span : Span} {name : String} {body : List Stmt} {body' : List Tree}
    (hlength : body.length = body'.length) (hbody : ∀ p ∈ body.zip body', Reads p.1 p.2) :
    Reads (.classDef span name none body) (.mk span (.classDef name [] body'))
  | classDefOf {span list : Span} {name : String} {bases : List (Option String × Expr)}
    {body : List Stmt} {bases' body' : List Tree} (hkeywords : Expr.named bases = [])
    (hbases : List.Forall₂ Expr.Reads (Expr.positional bases) bases')
    (hlength : body.length = body'.length) (hbody : ∀ p ∈ body.zip body', Reads p.1 p.2) :
    Reads (.classDef span name (some (list, bases)) body) (.mk span (.classDef name bases' body'))
  | ifStmt {span : Span} {test : Expr} {body : List Stmt} {branches : List Branch} {test' : Tree}
    {body' orelse : List Tree} (htest : test.Reads test') (hlength : body.length = body'.length)
    (hbody : ∀ p ∈ body.zip body', Reads p.1 p.2)
    (hlength' : (Branch.statements branches).length = orelse.length)
    (horelse : ∀ p ∈ (Branch.statements branches).zip orelse, Reads p.1 p.2) :
    Reads (.ifStmt span test body branches) (.mk span (.ifStmt test' body' orelse))
  | whileLoop {span : Span} {test : Expr} {body : List Stmt} {test' : Tree} {body' : List Tree}
    (htest : test.Reads test') (hlength : body.length = body'.length)
    (hbody : ∀ p ∈ body.zip body', Reads p.1 p.2) :
    Reads (.whileLoop span test body none) (.mk span (.whileLoop test' body'))
  | forLoop {span : Span} {target iter : Expr} {body : List Stmt} {target' iter' : Tree}
    {body' : List Tree} (htarget : target.Targets target') (hiter : iter.Reads iter')
    (hlength : body.length = body'.length) (hbody : ∀ p ∈ body.zip body', Reads p.1 p.2) :
    Reads (.forLoop span target iter body none) (.mk span (.forLoop target' iter' body'))
  | tryStmt {span : Span} {body : List Stmt} {clauses : List Clause} {body' final : List Tree}
    {handlers : List (Handler Tree)} (hlength : body.length = body'.length)
    (hbody : ∀ p ∈ body.zip body', Reads p.1 p.2)
    (hclauses : ∀ span construct, .other span construct ∉ clauses)
    (hcount : (Clause.excepts clauses).length = handlers.length)
    (hspans : ∀ p ∈ (Clause.excepts clauses).zip handlers, p.1.1 = p.2.span)
    (hcaught : ∀ p ∈ (Clause.excepts clauses).zip handlers,
      ReadsCaught (none, none) (Caught.exprs false p.1.2.1) (p.2.exception, p.2.name))
    (hlengths : ∀ p ∈ (Clause.excepts clauses).zip handlers, p.1.2.2.length = p.2.body.length)
    (hhandlers : ∀ p ∈ (Clause.excepts clauses).zip handlers,
      ∀ q ∈ p.1.2.2.zip p.2.body, Reads q.1 q.2)
    (hlength' : (Clause.finalSuite clauses).length = final.length)
    (hfinal : ∀ p ∈ (Clause.finalSuite clauses).zip final, Reads p.1 p.2) :
    Reads (.tryStmt span body clauses) (.mk span (.tryStmt body' handlers final))
  | withStmt {span : Span} {item : Expr} {items : List Expr} {body : List Stmt}
    {items' : List (WithItem Tree)} {body' : List Tree}
    (hitems : List.Forall₂ Expr.ReadsItem (item :: items) items')
    (hlength : body.length = body'.length) (hbody : ∀ p ∈ body.zip body', Reads p.1 p.2) :
    Reads (.withStmt span item items body) (.mk span (.withStmt items' body'))
  | returnStmt {span : Span} {value : Option Expr} {value' : Option Tree}
    (hvalue : Option.Rel Expr.Reads value value') :
    Reads (.returnStmt span value) (.mk span (.returnStmt value'))
  | raiseStmt {span : Span} {exception : Option Expr} {exception' : Option Tree}
    (hexception : Option.Rel Expr.Reads exception exception') :
    Reads (.raiseStmt span exception false) (.mk span (.raiseStmt exception'))
  | importStmt {span : Span} {source : Option String} {name : ImportedName}
    {names : List ImportedName} :
    Reads (.importStmt span source name names) (.mk span (.importStmt source (name :: names)))
  | passStmt {span : Span} : Reads (.passStmt span) (.mk span .passStmt)
  | breakStmt {span : Span} : Reads (.breakStmt span) (.mk span .breakStmt)
  | continueStmt {span : Span} : Reads (.continueStmt span) (.mk span .continueStmt)

theorem readSuite_eq (body : List Stmt) : readSuite body = body.mapM read := by
  induction body with
  | nil => rfl
  | cons s body ih => simp only [readSuite, List.mapM_cons, ih]

/-- The branches of a conditional statement are read like the statements that they stand for. -/
theorem readBranches_eq_ok {branches : List Branch} {ts : List Tree}
    (h : readBranches branches = .ok ts) :
    List.Forall₂ (fun s t => s.read = .ok t) (Branch.statements branches) ts := by
  cases branches with
  | nil =>
    obtain rfl := Except.ok.inj h
    exact .nil
  | cons branch rest =>
    cases branch with
    | elifBranch span test body =>
      simp only [readBranches, bind_eq_ok, pure_eq_ok] at h
      obtain ⟨orelse, horelse, test', htest, body', hbody, rfl⟩ := h
      refine .cons ?_ .nil
      -- The parts were read in another order, which makes no difference when all of them succeed.
      rw [read, htest, ok_bind, hbody, ok_bind, horelse]
      rfl
    | elseBranch body =>
      simp only [readBranches, bind_eq_ok] at h
      obtain ⟨-, -, hbody⟩ := h
      rw [readSuite_eq] at hbody
      exact forall₂_of_mapM hbody

/-- The clauses of a `try` statement are handlers or suites to execute at last. -/
theorem readClauses_eq_ok {clauses : List Clause} {handlers : List (Handler Tree)}
    {final : List Tree} (h : readClauses clauses = .ok (handlers, final)) :
    (∀ span construct, .other span construct ∉ clauses) ∧
      List.Forall₂ (fun clause handler => clause.1 = handler.span ∧
        readCaught (none, none) clause.2.1 = .ok (handler.exception, handler.name) ∧
        readSuite clause.2.2 = .ok handler.body) (Clause.excepts clauses) handlers ∧
      readSuite (Clause.finalSuite clauses) = .ok final := by
  induction clauses generalizing handlers final with
  | nil =>
    cases h
    exact ⟨nofun, .nil, rfl⟩
  | cons clause rest ih =>
    cases clause with
    | except span caught body =>
      simp only [readClauses, bind_eq_ok, pure_eq_ok, Prod.mk.injEq] at h
      obtain ⟨⟨exception, name⟩, hcaught, body', hbody, ⟨handlers', final'⟩, hrest, rfl, rfl⟩ := h
      obtain ⟨hother, hhandlers, hfinal⟩ := ih hrest
      exact ⟨by simpa using hother, .cons ⟨rfl, hcaught, hbody⟩ hhandlers, hfinal⟩
    | «finally» body =>
      simp only [readClauses, bind_eq_ok, pure_eq_ok, Prod.mk.injEq] at h
      obtain ⟨body', hbody, ⟨handlers', final'⟩, hrest, rfl, rfl⟩ := h
      obtain ⟨hother, hhandlers, hfinal⟩ := ih hrest
      refine ⟨by simpa using hother, hhandlers, ?_⟩
      -- A suite has as many statements as it is read as.
      have hempty : (Clause.finalSuite rest).isEmpty = final'.isEmpty := by
        rw [readSuite_eq] at hfinal
        rw [Bool.eq_iff_iff, List.isEmpty_iff_length_eq_zero, List.isEmpty_iff_length_eq_zero,
          (forall₂_of_mapM hfinal).length_eq]
      rw [Clause.finalSuite]
      simp only [hempty]
      split
      · exact hbody
      · exact hfinal
    | other => cases h

/-- The tree that reading a statement returns is one that the statement is read as. -/
theorem reads_of_read {s : Stmt} {t : Tree} (h : s.read = .ok t) : Reads s t := by
  induction s using inductionOn generalizing t with
  | step s ih =>
    -- A suite inside the statement is read statement by statement.
    have suite : ∀ {body trees}, (∀ p ∈ body, p ∈ s.parts) → readSuite body = .ok trees →
        body.length = trees.length ∧ ∀ p ∈ body.zip trees, Reads p.1 p.2 := by
      intro body trees hparts hbody
      rw [readSuite_eq] at hbody
      exact zip_of_forall₂ (fun p hp t h => ih p (hparts p hp) h) (forall₂_of_mapM hbody)
    cases s with
    | expression span value =>
      simp only [read, bind_eq_ok, pure_eq_ok] at h
      obtain ⟨value', hvalue, rfl⟩ := h
      exact .expression (Expr.reads_of_read hvalue)
    | assign span target value =>
      rw [read.eq_def] at h
      dsimp only at h
      split at h
      · cases h
      · cases h
      · simp only [bind_eq_ok, pure_eq_ok] at h
        obtain ⟨target', htarget, value', hvalue, rfl⟩ := h
        exact .assign (Expr.targets_of_readTarget htarget) (Expr.reads_of_read hvalue)
    | augAssign span target op value =>
      simp only [read, bind_eq_ok, pure_eq_ok] at h
      obtain ⟨target', htarget, value', hvalue, rfl⟩ := h
      exact .augAssign (Expr.targets_of_readTarget htarget) (Expr.reads_of_read hvalue)
    | functionDef span name params body =>
      simp only [read, bind_eq_ok, pure_eq_ok] at h
      obtain ⟨names, hnames, body', hbody, rfl⟩ := h
      obtain ⟨hlength, hbody⟩ := suite (fun p hp => hp) hbody
      rw [Expr.params_eq_ok hnames]
      exact .functionDef hlength hbody
    | classDef span name bases body =>
      simp only [read, bind_eq_ok] at h
      obtain ⟨body', hbody, h⟩ := h
      obtain ⟨hlength, hbody⟩ := suite (fun p hp => hp) hbody
      rcases bases with _ | ⟨list, args⟩
      · cases h
        exact .classDef hlength hbody
      · simp only [bind_eq_ok] at h
        obtain ⟨⟨bases, keywords⟩, hargs, h⟩ := h
        obtain ⟨hbases, hkeywords⟩ := Expr.readArguments_eq_ok hargs
        cases keywords with
        | nil =>
          cases h
          exact .classDefOf (List.forall₂_nil_right_iff.mp hkeywords)
            (hbases.imp fun e t => Expr.reads_of_read) hlength hbody
        | cons => cases h
    | ifStmt span test body branches =>
      simp only [read, bind_eq_ok, pure_eq_ok] at h
      obtain ⟨test', htest, body', hbody, orelse, horelse, rfl⟩ := h
      obtain ⟨hlength, hbody⟩ := suite (fun p hp => List.mem_append_left _ hp) hbody
      obtain ⟨hlength', horelse⟩ := zip_of_forall₂
        (fun p hp t h => ih p (List.mem_append_right _ hp) h) (readBranches_eq_ok horelse)
      exact .ifStmt (Expr.reads_of_read htest) hlength hbody hlength' horelse
    | whileLoop span test body orelse =>
      cases orelse with
      | some place => cases h
      | none =>
        simp only [read, bind_eq_ok, pure_eq_ok] at h
        obtain ⟨test', htest, body', hbody, rfl⟩ := h
        obtain ⟨hlength, hbody⟩ := suite (fun p hp => hp) hbody
        exact .whileLoop (Expr.reads_of_read htest) hlength hbody
    | forLoop span target iter body orelse =>
      cases orelse with
      | some place => cases h
      | none =>
        simp only [read, bind_eq_ok, pure_eq_ok] at h
        obtain ⟨target', htarget, iter', hiter, body', hbody, rfl⟩ := h
        obtain ⟨hlength, hbody⟩ := suite (fun p hp => hp) hbody
        exact .forLoop (Expr.targets_of_readTarget htarget) (Expr.reads_of_read hiter) hlength
          hbody
    | tryStmt span body clauses =>
      simp only [read, bind_eq_ok, pure_eq_ok] at h
      obtain ⟨body', hbody, ⟨handlers, final⟩, hclauses, rfl⟩ := h
      obtain ⟨hother, hhandlers, hfinal⟩ := readClauses_eq_ok hclauses
      have hsuites : ∀ p ∈ (Clause.excepts clauses).zip handlers, _ := fun p hp =>
        suite (fun q hq => List.mem_append_left _ (List.mem_append_right _
          (List.mem_flatMap.mpr ⟨p.1, (List.of_mem_zip hp).1, hq⟩)))
          (List.forall₂_zip hhandlers hp).2.2
      obtain ⟨hlength, hbody⟩ :=
        suite (fun p hp => List.mem_append_left _ (List.mem_append_left _ hp)) hbody
      obtain ⟨hlength', hfinal⟩ := suite (fun p hp => List.mem_append_right _ hp) hfinal
      exact .tryStmt hlength hbody hother hhandlers.length_eq
        (fun p hp => (List.forall₂_zip hhandlers hp).1)
        (fun p hp => readsCaught_of_readCaught (List.forall₂_zip hhandlers hp).2.1)
        (fun p hp => (hsuites p hp).1) (fun p hp => (hsuites p hp).2) hlength' hfinal
    | withStmt span item items body =>
      simp only [read, bind_eq_ok, pure_eq_ok] at h
      obtain ⟨body', hbody, first, hfirst, rest, hrest, rfl⟩ := h
      obtain ⟨hlength, hbody⟩ := suite (fun p hp => hp) hbody
      have hitems : List.Forall₂ (fun e item => readItem e = .ok item) (item :: items)
        (first :: rest) := .cons hfirst (forall₂_of_mapM hrest)
      exact .withStmt (hitems.imp fun e item => Expr.readsItem_of_readItem) hlength hbody
    | returnStmt span value =>
      simp only [read, bind_eq_ok, pure_eq_ok] at h
      obtain ⟨value', hvalue, rfl⟩ := h
      exact .returnStmt (Expr.rel_of_readOptional hvalue)
    | raiseStmt span exception caused =>
      cases caused with
      | true => cases h
      | false =>
        simp only [read, Bool.false_eq_true, if_false, bind_eq_ok, pure_eq_ok] at h
        obtain ⟨exception', hexception, rfl⟩ := h
        exact .raiseStmt (Expr.rel_of_readOptional hexception)
    | importStmt | passStmt | breakStmt | continueStmt =>
      cases h
      constructor
    | other => cases h

end Stmt

/-- The tree of a source text is made of what its statements are read as. -/
theorem read_eq_ok {text : String} {tree : Tree} (h : read text = .ok tree) :
    ∃ statements body, parse? text.toList = some statements ∧
      List.Forall₂ Stmt.Reads statements body ∧ tree = .mk ⟨1, 0⟩ (.moduleDef body) := by
  simp only [read, bind_eq_ok, pure_eq_ok] at h
  obtain ⟨body, hbody, rfl⟩ := h
  rw [readStatements] at hbody
  split at hbody
  · next statements hparse =>
    rw [Stmt.readSuite_eq] at hbody
    exact ⟨statements, body, hparse,
      (forall₂_of_mapM hbody).imp fun s t => Stmt.reads_of_read, rfl⟩
  · cases hbody

end Rendition.Source
