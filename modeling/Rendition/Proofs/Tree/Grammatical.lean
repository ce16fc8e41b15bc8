import Rendition.Proofs.Source.Naming
import Rendition.Source.Grammar.Words
import Rendition.Tree.Basic
import Rendition.Word

/-!
# Grammatical trees

Not every tree is one of a source text: statements belong into suites and expressions into other
places, names have to be names, and slices stand between the brackets of a subscript only. The
predicates here say which trees are grammatical, and let every node satisfy a further condition.

## Main definitions

* `Tree.indices`, `Tree.bounds`: The expressions between the brackets of a subscript.
* `Tree.isTarget`: Whether a tree can stand on the left of an assignment.
* `Tree.IsExpression`, `Tree.IsStatement`: Grammatical trees with a condition on every node.

## Theorems

* `IsExpression.restrict`, `IsStatement.restrict`: The condition may be checked afterwards.
-/

namespace Rendition

/-- Texts that name an attribute, a function or a parameter. -/
def Text.IsIdentifier (text : String) : Prop :=
  IsName text ∧ Source.isReserved text = false

/-- Reserved words are made up like names. -/
theorem Text.isName_reserved {text : String} (h : Source.isReserved text = true) :
    IsName text := by
  have hreserved : ∀ word ∈ Source.reserved, word.toList.head?.any startsName = true ∧
      word.toList.tail.all continuesName = true := by decide
  obtain ⟨hhead, htail⟩ := hreserved text (List.contains_iff_mem.mp h)
  rcases htext : text.toList with _ | ⟨c, cs⟩
  · rw [htext] at hhead
    cases hhead
  · rw [htext] at hhead htail
    exact ⟨c, cs, htext, hhead, List.all_eq_true.mp htail⟩

namespace Tree

/-- The indices of a subscript: the elements of a tuple, or the index itself. -/
def indices (t : Tree) : List Tree :=
  match t.node with
  | .tuple (first :: rest) => first :: rest
  | _ => [t]

/-- The expressions of an index: the bounds of a slice, or the index itself. -/
def bounds (t : Tree) : List Tree :=
  match t.node with
  | .slice lower upper step => lower.toList ++ upper.toList ++ step.toList
  | _ => [t]

/-- Whether a tree can stand on the left of an assignment. -/
def isTarget (t : Tree) : Bool :=
  t.fold fun _ node => match node with
    | .ident _ | .attr .. | .subscript .. => true
    | .list items => items.all id
    | .tuple items => items.all id
    | _ => false

theorem isTarget_mk (span : Span) (node : Node Tree) :
    (mk span node).isTarget = match node with
      | .ident _ | .attr .. | .subscript .. => true
      | .list items => items.all isTarget
      | .tuple items => items.all isTarget
      | _ => false := by
  rw [isTarget, fold_mk]
  cases node with
  | list items | tuple items => exact List.all_map
  | _ => rfl

/-- Expressions of source texts, each node of which satisfies a condition. -/
inductive IsExpression (ok : Node Tree → Prop) : Tree → Prop
  | ident {span : Span} {id : String} (hok : ok (.ident id)) (hname : Text.IsName id)
    (hvariable : Source.isVariable id = true) : IsExpression ok (.mk span (.ident id))
  | constant {span : Span} {value : Literal} (hok : ok (.constant value))
    (hint : ∀ n, value = .int n → 0 ≤ n ∧ n < Word.signedBound) :
    IsExpression ok (.mk span (.constant value))
  | binOp {span : Span} {left right : Tree} {op : Operator} (hok : ok (.binOp left op right))
    (hleft : IsExpression ok left) (hright : IsExpression ok right) :
    IsExpression ok (.mk span (.binOp left op right))
  | unaryOp {span : Span} {op : UnaryOperator} {operand : Tree} (hok : ok (.unaryOp op operand))
    (hoperand : IsExpression ok operand) : IsExpression ok (.mk span (.unaryOp op operand))
  | compare {span : Span} {left : Tree} {ops : List Comparison} {comparators : List Tree}
    (hok : ok (.compare left ops comparators)) (hops : ops ≠ [])
    (hlength : ops.length = comparators.length) (hleft : IsExpression ok left)
    (hcomparators : ∀ c ∈ comparators, IsExpression ok c) :
    IsExpression ok (.mk span (.compare left ops comparators))
  | boolOp {span : Span} {op : Connective} {values : List Tree} (hok : ok (.boolOp op values))
    (hlength : 2 ≤ values.length) (hvalues : ∀ v ∈ values, IsExpression ok v) :
    IsExpression ok (.mk span (.boolOp op values))
  | call {span : Span} {func : Tree} {args : List Tree} {keywords : List (Keyword Tree)}
    (hok : ok (.call func args keywords)) (hfunc : IsExpression ok func)
    (hargs : ∀ a ∈ args, IsExpression ok a)
    (hnames : ∀ k ∈ keywords, Text.IsName k.name ∧ Source.isVariable k.name = true)
    (hkeywords : ∀ k ∈ keywords, IsExpression ok k.value) :
    IsExpression ok (.mk span (.call func args keywords))
  | attr {span : Span} {value : Tree} {name : String} (hok : ok (.attr value name))
    (hvalue : IsExpression ok value) (hname : Text.IsIdentifier name) :
    IsExpression ok (.mk span (.attr value name))
  | subscript {span : Span} {value index : Tree} (hok : ok (.subscript value index))
    (hvalue : IsExpression ok value)
    (hindex : ∀ i ∈ index.indices, ∀ e ∈ i.bounds, IsExpression ok e) :
    IsExpression ok (.mk span (.subscript value index))
  | list {span : Span} {items : List Tree} (hok : ok (.list items))
    (hitems : ∀ i ∈ items, IsExpression ok i) : IsExpression ok (.mk span (.list items))
  | tuple {span : Span} {items : List Tree} (hok : ok (.tuple items))
    (hitems : ∀ i ∈ items, IsExpression ok i) : IsExpression ok (.mk span (.tuple items))
  | dict {span : Span} {entries : List (Tree × Tree)} (hok : ok (.dict entries))
    (hkeys : ∀ e ∈ entries, IsExpression ok e.1) (hvalues : ∀ e ∈ entries, IsExpression ok e.2) :
    IsExpression ok (.mk span (.dict entries))
  | ifExp {span : Span} {test body orelse : Tree} (hok : ok (.ifExp test body orelse))
    (htest : IsExpression ok test) (hbody : IsExpression ok body)
    (horelse : IsExpression ok orelse) : IsExpression ok (.mk span (.ifExp test body orelse))
  | lambda {span : Span} {params : List String} {body : Tree} (hok : ok (.lambda params body))
    (hparams : ∀ p ∈ params, Text.IsIdentifier p) (hbody : IsExpression ok body) :
    IsExpression ok (.mk span (.lambda params body))

/-- Statements of source texts, each node of which satisfies a condition. -/
inductive IsStatement (ok : Node Tree → Prop) : Tree → Prop
  | functionDef {span : Span} {name : String} {params : List String} {body : List Tree}
    (hok : ok (.functionDef name params body)) (hname : Text.IsIdentifier name)
    (hparams : ∀ p ∈ params, Text.IsIdentifier p) (hbody : ∀ s ∈ body, IsStatement ok s) :
    IsStatement ok (.mk span (.functionDef name params body))
  | returnStmt {span : Span} {value : Option Tree} (hok : ok (.returnStmt value))
    (hvalue : ∀ v ∈ value, IsExpression ok v) : IsStatement ok (.mk span (.returnStmt value))
  | assign {span : Span} {target value : Tree} (hok : ok (.assign target value))
    (htarget : IsExpression ok target) (hleft : target.isTarget = true)
    (hvalue : IsExpression ok value) : IsStatement ok (.mk span (.assign target value))
  | augAssign {span : Span} {target value : Tree} {op : Operator}
    (hok : ok (.augAssign target op value)) (htarget : IsExpression ok target)
    (hleft : target.isTarget = true) (hvalue : IsExpression ok value) :
    IsStatement ok (.mk span (.augAssign target op value))
  | exprStmt {span : Span} {value : Tree} (hok : ok (.exprStmt value))
    (hvalue : IsExpression ok value) : IsStatement ok (.mk span (.exprStmt value))
  | ifStmt {span : Span} {test : Tree} {body orelse : List Tree}
    (hok : ok (.ifStmt test body orelse)) (htest : IsExpression ok test)
    (hbody : ∀ s ∈ body, IsStatement ok s) (horelse : ∀ s ∈ orelse, IsStatement ok s) :
    IsStatement ok (.mk span (.ifStmt test body orelse))
  | whileLoop {span : Span} {test : Tree} {body : List Tree} (hok : ok (.whileLoop test body))
    (htest : IsExpression ok test) (hbody : ∀ s ∈ body, IsStatement ok s) :
    IsStatement ok (.mk span (.whileLoop test body))
  | forLoop {span : Span} {target iter : Tree} {body : List Tree}
    (hok : ok (.forLoop target iter body)) (htarget : IsExpression ok target)
    (hleft : target.isTarget = true) (hiter : IsExpression ok iter)
    (hbody : ∀ s ∈ body, IsStatement ok s) :
    IsStatement ok (.mk span (.forLoop target iter body))
  | passStmt {span : Span} (hok : ok .passStmt) : IsStatement ok (.mk span .passStmt)
  | breakStmt {span : Span} (hok : ok .breakStmt) : IsStatement ok (.mk span .breakStmt)
  | continueStmt {span : Span} (hok : ok .continueStmt) : IsStatement ok (.mk span .continueStmt)
  | tryStmt {span : Span} {body finalbody : List Tree} {handlers : List (Handler Tree)}
    (hok : ok (.tryStmt body handlers finalbody)) (hbody : ∀ s ∈ body, IsStatement ok s)
    (hexceptions : ∀ h ∈ handlers, ∀ e ∈ h.exception, IsExpression ok e)
    (hnames : ∀ h ∈ handlers, h.exception = none → h.name = none)
    (hhandlers : ∀ h ∈ handlers, ∀ s ∈ h.body, IsStatement ok s)
    (hfinal : ∀ s ∈ finalbody, IsStatement ok s) :
    IsStatement ok (.mk span (.tryStmt body handlers finalbody))
  | withStmt {span : Span} {items : List (WithItem Tree)} {body : List Tree}
    (hok : ok (.withStmt items body)) (hne : items ≠ [])
    (hitems : ∀ i ∈ items, IsExpression ok i.context) (hbody : ∀ s ∈ body, IsStatement ok s) :
    IsStatement ok (.mk span (.withStmt items body))
  | raiseStmt {span : Span} {exception : Option Tree} (hok : ok (.raiseStmt exception))
    (hexception : ∀ e ∈ exception, IsExpression ok e) :
    IsStatement ok (.mk span (.raiseStmt exception))
  | classDef {span : Span} {name : String} {bases body : List Tree}
    (hok : ok (.classDef name bases body)) (hname : Text.IsIdentifier name)
    (hbases : ∀ b ∈ bases, IsExpression ok b) (hbody : ∀ s ∈ body, IsStatement ok s) :
    IsStatement ok (.mk span (.classDef name bases body))
  | importStmt {span : Span} {source : Option String} {names : List ImportedName}
    (hok : ok (.importStmt source names)) (hne : names ≠ []) :
    IsStatement ok (.mk span (.importStmt source names))

/-! ## Conditions checked afterwards -/

theorem mem_descendants_self (t : Tree) : t ∈ t.descendants := by
  rcases t with ⟨span, node⟩
  rw [descendants_mk]
  exact List.mem_cons_self

theorem mem_descendants_of_child {t c d : Tree} (hc : c ∈ t.children) (hd : d ∈ c.descendants) :
    d ∈ t.descendants := by
  rcases t with ⟨span, node⟩
  rw [descendants_mk]
  exact List.mem_cons_of_mem _ (List.mem_flatMap.mpr ⟨c, hc, hd⟩)

theorem mem_descendants_of_index {t i d : Tree} (hi : i ∈ t.indices) (hd : d ∈ i.descendants) :
    d ∈ t.descendants := by
  unfold indices at hi
  split at hi
  · rename_i first rest hnode
    refine mem_descendants_of_child ?_ hd
    rw [children, hnode]
    exact hi
  · rw [List.mem_singleton] at hi
    rw [← hi]
    exact hd

theorem mem_descendants_of_bound {t e d : Tree} (he : e ∈ t.bounds) (hd : d ∈ e.descendants) :
    d ∈ t.descendants := by
  unfold bounds at he
  split at he
  · rename_i lower upper step hnode
    refine mem_descendants_of_child ?_ hd
    rw [children, hnode]
    exact he
  · rw [List.mem_singleton] at he
    rw [← he]
    exact hd

/-- What holds of all nodes of a tree holds of all nodes of a child. -/
theorem forall_child {ok : Node Tree → Prop} {span : Span} {node : Node Tree}
    (h : ∀ d ∈ (mk span node).descendants, ok d.node) {c : Tree} (hc : c ∈ node.toList) :
    ∀ d ∈ c.descendants, ok d.node :=
  fun d hd => h d (mem_descendants_of_child (t := mk span node) hc hd)

variable {ok also : Node Tree → Prop}

/-- An expression all nodes of which satisfy a condition is one with this condition. -/
theorem IsExpression.restrict {t : Tree} (ht : IsExpression also t) :
    (∀ d ∈ t.descendants, ok d.node) → IsExpression ok t := by
  induction ht with
  | @ident span id hok hname hvariable =>
    intro h
    exact .ident (h _ (mem_descendants_self _)) hname hvariable
  | @constant span value hok hint =>
    intro h
    exact .constant (h _ (mem_descendants_self _)) hint
  | @binOp span left right op hok hleft hright ihleft ihright =>
    intro h
    exact .binOp (h _ (mem_descendants_self _)) (ihleft (forall_child h (by simp [Node.toList])))
      (ihright (forall_child h (by simp [Node.toList])))
  | @unaryOp span op operand hok hoperand ih =>
    intro h
    exact .unaryOp (h _ (mem_descendants_self _)) (ih (forall_child h (by simp [Node.toList])))
  | @compare span left ops comparators hok hops hlength hleft hcomparators ihleft ih =>
    intro h
    exact .compare (h _ (mem_descendants_self _)) hops hlength
      (ihleft (forall_child h (by simp [Node.toList])))
      fun c hc => ih c hc (forall_child h (by simp [Node.toList, hc]))
  | @boolOp span op values hok hlength hvalues ih =>
    intro h
    exact .boolOp (h _ (mem_descendants_self _)) hlength
      fun v hv => ih v hv (forall_child h (by simp [Node.toList, hv]))
  | @call span func args keywords hok hfunc hargs hnames hkeywords ihfunc ihargs ih =>
    intro h
    refine .call (h _ (mem_descendants_self _)) (ihfunc (forall_child h (by simp [Node.toList])))
      (fun a ha => ihargs a ha (forall_child h (by simp [Node.toList, ha]))) hnames
      fun k hk => ih k hk (forall_child h ?_)
    exact List.mem_cons_of_mem _ (List.mem_append_right _ (List.mem_map_of_mem hk))
  | @attr span value name hok hvalue hname ih =>
    intro h
    exact .attr (h _ (mem_descendants_self _)) (ih (forall_child h (by simp [Node.toList]))) hname
  | @subscript span value index hok hvalue hindex ihvalue ih =>
    intro h
    have hchild := forall_child h (c := index) (by simp [Node.toList])
    exact .subscript (h _ (mem_descendants_self _))
      (ihvalue (forall_child h (by simp [Node.toList])))
      fun i hi e he => ih i hi e he fun d hd =>
        hchild d (mem_descendants_of_index hi (mem_descendants_of_bound he hd))
  | @list span items hok hitems ih =>
    intro h
    exact .list (h _ (mem_descendants_self _)) fun i hi => ih i hi (forall_child h hi)
  | @tuple span items hok hitems ih =>
    intro h
    exact .tuple (h _ (mem_descendants_self _)) fun i hi => ih i hi (forall_child h hi)
  | @dict span entries hok hkeys hvalues ihkeys ihvalues =>
    intro h
    exact .dict (h _ (mem_descendants_self _))
      (fun e he => ihkeys e he (forall_child h (List.mem_flatMap.mpr ⟨e, he, by simp⟩)))
      fun e he => ihvalues e he (forall_child h (List.mem_flatMap.mpr ⟨e, he, by simp⟩))
  | @ifExp span test body orelse hok htest hbody horelse ihtest ihbody ihorelse =>
    intro h
    exact .ifExp (h _ (mem_descendants_self _)) (ihtest (forall_child h (by simp [Node.toList])))
      (ihbody (forall_child h (by simp [Node.toList])))
      (ihorelse (forall_child h (by simp [Node.toList])))
  | @lambda span params body hok hparams hbody ih =>
    intro h
    exact .lambda (h _ (mem_descendants_self _)) hparams
      (ih (forall_child h (by simp [Node.toList])))

/-- A statement all nodes of which satisfy a condition is one with this condition. -/
theorem IsStatement.restrict {t : Tree} (ht : IsStatement also t) :
    (∀ d ∈ t.descendants, ok d.node) → IsStatement ok t := by
  induction ht with
  | @functionDef span name params body hok hname hparams hbody ih =>
    intro h
    exact .functionDef (h _ (mem_descendants_self _)) hname hparams
      fun s hs => ih s hs (forall_child h hs)
  | @returnStmt span value hok hvalue =>
    intro h
    exact .returnStmt (h _ (mem_descendants_self _))
      fun v hv => (hvalue v hv).restrict (forall_child h (by simpa [Node.toList] using hv))
  | @assign span target value hok htarget hleft hvalue =>
    intro h
    exact .assign (h _ (mem_descendants_self _))
      (htarget.restrict (forall_child h (by simp [Node.toList]))) hleft
      (hvalue.restrict (forall_child h (by simp [Node.toList])))
  | @augAssign span target value op hok htarget hleft hvalue =>
    intro h
    exact .augAssign (h _ (mem_descendants_self _))
      (htarget.restrict (forall_child h (by simp [Node.toList]))) hleft
      (hvalue.restrict (forall_child h (by simp [Node.toList])))
  | @exprStmt span value hok hvalue =>
    intro h
    exact .exprStmt (h _ (mem_descendants_self _))
      (hvalue.restrict (forall_child h (by simp [Node.toList])))
  | @ifStmt span test body orelse hok htest hbody horelse ihbody ihorelse =>
    intro h
    exact .ifStmt (h _ (mem_descendants_self _))
      (htest.restrict (forall_child h (by simp [Node.toList])))
      (fun s hs => ihbody s hs (forall_child h (by simp [Node.toList, hs])))
      fun s hs => ihorelse s hs (forall_child h (by simp [Node.toList, hs]))
  | @whileLoop span test body hok htest hbody ih =>
    intro h
    exact .whileLoop (h _ (mem_descendants_self _))
      (htest.restrict (forall_child h (by simp [Node.toList])))
      fun s hs => ih s hs (forall_child h (by simp [Node.toList, hs]))
  | @forLoop span target iter body hok htarget hleft hiter hbody ih =>
    intro h
    exact .forLoop (h _ (mem_descendants_self _))
      (htarget.restrict (forall_child h (by simp [Node.toList]))) hleft
      (hiter.restrict (forall_child h (by simp [Node.toList])))
      fun s hs => ih s hs (forall_child h (by simp [Node.toList, hs]))
  | passStmt hok => exact fun h => .passStmt (h _ (mem_descendants_self _))
  | breakStmt hok => exact fun h => .breakStmt (h _ (mem_descendants_self _))
  | continueStmt hok => exact fun h => .continueStmt (h _ (mem_descendants_self _))
  | @tryStmt span body finalbody handlers hok hbody hexceptions hnames hhandlers hfinal ihbody
      ihhandlers ihfinal =>
    intro h
    have hhandler : ∀ c ∈ handlers, ∀ a ∈ c.toList, ∀ d ∈ a.descendants, ok d.node := by
      intro c hc a ha
      refine forall_child h ?_
      exact List.mem_append_left _ (List.mem_append_right _ (List.mem_flatMap.mpr ⟨c, hc, ha⟩))
    exact .tryStmt (h _ (mem_descendants_self _))
      (fun s hs => ihbody s hs (forall_child h (by simp [Node.toList, hs])))
      (fun c hc e he => (hexceptions c hc e he).restrict
        (hhandler c hc e (List.mem_append_left _ (Option.mem_toList.mpr he)))) hnames
      (fun c hc s hs => ihhandlers c hc s hs (hhandler c hc s (List.mem_append_right _ hs)))
      fun s hs => ihfinal s hs (forall_child h (by simp [Node.toList, hs]))
  | @withStmt span items body hok hne hitems hbody ih =>
    intro h
    exact .withStmt (h _ (mem_descendants_self _)) hne
      (fun i hi => (hitems i hi).restrict
        (forall_child h (List.mem_append_left _ (List.mem_map_of_mem hi))))
      fun s hs => ih s hs (forall_child h (List.mem_append_right _ hs))
  | @raiseStmt span exception hok hexception =>
    intro h
    exact .raiseStmt (h _ (mem_descendants_self _))
      fun e he => (hexception e he).restrict (forall_child h (by simpa [Node.toList] using he))
  | @classDef span name bases body hok hname hbases hbody ih =>
    intro h
    exact .classDef (h _ (mem_descendants_self _)) hname
      (fun b hb => (hbases b hb).restrict (forall_child h (List.mem_append_left _ hb)))
      fun s hs => ih s hs (forall_child h (List.mem_append_right _ hs))
  | importStmt hok hne => exact fun h => .importStmt (h _ (mem_descendants_self _)) hne

end Tree

end Rendition
