import Mathlib.Data.List.Dedup
import Soprano.LiteralValue

/-! `Node`, `Statement` and `BindingSet`. -/

namespace Soprano

/-- `Node::Type` -/
inductive NodeType where
  | emptyNode
  | resourceNode
  | literalNode
  | blankNode
deriving DecidableEq, Repr

variable [Qt]

/-- `Node`: the constructors of the code make an empty node of an empty URI or identifier and of an
invalid literal. -/
inductive Node where
  | empty
  | resource (uri : QUrl) (nonempty : uri.isEmpty = false)
  | literal (value : LiteralValue) (valid : value.isValid = true)
  | blank (identifier : QString) (nonempty : identifier.isEmpty = false)
deriving DecidableEq

namespace Node

/-- `Node( const QUrl& )` -/
def ofUri (uri : QUrl) : Node :=
  if h : uri.isEmpty = false then resource uri h else empty

/-- `Node( const QString& )` -/
def ofIdentifier (id : QString) : Node :=
  if h : id.isEmpty = false then blank id h else empty

/-- `Node( const LiteralValue& )` -/
def ofLiteral (value : LiteralValue) : Node :=
  if h : value.isValid = true then literal value h else empty

/-- `Node( const LiteralValue&, const QString& )` -/
def ofLiteralLang (value : LiteralValue) (lang : QString) : Node :=
  if value.isValid then
    if lang.isEmpty then ofLiteral value
    else ofLiteral (.createPlainLiteral value.toString (.ofString lang))
  else empty

/-- `Node::type` -/
def type : Node → NodeType
  | empty => .emptyNode
  | resource _ _ => .resourceNode
  | literal _ _ => .literalNode
  | blank _ _ => .blankNode

/-- `Node::isEmpty` -/
def isEmpty (n : Node) : Bool := n.type == .emptyNode

/-- `Node::isValid` -/
def isValid (n : Node) : Bool := !n.isEmpty

/-- `Node::isResource` -/
def isResource (n : Node) : Bool := n.type == .resourceNode

/-- `Node::isBlank` -/
def isBlank (n : Node) : Bool := n.type == .blankNode

/-- `Node::isLiteral` -/
def isLiteral (n : Node) : Bool := n.type == .literalNode

/-- `Node::uri` -/
def uri : Node → QUrl
  | resource uri _ => uri
  | _ => QUrl.empty

/-- `Node::identifier` -/
def identifier : Node → QString
  | blank id _ => id
  | _ => []

/-- `Node::literal` -/
def toLiteral : Node → LiteralValue
  | literal value _ => value
  | _ => .null

/-- `Node::language` -/
def language (n : Node) : QString := n.toLiteral.language.toString

/-- `Node::dataType` -/
def dataType (n : Node) : QUrl := n.toLiteral.dataTypeUri

/-- `Node::toString` -/
def toString : Node → QString
  | empty => []
  | resource uri _ => Qt.urlToString uri
  | literal value _ => value.toString
  | blank id _ => id

/-- `Node::operator==` -/
def operatorEq : Node → Node → Bool
  | empty, empty => true
  | resource u _, resource v _ => u = v
  | blank a _, blank b _ => a = b
  | literal v _, literal w _ => v.operatorEq w
  | _, _ => false

/-- `Node::matches`: an empty node is a template for any node. -/
def «matches» (n other : Node) : Bool := other.isEmpty || n.operatorEq other

/-- The node is a literal that holds a `double`. -/
def isDouble (n : Node) : Bool := n.toLiteral.isDouble

/-- `operator==` decides equality of nodes that hold no `double`. -/
theorem operatorEq_iff {n m : Node} (h : n.isDouble = false) : n.operatorEq m = true ↔ n = m := by
  cases n with
  | literal v hv =>
    cases m with
    | literal w hw =>
      rw [Node.literal.injEq]
      exact LiteralValue.operatorEq_iff h
    | _ => simp [operatorEq]
  | _ => cases m <;> simp [operatorEq]

@[simp] theorem ofUri_self (uri : QUrl) (h : uri.isEmpty = false) : ofUri uri = resource uri h :=
  dif_pos h

theorem ofUri_inj {u v : QUrl} (h : u.isEmpty = false) : ofUri u = ofUri v ↔ u = v := by
  refine ⟨fun hEq => ?_, congrArg ofUri⟩
  rw [ofUri_self u h, ofUri] at hEq
  split at hEq
  · exact Node.resource.inj hEq
  · cases hEq

@[simp] theorem ofIdentifier_self (id : QString) (h : id.isEmpty = false) :
    ofIdentifier id = blank id h := dif_pos h

@[simp] theorem ofLiteral_self (value : LiteralValue) (h : value.isValid = true) :
    ofLiteral value = literal value h := dif_pos h

end Node

/-- `Statement` -/
structure Statement where
  subject : Node
  predicate : Node
  object : Node
  context : Node
deriving DecidableEq

namespace Statement

/-- `Statement()` -/
def empty : Statement := ⟨.empty, .empty, .empty, .empty⟩

/-- `Statement::operator==` -/
def operatorEq (s t : Statement) : Bool :=
  s.subject.operatorEq t.subject && s.predicate.operatorEq t.predicate &&
    s.object.operatorEq t.object && s.context.operatorEq t.context

/-- `Statement::matches` -/
def «matches» (s other : Statement) : Bool :=
  s.subject.matches other.subject && s.predicate.matches other.predicate &&
    s.object.matches other.object && s.context.matches other.context

/-- `Statement::isValid` -/
def isValid (s : Statement) : Bool :=
  let valid := (s.subject.isResource || s.subject.isBlank) && s.predicate.isResource &&
    s.object.isValid
  if s.context.isValid then valid && s.context.isResource else valid

/-- The nodes of a statement. -/
def nodes (s : Statement) : List Node := [s.subject, s.predicate, s.object, s.context]

/-- The statement without its context. -/
def triple (s : Statement) : Statement := { s with context := .empty }

/-- `operator==` decides equality of statements that hold no `double`. -/
theorem operatorEq_iff {s t : Statement} (h : ∀ n ∈ s.nodes, n.isDouble = false) :
    s.operatorEq t = true ↔ s = t := by
  simp only [nodes, List.mem_cons, List.not_mem_nil, or_false, forall_eq_or_imp, forall_eq] at h
  obtain ⟨hSubject, hPredicate, hObject, hContext⟩ := h
  cases s
  cases t
  simp [operatorEq, Node.operatorEq_iff hSubject, Node.operatorEq_iff hPredicate,
    Node.operatorEq_iff hObject, Node.operatorEq_iff hContext, and_assoc]

end Statement

/-- `BindingSet`: the names and values in the order of their insertion.  The map from each name to
its last position, which the code keeps beside them, is determined by the names. -/
structure BindingSet where
  bindings : List (QString × Node)
deriving DecidableEq

namespace BindingSet

/-- `BindingSet()` -/
def empty : BindingSet := ⟨[]⟩

/-- `BindingSet::bindingNames` -/
def bindingNames (b : BindingSet) : List QString := b.bindings.map Prod.fst

/-- `BindingSet::count`: the size of the map. -/
def count (b : BindingSet) : Nat := b.bindingNames.dedup.length

/-- `BindingSet::contains` -/
def contains (b : BindingSet) (name : QString) : Bool := b.bindingNames.contains name

/-- `BindingSet::value( const QString& )` -/
def value (b : BindingSet) (name : QString) : Node :=
  (b.bindings.reverse.lookup name).getD .empty

/-- `BindingSet::insert` -/
def insert (b : BindingSet) (name : QString) (value : Node) : BindingSet :=
  ⟨b.bindings ++ [(name, value)]⟩

/-- The values in the order of their insertion. -/
def values (b : BindingSet) : List Node := b.bindings.map Prod.snd

/-- `BindingSet::operator==` -/
def operatorEq (b c : BindingSet) : Bool :=
  b.bindingNames == c.bindingNames && b.values.isEqv c.values Node.operatorEq

theorem isEqv_operatorEq_iff {ns ms : List Node} (h : ∀ n ∈ ns, n.isDouble = false) :
    ns.isEqv ms Node.operatorEq = true ↔ ns = ms := by
  induction ns generalizing ms with
  | nil => cases ms <;> simp [List.isEqv]
  | cons n ns ih =>
    cases ms with
    | nil => simp [List.isEqv]
    | cons m ms =>
      simp [List.isEqv, Node.operatorEq_iff (h n (by simp)), ih fun k hk => h k (by simp [hk])]

@[simp] theorem value_empty (name : QString) : empty.value name = .empty := rfl

@[simp] theorem value_insert (b : BindingSet) (name other : QString) (n : Node) :
    (b.insert name n).value other = if other = name then n else b.value other := by
  unfold BindingSet.value BindingSet.insert
  rw [List.reverse_append, List.reverse_singleton, List.singleton_append, List.lookup_cons]
  by_cases h : other = name
  · simp [h]
  · simp [h, beq_eq_false_iff_ne.mpr h]

/-- `operator==` decides equality of binding sets that hold no `double`. -/
theorem operatorEq_iff {b c : BindingSet} (h : ∀ n ∈ b.values, n.isDouble = false) :
    b.operatorEq c = true ↔ b = c := by
  rw [operatorEq, Bool.and_eq_true, beq_iff_eq, isEqv_operatorEq_iff h]
  constructor
  · rintro ⟨hNames, hValues⟩
    have hBindings : b.bindings = c.bindings :=
      (List.zip_of_prod hNames hValues).trans (List.zip_of_prod rfl rfl).symm
    cases b
    cases c
    exact congrArg mk hBindings
  · rintro rfl
    exact ⟨rfl, rfl⟩

/-- No name is bound twice. -/
def DistinctNames (b : BindingSet) : Prop := b.bindingNames.Nodup

theorem count_eq {b : BindingSet} (h : b.DistinctNames) : b.count = b.bindings.length := by
  rw [count, List.dedup_eq_self.mpr h, bindingNames, List.length_map]

/-- The value of a name that is bound once. -/
theorem value_eq {b : BindingSet} (h : b.DistinctNames) {name : QString} {value : Node}
    (hMem : (name, value) ∈ b.bindings) : b.value name = value := by
  have hKeys : (b.bindings.reverse.map Prod.fst).Nodup := by
    rw [List.map_reverse]
    exact List.nodup_reverse.mpr h
  obtain ⟨l₁, l₂, hSplit⟩ := List.append_of_mem (List.mem_reverse.mpr hMem)
  rw [hSplit, List.map_append, List.map_cons, List.nodup_append] at hKeys
  have hLookup : b.bindings.reverse.lookup name = some value := by
    refine List.lookup_eq_some_iff.mpr ⟨l₁, l₂, hSplit, fun p hp => ?_⟩
    have := hKeys.2.2 p.1 (List.mem_map_of_mem hp) name (by simp)
    simpa using Ne.symm this
  rw [BindingSet.value, hLookup, Option.getD_some]

end BindingSet

end Soprano
