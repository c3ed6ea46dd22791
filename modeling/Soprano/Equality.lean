import Soprano.Node

/-! `operator!=` and `qHash` of literals, nodes and statements, and the sets that `Graph` keeps its
statements in. A hash set is the standard library's, which asks for what `qHash` and `operator==` promise. -/

namespace Soprano

/-- Qt's hash functions, of which the code only uses that equal arguments have equal values. -/
class QtHash where
  qHashString : QString → UInt32
  qHashUrl : QUrl → UInt32

variable [Qt]

/-! ### The functions of the code -/

/-- `LiteralValue::operator!=` -/
def LiteralValue.operatorNe (v w : LiteralValue) : Bool :=
  if !v.variant.operatorEq w.variant || v.isPlain != w.isPlain then true
  else if v.isPlain then v.language ≠ w.language
  else v.dataTypeUri ≠ w.dataTypeUri

/-- `Node::operator!=` -/
def Node.operatorNe (n m : Node) : Bool :=
  if n.type ≠ m.type then true
  else
    match n.type with
    | .resourceNode => n.uri ≠ m.uri
    | .blankNode => n.identifier ≠ m.identifier
    | .literalNode => n.toLiteral.operatorNe m.toLiteral
    | .emptyNode => false

/-- `Statement::operator!=` -/
def Statement.operatorNe (s t : Statement) : Bool :=
  s.subject.operatorNe t.subject || s.predicate.operatorNe t.predicate || s.object.operatorNe t.object ||
    s.context.operatorNe t.context

/-- The number of an enumerator. -/
def NodeType.code : NodeType → UInt32
  | .emptyNode => 0
  | .resourceNode => 1
  | .literalNode => 2
  | .blankNode => 3

section Hash

variable [QtHash]

/-- `qHash( const LanguageTag& )` -/
def LanguageTag.qHash (tag : LanguageTag) : UInt32 := QtHash.qHashString tag.toString

/-- `qHash( const LiteralValue& )` -/
def LiteralValue.qHash (lit : LiteralValue) : UInt32 :=
  if lit.isPlain then ~~~(QtHash.qHashString lit.toString ^^^ lit.language.qHash)
  else QtHash.qHashString lit.toString ^^^ QtHash.qHashUrl lit.dataTypeUri

/-- `qHash( const Node& )` -/
def Node.qHash (node : Node) : UInt32 :=
  let hashVal :=
    match node.type with
    | .emptyNode => 0
    | .resourceNode => QtHash.qHashUrl node.uri
    | .literalNode => node.toLiteral.qHash
    | .blankNode => QtHash.qHashString node.identifier
  let typeInt := node.type.code &&& 0x1F
  -- a shift of 0 by all 32 bits counts for nothing
  (hashVal <<< typeInt) ||| (hashVal >>> (0x20 - typeInt))

/-- `qHash( const Statement& )` -/
def Statement.qHash (s : Statement) : UInt32 :=
  s.subject.qHash ^^^ s.predicate.qHash ^^^ s.object.qHash ^^^ s.context.qHash

end Hash

/-! ### Inequality -/

theorem LiteralValue.operatorNe_eq (v w : LiteralValue) : v.operatorNe w = !v.operatorEq w := by
  rw [operatorNe, operatorEq]
  split
  · rfl
  · split <;> simp

theorem Node.operatorNe_eq (n m : Node) : n.operatorNe m = !n.operatorEq m := by
  cases n with
  | empty => cases m <;> rfl
  | resource u hu =>
    cases m with
    | resource v hv => by_cases h : u = v <;> simp [operatorNe, operatorEq, Node.type, Node.uri, h]
    | _ => rfl
  | literal v hv =>
    cases m with
    | literal w hw => exact LiteralValue.operatorNe_eq v w
    | _ => rfl
  | blank a ha =>
    cases m with
    | blank b hb =>
      by_cases h : a = b <;> simp [operatorNe, operatorEq, Node.type, Node.identifier, h]
    | _ => rfl

theorem Statement.operatorNe_eq (s t : Statement) : s.operatorNe t = !s.operatorEq t := by
  simp only [operatorNe, operatorEq, Node.operatorNe_eq, Bool.not_and]

/-! ### Nodes with `double`s -/

/-- `operator==` of two `double`s is symmetric and transitive; a NaN is not equal to itself. -/
structure DoubleEquality : Prop where
  symm : ∀ d e, Qt.doubleEq d e = true → Qt.doubleEq e d = true
  trans : ∀ d e f, Qt.doubleEq d e = true → Qt.doubleEq e f = true → Qt.doubleEq d f = true

/-- Equal nodes are the same, or `double`s of one data type. -/
theorem Node.eq_or_double {n m : Node} (h : n.operatorEq m = true) :
    n = m ∨ ∃ d e u hd he hn hm, n = .literal (.typed (.double d) u hd) hn ∧
      m = .literal (.typed (.double e) u he) hm ∧ Qt.doubleEq d e = true := by
  by_cases hDouble : n.isDouble = false
  · exact .inl ((Node.operatorEq_iff hDouble).mp h)
  · cases n with
    | literal v hv =>
      cases v with
      | typed x u hx =>
        cases m with
        | literal w hw =>
          have hEq : (LiteralValue.typed x u hx).operatorEq w = true := h
          simp only [LiteralValue.operatorEq] at hEq
          split at hEq
          · cases hEq
          rename_i hSame
          simp only [Bool.or_eq_true, Bool.not_eq_true', bne_iff_ne, not_or, Bool.not_eq_false,
            ne_eq, not_not] at hSame
          obtain ⟨hVariant, hPlain⟩ := hSame
          cases w with
          | null => cases hw
          | plain => cases hPlain
          | typed y u' hy =>
            obtain rfl : u = u' := of_decide_eq_true hEq
            have hType := LiteralValue.type_eq_of_storedAs hx hy
            cases x with
            | double d =>
              cases y with
              | double e => exact .inr ⟨d, e, u, hx, hy, hv, hw, rfl, rfl, hVariant⟩
              | _ => cases hType
            | _ => exact absurd rfl hDouble
        | _ => cases h
      | _ => exact absurd rfl hDouble
    | _ => exact absurd rfl hDouble

theorem Node.operatorEq_double {d e : Double} {u : QUrl} {hd he hn hm} :
    Node.operatorEq (.literal (.typed (.double d) u hd) hn) (.literal (.typed (.double e) u he) hm) =
      Qt.doubleEq d e := by
  simp [Node.operatorEq, LiteralValue.operatorEq, LiteralValue.variant, LiteralValue.isPlain,
    LiteralValue.dataTypeUri, QVariant.operatorEq]

theorem Node.operatorEq_symm (hDouble : DoubleEquality) {n m : Node} (h : n.operatorEq m = true) :
    m.operatorEq n = true := by
  rcases Node.eq_or_double h with rfl | ⟨d, e, u, hd, he, hn, hm, rfl, rfl, hEq⟩
  · exact h
  · rw [Node.operatorEq_double]
    exact hDouble.symm d e hEq

theorem Node.operatorEq_trans (hDouble : DoubleEquality) {n m k : Node} (h : n.operatorEq m = true)
    (h' : m.operatorEq k = true) : n.operatorEq k = true := by
  rcases Node.eq_or_double h with rfl | ⟨d, e, u, hd, he, hn, hm, rfl, rfl, hEq⟩
  · exact h'
  · rcases Node.eq_or_double h' with rfl | ⟨e', f, u', he', hf, hm', hk, hNode, rfl, hEq'⟩
    · exact h
    · rw [Node.literal.injEq, LiteralValue.typed.injEq, QVariant.double.injEq] at hNode
      obtain ⟨rfl, rfl⟩ := hNode
      rw [Node.operatorEq_double]
      exact hDouble.trans d e f hEq hEq'

/-! ### Sets of nodes and of statements -/

/-- A node that is no `double`. -/
structure Node.Key where
  node : Node
  noDouble : node.isDouble = false

/-- A statement without `double`s. -/
structure Statement.Key where
  statement : Statement
  noDouble : ∀ n ∈ statement.nodes, n.isDouble = false

instance : BEq Node.Key := ⟨fun a b => a.node.operatorEq b.node⟩

instance : BEq Statement.Key := ⟨fun a b => a.statement.operatorEq b.statement⟩

/-- `operator==` of nodes is equality. -/
theorem Node.Key.beq_iff {a b : Node.Key} : (a == b) = true ↔ a.node = b.node :=
  Node.operatorEq_iff a.noDouble

theorem Statement.Key.beq_iff {a b : Statement.Key} : (a == b) = true ↔ a.statement = b.statement :=
  Statement.operatorEq_iff a.noDouble

instance : EquivBEq Node.Key where
  rfl := Node.Key.beq_iff.mpr rfl
  symm h := Node.Key.beq_iff.mpr (Node.Key.beq_iff.mp h).symm
  trans h h' := Node.Key.beq_iff.mpr ((Node.Key.beq_iff.mp h).trans (Node.Key.beq_iff.mp h'))

instance : EquivBEq Statement.Key where
  rfl := Statement.Key.beq_iff.mpr rfl
  symm h := Statement.Key.beq_iff.mpr (Statement.Key.beq_iff.mp h).symm
  trans h h' :=
    Statement.Key.beq_iff.mpr ((Statement.Key.beq_iff.mp h).trans (Statement.Key.beq_iff.mp h'))

section Hash

variable [QtHash]

instance : Hashable Node.Key := ⟨fun a => a.node.qHash.toUInt64⟩

instance : Hashable Statement.Key := ⟨fun a => a.statement.qHash.toUInt64⟩

instance : LawfulHashable Node.Key where
  hash_eq a b h := by
    have hNode : a.node = b.node := Node.Key.beq_iff.mp h
    simp only [hash, hNode]

instance : LawfulHashable Statement.Key where
  hash_eq a b h := by
    have hStatement : a.statement = b.statement := Statement.Key.beq_iff.mp h
    simp only [hash, hStatement]

omit [Qt] [QtHash] in
/-- A set of keys holds no two that are equal, and finds each key that is equal to one of them. -/
theorem qset_of_lawful {κ : Type} [BEq κ] [Hashable κ] [EquivBEq κ] [LawfulHashable κ]
    (set : Std.HashSet κ) : set.toList.Pairwise (fun a b => (a == b) = false) ∧
      ∀ a ∈ set.toList, ∀ b, (a == b) = true → set.contains b = true := by
  refine ⟨Std.HashSet.distinct_toList, fun a ha b hEq => ?_⟩
  rw [← Std.HashSet.contains_congr hEq]
  exact Std.HashSet.mem_of_mem_toList ha

/-- Equality and hashing of nodes and statements without `double`s agree. -/
theorem equality_coherent :
    ((∀ a : Node.Key, a.node.operatorEq a.node = true) ∧
      (∀ a b : Node.Key, a.node.operatorEq b.node = true → b.node.operatorEq a.node = true) ∧
      (∀ a b c : Node.Key, a.node.operatorEq b.node = true → b.node.operatorEq c.node = true →
        a.node.operatorEq c.node = true) ∧
      (∀ n m : Node, n.operatorNe m = !n.operatorEq m) ∧
      (∀ a b : Node.Key, a.node.operatorEq b.node = true → a.node.qHash = b.node.qHash) ∧
      ∀ set : Std.HashSet Node.Key, set.toList.Pairwise (fun a b => a.node.operatorEq b.node = false) ∧
        ∀ a ∈ set.toList, ∀ b, a.node.operatorEq b.node = true → set.contains b = true) ∧
    (∀ a : Statement.Key, a.statement.operatorEq a.statement = true) ∧
    (∀ a b : Statement.Key, a.statement.operatorEq b.statement = true →
      b.statement.operatorEq a.statement = true) ∧
    (∀ a b c : Statement.Key, a.statement.operatorEq b.statement = true →
      b.statement.operatorEq c.statement = true → a.statement.operatorEq c.statement = true) ∧
    (∀ s t : Statement, s.operatorNe t = !s.operatorEq t) ∧
    (∀ a b : Statement.Key, a.statement.operatorEq b.statement = true →
      a.statement.qHash = b.statement.qHash) ∧
    ∀ set : Std.HashSet Statement.Key,
      set.toList.Pairwise (fun a b => a.statement.operatorEq b.statement = false) ∧
        ∀ a ∈ set.toList, ∀ b, a.statement.operatorEq b.statement = true → set.contains b = true := by
  refine ⟨⟨fun a => BEq.rfl (a := a), fun a b => BEq.symm (a := a) (b := b),
    fun a b c => BEq.trans (a := a) (b := b) (c := c), Node.operatorNe_eq, fun a b h => ?_, qset_of_lawful⟩,
    fun a => BEq.rfl (a := a), fun a b => BEq.symm (a := a) (b := b),
    fun a b c => BEq.trans (a := a) (b := b) (c := c), Statement.operatorNe_eq, fun a b h => ?_, qset_of_lawful⟩
  · rw [(Node.operatorEq_iff a.noDouble).mp h]
  · rw [(Statement.operatorEq_iff a.noDouble).mp h]

end Hash

end Soprano
