import Soprano.Library.Codec
import Soprano.Node

/-! The D-Bus operators of `Node`, `Statement` and `BindingSet`.  An argument is the sequence of
the marks and values that `operator<<` puts in it. -/

namespace Soprano

open Codec

namespace DBus

/-- What a `QDBusArgument` holds. -/
inductive Token where
  | beginStructure
  | endStructure
  | beginMap
  | endMap
  | beginMapEntry
  | endMapEntry
  | int (i : Int32)
  | string (s : QString)
deriving DecidableEq

abbrev Argument : Type := List Token

/-- `operator>>` of an `int` -/
def readInt : Reader Token Int32
  | .int i :: rest => (some i, rest)
  | rest => (none, rest)

/-- `operator>>` of a `QString` -/
def readString : Reader Token QString
  | .string s :: rest => (some s, rest)
  | rest => (none, rest)

theorem reads_int (i : Int32) : Reads readInt [.int i] i := fun _ => rfl

theorem reads_string (s : QString) : Reads readString [.string s] s := fun _ => rfl

/-- The number of a node type. -/
def typeCode : NodeType → Int32
  | .emptyNode => 0
  | .resourceNode => 1
  | .literalNode => 2
  | .blankNode => 3

variable [Qt]

/-- `operator<<( QDBusArgument&, const Node& )` -/
def writeNode (node : Node) : Argument :=
  [.beginStructure, .int (typeCode node.type),
    .string (if node.type = .resourceNode then QString.fromLatin1 node.uri.toEncoded
      else node.toString),
    .string node.language, .string (QString.fromLatin1 node.dataType.toEncoded), .endStructure]

/-- The node that `operator>>( const QDBusArgument&, Node& )` makes of what it has read. -/
def decodedNode (type : Int32) (value language dataTypeUri : QString) : Node :=
  if type = typeCode .literalNode then
    if dataTypeUri.isEmpty then
      Node.ofLiteral (.createPlainLiteral value (.ofString language))
    else
      Node.ofLiteral
        (.fromString value (QUrl.fromEncoded (QString.toLatin1 dataTypeUri) .tolerantMode))
  else if type = typeCode .resourceNode then
    Node.ofUri (QUrl.fromEncoded (QString.toLatin1 value) .tolerantMode)
  else if type = typeCode .blankNode then Node.ofIdentifier value
  else .empty

/-- `operator>>( const QDBusArgument&, Node& )` -/
def readNode : Reader Token Node := do
  expect .beginStructure
  let type ← readInt
  let value ← readString
  let language ← readString
  let dataTypeUri ← readString
  expect .endStructure
  pure (decodedNode type value language dataTypeUri)

/-- `operator<<( QDBusArgument&, const Statement& )` -/
def writeStatement (statement : Statement) : Argument :=
  .beginStructure :: (statement.nodes.flatMap writeNode ++ [.endStructure])

/-- `operator>>( const QDBusArgument&, Statement& )` -/
def readStatement : Reader Token Statement := do
  expect .beginStructure
  let subject ← readNode
  let predicate ← readNode
  let object ← readNode
  let context ← readNode
  expect .endStructure
  pure ⟨subject, predicate, object, context⟩

/-- The entry of a name in the map of a binding set. -/
def writeEntry (set : BindingSet) (name : QString) : Argument :=
  .beginMapEntry :: .string name :: (writeNode (set.value name) ++ [.endMapEntry])

/-- `operator<<( QDBusArgument&, const BindingSet& )` -/
def writeBindingSet (set : BindingSet) : Argument :=
  .beginStructure :: .beginMap :: (set.bindingNames.flatMap (writeEntry set) ++
    [.endMap, .endStructure])

/-- One turn of the loop that reads a map. -/
def readEntry : Reader Token (QString × Node) := do
  expect .beginMapEntry
  let name ← readString
  let value ← readNode
  expect .endMapEntry
  pure (name, value)

/-- `operator>>( const QDBusArgument&, BindingSet& )` into an empty set -/
def readBindingSet : Reader Token BindingSet := do
  expect .beginStructure
  expect .beginMap
  let entries ← manyThrough .endMap readEntry
  expect .endStructure
  pure (entries.foldl (fun set (name, value) => set.insert name value) BindingSet.empty)

/-! ### Round trips -/

omit [Qt] in
theorem toLatin1_encoded (u : QUrl) : QString.toLatin1 u.encoded = u.toEncoded := rfl

/-- The fields of a written node make the node. -/
theorem decodedNode_fields {n : Node} (h : n.toLiteral.Printable) :
    decodedNode (typeCode n.type)
      (if n.type = .resourceNode then QString.fromLatin1 n.uri.toEncoded else n.toString)
      n.language (QString.fromLatin1 n.dataType.toEncoded) = n := by
  cases n with
  | empty => rfl
  | resource u hu =>
    simp [Node.type, Node.uri, decodedNode, typeCode, toLatin1_encoded, hu]
  | blank id hId => simp [Node.type, Node.toString, decodedNode, typeCode, hId]
  | literal v hv =>
    cases v with
    | null => cases hv
    | plain s l =>
      simp [Node.type, Node.toString, Node.language, Node.dataType, Node.toLiteral, decodedNode,
        LiteralValue.dataTypeUri, LiteralValue.language, LiteralValue.toString,
        LiteralValue.createPlainLiteral, QUrl.empty, hv]
    | typed v u hStored =>
      have hText := LiteralValue.fromString_text hStored (h rfl).1 (h rfl).2
      have hUri : u.encoded ≠ [] := by simpa [QUrl.isEmpty] using hStored.2
      simp [Node.type, Node.toString, Node.dataType, Node.toLiteral, decodedNode,
        LiteralValue.dataTypeUri, LiteralValue.toString, toLatin1_encoded, hText, hUri, hv]

theorem reads_node {n : Node} (h : n.toLiteral.Printable) : Reads readNode (writeNode n) n := by
  unfold readNode
  show Reads _ ([_] ++ ([_] ++ ([_] ++ ([_] ++ ([_] ++ [_]))))) n
  refine (Reads.expect _).bind ?_
  refine (reads_int _).bind ?_
  refine (reads_string _).bind ?_
  refine (reads_string _).bind ?_
  refine (reads_string _).bind ?_
  rw [decodedNode_fields h]
  exact (Reads.expect _).bind_pure

theorem reads_statement {s : Statement} (h : ∀ n ∈ s.nodes, n.toLiteral.Printable) :
    Reads readStatement (writeStatement s) s := by
  simp only [Statement.nodes, List.mem_cons, List.not_mem_nil, or_false, forall_eq_or_imp,
    forall_eq] at h
  obtain ⟨hSubject, hPredicate, hObject, hContext⟩ := h
  have hWritten : writeStatement s = [.beginStructure] ++ (writeNode s.subject ++
      (writeNode s.predicate ++ (writeNode s.object ++ (writeNode s.context ++
        [.endStructure])))) := by
    simp [writeStatement, Statement.nodes]
  rw [hWritten]
  unfold readStatement
  refine (Reads.expect _).bind ?_
  refine (reads_node hSubject).bind ?_
  refine (reads_node hPredicate).bind ?_
  refine (reads_node hObject).bind ?_
  refine (reads_node hContext).bind ?_
  exact (Reads.expect _).bind_pure

theorem reads_entry {set : BindingSet} {name : QString}
    (h : (set.value name).toLiteral.Printable) :
    Reads readEntry (writeEntry set name) (name, set.value name) := by
  unfold readEntry
  show Reads _ ([_] ++ ([_] ++ (writeNode (set.value name) ++ [_]))) _
  refine (Reads.expect _).bind ?_
  refine (reads_string _).bind ?_
  refine (reads_node h).bind ?_
  exact (Reads.expect _).bind_pure

/-- Inserting a set's names with their values one after the other builds the set, if no name is
bound twice. -/
theorem foldl_insert {set : BindingSet} (h : set.DistinctNames) :
    (set.bindingNames.map fun name => (name, set.value name)).foldl
      (fun b (name, value) => b.insert name value) BindingSet.empty = set := by
  have hFold : ∀ (entries : List (QString × Node)) (b : BindingSet),
      entries.foldl (fun b (name, value) => b.insert name value) b =
        ⟨b.bindings ++ entries⟩ := by
    intro entries
    induction entries with
    | nil => simp
    | cons e entries ih =>
      intro b
      rw [List.foldl_cons, ih]
      simp [BindingSet.insert]
  have hEntries : (set.bindingNames.map fun name => (name, set.value name)) = set.bindings := by
    rw [BindingSet.bindingNames, List.map_map]
    conv_rhs => rw [← List.map_id set.bindings]
    refine List.map_congr_left fun e he => ?_
    simp [BindingSet.value_eq h he]
  rw [hFold, hEntries]
  rfl

theorem reads_bindingSet {set : BindingSet} (hNames : set.DistinctNames)
    (h : ∀ n ∈ set.values, n.toLiteral.Printable) :
    Reads readBindingSet (writeBindingSet set) set := by
  have hEntry : ∀ name ∈ set.bindingNames,
      Reads readEntry (writeEntry set name) (name, set.value name) ∧
        ∃ t w, writeEntry set name = t :: w ∧ t ≠ .endMap := by
    intro name hName
    obtain ⟨e, he, rfl⟩ := List.mem_map.mp hName
    refine ⟨reads_entry ?_, _, _, rfl, nofun⟩
    rw [BindingSet.value_eq hNames he]
    exact h e.2 (List.mem_map_of_mem he)
  have hWritten : writeBindingSet set = [.beginStructure] ++ ([.beginMap] ++
      ((set.bindingNames.flatMap (writeEntry set) ++ [.endMap]) ++ [.endStructure])) := by
    simp [writeBindingSet]
  rw [hWritten]
  unfold readBindingSet
  refine (Reads.expect _).bind ?_
  refine (Reads.expect _).bind ?_
  refine (Reads.manyThrough _ hEntry).bind ?_
  rw [foldl_insert hNames]
  exact (Reads.expect _).bind_pure

/-- A typed literal is read back from its lexical form, and a node, a statement and a binding set
with distinct names are read back from the D-Bus argument that they were written to. -/
theorem lexical_form_and_argument_roundtrip :
    (∀ v : LiteralValue, v.isValid = true → v.isPlain = false → v.isDouble = false →
      v.variant.ValidDateTime →
        (LiteralValue.fromString v.toString v.dataTypeUri).operatorEq v = true) ∧
    (∀ n : Node, n.toLiteral.Printable →
      ∃ m, readNode (writeNode n) = (some m, []) ∧ m.operatorEq n = true) ∧
    (∀ s : Statement, (∀ n ∈ s.nodes, n.toLiteral.Printable) →
      ∃ t, readStatement (writeStatement s) = (some t, []) ∧ t.operatorEq s = true) ∧
    (∀ b : BindingSet, b.DistinctNames → (∀ n ∈ b.values, n.toLiteral.Printable) →
      ∃ c, readBindingSet (writeBindingSet b) = (some c, []) ∧ c.operatorEq b = true) := by
  refine ⟨fun v hValid hPlain hDouble hDate => ?_, fun n h => ?_, fun s h => ?_,
    fun b hNames h => ?_⟩
  · cases v with
    | null => cases hValid
    | plain => cases hPlain
    | typed v u hStored =>
      have hText := LiteralValue.fromString_text hStored (by
        simpa [LiteralValue.isDouble, LiteralValue.type, LiteralValue.variant] using hDouble) hDate
      rw [LiteralValue.toString, LiteralValue.dataTypeUri, hText]
      exact (LiteralValue.operatorEq_iff hDouble).mpr rfl
  · exact ⟨n, (reads_node h).run, (Node.operatorEq_iff h.isDouble).mpr rfl⟩
  · exact ⟨s, (reads_statement h).run,
      (Statement.operatorEq_iff fun n hn => (h n hn).isDouble).mpr rfl⟩
  · exact ⟨b, (reads_bindingSet hNames h).run,
      (BindingSet.operatorEq_iff fun n hn => (h n hn).isDouble).mpr rfl⟩

omit [Qt] in
/-- A date of the `xsd:date` type. -/
theorem lexical_form_and_argument_roundtrip_date :
    letI := asciiQt
    ∃ m, readNode (writeNode (.ofLiteral (.ofVariant (.date (QDate.ofYmd 2012 2 29))))) =
      (some m, []) ∧
        m.operatorEq (.ofLiteral (.ofVariant (.date (QDate.ofYmd 2012 2 29)))) = true :=
  letI := asciiQt
  lexical_form_and_argument_roundtrip.2.1 _ (by decide)

end DBus

end Soprano
