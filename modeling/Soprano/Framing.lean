import Soprano.DataStream

/-! The framing of a `DataStream`: values of any kind, written one after the other, and read back in
order. -/

namespace Soprano

open Codec

namespace DataStream

section Qt

variable [Qt]

/-! ### What the readers consume -/

omit [Qt] in
theorem consumes_unsignedInt8 : Consumes 1 readUnsignedInt8 :=
  ((Consumes.take 1).bind_left fun _ => Consumes.pure _).bind_left fun _ => Consumes.pure _

omit [Qt] in
theorem consumes_unsignedInt32 : Consumes 4 readUnsignedInt32 :=
  ((Consumes.take 4).bind_left fun _ => Consumes.pure _).bind_left fun _ => Consumes.pure _

omit [Qt] in
theorem consumes_int32 : Consumes 4 readInt32 :=
  consumes_unsignedInt32.bind_left fun _ => Consumes.pure _

omit [Qt] in
theorem consumes_bool : Consumes 1 readBool :=
  consumes_unsignedInt8.bind_left fun _ => Consumes.pure _

omit [Qt] in
theorem consumes_byteArray : Consumes 4 readByteArray :=
  consumes_unsignedInt32.bind_left fun len => (Consumes.take len.toNat).mono (Nat.zero_le _)

theorem consumes_string : Consumes 4 readString :=
  consumes_byteArray.bind_left fun _ => Consumes.pure _

theorem consumes_url : Consumes 4 readUrl := consumes_byteArray.bind_left fun _ => Consumes.pure _

theorem consumes_literalValue : Consumes 1 readLiteralValue := by
  refine consumes_bool.bind_left fun plain => ?_
  split
  · refine (consumes_string.bind_left fun v => ?_).mono (Nat.zero_le 4)
    exact (consumes_string.bind_left fun lang => Consumes.pure _).mono (Nat.zero_le 4)
  · refine (consumes_int32.bind_left fun t => ?_).mono (Nat.zero_le 4)
    split
    · exact (consumes_string.bind_left fun _ => Consumes.pure _).mono (Nat.zero_le 4)
    · exact (consumes_url.bind_left fun _ => Consumes.pure _).mono (Nat.zero_le 4)
    · exact (consumes_int32.bind_left fun _ => Consumes.pure _).mono (Nat.zero_le 4)
    · exact (consumes_bool.bind_left fun _ => Consumes.pure _).mono (Nat.zero_le 1)
    · exact (consumes_byteArray.bind_left fun _ => Consumes.pure _).mono (Nat.zero_le 4)
    · exact (consumes_unsignedInt32.bind_left fun _ => Consumes.pure _).mono (Nat.zero_le 4)
    · refine (consumes_string.bind_left fun str => ?_).mono (Nat.zero_le 4)
      exact (consumes_url.bind_left fun dt => Consumes.pure _).mono (Nat.zero_le 4)

theorem consumes_node : Consumes 1 readNode := by
  refine consumes_unsignedInt8.bind_left fun type => ?_
  split
  · exact (consumes_literalValue.bind_left fun _ => Consumes.pure _).mono (Nat.zero_le 1)
  · split
    · exact (consumes_url.bind_left fun _ => Consumes.pure _).mono (Nat.zero_le 4)
    · split
      · exact (consumes_string.bind_left fun _ => Consumes.pure _).mono (Nat.zero_le 4)
      · exact Consumes.pure _

theorem consumes_binding : Consumes 5 readBinding :=
  consumes_string.bind fun _ => consumes_node.bind_left fun _ => Consumes.pure _

/-! ### Binding sets -/

theorem count_lt {set : BindingSet} (h : ¬set.DistinctNames) :
    set.count < set.bindings.length := by
  have hSublist := List.dedup_sublist set.bindingNames
  have hLength : set.bindingNames.length = set.bindings.length := List.length_map _
  refine Nat.lt_of_le_of_ne (hLength ▸ hSublist.length_le) fun hEq => h ?_
  have hDedup := hSublist.eq_of_length (hEq.trans hLength.symm)
  rw [BindingSet.DistinctNames, ← hDedup]
  exact List.nodup_dedup _

/-- Where a name is bound twice, the reader of the set consumes bytes of what follows it. -/
theorem read_repeated {set : BindingSet} (h : ¬set.DistinctNames) (hFits : BindingSetFits set)
    (rest : QByteArray) (c : BindingSet) :
    readBindingSet (writeBindingSet set ++ rest) ≠ (some c, rest) := by
  obtain ⟨hSize, hBindings⟩ := hFits
  have hLength : set.bindingNames.length = set.bindings.length := List.length_map _
  have hNumber : (UInt32.ofNat set.bindings.length).toNat = set.bindings.length :=
    UInt32.toNat_ofNat_of_lt' (Nat.lt_trans hSize (by decide))
  have hCount := count_lt h
  have hTaken : (set.bindings.take set.count).length + (set.bindings.length - set.count) =
      set.bindings.length := by
    rw [List.length_take]
    omega
  have hTimes := times_append (v := fun b => (b.1, receivedNode b.2))
    (set.bindings.take set.count) (fun b hb => reads_binding (hBindings b (List.mem_of_mem_take hb)).1
      (hBindings b (List.mem_of_mem_take hb)).2) (set.bindings.length - set.count) rest
  rw [hTaken] at hTimes
  intro hRead
  unfold readBindingSet writeBindingSet at hRead
  rw [hLength, List.append_assoc, bind_eq (reads_unsignedInt32 _ _), hNumber] at hRead
  cases hRest : times readBinding (set.bindings.length - set.count) rest with
  | mk o left =>
    rw [hRest] at hTimes
    cases o with
    | none =>
      rw [bind_eq_none hTimes] at hRead
      cases hRead
    | some bindings =>
      rw [bind_eq hTimes] at hRead
      have hLeft : left = rest := (Prod.mk.inj hRead).2
      have := consumes_binding.times _ _ _ _ hRest
      rw [hLeft] at this
      omega

/-- The node compares equal to the one that is read where it was written: its literal, where it
has one, is kept, and the text of a `double` is the text of an equal `double`. -/
def ComesBack (n : Node) : Prop :=
  match n.toLiteral with
  | .typed (.double d) _ _ => ∃ e, Qt.toDouble (Qt.number d) = some e ∧ Qt.doubleEq d e = true
  | v => Kept v

/-- The literal of the text of a `double`. -/
theorem fromString_number {d : Double} {u : QUrl} (h : StoredAs (.double d) u) :
    LiteralValue.fromString (Qt.number d) u =
      match Qt.toDouble (Qt.number d) with
      | some e => .typed (.double e) u h
      | none => .null := by
  have hType : typeFromDataTypeUri u = .double := eq_of_stored_eq h.1 nofun
  have hParse : LiteralValue.parse (Qt.number d) (typeFromDataTypeUri u) =
      (Qt.toDouble (Qt.number d)).map .double := by
    rw [hType]
    rfl
  rw [LiteralValue.fromString, if_neg (by simp [h.2])]
  split
  · rename_i v hv
    rw [hParse, Option.map_eq_some_iff] at hv
    obtain ⟨e, he, rfl⟩ := hv
    simp [he, LiteralValue.resolved, h.2]
  · rename_i hv
    rw [hParse, Option.map_eq_none_iff] at hv
    rw [hv]

theorem operatorEq_receivedNode_iff (n : Node) :
    n.operatorEq (receivedNode n) = true ↔ ComesBack n := by
  by_cases hDouble : n.isDouble = true
  · cases n with
    | empty | resource | blank => cases hDouble
    | literal v hv =>
      cases v with
      | null | plain => cases hDouble
      | typed value u hStored =>
        cases value with
        | double d =>
          have hText : receivedLiteral (.typed (.double d) u hStored) =
              LiteralValue.fromString (Qt.number d) u := rfl
          rw [receivedNode, hText, fromString_number hStored]
          show _ ↔ ∃ e, Qt.toDouble (Qt.number d) = some e ∧ Qt.doubleEq d e = true
          cases Qt.toDouble (Qt.number d) with
          | none => simp [Node.ofLiteral, LiteralValue.isValid, LiteralValue.variant,
              QVariant.isValid, QVariant.type, Node.operatorEq]
          | some e =>
            simp [Node.ofLiteral, LiteralValue.isValid, LiteralValue.variant, QVariant.isValid,
              QVariant.type, Node.operatorEq, LiteralValue.operatorEq, LiteralValue.isPlain,
              LiteralValue.dataTypeUri, QVariant.operatorEq]
        | _ => cases hDouble
  · rw [Bool.not_eq_true] at hDouble
    rw [Node.operatorEq_iff hDouble, eq_comm, receivedNode_eq_iff hDouble, ComesBack]
    split
    · rename_i d u h hCase
      rw [Node.isDouble, hCase] at hDouble
      cases hDouble
    · rfl

/-! ### Sequences -/

/-- A value that is sent over the stream; an error with a locator is a parser error. -/
inductive Item where
  | node (n : Node)
  | statement (s : Statement)
  | bindingSet (set : BindingSet)
  | error (e : Error)
  | locator (loc : Locator)

namespace Item

def write : Item → QByteArray
  | node n => writeNode n
  | statement s => writeStatement s
  | bindingSet set => writeBindingSet set
  | error e => writeError e
  | locator loc => writeLocator loc

/-- The reader of the values of this kind. -/
def read : Item → Reader UInt8 Item
  | node _ => readNode >>= fun n => pure (node n)
  | statement _ => readStatement >>= fun s => pure (statement s)
  | bindingSet _ => readBindingSet >>= fun set => pure (bindingSet set)
  | error _ => readError >>= fun e => pure (error e)
  | locator _ => readLocator >>= fun loc => pure (locator loc)

/-- Each byte array that is written has the length of a `QByteArray`. -/
def Fits : Item → Prop
  | node n => NodeFits n
  | statement s => ∀ n ∈ s.nodes, NodeFits n
  | bindingSet set => BindingSetFits set
  | error e => ErrorFits e
  | locator loc => DataStream.Fits (QString.toUtf8 loc.fileName)

/-- The names and values of the binding set `x`, if it is one, are those of `y`. -/
def SameBindings (x y : Item) : Prop :=
  ∀ set, x = bindingSet set → ∃ c, y = bindingSet c ∧ c.bindingNames = set.bindingNames ∧
    List.Forall₂ (fun n m => n.operatorEq m = true) set.values c.values

/-- The binding set, if it is one, binds no name twice and its values come back. -/
def Framable (x : Item) : Prop :=
  ∀ set, x = bindingSet set → set.DistinctNames ∧ ∀ n ∈ set.values, ComesBack n

end Item

/-- The values in a row. -/
def writeAll (xs : List Item) : QByteArray := xs.flatMap Item.write

/-- Reading the values in order succeeds at each step, consumes exactly what was written for the
value, and finds the names and values of each binding set; `t` is left. -/
def Framed : List Item → QByteArray → Prop
  | [], _ => True
  | x :: xs, t =>
    (∃ y, x.read (x.write ++ (writeAll xs ++ t)) = (some y, writeAll xs ++ t) ∧
      x.SameBindings y) ∧ Framed xs t

theorem forall₂_received_iff (set : BindingSet) :
    List.Forall₂ (fun n m => n.operatorEq m = true) set.values (receivedBindingSet set).values ↔
      ∀ n ∈ set.values, ComesBack n := by
  have hValues : (receivedBindingSet set).values = set.values.map receivedNode := by
    simp [receivedBindingSet, BindingSet.values]
  rw [hValues, List.forall₂_map_right_iff, List.forall₂_same]
  simp only [operatorEq_receivedNode_iff]

theorem bindingNames_received (set : BindingSet) :
    (receivedBindingSet set).bindingNames = set.bindingNames := by
  simp [receivedBindingSet, BindingSet.bindingNames]

/-- One value is read back in front of any bytes exactly if it is framable. -/
theorem read_iff {x : Item} (hFits : x.Fits) (rest : QByteArray) :
    (∃ y, x.read (x.write ++ rest) = (some y, rest) ∧ x.SameBindings y) ↔ x.Framable := by
  cases x with
  | node n =>
    have hRead : Reads (Item.read (.node n)) (writeNode n) _ := (reads_node hFits).bind_pure
    exact ⟨fun _ => nofun, fun _ => ⟨_, hRead rest, nofun⟩⟩
  | statement s =>
    have hRead : Reads (Item.read (.statement s)) (writeStatement s) _ :=
      (reads_statement hFits).bind_pure
    exact ⟨fun _ => nofun, fun _ => ⟨_, hRead rest, nofun⟩⟩
  | error e =>
    have hRead : Reads (Item.read (.error e)) (writeError e) _ := (reads_error hFits).bind_pure
    exact ⟨fun _ => nofun, fun _ => ⟨_, hRead rest, nofun⟩⟩
  | locator loc =>
    have hRead : Reads (Item.read (.locator loc)) (writeLocator loc) _ :=
      (reads_locator hFits).bind_pure
    exact ⟨fun _ => nofun, fun _ => ⟨_, hRead rest, nofun⟩⟩
  | bindingSet set =>
    by_cases hDistinct : set.DistinctNames
    · have hRead : Reads (Item.read (.bindingSet set)) (writeBindingSet set) _ :=
        (reads_bindingSet hDistinct hFits).bind_pure
      constructor
      · rintro ⟨y, hy, hSame⟩ _ ⟨⟩
        have hc := (Prod.mk.inj ((hRead rest).symm.trans hy)).1
        cases hc
        obtain ⟨c, hEq, -, hValues⟩ := hSame set rfl
        cases hEq
        exact ⟨hDistinct, (forall₂_received_iff set).mp hValues⟩
      · intro hFramable
        refine ⟨_, hRead rest, ?_⟩
        rintro _ ⟨⟩
        exact ⟨_, rfl, bindingNames_received set,
          (forall₂_received_iff set).mpr (hFramable set rfl).2⟩
    · refine ⟨?_, fun hFramable => absurd (hFramable set rfl).1 hDistinct⟩
      rintro ⟨y, hy, -⟩
      cases hSet : readBindingSet (writeBindingSet set ++ rest) with
      | mk o left =>
        cases o with
        | none =>
          rw [Item.read, Item.write, bind_eq_none hSet] at hy
          cases hy
        | some c =>
          rw [Item.read, Item.write, bind_eq hSet] at hy
          have hLeft : left = rest := (Prod.mk.inj hy).2
          rw [hLeft] at hSet
          exact absurd hSet (read_repeated hDistinct hFits rest c)

/-- A sequence of values is framed exactly if each of its binding sets binds no name twice and has
values that come back. -/
theorem framed_iff {xs : List Item} (hFits : ∀ x ∈ xs, x.Fits) (t : QByteArray) :
    Framed xs t ↔ ∀ x ∈ xs, x.Framable := by
  induction xs with
  | nil => exact ⟨fun _ x hx => absurd hx List.not_mem_nil, fun _ => trivial⟩
  | cons x xs ih =>
    rw [Framed, read_iff (hFits x (by simp)), ih fun y hy => hFits y (by simp [hy]),
      List.forall_mem_cons]

end Qt

section Example

local instance framingQt : Qt := asciiQt

/-- A binding set and a locator are framed. -/
theorem framed_locator :
    let set := BindingSet.empty.insert "a".toList (.ofIdentifier "n".toList)
    Framed [.bindingSet set, .locator ⟨1, 2, 3, "f".toList⟩] [7] := by
  intro set
  refine (framed_iff ?_ [7]).mpr ?_
  · intro x hx
    simp only [List.mem_cons, List.not_mem_nil, or_false] at hx
    rcases hx with rfl | rfl
    · refine ⟨by decide, ?_⟩
      intro b hb
      obtain rfl := List.mem_singleton.mp hb
      unfold NodeFits Fits
      decide
    · show (QString.toUtf8 "f".toList).length < 2 ^ 31
      decide
  · intro x hx
    simp only [List.mem_cons, List.not_mem_nil, or_false] at hx
    rcases hx with rfl | rfl
    · rintro _ ⟨⟩
      refine ⟨by simp [BindingSet.DistinctNames, BindingSet.bindingNames, set, BindingSet.insert,
        BindingSet.empty], ?_⟩
      intro n hn
      obtain rfl := List.mem_singleton.mp hn
      trivial
    · intro _ h
      cases h

/-- Of a name that is bound twice one binding is written and two are announced. -/
theorem framed_twice :
    let n := Node.ofIdentifier "n".toList
    let set := (BindingSet.empty.insert "a".toList n).insert "a".toList n
    Item.Fits (.bindingSet set) ∧ ¬Framed [.bindingSet set] [] := by
  intro n set
  constructor
  · refine ⟨by decide, ?_⟩
    intro b hb
    have hBinding : b = ("a".toList, n) := by
      simpa [set, BindingSet.insert, BindingSet.empty] using hb
    subst hBinding
    unfold NodeFits Fits
    decide
  · rintro ⟨⟨y, hy, -⟩, -⟩
    have hNone : ((Item.bindingSet set).read ((Item.bindingSet set).write ++
        (writeAll [] ++ []))).1.isNone = true := by
      decide
    rw [hy] at hNone
    cases hNone

end Example

end DataStream

end Soprano
