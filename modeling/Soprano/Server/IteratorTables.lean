import Soprano.Session

/-! The iterator tables of a connection.  `iteratorOf` sees the three tables as one map from ids to
iterators; each request opens an iterator under a fresh id, closes the one it names, or leaves the
map as it is. -/

namespace Soprano

namespace Server

variable {W M SI NI QI : Type}

/-- An iterator of one of the three kinds. -/
inductive OpenIterator (SI NI QI : Type) where
  | statements (it : SI)
  | nodes (it : NI)
  | results (it : QI)

/-- The iterator that is open under the id. -/
def iteratorOf (σ : State W M SI NI QI) (id : UInt32) : Option (OpenIterator SI NI QI) :=
  ((σ.openStatementIterators.lookup id).map .statements).or
    (((σ.openNodeIterators.lookup id).map .nodes).or
      ((σ.openQueryIterators.lookup id).map .results))

/-- The ids of the three tables. -/
def openIds (σ : State W M SI NI QI) : List UInt32 :=
  σ.openStatementIterators.keys ++ (σ.openNodeIterators.keys ++ σ.openQueryIterators.keys)

namespace OpenIterator

/-- The table of the iterator's kind with the iterator under the id. -/
def insert (σ : State W M SI NI QI) (id : UInt32) : OpenIterator SI NI QI → State W M SI NI QI
  | statements it => { σ with openStatementIterators := σ.openStatementIterators.insert id it }
  | nodes it => { σ with openNodeIterators := σ.openNodeIterators.insert id it }
  | results it => { σ with openQueryIterators := σ.openQueryIterators.insert id it }

/-- The table of the iterator's kind without the id. -/
def remove (σ : State W M SI NI QI) (id : UInt32) : OpenIterator SI NI QI → State W M SI NI QI
  | statements _ => { σ with openStatementIterators := σ.openStatementIterators.remove id }
  | nodes _ => { σ with openNodeIterators := σ.openNodeIterators.remove id }
  | results _ => { σ with openQueryIterators := σ.openQueryIterators.remove id }

end OpenIterator

/-- The states have the same iterator tables. -/
structure SameTables (σ τ : State W M SI NI QI) : Prop where
  statements : τ.openStatementIterators = σ.openStatementIterators
  nodes : τ.openNodeIterators = σ.openNodeIterators
  results : τ.openQueryIterators = σ.openQueryIterators

variable {σ τ : State W M SI NI QI} {id other : UInt32} {it : OpenIterator SI NI QI}

theorem SameTables.refl (σ : State W M SI NI QI) : SameTables σ σ := ⟨rfl, rfl, rfl⟩

theorem SameTables.iteratorOf (h : SameTables σ τ) (id : UInt32) :
    iteratorOf τ id = Server.iteratorOf σ id := by
  rw [Server.iteratorOf, h.statements, h.nodes, h.results]
  rfl

theorem SameTables.openIds (h : SameTables σ τ) : openIds τ = Server.openIds σ := by
  rw [Server.openIds, h.statements, h.nodes, h.results]
  rfl

theorem mem_openIds : id ∈ openIds σ ↔ (iteratorOf σ id).isSome = true := by
  simp only [openIds, List.mem_append, QHash.mem_keys, iteratorOf]
  cases σ.openStatementIterators.lookup id with
  | some it => simp
  | none =>
    cases σ.openNodeIterators.lookup id with
    | some it => simp
    | none => simp

theorem iteratorIdInUse_eq (σ : State W M SI NI QI) (id : UInt32) :
    ServerConnection.iteratorIdInUse σ id = (iteratorOf σ id).isSome := by
  simp only [ServerConnection.iteratorIdInUse, QHash.contains, iteratorOf]
  cases σ.openStatementIterators.lookup id with
  | some it => simp
  | none => cases σ.openNodeIterators.lookup id <;> simp

/-- The iterator stands under the id in the table of its kind, and in no other. -/
def OpenIterator.OnlyAt (σ : State W M SI NI QI) (id : UInt32) : OpenIterator SI NI QI → Prop
  | statements it => σ.openStatementIterators.lookup id = some it ∧
      σ.openNodeIterators.lookup id = none ∧ σ.openQueryIterators.lookup id = none
  | nodes it => σ.openStatementIterators.lookup id = none ∧
      σ.openNodeIterators.lookup id = some it ∧ σ.openQueryIterators.lookup id = none
  | results it => σ.openStatementIterators.lookup id = none ∧
      σ.openNodeIterators.lookup id = none ∧ σ.openQueryIterators.lookup id = some it

theorem onlyAt_of_iteratorOf (h : (openIds σ).Nodup) (hOpen : iteratorOf σ id = some it) :
    it.OnlyAt σ id := by
  have hNone : ∀ {α : Type} {l : QHash UInt32 α}, id ∉ l.keys → l.lookup id = none := by
    intro α l hMem
    rw [QHash.mem_keys, Bool.not_eq_true, Option.isSome_eq_false_iff, Option.isNone_iff_eq_none]
      at hMem
    exact hMem
  simp only [openIds, List.nodup_append', List.disjoint_append_right] at h
  obtain ⟨-, ⟨-, -, hNodeResult⟩, hStatementNode, hStatementResult⟩ := h
  rw [iteratorOf] at hOpen
  cases hStatement : σ.openStatementIterators.lookup id with
  | some a =>
    have hMem : id ∈ σ.openStatementIterators.keys := QHash.mem_keys.mpr (by rw [hStatement]; rfl)
    rw [hStatement] at hOpen
    cases hOpen
    exact ⟨hStatement, hNone (hStatementNode hMem), hNone (hStatementResult hMem)⟩
  | none =>
    rw [hStatement] at hOpen
    cases hNode : σ.openNodeIterators.lookup id with
    | some a =>
      have hMem : id ∈ σ.openNodeIterators.keys := QHash.mem_keys.mpr (by rw [hNode]; rfl)
      rw [hNode] at hOpen
      cases hOpen
      exact ⟨hStatement, hNode, hNone (hNodeResult hMem)⟩
    | none =>
      rw [hNode, Option.map_none, Option.none_or, Option.map_none, Option.none_or,
        Option.map_eq_some_iff] at hOpen
      obtain ⟨a, hResult, rfl⟩ := hOpen
      exact ⟨hStatement, hNode, hResult⟩

theorem iteratorOf_eq_none : iteratorOf σ id = none ↔
    σ.openStatementIterators.lookup id = none ∧ σ.openNodeIterators.lookup id = none ∧
      σ.openQueryIterators.lookup id = none := by
  simp [iteratorOf]

/-! ### Opening and closing -/

/-- An iterator under a free id concerns no other id. -/
theorem iteratorOf_insert (hFree : iteratorOf σ id = none) (it : OpenIterator SI NI QI)
    (other : UInt32) :
    iteratorOf (it.insert σ id) other = if other = id then some it else iteratorOf σ other := by
  obtain ⟨hStatement, hNode, hResult⟩ := iteratorOf_eq_none.mp hFree
  by_cases hOther : other = id
  · subst hOther
    cases it <;> simp [OpenIterator.insert, iteratorOf, QHash.lookup_insert, hStatement, hNode]
  · cases it <;> simp [OpenIterator.insert, iteratorOf, QHash.lookup_insert, hOther]

theorem openIds_insert (hFree : iteratorOf σ id = none) (it : OpenIterator SI NI QI)
    (h : (openIds σ).Nodup) : (openIds (it.insert σ id)).Nodup := by
  have hNotMem : id ∉ openIds σ := by
    rw [mem_openIds, hFree]
    exact Bool.false_ne_true
  have hFilter : ∀ l : List UInt32, id ∉ l → l.filter (· ≠ id) = l := by
    intro l hl
    refine List.filter_eq_self.mpr fun k hk => ?_
    simp only [ne_eq, decide_not, Bool.not_eq_eq_eq_not, Bool.not_true, decide_eq_false_iff_not]
    rintro rfl
    exact hl hk
  have hPerm : (openIds (it.insert σ id)).Perm (id :: openIds σ) := by
    simp only [openIds, List.mem_append, not_or] at hNotMem
    obtain ⟨hStatement, hNode, hResult⟩ := hNotMem
    cases it with
    | statements it =>
      rw [OpenIterator.insert, openIds, QHash.keys_insert, hFilter _ hStatement]
      exact List.Perm.refl _
    | nodes it =>
      rw [OpenIterator.insert, openIds, QHash.keys_insert, hFilter _ hNode]
      exact List.perm_middle
    | results it =>
      rw [OpenIterator.insert, openIds, QHash.keys_insert, hFilter _ hResult, ← List.append_assoc]
      rw [openIds, ← List.append_assoc]
      exact List.perm_middle
  rw [hPerm.nodup_iff, List.nodup_cons]
  exact ⟨hNotMem, h⟩

theorem iteratorOf_remove (h : (openIds σ).Nodup) (hOpen : iteratorOf σ id = some it)
    (other : UInt32) :
    iteratorOf (it.remove σ id) other = if other = id then none else iteratorOf σ other := by
  have hOnly := onlyAt_of_iteratorOf h hOpen
  by_cases hOther : other = id
  · subst hOther
    cases it <;> obtain ⟨hStatement, hNode, hResult⟩ := hOnly <;>
      simp [OpenIterator.remove, iteratorOf, QHash.lookup_remove, hStatement, hNode, hResult]
  · cases it <;> simp [OpenIterator.remove, iteratorOf, QHash.lookup_remove, hOther]

theorem openIds_remove (h : (openIds σ).Nodup) (it : OpenIterator SI NI QI) (id : UInt32) :
    (openIds (it.remove σ id)).Nodup := by
  refine h.sublist ?_
  cases it with
  | statements it =>
    rw [OpenIterator.remove, openIds, QHash.keys_remove]
    exact List.filter_sublist.append_right _
  | nodes it =>
    rw [OpenIterator.remove, openIds, QHash.keys_remove]
    exact (List.filter_sublist.append_right _).append_left _
  | results it =>
    rw [OpenIterator.remove, openIds, QHash.keys_remove]
    exact (List.filter_sublist.append_left _).append_left _

end Server

open Server

section Requests

variable {W M SI NI QI : Type} [Qt]

/-! ### Requests -/

/-- A step of a world that returns a value. -/
def valued {α : Type} (op : W → α × W) (value : α → Value) (w : W) : Value × W :=
  (value (op w).1, (op w).2)

/-- The error after an operation on the iterator. -/
def Server.OpenIterator.lastError (host : Host W M SI NI QI) : OpenIterator SI NI QI → W → Error
  | statements it => host.statements.lastError it
  | nodes it => host.nodes.lastError it
  | results it => host.results.lastError it

/-- The error of a command that names no iterator. -/
def invalidIteratorError : Error :=
  .ofMessage "Invalid iterator ID.".toList ErrorCode.errorUnknown.code

namespace Request

/-- The id of the iterator that the request is about. -/
def iteratorId : Request → Option UInt32
  | iteratorNext id | nodeIteratorCurrent id | statementIteratorCurrent id
  | queryIteratorCurrent id | queryIteratorCurrentStatement id | queryIteratorType id
  | queryIteratorBoolValue id | iteratorClose id => some id.toUInt32
  | _ => none

def closes : Request → Option UInt32
  | iteratorClose id => some id.toUInt32
  | _ => none

/-- The iterator that the model returns to the request. -/
def opens (host : Host W M SI NI QI) (σ : State W M SI NI QI) :
    Request → Option (OpenIterator SI NI QI)
  | listStatements modelId s => (ModelPool.modelById σ modelId.toUInt32).bind fun model =>
      (host.listStatements model s σ.world).1.map .statements
  | listContexts modelId => (ModelPool.modelById σ modelId.toUInt32).bind fun model =>
      (host.listContexts model σ.world).1.map .nodes
  | executeQuery modelId query type lang =>
      (ModelPool.modelById σ modelId.toUInt32).bind fun model =>
        (host.executeQuery model query type lang σ.world).1.map .results
  | _ => none

/-- What the request does with the iterator it names, if it is of the right kind. -/
def operation (host : Host W M SI NI QI) : Request → OpenIterator SI NI QI →
    Option (W → Value × W)
  | iteratorNext _, .statements it => some (valued (host.statements.next it) .bool)
  | iteratorNext _, .nodes it => some (valued (host.nodes.next it) .bool)
  | iteratorNext _, .results it => some (valued (host.results.next it) .bool)
  | statementIteratorCurrent _, .statements it
  | queryIteratorCurrentStatement _, .statements it =>
      some (valued (host.statements.current it) .statement)
  | statementIteratorCurrent _, .results it | queryIteratorCurrentStatement _, .results it =>
      some (valued (host.currentStatement it) .statement)
  | nodeIteratorCurrent _, .nodes it => some (valued (host.nodes.current it) .node)
  | queryIteratorCurrent _, .results it => some (valued (host.results.current it) .bindingSet)
  | queryIteratorType _, .results it => some (valued (ServerConnection.queryType host it) .type)
  | queryIteratorBoolValue _, .results it => some (valued (host.boolValue it) .bool)
  | iteratorClose _, .statements it => some fun w => (.nothing, host.statements.close it w)
  | iteratorClose _, .nodes it => some fun w => (.nothing, host.nodes.close it w)
  | iteratorClose _, .results it => some fun w => (.nothing, host.results.close it w)
  | _, _ => none

/-- The value of the reply where the id names no iterator of the right kind. -/
def invalidValue : Request → Value
  | iteratorNext _ | queryIteratorBoolValue _ => .bool false
  | nodeIteratorCurrent _ => .node .empty
  | statementIteratorCurrent _ | queryIteratorCurrentStatement _ => .statement .empty
  | queryIteratorCurrent _ => .bindingSet .empty
  | queryIteratorType _ => .type 0
  | _ => .nothing

/-- A request about the iterator `id`, whatever table it is in. -/
def performNamed (host : Host W M SI NI QI) (σ : State W M SI NI QI) (id : UInt32) (r : Request) :
    State W M SI NI QI × Reply :=
  match iteratorOf σ id with
  | some it =>
    match r.operation host it with
    | some op =>
      let (value, world) := op σ.world
      let τ := { σ with world := world }
      (if r.closes.isSome then it.remove τ id else τ, ⟨value, some (it.lastError host world)⟩)
    | none => (σ, ServerConnection.invalidIteratorId r.invalidValue)
  | none => (σ, ServerConnection.invalidIteratorId r.invalidValue)

/-- What a request does to the open iterators: it hands out a free id for the iterator that the model
returned; it operates on the one iterator that it names, which a close removes; a name that
stands for none is refused, and nothing changes. -/
structure Answered (host : Host W M SI NI QI) (σ : State W M SI NI QI) (r : Request)
    (τ : State W M SI NI QI) (reply : Reply) : Prop where
  opened : ∀ it, r.opens host σ = some it → ∃ id, reply.value = .id id ∧ iteratorOf σ id = none ∧
    ∀ other, iteratorOf τ other = if other = id then some it else iteratorOf σ other
  kept : r.opens host σ = none → r.closes = none → ∀ id, iteratorOf τ id = iteratorOf σ id
  refused : ∀ id, r.iteratorId = some id → iteratorOf σ id = none →
    τ = σ ∧ reply.error = some invalidIteratorError
  operated : ∀ id it, r.iteratorId = some id → iteratorOf σ id = some it →
    match r.operation host it with
    | some op => reply.value = (op σ.world).1 ∧ τ.world = (op σ.world).2 ∧
        reply.error = some (it.lastError host τ.world)
    | none => τ = σ ∧ reply.error = some invalidIteratorError
  closed : ∀ id, r.closes = some id → ∀ other,
    iteratorOf τ other = if other = id then none else iteratorOf σ other

end Request

variable {host : Host W M SI NI QI} {σ τ : State W M SI NI QI} {r : Request} {reply : Reply}

theorem onModel_cases {modelId : Int32} {invalid : Value}
    {perform : M → Option (State W M SI NI QI × Reply)}
    (h : Request.onModel σ modelId invalid perform = some (τ, reply)) :
    (∃ model, ModelPool.modelById σ modelId.toUInt32 = some model ∧
        perform model = some (τ, reply)) ∨
      ModelPool.modelById σ modelId.toUInt32 = none ∧ τ = σ ∧
        reply = ServerConnection.invalidModelId invalid := by
  rw [Request.onModel] at h
  split at h
  · rename_i model hModel
    exact .inl ⟨model, hModel, h⟩
  · rename_i hModel
    cases h
    exact .inr ⟨hModel, rfl, rfl⟩

/-- The iterator that a model returned gets a free id in the table of its kind. -/
theorem answerIterator_cases {I : Type} {f : I → OpenIterator SI NI QI}
    {op : W → Option I × W} {error : W → Error}
    (h : ServerConnection.answerIterator (fun σ id it => (f it).insert σ id) σ op error =
      some (τ, reply)) :
    match (op σ.world).1 with
    | some it => ∃ id rest, reply = ⟨.id id, some (error (op σ.world).2)⟩ ∧
        generateUniqueId (ServerConnection.iteratorIdInUse σ) σ.draws = some (id, rest) ∧
        iteratorOf σ id = none ∧ SameTables ((f it).insert σ id) τ
    | none => reply.value = .id 0 ∧ SameTables σ τ := by
  rw [ServerConnection.answerIterator] at h
  split at h
  · rename_i it w hOp
    rw [ServerConnection.mapIterator, Option.map_map, Option.map_eq_some_iff] at h
    obtain ⟨⟨id, draws⟩, hId, hEq⟩ := h
    cases hEq
    have hFree := generateUniqueId_free hId
    rw [iteratorIdInUse_eq, Option.isSome_eq_false_iff, Option.isNone_iff_eq_none] at hFree
    rw [hOp]
    refine ⟨id, draws, rfl, hId, hFree, ?_⟩
    cases f it <;> exact ⟨rfl, rfl, rfl⟩
  · rename_i w hOp
    cases h
    rw [hOp]
    exact ⟨rfl, rfl, rfl, rfl⟩

/-- After each operation that returns an iterator the model has no error. -/
structure ClearsErrors (host : Host W M SI NI QI) : Prop where
  listStatements : ∀ m s w it, (host.listStatements m s w).1 = some it →
    (host.lastError m (host.listStatements m s w).2).code = 0
  listContexts : ∀ m w it, (host.listContexts m w).1 = some it →
    (host.lastError m (host.listContexts m w).2).code = 0
  executeQuery : ∀ m q l u w it, (host.executeQuery m q l u w).1 = some it →
    (host.lastError m (host.executeQuery m q l u w).2).code = 0

/-- A request that the model returned an iterator to: the id is the first free number drawn. -/
theorem perform_opens {it : OpenIterator SI NI QI} (hOpens : r.opens host σ = some it)
    (h : r.perform host σ = some (τ, reply)) :
    ∃ id rest e, reply = ⟨.id id, some e⟩ ∧ (ClearsErrors host → e.code = 0) ∧
      generateUniqueId (ServerConnection.iteratorIdInUse σ) σ.draws = some (id, rest) ∧
      iteratorOf σ id = none ∧ SameTables (it.insert σ id) τ := by
  cases r with
  | listStatements modelId s =>
    obtain ⟨model, hModel, hIt⟩ := Option.bind_eq_some_iff.mp hOpens
    obtain ⟨a, hA, rfl⟩ := Option.map_eq_some_iff.mp hIt
    rw [Request.perform, Request.onModel, hModel] at h
    have hAnswer := answerIterator_cases (f := .statements) h
    rw [hA] at hAnswer
    obtain ⟨id, rest, hReply, hAfter⟩ := hAnswer
    exact ⟨id, rest, _, hReply, fun hHost => hHost.listStatements _ _ _ a hA, hAfter⟩
  | listContexts modelId =>
    obtain ⟨model, hModel, hIt⟩ := Option.bind_eq_some_iff.mp hOpens
    obtain ⟨a, hA, rfl⟩ := Option.map_eq_some_iff.mp hIt
    rw [Request.perform, Request.onModel, hModel] at h
    have hAnswer := answerIterator_cases (f := .nodes) h
    rw [hA] at hAnswer
    obtain ⟨id, rest, hReply, hAfter⟩ := hAnswer
    exact ⟨id, rest, _, hReply, fun hHost => hHost.listContexts _ _ a hA, hAfter⟩
  | executeQuery modelId query type lang =>
    obtain ⟨model, hModel, hIt⟩ := Option.bind_eq_some_iff.mp hOpens
    obtain ⟨a, hA, rfl⟩ := Option.map_eq_some_iff.mp hIt
    rw [Request.perform, Request.onModel, hModel] at h
    have hAnswer := answerIterator_cases (f := .results) h
    rw [hA] at hAnswer
    obtain ⟨id, rest, hReply, hAfter⟩ := hAnswer
    exact ⟨id, rest, _, hReply, fun hHost => hHost.executeQuery _ _ _ _ _ a hA, hAfter⟩
  | _ => cases hOpens

/-- The handlers, each of which looks the id up in the tables of its own kinds, agree with the one
lookup in all of them. -/
theorem perform_named (hDistinct : (openIds σ).Nodup) {id : UInt32}
    (hId : r.iteratorId = some id) : r.perform host σ = some (r.performNamed host σ id) := by
  have hLookups : (iteratorOf σ id = none ∧ σ.openStatementIterators.lookup id = none ∧
      σ.openNodeIterators.lookup id = none ∧ σ.openQueryIterators.lookup id = none) ∨
      ∃ it, iteratorOf σ id = some it ∧ it.OnlyAt σ id := by
    cases hIt : iteratorOf σ id with
    | none => exact .inl ⟨rfl, iteratorOf_eq_none.mp hIt⟩
    | some it => exact .inr ⟨it, rfl, onlyAt_of_iteratorOf hDistinct hIt⟩
  cases r with
  | iteratorNext n =>
    cases hId
    rcases hLookups with ⟨hIt, hS, hN, hQ⟩ | ⟨it, hIt, hOnly⟩
    · simp only [Request.perform, ServerConnection.performIteratorNext, Request.performNamed, hIt,
        hS, hN, hQ]
      rfl
    · cases it <;> obtain ⟨hS, hN, hQ⟩ := hOnly <;>
        simp only [Request.perform, ServerConnection.performIteratorNext, Request.performNamed,
          hIt, hS, hN, hQ] <;> rfl
  | nodeIteratorCurrent n =>
    cases hId
    rcases hLookups with ⟨hIt, hS, hN, hQ⟩ | ⟨it, hIt, hOnly⟩
    · simp only [Request.perform, ServerConnection.performNodeIteratorCurrent,
        Request.performNamed, hIt, hN]
      rfl
    · cases it <;> obtain ⟨hS, hN, hQ⟩ := hOnly <;>
        simp only [Request.perform, ServerConnection.performNodeIteratorCurrent,
          Request.performNamed, hIt, hN] <;> rfl
  | statementIteratorCurrent n | queryIteratorCurrentStatement n =>
    cases hId
    rcases hLookups with ⟨hIt, hS, hN, hQ⟩ | ⟨it, hIt, hOnly⟩
    · simp only [Request.perform, ServerConnection.performStatementIteratorCurrent,
        Request.performNamed, hIt, hS, hQ]
      rfl
    · cases it <;> obtain ⟨hS, hN, hQ⟩ := hOnly <;>
        simp only [Request.perform, ServerConnection.performStatementIteratorCurrent,
          Request.performNamed, hIt, hS, hQ] <;> rfl
  | queryIteratorCurrent n =>
    cases hId
    rcases hLookups with ⟨hIt, hS, hN, hQ⟩ | ⟨it, hIt, hOnly⟩
    · simp only [Request.perform, ServerConnection.performQueryIteratorCurrent,
        Request.performNamed, hIt, hQ]
      rfl
    · cases it <;> obtain ⟨hS, hN, hQ⟩ := hOnly <;>
        simp only [Request.perform, ServerConnection.performQueryIteratorCurrent,
          Request.performNamed, hIt, hQ] <;> rfl
  | queryIteratorType n =>
    cases hId
    rcases hLookups with ⟨hIt, hS, hN, hQ⟩ | ⟨it, hIt, hOnly⟩
    · simp only [Request.perform, ServerConnection.performQueryIteratorType,
        Request.performNamed, hIt, hQ]
      rfl
    · cases it <;> obtain ⟨hS, hN, hQ⟩ := hOnly <;>
        simp only [Request.perform, ServerConnection.performQueryIteratorType,
          Request.performNamed, hIt, hQ] <;> rfl
  | queryIteratorBoolValue n =>
    cases hId
    rcases hLookups with ⟨hIt, hS, hN, hQ⟩ | ⟨it, hIt, hOnly⟩
    · simp only [Request.perform, ServerConnection.performQueryIteratorBoolValue,
        Request.performNamed, hIt, hQ]
      rfl
    · cases it <;> obtain ⟨hS, hN, hQ⟩ := hOnly <;>
        simp only [Request.perform, ServerConnection.performQueryIteratorBoolValue,
          Request.performNamed, hIt, hQ] <;> rfl
  | iteratorClose n =>
    cases hId
    rcases hLookups with ⟨hIt, hS, hN, hQ⟩ | ⟨it, hIt, hOnly⟩
    · simp only [Request.perform, ServerConnection.performIteratorClose, Request.performNamed, hIt,
        hS, hN, hQ]
      rfl
    · cases it <;> obtain ⟨hS, hN, hQ⟩ := hOnly <;>
        simp only [Request.perform, ServerConnection.performIteratorClose, Request.performNamed,
          hIt, hS, hN, hQ] <;> rfl
  | _ => cases hId

variable (host σ) in
theorem sameTables_performNamed (id : UInt32) (hCloses : r.closes = none) :
    SameTables σ (r.performNamed host σ id).1 := by
  rw [Request.performNamed]
  split
  · split
    · simp only [hCloses]
      exact ⟨rfl, rfl, rfl⟩
    · exact SameTables.refl σ
  · exact SameTables.refl σ

/-- A request that opens no iterator and closes none keeps the tables. -/
theorem sameTables_perform (hDistinct : (openIds σ).Nodup) (hOpens : r.opens host σ = none) (hCloses : r.closes = none)
    (h : r.perform host σ = some (τ, reply)) : SameTables σ τ := by
  cases r with
  | createModel name =>
    obtain ⟨⟨id, ρ⟩, hId, hEq⟩ := Option.map_eq_some_iff.mp h
    cases hEq
    rw [ModelPool.idForModelName] at hId
    split at hId
    · cases hId
      exact SameTables.refl σ
    · split at hId
      · obtain ⟨⟨id', draws⟩, -, hEq⟩ := Option.map_eq_some_iff.mp hId
        cases hEq
        exact ⟨rfl, rfl, rfl⟩
      · cases hId
        exact ⟨rfl, rfl, rfl⟩
  | supportedFeatures =>
    have hEq := Option.some.inj h
    rw [ServerConnection.performSupportedFeatures] at hEq
    split at hEq <;> cases hEq <;> exact SameTables.refl σ
  | removeModel name | checkProtocolVersion =>
    cases h
    exact ⟨rfl, rfl, rfl⟩
  | addStatement modelId s | removeStatement modelId s | removeAllStatements modelId s
  | containsStatement modelId s | containsAnyStatement modelId s | statementCount modelId
  | isEmpty modelId | createBlankNode modelId =>
    rcases onModel_cases h with ⟨model, -, hModel⟩ | ⟨-, rfl, -⟩
    · cases hModel
      exact ⟨rfl, rfl, rfl⟩
    · exact SameTables.refl _
  | listStatements modelId s =>
    rcases onModel_cases h with ⟨model, hModel, hIt⟩ | ⟨-, rfl, -⟩
    · have hAnswer := answerIterator_cases (f := .statements) hIt
      rw [Request.opens, hModel] at hOpens
      rw [Option.map_eq_none_iff.mp hOpens] at hAnswer
      exact hAnswer.2
    · exact SameTables.refl _
  | listContexts modelId =>
    rcases onModel_cases h with ⟨model, hModel, hIt⟩ | ⟨-, rfl, -⟩
    · have hAnswer := answerIterator_cases (f := .nodes) hIt
      rw [Request.opens, hModel] at hOpens
      rw [Option.map_eq_none_iff.mp hOpens] at hAnswer
      exact hAnswer.2
    · exact SameTables.refl _
  | executeQuery modelId query type lang =>
    rcases onModel_cases h with ⟨model, hModel, hIt⟩ | ⟨-, rfl, -⟩
    · have hAnswer := answerIterator_cases (f := .results) hIt
      rw [Request.opens, hModel] at hOpens
      rw [Option.map_eq_none_iff.mp hOpens] at hAnswer
      exact hAnswer.2
    · exact SameTables.refl _
  | iteratorClose id => cases hCloses
  | iteratorNext id | nodeIteratorCurrent id | statementIteratorCurrent id
  | queryIteratorCurrent id | queryIteratorCurrentStatement id | queryIteratorType id
  | queryIteratorBoolValue id =>
    rw [perform_named hDistinct rfl, Option.some.injEq] at h
    have hTables := sameTables_performNamed host σ id.toUInt32 hCloses
    rwa [h] at hTables

theorem iteratorId_of_closes {id : UInt32} (h : r.closes = some id) : r.iteratorId = some id := by
  cases r with
  | iteratorClose n => exact h
  | _ => cases h

theorem iteratorId_of_opens {it : OpenIterator SI NI QI} (h : r.opens host σ = some it) :
    r.iteratorId = none := by
  cases r with
  | listStatements | listContexts | executeQuery => rfl
  | _ => cases h

theorem closes_of_iteratorId (h : r.iteratorId = none) : r.closes = none := by
  cases hCloses : r.closes with
  | none => rfl
  | some id =>
    rw [iteratorId_of_closes hCloses] at h
    cases h

variable (host) in
/-- A close finds its iterator in every table, so it operates on it. -/
theorem operation_of_closes {id : UInt32} (h : r.closes = some id) (it : OpenIterator SI NI QI) :
    ∃ op, r.operation host it = some op := by
  cases r with
  | iteratorClose n => cases it <;> exact ⟨_, rfl⟩
  | _ => cases h

/-- A request about an iterator that is open. -/
theorem performNamed_open (hDistinct : (openIds σ).Nodup) {id : UInt32}
    {it : OpenIterator SI NI QI} (hId : r.iteratorId = some id) (hIt : iteratorOf σ id = some it)
    (hEq : r.performNamed host σ id = (τ, reply)) :
    r.Answered host σ τ reply ∧ (openIds τ).Nodup := by
  have hOpens : r.opens host σ = none := by
    by_contra hSome
    obtain ⟨it, hSome⟩ := Option.ne_none_iff_exists'.mp hSome
    rw [iteratorId_of_opens hSome] at hId
    cases hId
  have hCloses : ∀ k, r.closes = some k → k = id := fun k hk =>
    Option.some.inj ((iteratorId_of_closes hk).symm.trans hId)
  cases hOp : r.operation host it with
  | none =>
    simp only [Request.performNamed, hIt, hOp] at hEq
    cases hEq
    refine ⟨⟨fun a ha => ?_, fun _ _ _ => rfl, fun k hk hNone => ⟨rfl, rfl⟩, fun k a hk ha => ?_,
      fun k hk => ?_⟩, hDistinct⟩
    · rw [hOpens] at ha
      cases ha
    · obtain rfl : k = id := Option.some.inj (hk.symm.trans hId)
      obtain rfl : a = it := Option.some.inj (ha.symm.trans hIt)
      rw [hOp]
      exact ⟨rfl, rfl⟩
    · obtain ⟨op, hSome⟩ := operation_of_closes host hk it
      rw [hOp] at hSome
      cases hSome
  | some op =>
    simp only [Request.performNamed, hIt, hOp] at hEq
    have hOperated : reply.value = (op σ.world).1 ∧ τ.world = (op σ.world).2 ∧
        reply.error = some (it.lastError host τ.world) := by
      split at hEq <;> cases hEq
      · cases it <;> exact ⟨rfl, rfl, rfl⟩
      · exact ⟨rfl, rfl, rfl⟩
    refine ⟨⟨fun a ha => ?_, fun _ hNone k => ?_, fun k hk hNone => ?_, fun k a hk ha => ?_,
      fun k hk other => ?_⟩, ?_⟩
    · rw [hOpens] at ha
      cases ha
    · rw [hNone] at hEq
      cases hEq
      rfl
    · obtain rfl : k = id := Option.some.inj (hk.symm.trans hId)
      rw [hIt] at hNone
      cases hNone
    · obtain rfl : k = id := Option.some.inj (hk.symm.trans hId)
      obtain rfl : a = it := Option.some.inj (ha.symm.trans hIt)
      rw [hOp]
      exact hOperated
    · obtain rfl : k = id := hCloses k hk
      rw [hk] at hEq
      cases hEq
      exact iteratorOf_remove (σ := { σ with world := (op σ.world).2 }) hDistinct hIt other
    · split at hEq <;> cases hEq
      · exact openIds_remove (σ := { σ with world := (op σ.world).2 }) hDistinct it id
      · exact hDistinct

/-- Every request is answered as `Answered` says, and the ids stay distinct. -/
theorem perform_answered (hDistinct : (openIds σ).Nodup)
    (h : r.perform host σ = some (τ, reply)) :
    r.Answered host σ τ reply ∧ (openIds τ).Nodup := by
  cases hId : r.iteratorId with
  | some id =>
    rw [perform_named hDistinct hId, Option.some.injEq] at h
    cases hIt : iteratorOf σ id with
    | some it => exact performNamed_open hDistinct hId hIt h
    | none =>
      simp only [Request.performNamed, hIt] at h
      cases h
      refine ⟨⟨fun a ha => ?_, fun _ _ _ => rfl, fun k hk hNone => ⟨rfl, rfl⟩,
        fun k a hk ha => ?_, fun k hk other => ?_⟩, hDistinct⟩
      · rw [iteratorId_of_opens ha] at hId
        cases hId
      · obtain rfl : k = id := Option.some.inj (hk.symm.trans hId)
        rw [hIt] at ha
        cases ha
      · obtain rfl : k = id := Option.some.inj ((iteratorId_of_closes hk).symm.trans hId)
        split
        · rename_i hOther
          rw [hOther, hIt]
        · rfl
  | none =>
    have hCloses := closes_of_iteratorId hId
    have hNamed : ∀ k, r.iteratorId ≠ some k := fun k hk => by
      rw [hId] at hk
      cases hk
    cases hOpens : r.opens host σ with
    | none =>
      have hTables := sameTables_perform hDistinct hOpens hCloses h
      refine ⟨⟨fun a ha => ?_, fun _ _ k => hTables.iteratorOf k, fun k hk => absurd hk (hNamed k),
        fun k a hk => absurd hk (hNamed k), fun k hk => ?_⟩, ?_⟩
      · rw [hOpens] at ha
        cases ha
      · rw [hCloses] at hk
        cases hk
      · rw [hTables.openIds]
        exact hDistinct
    | some it =>
      obtain ⟨id, rest, e, rfl, -, -, hFree, hTables⟩ := perform_opens hOpens h
      refine ⟨⟨fun a ha => ⟨id, rfl, hFree, fun other => ?_⟩, fun hNone => ?_,
        fun k hk => absurd hk (hNamed k), fun k a hk => absurd hk (hNamed k), fun k hk => ?_⟩, ?_⟩
      · obtain rfl : a = it := Option.some.inj (ha.symm.trans hOpens)
        rw [hTables.iteratorOf, iteratorOf_insert hFree]
      · rw [hOpens] at hNone
        cases hNone
      · rw [hCloses] at hk
        cases hk
      · rw [hTables.openIds]
        exact openIds_insert hFree it hDistinct

/-! ### Runs -/

/-- The ids that were handed out and not closed since, behind a request. -/
def Request.track (host : Host W M SI NI QI) (σ : State W M SI NI QI) (reply : Reply)
    (issued : List UInt32) (r : Request) : List UInt32 :=
  if (r.opens host σ).isSome then
    match reply.value with
    | .id id => id :: issued
    | _ => issued
  else
    match r.closes with
    | some id => issued.filter (· ≠ id)
    | none => issued

/-- The ids that a run handed out and did not close since, those of `issued` among them. -/
def issuedAfter (host : Host W M SI NI QI) (σ : State W M SI NI QI) (issued : List UInt32) :
    List Request → List UInt32
  | [] => issued
  | r :: rs =>
    match r.perform host σ with
    | some (τ, reply) => issuedAfter host τ (r.track host σ reply issued) rs
    | none => issued

theorem performAll_cons {rs : List Request} {replies : List Reply}
    (h : Request.performAll host σ (r :: rs) = some (τ, replies)) :
    ∃ ρ reply rest, r.perform host σ = some (ρ, reply) ∧
      Request.performAll host ρ rs = some (τ, rest) ∧ replies = reply :: rest := by
  simp only [Request.performAll, Option.bind_eq_bind, Option.bind_eq_some_iff, Prod.exists,
    Option.some.injEq, Prod.mk.injEq] at h
  obtain ⟨ρ, reply, hFirst, τ', rest, hRest, rfl, rfl⟩ := h
  exact ⟨ρ, reply, rest, hFirst, hRest, rfl⟩

theorem Request.Answered.keeps (h : r.Answered host σ τ reply) {id : UInt32}
    {it : OpenIterator SI NI QI} (hIt : iteratorOf σ id = some it) (hCloses : r.closes ≠ some id) :
    iteratorOf τ id = some it := by
  cases hOpens : r.opens host σ with
  | some a =>
    obtain ⟨new, -, hFree, hAfter⟩ := h.opened a hOpens
    have hne : id ≠ new := by
      rintro rfl
      rw [hFree] at hIt
      cases hIt
    rw [hAfter, if_neg hne, hIt]
  | none =>
    cases hClosed : r.closes with
    | none => rw [h.kept hOpens hClosed, hIt]
    | some k =>
      have hne : id ≠ k := by
        rintro rfl
        exact hCloses hClosed
      rw [h.closed k hClosed, if_neg hne, hIt]

theorem Request.Answered.mem_track (h : r.Answered host σ τ reply) {issued : List UInt32}
    (hIssued : ∀ id, id ∈ issued ↔ (iteratorOf σ id).isSome = true) (id : UInt32) :
    id ∈ r.track host σ reply issued ↔ (iteratorOf τ id).isSome = true := by
  rw [Request.track]
  cases hOpens : r.opens host σ with
  | some a =>
    obtain ⟨new, hValue, -, hAfter⟩ := h.opened a hOpens
    simp only [Option.isSome_some, if_true, hValue, List.mem_cons, hIssued, hAfter]
    by_cases hNew : id = new
    · simp [hNew]
    · simp [hNew]
  | none =>
    simp only [Option.isSome_none, Bool.false_eq_true, if_false]
    cases hClosed : r.closes with
    | none => simp only [hIssued, h.kept hOpens hClosed]
    | some k =>
      simp only [List.mem_filter, hIssued, h.closed k hClosed, ne_eq, decide_not,
        Bool.not_eq_eq_eq_not, Bool.not_true, decide_eq_false_iff_not]
      by_cases hK : id = k
      · simp [hK]
      · simp [hK]

/-- An id stays bound as long as no request closes it. -/
theorem performAll_keeps (hDistinct : (openIds σ).Nodup) {rs : List Request}
    {replies : List Reply} (h : Request.performAll host σ rs = some (τ, replies)) {id : UInt32}
    {it : OpenIterator SI NI QI} (hIt : iteratorOf σ id = some it)
    (hCloses : ∀ r ∈ rs, r.closes ≠ some id) : iteratorOf τ id = some it := by
  induction rs generalizing σ replies with
  | nil =>
    cases h
    exact hIt
  | cons r rs ih =>
    obtain ⟨ρ, reply, rest, hFirst, hRest, -⟩ := performAll_cons h
    obtain ⟨hAnswered, hNext⟩ := perform_answered hDistinct hFirst
    exact ih hNext hRest (hAnswered.keeps hIt (hCloses r (by simp)))
      fun q hq => hCloses q (by simp [hq])

theorem performAll_issued (hDistinct : (openIds σ).Nodup) {issued : List UInt32}
    (hIssued : ∀ id, id ∈ issued ↔ (iteratorOf σ id).isSome = true) {rs : List Request}
    {replies : List Reply} (h : Request.performAll host σ rs = some (τ, replies)) :
    (openIds τ).Nodup ∧
      ∀ id, id ∈ issuedAfter host σ issued rs ↔ (iteratorOf τ id).isSome = true := by
  induction rs generalizing σ issued replies with
  | nil =>
    cases h
    exact ⟨hDistinct, hIssued⟩
  | cons r rs ih =>
    obtain ⟨ρ, reply, rest, hFirst, hRest, -⟩ := performAll_cons h
    obtain ⟨hAnswered, hNext⟩ := perform_answered hDistinct hFirst
    simp only [issuedAfter, hFirst]
    exact ih hNext (hAnswered.mem_track hIssued) hRest

/-- After any requests and with any numbers drawn: the ids of the three tables are distinct, and they
are the ids that were handed out and not closed since; every further request is answered as
`Answered` says; and an id stays bound to its iterator until a request closes it. -/
theorem iterator_tables {σ : State W M SI NI QI} (hFresh : openIds σ = []) {rs : List Request}
    {replies : List Reply} (h : Request.performAll host σ rs = some (τ, replies)) :
    (openIds τ).Nodup ∧
    (∀ id, id ∈ issuedAfter host σ [] rs ↔ (iteratorOf τ id).isSome = true) ∧
    (∀ (r : Request) ρ reply, r.perform host τ = some (ρ, reply) → r.Answered host τ ρ reply) ∧
    ∀ (later : List Request) ρ replies id it, Request.performAll host τ later = some (ρ, replies) →
      iteratorOf τ id = some it → (∀ r ∈ later, r.closes ≠ some id) →
      iteratorOf ρ id = some it := by
  have hStart : (openIds σ).Nodup := by
    rw [hFresh]
    exact List.nodup_nil
  have hNone : ∀ id, id ∈ ([] : List UInt32) ↔ (iteratorOf σ id).isSome = true := by
    intro id
    rw [← mem_openIds, hFresh]
  obtain ⟨hDistinct, hIssued⟩ := performAll_issued hStart hNone h
  refine ⟨hDistinct, hIssued, ?_, ?_⟩
  · intro r ρ reply hPerform
    exact (perform_answered hDistinct hPerform).1
  · intro later ρ replies id it hLater hIt hCloses
    exact performAll_keeps hDistinct hLater hIt hCloses

/-- A server whose one model lists its statements; an iterator is the list of those that are left,
kept in the world under its number. -/
def listingHost : Host (List (List Statement)) Unit Nat Unit Unit where
  model _ w := (some (), w)
  removeModel _ w := w
  supportedFeatures := none
  addStatement _ _ w := (.errorNone, w)
  removeStatement _ _ w := (.errorNone, w)
  removeAllStatements _ _ w := (.errorNone, w)
  containsStatement _ _ w := (false, w)
  containsAnyStatement _ _ w := (false, w)
  listStatements _ s w := (some w.length, w ++ [[s]])
  listContexts _ w := (none, w)
  executeQuery _ _ _ _ w := (none, w)
  statementCount _ w := (0, w)
  isEmpty _ w := (true, w)
  createBlankNode _ w := (.empty, w)
  lastError _ _ := .none
  statements := ⟨fun it w => (!(w[it]?.getD []).isEmpty, w.modify it List.tail),
    fun it w => (((w[it]?.getD []).head?).getD .empty, w), fun it w => w.set it [], fun _ _ => .none⟩
  nodes := ⟨fun _ w => (false, w), fun _ w => (.empty, w), fun _ w => w, fun _ _ => .none⟩
  results := ⟨fun _ w => (false, w), fun _ w => (.empty, w), fun _ w => w, fun _ _ => .none⟩
  currentStatement _ w := (.empty, w)
  isGraph _ w := (false, w)
  isBool _ w := (false, w)
  boolValue _ w := (false, w)

end Requests

local instance iteratorTablesQt : Qt := asciiQt

/-- Two iterators are opened, although the same number is drawn twice, and one is closed. -/
theorem iterator_tables_listing :
    let σ : State (List (List Statement)) Unit Nat Unit Unit :=
      ⟨[], [(1, ())], [], [], [], [], [7, 7, 9, 9]⟩
    let rs : List Request := [.listStatements 1 .empty, .listStatements 1 .empty, .iteratorClose 7]
    ∃ τ replies, Request.performAll listingHost σ rs = some (τ, replies) ∧ (openIds τ).Nodup ∧
      iteratorOf τ 7 = none ∧ iteratorOf τ 9 = some (.statements 1) := by
  intro σ rs
  obtain ⟨τ, replies, hRun, hIts⟩ : ∃ τ replies,
      Request.performAll listingHost σ rs = some (τ, replies) ∧ iteratorOf τ 7 = none ∧
        iteratorOf τ 9 = some (.statements 1) := ⟨_, _, rfl, rfl, rfl⟩
  exact ⟨τ, replies, hRun, (iterator_tables rfl hRun).1, hIts⟩

end Soprano
