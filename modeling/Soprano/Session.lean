import Soprano.Client.ClientConnection
import Soprano.Server.ServerConnection

/-! Client and server on one connection.  The client writes a request, the server dispatches one
command, and the client reads the reply.  `perform` says what a request means, with no bytes between;
in every run whose requests meet `InStep` the connection computes it. -/

namespace Soprano

open Codec DataStream Server Client

section Qt

variable [Qt]

/-- The methods of `ClientConnection`, with their arguments. -/
inductive Request where
  | createModel (name : QString)
  | removeModel (name : QString)
  | supportedFeatures
  | addStatement (modelId : Int32) (s : Statement)
  | listContexts (modelId : Int32)
  | executeQuery (modelId : Int32) (query : QString) (type : UInt16) (userQueryLanguage : QString)
  | listStatements (modelId : Int32) (s : Statement)
  | removeAllStatements (modelId : Int32) (s : Statement)
  | removeStatement (modelId : Int32) (s : Statement)
  | statementCount (modelId : Int32)
  | containsStatement (modelId : Int32) (s : Statement)
  | containsAnyStatement (modelId : Int32) (s : Statement)
  | isEmpty (modelId : Int32)
  | createBlankNode (modelId : Int32)
  | iteratorNext (id : Int32)
  | nodeIteratorCurrent (id : Int32)
  | statementIteratorCurrent (id : Int32)
  | queryIteratorCurrent (id : Int32)
  | queryIteratorCurrentStatement (id : Int32)
  | queryIteratorType (id : Int32)
  | queryIteratorBoolValue (id : Int32)
  | iteratorClose (id : Int32)
  | checkProtocolVersion
deriving DecidableEq

namespace Request

def call : Request → Call
  | createModel name => ClientConnection.createModel name
  | removeModel name => ClientConnection.removeModel name
  | supportedFeatures => ClientConnection.supportedFeatures
  | addStatement modelId s => ClientConnection.addStatement modelId s
  | listContexts modelId => ClientConnection.listContexts modelId
  | executeQuery modelId query type lang => ClientConnection.executeQuery modelId query type lang
  | listStatements modelId s => ClientConnection.listStatements modelId s
  | removeAllStatements modelId s => ClientConnection.removeAllStatements modelId s
  | removeStatement modelId s => ClientConnection.removeStatement modelId s
  | statementCount modelId => ClientConnection.statementCount modelId
  | containsStatement modelId s => ClientConnection.containsStatement modelId s
  | containsAnyStatement modelId s => ClientConnection.containsAnyStatement modelId s
  | isEmpty modelId => ClientConnection.isEmpty modelId
  | createBlankNode modelId => ClientConnection.createBlankNode modelId
  | iteratorNext id => ClientConnection.iteratorNext id
  | nodeIteratorCurrent id => ClientConnection.nodeIteratorCurrent id
  | statementIteratorCurrent id => ClientConnection.statementIteratorCurrent id
  | queryIteratorCurrent id => ClientConnection.queryIteratorCurrent id
  | queryIteratorCurrentStatement id => ClientConnection.queryIteratorCurrentStatement id
  | queryIteratorType id => ClientConnection.queryIteratorType id
  | queryIteratorBoolValue id => ClientConnection.queryIteratorBoolValue id
  | iteratorClose id => ClientConnection.iteratorClose id
  | checkProtocolVersion => ClientConnection.checkProtocolVersion

end Request

/-! ### The connection -/

variable {W M SI NI QI : Type}

/-- Why an exchange does not end: the server closes the connection on a command that it does not
know, or one of the parties never returns. -/
inductive Interruption where
  | closed (command : UInt16)
  | endless
deriving DecidableEq

/-- The server's state and the bytes that each party has not read yet. -/
structure Link (W M SI NI QI : Type) where
  server : State W M SI NI QI
  toServer : QByteArray
  toClient : QByteArray

/-- The command that was dispatched for a request, and what the client read. -/
structure Exchange where
  command : UInt16
  result : Result
deriving DecidableEq

variable (host : Host W M SI NI QI)

def exchange (link : Link W M SI NI QI) (call : Call) :
    Except Interruption (Link W M SI NI QI × Exchange) :=
  match ServerConnection.readNextCommand host link.server
      (link.toServer ++ (writeUnsignedInt16 call.command ++ call.arguments)) with
  | (some (command, some (server, reply)), toServer) =>
    match call.result (link.toClient ++ writeReply reply) with
    | (some result, toClient) => .ok (⟨server, toServer, toClient⟩, ⟨command, result⟩)
    | (none, _) => .error .endless
  | (some (command, none), _) => .error (.closed command)
  | (none, _) => .error .endless

/-- A sequence of requests on one connection. -/
def session (link : Link W M SI NI QI) :
    List Call → Except Interruption (Link W M SI NI QI × List Exchange)
  | [] => .ok (link, [])
  | call :: calls => do
    let (link, first) ← exchange host link call
    let (link, rest) ← session link calls
    pure (link, first :: rest)

/-! ### What a request means -/

namespace Request

/-- The request with its statement as it is read from the stream. -/
def received : Request → Request
  | addStatement modelId s => addStatement modelId (receivedStatement s)
  | listStatements modelId s => listStatements modelId (receivedStatement s)
  | removeAllStatements modelId s => removeAllStatements modelId (receivedStatement s)
  | removeStatement modelId s => removeStatement modelId (receivedStatement s)
  | containsStatement modelId s => containsStatement modelId (receivedStatement s)
  | containsAnyStatement modelId s => containsAnyStatement modelId (receivedStatement s)
  | r => r

open ServerConnection

/-- A request to a model, which is refused where the id names none. -/
def onModel (σ : State W M SI NI QI) (modelId : Int32) (invalid : Value)
    (perform : M → Option (State W M SI NI QI × Reply)) : Option (State W M SI NI QI × Reply) :=
  match ModelPool.modelById σ modelId.toUInt32 with
  | some model => perform model
  | none => some (σ, invalidModelId invalid)

/-- The reply to a request, and the state behind it. -/
def perform (σ : State W M SI NI QI) : Request → Option (State W M SI NI QI × Reply)
  | createModel name => performCreateModel host σ name
  | removeModel name => some (performRemoveModel host σ name)
  | supportedFeatures => some (performSupportedFeatures host σ)
  | addStatement modelId s => onModel σ modelId (.code .errorInvalidArgument) fun model =>
      some (answer σ (host.addStatement model s) .code (host.lastError model))
  | removeStatement modelId s => onModel σ modelId (.code .errorInvalidArgument) fun model =>
      some (answer σ (host.removeStatement model s) .code (host.lastError model))
  | removeAllStatements modelId s => onModel σ modelId (.code .errorInvalidArgument) fun model =>
      some (answer σ (host.removeAllStatements model s) .code (host.lastError model))
  | listStatements modelId s => onModel σ modelId (.id 0) fun model =>
      answerIterator insertStatementIterator σ (host.listStatements model s) (host.lastError model)
  | containsStatement modelId s => onModel σ modelId (.bool false) fun model =>
      some (answer σ (host.containsStatement model s) .bool (host.lastError model))
  | containsAnyStatement modelId s => onModel σ modelId (.bool false) fun model =>
      some (answer σ (host.containsAnyStatement model s) .bool (host.lastError model))
  | listContexts modelId => onModel σ modelId (.id 0) fun model =>
      answerIterator insertNodeIterator σ (host.listContexts model) (host.lastError model)
  | executeQuery modelId query type lang => onModel σ modelId (.id 0) fun model =>
      answerIterator insertQueryIterator σ (host.executeQuery model query type lang)
        (host.lastError model)
  | statementCount modelId => onModel σ modelId (.count (-1)) fun model =>
      some (answer σ (host.statementCount model) .count (host.lastError model))
  | isEmpty modelId => onModel σ modelId (.bool false) fun model =>
      some (answer σ (host.isEmpty model) .bool (host.lastError model))
  | createBlankNode modelId => onModel σ modelId (.node .empty) fun model =>
      some (answer σ (host.createBlankNode model) .node (host.lastError model))
  | iteratorNext id => some (performIteratorNext host σ id.toUInt32)
  | nodeIteratorCurrent id => some (performNodeIteratorCurrent host σ id.toUInt32)
  | statementIteratorCurrent id | queryIteratorCurrentStatement id =>
      some (performStatementIteratorCurrent host σ id.toUInt32)
  | queryIteratorCurrent id => some (performQueryIteratorCurrent host σ id.toUInt32)
  | queryIteratorType id => some (performQueryIteratorType host σ id.toUInt32)
  | queryIteratorBoolValue id => some (performQueryIteratorBoolValue host σ id.toUInt32)
  | iteratorClose id => some (performIteratorClose host σ id.toUInt32)
  | checkProtocolVersion => some (σ, ⟨.bool true, none⟩)

/-- A sequence of requests, each answered in the state that the one before it left. -/
def performAll (σ : State W M SI NI QI) :
    List Request → Option (State W M SI NI QI × List Reply)
  | [] => some (σ, [])
  | r :: rs => do
    let (σ, reply) ← perform host σ r
    let (σ, replies) ← performAll σ rs
    some (σ, reply :: replies)

/-! ### Requests that keep the parties in step -/

/-- The texts and nodes of the request have the lengths of byte arrays. -/
def Fits : Request → Prop
  | createModel name | removeModel name => DataStream.Fits (QString.toUtf8 name)
  | addStatement _ s | listStatements _ s | removeAllStatements _ s | removeStatement _ s
  | containsStatement _ s | containsAnyStatement _ s => ∀ n ∈ s.nodes, NodeFits n
  | executeQuery _ query _ lang =>
      DataStream.Fits (QString.toUtf8 query) ∧ DataStream.Fits (QString.toUtf8 lang)
  | _ => True

/-- A request with arguments behind the model's id names a model that the pool knows, and the binding
set that is asked for binds no name twice. -/
def InStep (σ : State W M SI NI QI) : Request → Prop
  | addStatement modelId _ | listStatements modelId _ | removeAllStatements modelId _
  | removeStatement modelId _ | containsStatement modelId _ | containsAnyStatement modelId _
  | executeQuery modelId _ _ _ => (ModelPool.modelById σ modelId.toUInt32).isSome = true
  | queryIteratorCurrent id => ∀ it, σ.openQueryIterators.lookup id.toUInt32 = some it →
      (host.results.current it σ.world).1.DistinctNames
  | _ => True

end Request

/-- `rand()` goes on to return a number that stands for no model and no iterator. -/
def Supplied (σ : State W M SI NI QI) : Prop :=
  ∃ id ∈ σ.draws, σ.modelIdMap.contains id = false ∧
    ServerConnection.iteratorIdInUse σ id = false

/-- What the stores return has the lengths of byte arrays and lists. -/
structure HostFits (host : Host W M SI NI QI) : Prop where
  lastError : ∀ m w, ErrorFits (host.lastError m w)
  createBlankNode : ∀ m w, NodeFits (host.createBlankNode m w).1
  statementsError : ∀ it w, ErrorFits (host.statements.lastError it w)
  statements : ∀ it w, ∀ n ∈ (host.statements.current it w).1.nodes, NodeFits n
  nodesError : ∀ it w, ErrorFits (host.nodes.lastError it w)
  nodes : ∀ it w, NodeFits (host.nodes.current it w).1
  resultsError : ∀ it w, ErrorFits (host.results.lastError it w)
  results : ∀ it w, BindingSetFits (host.results.current it w).1
  currentStatement : ∀ it w, ∀ n ∈ (host.currentStatement it w).1.nodes, NodeFits n

/-! ### What the server reads of a request -/

namespace ServerConnection

open Server.ServerConnection

variable {host} {σ : State W M SI NI QI} {result : State W M SI NI QI × Reply}

omit [Qt] in
theorem reads_returns {α : Type} (a : α) : Reads (returns (some a)) [] a := fun _ => rfl

theorem reads_statementArgument {s : Statement} (h : ∀ n ∈ s.nodes, NodeFits n) :
    Reads statementArgument (writeStatement s) (receivedStatement s) :=
  (reads_statement h).attempt.bind_pure

theorem reads_nameArgument {name : QString} (h : Fits (QString.toUtf8 name)) :
    Reads nameArgument (writeString name) name :=
  (reads_string h).attempt.bind_pure

omit [Qt] in
theorem reads_idArgument (id : UInt32) : Reads idArgument (writeUnsignedInt32 id) id :=
  (reads_unsignedInt32 id).attempt.bind_pure

theorem reads_queryArguments {query lang : QString} {type : UInt16}
    (hQuery : Fits (QString.toUtf8 query)) (hLang : Fits (QString.toUtf8 lang)) :
    Reads queryArguments
      (writeString query ++ (writeUnsignedInt16 type ++ writeString lang)) (query, type, lang) :=
  (reads_nameArgument hQuery).bind
    ((reads_unsignedInt16 type).attempt.bind (reads_nameArgument hLang).bind_pure)

omit [Qt] in
theorem reads_getModel (id : UInt32) :
    Reads (getModel σ) (writeUnsignedInt32 id) (ModelPool.modelById σ id) :=
  (reads_unsignedInt32 id).attempt.bind_pure

/-- A handler of a known model consumes the arguments behind the id. -/
theorem reads_withModel {α : Type} {arguments : Reader UInt8 α} {written : QByteArray} {a : α}
    {modelId : Int32} {invalid : Value}
    {perform : State W M SI NI QI → M → α → Option (State W M SI NI QI × Reply)}
    (hModel : (ModelPool.modelById σ modelId.toUInt32).isSome = true)
    (hArguments : Reads arguments written a)
    (h : Request.onModel σ modelId invalid (fun model => perform σ model a) = some result) :
    Reads (withModel arguments perform invalid σ)
      (writeUnsignedInt32 modelId.toUInt32 ++ written) result := by
  obtain ⟨model, hModel⟩ := Option.isSome_iff_exists.mp hModel
  have hPerform : perform σ model a = some result := by
    rw [Request.onModel, hModel] at h
    exact h
  refine (reads_getModel _).bind ?_
  rw [hModel]
  have hReturns := hArguments.bind (f := fun a => returns (perform σ model a)) (by
    rw [hPerform]
    exact reads_returns result)
  rw [List.append_nil] at hReturns
  exact hReturns

/-- Where nothing stands behind the id, the model need not be known. -/
theorem reads_withModel_nothing {modelId : Int32} {invalid : Value}
    {perform : State W M SI NI QI → M → Unit → Option (State W M SI NI QI × Reply)}
    (h : Request.onModel σ modelId invalid (fun model => perform σ model ()) = some result) :
    Reads (withModel (pure ()) perform invalid σ)
      (writeUnsignedInt32 modelId.toUInt32 ++ []) result := by
  cases hModel : ModelPool.modelById σ modelId.toUInt32 with
  | some model => exact reads_withModel (by rw [hModel]; rfl) (Reads.pure ()) h
  | none =>
    rw [Request.onModel, hModel, Option.some.injEq] at h
    refine (reads_getModel _).bind ?_
    rw [hModel, ← h]
    exact Reads.pure _

theorem reads_withIterator {id : Int32}
    {perform : State W M SI NI QI → UInt32 → State W M SI NI QI × Reply}
    (h : some (perform σ id.toUInt32) = some result) :
    Reads (withIterator perform σ) (writeUnsignedInt32 id.toUInt32) result := by
  rw [← Option.some.inj h]
  exact (reads_idArgument _).bind_pure

theorem reads_readNextCommand {command : UInt16} {arguments : QByteArray}
    {f : Handler W M SI NI QI} (hLookup : (handlers host).lookup command = some f)
    (h : Reads (f σ) arguments result) :
    Reads (readNextCommand host σ) (writeUnsignedInt16 command ++ arguments)
      (command, some result) := by
  refine (reads_unsignedInt16 command).attempt.bind ?_
  simp only [Option.getD_some, hLookup]
  exact h.bind_pure

/-- The handler that is dispatched for a request consumes exactly its bytes. -/
theorem reads_request {r : Request} (hFits : r.Fits) (hStep : r.InStep host σ)
    (h : r.received.perform host σ = some result) :
    Reads (readNextCommand host σ)
      (writeUnsignedInt16 r.call.command ++ r.call.arguments) (r.call.command, some result) := by
  cases r with
  | createModel name =>
    refine reads_readNextCommand (f := createModel host) rfl ?_
    have hReturns := (reads_nameArgument hFits).bind
      (f := fun name => returns (performCreateModel host σ name)) (by
        rw [show performCreateModel host σ name = some result from h]
        exact reads_returns result)
    rwa [List.append_nil] at hReturns
  | removeModel name =>
    refine reads_readNextCommand (f := removeModel host) rfl ?_
    rw [← Option.some.inj h]
    exact (reads_nameArgument hFits).bind_pure
  | supportedFeatures =>
    refine reads_readNextCommand (f := supportedFeatures host) rfl ?_
    rw [← Option.some.inj h]
    exact Reads.pure _
  | addStatement modelId s =>
    exact reads_readNextCommand (f := addStatement host) rfl
      (reads_withModel hStep (reads_statementArgument hFits) h)
  | removeStatement modelId s =>
    exact reads_readNextCommand (f := removeStatement host) rfl
      (reads_withModel hStep (reads_statementArgument hFits) h)
  | removeAllStatements modelId s =>
    exact reads_readNextCommand (f := removeAllStatements host) rfl
      (reads_withModel hStep (reads_statementArgument hFits) h)
  | listStatements modelId s =>
    exact reads_readNextCommand (f := listStatements host) rfl
      (reads_withModel hStep (reads_statementArgument hFits) h)
  | containsStatement modelId s =>
    exact reads_readNextCommand (f := containsStatement host) rfl
      (reads_withModel hStep (reads_statementArgument hFits) h)
  | containsAnyStatement modelId s =>
    exact reads_readNextCommand (f := containsAnyStatement host) rfl
      (reads_withModel hStep (reads_statementArgument hFits) h)
  | executeQuery modelId query type lang =>
    exact reads_readNextCommand (f := ServerConnection.query host) rfl
      (reads_withModel hStep (reads_queryArguments hFits.1 hFits.2) h)
  | listContexts modelId =>
    exact reads_readNextCommand (f := listContexts host) rfl (reads_withModel_nothing h)
  | statementCount modelId =>
    exact reads_readNextCommand (f := statementCount host) rfl (reads_withModel_nothing h)
  | isEmpty modelId =>
    exact reads_readNextCommand (f := isEmpty host) rfl (reads_withModel_nothing h)
  | createBlankNode modelId =>
    exact reads_readNextCommand (f := createBlankNode host) rfl (reads_withModel_nothing h)
  | iteratorNext id =>
    exact reads_readNextCommand (f := iteratorNext host) rfl (reads_withIterator h)
  | nodeIteratorCurrent id =>
    exact reads_readNextCommand (f := nodeIteratorCurrent host) rfl (reads_withIterator h)
  | statementIteratorCurrent id | queryIteratorCurrentStatement id =>
    exact reads_readNextCommand (f := statementIteratorCurrent host) rfl
      (reads_withIterator h)
  | queryIteratorCurrent id =>
    exact reads_readNextCommand (f := queryIteratorCurrent host) rfl (reads_withIterator h)
  | queryIteratorType id =>
    exact reads_readNextCommand (f := queryIteratorType host) rfl (reads_withIterator h)
  | queryIteratorBoolValue id =>
    exact reads_readNextCommand (f := queryIteratorBoolValue host) rfl
      (reads_withIterator h)
  | iteratorClose id =>
    exact reads_readNextCommand (f := iteratorClose host) rfl (reads_withIterator h)
  | checkProtocolVersion =>
    refine reads_readNextCommand (f := supportsProtocolVersion) rfl ?_
    rw [← Option.some.inj h]
    exact (reads_idArgument protocolVersion).bind_pure

end ServerConnection

/-! ### What the client reads of a reply -/

/-- The value that is read where `v` was written. -/
def receivedValue : Value → Value
  | .node n => .node (receivedNode n)
  | .statement s => .statement (receivedStatement s)
  | .bindingSet set => .bindingSet (receivedBindingSet set)
  | v => v

/-- What the client's method returns for a reply. -/
def resultOf (reply : Reply) : Result :=
  ⟨some (receivedValue reply.value), reply.error.elim .none receivedError⟩

namespace ClientConnection

open Client.ClientConnection Server.ServerConnection

/-- The value is read by the reader that the client expects it with. -/
def ReadAs {α : Type} (read : Reader UInt8 α) (value : α → Value) (v : Value) : Prop :=
  Reads (read >>= fun a => pure (value a)) (writeValue v) (receivedValue v)

/-- The server's answer is a value that the client expects, with an error. -/
def Answers {α : Type} (read : Reader UInt8 α) (value : α → Value)
    (result : State W M SI NI QI × Reply) : Prop :=
  ∃ v e, result.2 = ⟨v, some e⟩ ∧ ReadAs read value v ∧ ErrorFits e

variable {α β : Type} {read : Reader UInt8 α} {value : α → Value}

theorem reads_reply {result : State W M SI NI QI × Reply} (h : Answers read value result) :
    Reads (readReply (read >>= fun a => pure (value a))) (writeReply result.2)
      (resultOf result.2) := by
  obtain ⟨v, e, hReply, hValue, hError⟩ := h
  rw [hReply]
  refine Reads.bind hValue.attempt ?_
  exact (reads_error hError).attempt.bind_pure

omit [Qt] in
theorem fits_message {message : String} {code : Int32}
    (h : Fits (QString.toUtf8 (Error.ofMessage message.toList code).message)) :
    ErrorFits (.ofMessage message.toList code) := ⟨h, nofun⟩

omit [Qt] in
theorem errorFits_none : ErrorFits .none := ⟨by decide, nofun⟩

theorem answers_none {σ : State W M SI NI QI} {v : Value} (h : ReadAs read value v) :
    Answers read value (σ, (⟨v, some .none⟩ : Reply)) :=
  ⟨v, .none, rfl, h, errorFits_none⟩

theorem answers_invalidModelId {σ : State W M SI NI QI} {v : Value} (h : ReadAs read value v) :
    Answers read value (σ, invalidModelId v) :=
  ⟨v, _, rfl, h, fits_message (by decide)⟩

theorem answers_invalidIteratorId {σ : State W M SI NI QI} {v : Value}
    (h : ReadAs read value v) : Answers read value (σ, invalidIteratorId v) :=
  ⟨v, _, rfl, h, fits_message (by decide)⟩

theorem answers_answer {σ : State W M SI NI QI} {op : W → β × W} {value' : β → Value}
    {error : W → Error} (h : ReadAs read value (value' (op σ.world).1))
    (hError : ∀ w, ErrorFits (error w)) : Answers read value (answer σ op value' error) :=
  ⟨_, _, rfl, h, hError _⟩

theorem readAs_nothing : ReadAs (pure ()) (fun _ => .nothing) .nothing :=
  Reads.pure _

theorem readAs_id (v : UInt32) : ReadAs readUnsignedInt32 .id (.id v) :=
  (reads_unsignedInt32 v).bind_pure

theorem readAs_code (v : ErrorCode) : ReadAs readErrorCode .code (.code v) :=
  (reads_errorCode v).bind_pure

theorem readAs_bool (v : Bool) : ReadAs readBool .bool (.bool v) := (reads_bool v).bind_pure

theorem readAs_count (v : Int32) : ReadAs readInt32 .count (.count v) := (reads_int32 v).bind_pure

theorem readAs_node {n : Node} (h : NodeFits n) : ReadAs readNode .node (.node n) :=
  (reads_node h).bind_pure

theorem readAs_statement {s : Statement} (h : ∀ n ∈ s.nodes, NodeFits n) :
    ReadAs readStatement .statement (.statement s) := (reads_statement h).bind_pure

theorem readAs_bindingSet {set : BindingSet} (hNames : set.DistinctNames)
    (h : BindingSetFits set) : ReadAs readBindingSet .bindingSet (.bindingSet set) :=
  (reads_bindingSet hNames h).bind_pure

theorem nodeFits_empty : NodeFits .empty := nofun

theorem nodeFits_emptyStatement : ∀ n ∈ Statement.empty.nodes, NodeFits n := by
  intro n hn
  simp only [Statement.nodes, Statement.empty, List.mem_cons, List.not_mem_nil, or_false, or_self]
    at hn
  exact hn ▸ nodeFits_empty

variable {host} {σ : State W M SI NI QI} {result : State W M SI NI QI × Reply}

/-- An answer of a model comes from the model or from the refusal of its id. -/
theorem answers_onModel {modelId : Int32} {invalid : Value}
    {perform : M → Option (State W M SI NI QI × Reply)} (hInvalid : ReadAs read value invalid)
    (hPerform : ∀ model, perform model = some result → Answers read value result)
    (h : Request.onModel σ modelId invalid perform = some result) : Answers read value result := by
  unfold Request.onModel at h
  split at h
  · exact hPerform _ h
  · rw [← Option.some.inj h]
    exact answers_invalidModelId hInvalid

theorem answers_answerIterator {I : Type}
    {insert : State W M SI NI QI → UInt32 → I → State W M SI NI QI} {op : W → Option I × W}
    {error : W → Error} (hError : ∀ w, ErrorFits (error w))
    (h : answerIterator insert σ op error = some result) :
    Answers readUnsignedInt32 .id result := by
  unfold answerIterator at h
  split at h
  · obtain ⟨⟨id, τ⟩, -, rfl⟩ := Option.map_eq_some_iff.mp h
    exact ⟨_, _, rfl, readAs_id id, hError _⟩
  · rw [← Option.some.inj h]
    exact ⟨_, _, rfl, readAs_id 0, hError _⟩

variable (hHost : HostFits host) (id : UInt32)

include hHost

theorem answers_iteratorNext : Answers readBool .bool (performIteratorNext host σ id) := by
  unfold performIteratorNext
  split
  · exact answers_answer (readAs_bool _) (hHost.statementsError _)
  split
  · exact answers_answer (readAs_bool _) (hHost.nodesError _)
  split
  · exact answers_answer (readAs_bool _) (hHost.resultsError _)
  · exact answers_invalidIteratorId (readAs_bool false)

theorem answers_statementIteratorCurrent :
    Answers readStatement .statement (performStatementIteratorCurrent host σ id) := by
  unfold performStatementIteratorCurrent
  split
  · exact answers_answer (readAs_statement (hHost.statements _ _)) (hHost.statementsError _)
  split
  · exact answers_answer (readAs_statement (hHost.currentStatement _ _)) (hHost.resultsError _)
  · exact answers_invalidIteratorId (readAs_statement nodeFits_emptyStatement)

theorem answers_nodeIteratorCurrent :
    Answers readNode .node (performNodeIteratorCurrent host σ id) := by
  unfold performNodeIteratorCurrent
  split
  · exact answers_answer (readAs_node (hHost.nodes _ _)) (hHost.nodesError _)
  · exact answers_invalidIteratorId (readAs_node nodeFits_empty)

theorem answers_queryIteratorCurrent
    (hNames : ∀ it, σ.openQueryIterators.lookup id = some it →
      (host.results.current it σ.world).1.DistinctNames) :
    Answers readBindingSet .bindingSet (performQueryIteratorCurrent host σ id) := by
  unfold performQueryIteratorCurrent
  split
  · rename_i it hLookup
    exact answers_answer (readAs_bindingSet (hNames it hLookup) (hHost.results _ _))
      (hHost.resultsError _)
  · exact answers_invalidIteratorId (readAs_bindingSet List.nodup_nil ⟨Nat.two_pow_pos 31, nofun⟩)

theorem answers_iteratorClose :
    Answers (pure ()) (fun _ => .nothing) (performIteratorClose host σ id) := by
  unfold performIteratorClose
  split
  · exact ⟨_, _, rfl, readAs_nothing, hHost.statementsError _ _⟩
  split
  · exact ⟨_, _, rfl, readAs_nothing, hHost.nodesError _ _⟩
  split
  · exact ⟨_, _, rfl, readAs_nothing, hHost.resultsError _ _⟩
  · exact answers_invalidIteratorId readAs_nothing

theorem answers_queryIteratorType :
    Answers readUnsignedInt8 .type (performQueryIteratorType host σ id) := by
  unfold performQueryIteratorType
  split
  · exact answers_answer (reads_unsignedInt8 _).bind_pure (hHost.resultsError _)
  · exact answers_invalidIteratorId (reads_unsignedInt8 0).bind_pure

theorem answers_queryIteratorBoolValue :
    Answers readBool .bool (performQueryIteratorBoolValue host σ id) := by
  unfold performQueryIteratorBoolValue
  split
  · exact answers_answer (readAs_bool _) (hHost.resultsError _)
  · exact answers_invalidIteratorId (readAs_bool false)

/-- The reply to a request is exactly what the client's method reads. -/
theorem reads_result {r : Request} (hStep : r.InStep host σ)
    (h : r.perform host σ = some result) :
    Reads r.call.result (writeReply result.2) (resultOf result.2) := by
  cases r with
  | createModel name =>
    obtain ⟨⟨id, τ⟩, -, rfl⟩ := Option.map_eq_some_iff.mp h
    exact reads_reply (answers_none (readAs_id id))
  | removeModel name =>
    rw [← Option.some.inj h]
    exact reads_reply (answers_none readAs_nothing)
  | supportedFeatures =>
    rw [← Option.some.inj h]
    unfold performSupportedFeatures
    split
    · exact reads_reply (answers_none (readAs_id _))
    · exact reads_reply ⟨_, _, rfl, readAs_id 0, fits_message (by decide)⟩
  | addStatement modelId s | removeStatement modelId s | removeAllStatements modelId s =>
    refine reads_reply (answers_onModel (readAs_code _) (fun model hModel => ?_) h)
    rw [← Option.some.inj hModel]
    exact answers_answer (readAs_code _) (hHost.lastError model)
  | containsStatement modelId s | containsAnyStatement modelId s | isEmpty modelId =>
    refine reads_reply (answers_onModel (readAs_bool _) (fun model hModel => ?_) h)
    rw [← Option.some.inj hModel]
    exact answers_answer (readAs_bool _) (hHost.lastError model)
  | listStatements modelId s | listContexts modelId | executeQuery modelId query type lang =>
    refine reads_reply (answers_onModel (readAs_id _) (fun model hModel => ?_) h)
    exact answers_answerIterator (hHost.lastError model) hModel
  | statementCount modelId =>
    refine reads_reply (answers_onModel (readAs_count _) (fun model hModel => ?_) h)
    rw [← Option.some.inj hModel]
    exact answers_answer (readAs_count _) (hHost.lastError model)
  | createBlankNode modelId =>
    refine reads_reply (answers_onModel (readAs_node nodeFits_empty) (fun model hModel => ?_) h)
    rw [← Option.some.inj hModel]
    exact answers_answer (readAs_node (hHost.createBlankNode model _)) (hHost.lastError model)
  | iteratorNext id =>
    rw [← Option.some.inj h]
    exact reads_reply (answers_iteratorNext hHost _)
  | nodeIteratorCurrent id =>
    rw [← Option.some.inj h]
    exact reads_reply (answers_nodeIteratorCurrent hHost _)
  | statementIteratorCurrent id | queryIteratorCurrentStatement id =>
    rw [← Option.some.inj h]
    exact reads_reply (answers_statementIteratorCurrent hHost _)
  | queryIteratorCurrent id =>
    rw [← Option.some.inj h]
    exact reads_reply (answers_queryIteratorCurrent hHost _ hStep)
  | queryIteratorType id =>
    rw [← Option.some.inj h]
    exact reads_reply (answers_queryIteratorType hHost _)
  | queryIteratorBoolValue id =>
    rw [← Option.some.inj h]
    exact reads_reply (answers_queryIteratorBoolValue hHost _)
  | iteratorClose id =>
    rw [← Option.some.inj h]
    exact reads_reply (answers_iteratorClose hHost _)
  | checkProtocolVersion =>
    rw [← Option.some.inj h]
    exact (reads_bool true).attempt.bind_pure

end ClientConnection

/-! ### Runs -/

variable {host} {σ : State W M SI NI QI}

omit [Qt] in
theorem mapIterator_isSome {I : Type}
    {insert : State W M SI NI QI → UInt32 → I → State W M SI NI QI} {it : I} {w : W}
    (h : Supplied σ) :
    (ServerConnection.mapIterator insert { σ with world := w } it).isSome = true := by
  obtain ⟨id, hMem, -, hFree⟩ := h
  rw [ServerConnection.mapIterator, Option.isSome_map]
  exact generateUniqueId_isSome ⟨id, hMem, hFree⟩

/-- Every request is answered. -/
theorem perform_isSome (r : Request) (h : Supplied σ) : (r.perform host σ).isSome = true := by
  have hIterator : ∀ {I : Type} (insert : State W M SI NI QI → UInt32 → I → State W M SI NI QI)
      (op : W → Option I × W) (error : W → Error),
      (ServerConnection.answerIterator insert σ op error).isSome = true := by
    intro I insert op error
    unfold ServerConnection.answerIterator
    split
    · rw [Option.isSome_map]
      exact mapIterator_isSome h
    · rfl
  cases r with
  | createModel name =>
    rw [Request.perform, ServerConnection.performCreateModel, Option.isSome_map]
    unfold ModelPool.idForModelName
    split
    · rfl
    split
    · obtain ⟨id, hMem, hFree, -⟩ := h
      rw [Option.isSome_map]
      exact generateUniqueId_isSome ⟨id, hMem, hFree⟩
    · rfl
  | listStatements | listContexts | executeQuery =>
    rw [Request.perform, Request.onModel]
    split
    · exact hIterator _ _ _
    · rfl
  | addStatement | removeStatement | removeAllStatements | containsStatement | containsAnyStatement
  | statementCount | isEmpty | createBlankNode =>
    rw [Request.perform, Request.onModel]
    split <;> rfl
  | _ => rfl

/-- One exchange: the command of the request is dispatched, its reply is read, and no byte is left. -/
theorem exchange_eq (hHost : HostFits host) {r : Request} {τ : State W M SI NI QI} {reply : Reply}
    (hFits : r.Fits) (hStep : r.InStep host σ)
    (h : r.received.perform host σ = some (τ, reply)) :
    exchange host ⟨σ, [], []⟩ r.call = .ok (⟨τ, [], []⟩, ⟨r.call.command, resultOf reply⟩) := by
  have hServer := (ServerConnection.reads_request hFits hStep h).run
  have hReceived : r.received.call.result = r.call.result := by cases r <;> rfl
  have hStep' : r.received.InStep host σ := by cases r <;> exact hStep
  have hClient := (ClientConnection.reads_result hHost hStep' h).run
  rw [hReceived] at hClient
  simp only [exchange, List.nil_append, hServer, hClient]

/-- Every request of a run meets the condition in the state that it finds. -/
def RunInStep (host : Host W M SI NI QI) : State W M SI NI QI → List Request → Prop
  | _, [] => True
  | σ, r :: rs => r.Fits ∧ r.InStep host σ ∧ Supplied σ ∧
      ∀ τ reply, r.received.perform host σ = some (τ, reply) → RunInStep host τ rs

/-- In a run whose requests meet the condition, each request is dispatched as the command that the
client sent, and the client reads the reply to it. -/
theorem session_in_step (hHost : HostFits host) (σ : State W M SI NI QI) (rs : List Request)
    (h : RunInStep host σ rs) :
    ∃ τ replies, Request.performAll host σ (rs.map Request.received) = some (τ, replies) ∧
      session host ⟨σ, [], []⟩ (rs.map Request.call) =
        .ok (⟨τ, [], []⟩, List.zipWith (fun r reply => ⟨r.call.command, resultOf reply⟩) rs
          replies) := by
  induction rs generalizing σ with
  | nil => exact ⟨σ, [], rfl, rfl⟩
  | cons r rs ih =>
    obtain ⟨hFits, hStep, hSupplied, hRest⟩ := h
    have hSome : (r.received.perform host σ).isSome = true := perform_isSome r.received hSupplied
    obtain ⟨⟨σ₁, reply⟩, hPerform⟩ := Option.isSome_iff_exists.mp hSome
    obtain ⟨τ, replies, hAll, hSession⟩ := ih σ₁ (hRest σ₁ reply hPerform)
    refine ⟨τ, reply :: replies, ?_, ?_⟩
    · rw [List.map_cons, Request.performAll, hPerform]
      simp [hAll]
    · rw [List.map_cons, session, exchange_eq hHost hFits hStep hPerform]
      simp only [bind, Except.bind, hSession]
      rfl

/-- A server with one store in memory, which neither lists nor makes nodes. -/
def memoryHost : Host (List Statement) Unit Unit Unit Unit where
  model _ w := (some (), w)
  removeModel _ _ := []
  supportedFeatures := none
  addStatement _ s w := (.errorNone, s :: w)
  removeStatement _ s w := (.errorNone, w.filter fun t => !t.operatorEq s)
  removeAllStatements _ s w := (.errorNone, w.filter fun t => !t.matches s)
  containsStatement _ s w := (w.any fun t => t.operatorEq s, w)
  containsAnyStatement _ s w := (w.any fun t => t.matches s, w)
  listStatements _ _ w := (none, w)
  listContexts _ w := (none, w)
  executeQuery _ _ _ _ w := (none, w)
  statementCount _ w := (Int32.ofNat w.length, w)
  isEmpty _ w := (w.isEmpty, w)
  createBlankNode _ w := (.empty, w)
  lastError _ _ := .none
  statements := ⟨fun _ w => (false, w), fun _ w => (.empty, w), fun _ w => w, fun _ _ => .none⟩
  nodes := ⟨fun _ w => (false, w), fun _ w => (.empty, w), fun _ w => w, fun _ _ => .none⟩
  results := ⟨fun _ w => (false, w), fun _ w => (.empty, w), fun _ w => w, fun _ _ => .none⟩
  currentStatement _ w := (.empty, w)
  isGraph _ w := (false, w)
  isBool _ w := (false, w)
  boolValue _ w := (false, w)

/-- A server that has just been started. -/
def started : State (List Statement) Unit Unit Unit Unit := ⟨[], [], [], [], [], [], [7, 7, 9]⟩

theorem memoryHost_fits : HostFits memoryHost where
  lastError _ _ := ClientConnection.errorFits_none
  createBlankNode _ _ := ClientConnection.nodeFits_empty
  statementsError _ _ := ClientConnection.errorFits_none
  statements _ _ := ClientConnection.nodeFits_emptyStatement
  nodesError _ _ := ClientConnection.errorFits_none
  nodes _ _ := ClientConnection.nodeFits_empty
  resultsError _ _ := ClientConnection.errorFits_none
  results _ _ := ⟨Nat.two_pow_pos 31, nofun⟩
  currentStatement _ _ := ClientConnection.nodeFits_emptyStatement

end Qt

section Example

local instance sessionQt : Qt := asciiQt

/-- A request that names no model leaves its statement in the stream, where the next command is
read. -/
theorem session_unknown_model :
    (exchange memoryHost ⟨started, [], []⟩ (Request.removeAllStatements 7 .empty).call).map
        (fun e => e.1.toServer) = .ok (writeStatement .empty) ∧
      (session memoryHost ⟨started, [], []⟩ [(Request.removeAllStatements 7 .empty).call,
        (Request.isEmpty 7).call]).map Prod.snd = .error (.closed 0) := by
  decide

/-- A model is created, filled and asked, and an iterator that is not open is closed. -/
theorem session_in_step_memory :
    let s : Statement := ⟨.ofUri Vocabulary.RDF.subject, .ofUri Vocabulary.RDF.type,
      .ofUri Vocabulary.RDF.Statement, .empty⟩
    let rs := [Request.createModel "main".toList, .addStatement 7 s, .containsStatement 7 s,
      .iteratorClose 3]
    ∃ τ replies, Request.performAll memoryHost started (rs.map Request.received) =
        some (τ, replies) ∧
      session memoryHost ⟨started, [], []⟩ (rs.map Request.call) =
        .ok (⟨τ, [], []⟩, List.zipWith (fun r reply => ⟨r.call.command, resultOf reply⟩) rs
          replies) := by
  intro s rs
  have hNodes : ∀ n ∈ s.nodes, NodeFits n := by
    unfold NodeFits
    decide
  refine session_in_step memoryHost_fits started rs ⟨?_, trivial, ⟨9, by decide, rfl, rfl⟩, ?_⟩
  · show Fits (QString.toUtf8 "main".toList)
    decide
  rintro _ _ ⟨⟩
  refine ⟨hNodes, rfl, ⟨9, by decide, rfl, rfl⟩, ?_⟩
  rintro _ _ ⟨⟩
  refine ⟨hNodes, rfl, ⟨9, by decide, rfl, rfl⟩, ?_⟩
  rintro _ _ ⟨⟩
  refine ⟨trivial, trivial, ⟨9, by decide, rfl, rfl⟩, ?_⟩
  intros
  trivial

end Example

end Soprano
