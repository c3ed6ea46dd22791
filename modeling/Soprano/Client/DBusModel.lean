import Soprano.Server.DBusModelAdaptor

/-! `Client::DBusModel`: what a client makes of the reply to a call, and when it is what the exported
model said. -/

namespace Soprano

namespace DBus

open Server

variable [Qt]

/-- `QDBusReply` -/
structure QDBusReply (α : Type) where
  value : α
  error : Option QDBusError

/-- A reply of another type than the one expected is an error of QtDBus. -/
def QDBusReply.ofMessage {α : Type} (initial : α) (extract : ReplyValue → Option α) :
    Message → QDBusReply α
  | .methodReturn a =>
    match extract a with
    | some v => ⟨v, none⟩
    | none => ⟨initial, some ⟨"org.freedesktop.DBus.Error.InvalidSignature".toList,
        "Unexpected reply signature".toList⟩⟩
  | .error e => ⟨initial, some e⟩

namespace ReplyValue

def toInt : ReplyValue → Option Int32
  | int n => some n
  | _ => none

def toBool : ReplyValue → Option Bool
  | bool b => some b
  | _ => none

def toNode : ReplyValue → Option Node
  | node n => some n
  | _ => none

def toPath : ReplyValue → Option QString
  | string s => some s
  | _ => none

end ReplyValue

namespace DBusModel

/-- `addStatement`, `removeStatement` and `removeAllStatements`; a number that comes without an error is
that of an `ErrorCode`. -/
def errorCodeResult (m : Message) : Value QString × Error :=
  let reply := QDBusReply.ofMessage 0 ReplyValue.toInt m
  let lastError := cached 0 (convertError reply.error)
  (.errorCode (if lastError.code ≠ 0 then ErrorCode.convertErrorCode lastError.code.toInt
    else ErrorCode.convertErrorCode reply.value.toInt), lastError)

/-- `statementCount` -/
def intResult (m : Message) : Value QString × Error :=
  let reply := QDBusReply.ofMessage 0 ReplyValue.toInt m
  let lastError := cached 0 (convertError reply.error)
  (.int (if lastError.code ≠ 0 then 0 else reply.value), lastError)

/-- `isEmpty`, `containsStatement` and `containsAnyStatement` -/
def boolResult (m : Message) : Value QString × Error :=
  let reply := QDBusReply.ofMessage false ReplyValue.toBool m
  let lastError := cached 0 (convertError reply.error)
  (.bool (if lastError.code ≠ 0 then false else reply.value), lastError)

/-- `createBlankNode` -/
def nodeResult (m : Message) : Value QString × Error :=
  let reply := QDBusReply.ofMessage .empty ReplyValue.toNode m
  (.node reply.value, cached 0 (convertError reply.error))

/-- `listStatements`, `listContexts` and `executeQuery`: the backend of a valid iterator has the path of
the iterator's object. -/
def iteratorResult (variant : Option QString → Value QString) (m : Message) :
    Value QString × Error :=
  let reply := QDBusReply.ofMessage [] ReplyValue.toPath m
  (variant (if reply.error.isNone then some reply.value else none),
    cached 0 (convertError reply.error))

/-- What the client gets for the reply. -/
def result {L : Type} : Operation L → Message → Value QString × Error
  | .addStatement _ | .removeStatement _ | .removeAllStatements _ => errorCodeResult
  | .containsStatement _ | .containsAnyStatement _ | .isEmpty => boolResult
  | .statementCount => intResult
  | .createBlankNode => nodeResult
  | .listStatements _ => iteratorResult .statementIterator
  | .listContexts => iteratorResult .nodeIterator
  | .executeQuery _ _ => iteratorResult .queryResultIterator

/-- The method call that the client makes. -/
def send (op : Operation (QueryLanguage × QString)) : Operation QString :=
  op.mapLanguage fun (lang, user) => QueryLanguage.queryLanguageToString lang user

end DBusModel

/-- The operation that the model is asked for. -/
def Operation.received (op : Operation QString) : Operation (QueryLanguage × QString) :=
  op.mapLanguage fun language => (QueryLanguage.queryLanguageFromString language, language)

/-- What the model says to an operation. -/
def Model.perform {I : Type} (model : Model I) :
    Operation (QueryLanguage × QString) → Value I × Error
  | .addStatement s => (model.addStatement s).map .errorCode id
  | .removeStatement s => (model.removeStatement s).map .errorCode id
  | .removeAllStatements s => (model.removeAllStatements s).map .errorCode id
  | .containsStatement s => (model.containsStatement s).map .bool id
  | .containsAnyStatement s => (model.containsAnyStatement s).map .bool id
  | .statementCount => model.statementCount.map .int id
  | .isEmpty => model.isEmpty.map .bool id
  | .createBlankNode => model.createBlankNode.map .node id
  | .listStatements s => (model.listStatements s).map .statementIterator id
  | .listContexts => model.listContexts.map .nodeIterator id
  | .executeQuery query (lang, user) =>
    (model.executeQuery query lang user).map .queryResultIterator id

/-- A query language of the operation has a name. -/
def Operation.Named : Operation (QueryLanguage × QString) → Prop
  | .executeQuery _ (lang, _) => lang.Named
  | _ => True

/-- An iterator that is not valid. -/
def Value.isInvalidIterator {I : Type} : Value I → Bool
  | .statementIterator none | .nodeIterator none | .queryResultIterator none => true
  | _ => false

/-- An `ErrorNone` or a valid iterator. -/
def Value.isSuccess {I : Type} : Value I → Bool
  | .errorCode .errorNone => true
  | .statementIterator (some _) | .nodeIterator (some _) | .queryResultIterator (some _) => true
  | _ => false

/-- A model clears its last error on success; an error without a code is no error, and any other was
made by a constructor. -/
structure WellFormed {I : Type} (outcome : Value I × Error) : Prop where
  cleared : outcome.1.isSuccess = true → outcome.2.code = 0
  none : outcome.2.code = 0 → outcome.2 = .none
  constructed : outcome.2.code ≠ 0 → Constructed outcome.2

/-- The iterators that the client and the model have: both are not valid, or the client's stands for the
object that the model's is registered under. -/
def SameIterator {I : Type} (objects : QHash QString (Option I)) :
    Option I → Option QString → Prop
  | some it, some path => objects.lookup path = some (some it)
  | none, none => True
  | _, _ => False

/-- The client's result is the model's: where the model has an error, as far as there is a success or an
iterator. -/
def SameResult {I : Type} (objects : QHash QString (Option I)) (outcome : Value I × Error) :
    Value QString → Prop
  | .errorCode c => ∃ c', outcome.1 = .errorCode c' ∧
      (c = .errorNone ↔ c' = .errorNone) ∧ (outcome.2.code = 0 → c = c')
  | .int n => ∃ n', outcome.1 = .int n' ∧ (outcome.2.code = 0 → n = n')
  | .bool b => ∃ b', outcome.1 = .bool b' ∧ (outcome.2.code = 0 → b = b')
  | .node n => ∃ n', outcome.1 = .node n' ∧ (outcome.2.code = 0 → n = n')
  | .statementIterator path => ∃ it, outcome.1 = .statementIterator it ∧ SameIterator objects it path
  | .nodeIterator path => ∃ it, outcome.1 = .nodeIterator it ∧ SameIterator objects it path
  | .queryResultIterator path =>
    ∃ it, outcome.1 = .queryResultIterator it ∧ SameIterator objects it path
  | .invalid => False

/-- The model is asked for what the client asked (by the name of the language), one message answers the
call, and the client has the model's error and result. -/
def Transparent {I : Type} (σ : DBusModelAdaptor I) (parent : Parent) (model : Model I)
    (op : Operation (QueryLanguage × QString)) : Prop :=
  (DBusModel.send op).received =
      (op.mapLanguage fun (lang, user) => (lang, QueryLanguage.queryLanguageToString lang user)) ∧
    ∃ m τ, σ.call parent model (DBusModel.send op) = some ([m], τ) ∧
      (DBusModel.result op m).2 = (model.perform (DBusModel.send op).received).2 ∧
      SameResult τ.objects (model.perform (DBusModel.send op).received) (DBusModel.result op m).1

/-- The condition: a locator has a line and a column only; behind an `AsyncModel` there is no iterator
that is not valid without an error, and in `MultiThreaded` mode no error. -/
def Meets {I : Type} (parent : Parent) (outcome : Value I × Error) : Prop :=
  received outcome.2 = outcome.2 ∧
    ∀ mode, parent = .async mode →
      (outcome.2.code = 0 → outcome.1.isInvalidIterator = false) ∧
      (mode = .multiThreaded → outcome.2.code = 0)

/-! ### Errors -/

omit [Qt] in
theorem cached_eq (thread : Nat) {e : Error} (h : e.code = 0 → e = .none) : cached thread e = e := by
  rw [cached, ErrorCache.setError, ErrorCache.lastError]
  by_cases hCode : e.code = 0
  · rw [h hCode]
    rfl
  · simp [hCode, QHash.lookup_insert]

omit [Qt] in
theorem resultError_singleThreaded (e : Error) : resultError .singleThreaded e = cached 0 e := rfl

omit [Qt] in
/-- The thread of the adaptor does not see the error of another. -/
theorem resultError_multiThreaded (e : Error) : resultError .multiThreaded e = .none := by
  rw [resultError, ErrorCache.setError, ErrorCache.lastError]
  split
  · simp [QHash.lookup_insert]
  · rfl

/-- The error that the adaptor sees behind an operation of its model. -/
def shown (parent : Parent) (e : Error) : Error :=
  if parent = .async .multiThreaded then .none else e

omit [Qt] in
theorem resultError_shown {mode : AsyncModelMode} {e : Error} (h : e.code = 0 → e = .none) :
    resultError mode (cached 0 e) = shown (.async mode) e := by
  rw [cached_eq 0 h]
  cases mode with
  | singleThreaded => rw [resultError_singleThreaded, cached_eq 0 h, shown, if_neg nofun]
  | multiThreaded => rw [resultError_multiThreaded, shown, if_pos rfl]

omit [Qt] in
/-- The client's error for an error reply. -/
theorem cached_convertError {e : Error} (hNone : e.code = 0 → e = .none)
    (hConstructed : e.code ≠ 0 → Constructed e) :
    cached 0 (convertError (some (errorReply e))) = received e := by
  by_cases hCode : e.code = 0
  · rw [hNone hCode]
    decide
  · rw [convertError_errorReply (hConstructed hCode)]
    exact cached_eq 0 fun hZero => absurd hZero hCode

/-- The condition on the errors, for the parents and outcomes without an iterator that is not valid. -/
theorem meets_iff {I : Type} {parent : Parent} {v : Value I} {e : Error}
    (hNone : e.code = 0 → e = .none) (hValid : v.isInvalidIterator = false) :
    Meets parent (v, e) ↔ received (shown parent e) = e := by
  constructor
  · rintro ⟨hReceived, hModes⟩
    rw [shown]
    split
    · rw [hNone ((hModes .multiThreaded ‹_›).2 rfl)]
      rfl
    · exact hReceived
  · intro h
    rw [shown] at h
    split at h
    · have hEmpty : e = .none := h.symm
      subst hEmpty
      exact ⟨rfl, fun mode _ => ⟨fun _ => hValid, fun _ => rfl⟩⟩
    · rename_i hMode
      refine ⟨h, fun mode hParent => ⟨fun _ => hValid, fun hMulti => ?_⟩⟩
      rw [hParent, hMulti] at hMode
      exact absurd rfl hMode

/-! ### The answers -/

variable {I α : Type} {parent : Parent} {σ : DBusModelAdaptor I} {a : α} {e : Error}
  {argument : α → ReplyValue} {variant : α → Value I} {dummy : ReplyValue}

/-- The message that answers a method with a value. -/
def valueMessage (e : Error) (r : ReplyValue) : Message :=
  if e.code ≠ 0 then .error (errorReply e) else .methodReturn r

theorem delayedResultReady_error {v : Value I} (h : e.code ≠ 0) :
    σ.delayedResultReady v e = some (.error (errorReply e), σ) := if_pos h

omit [Qt] in
theorem shown_eq_none (hNone : e.code = 0 → e = .none) (h : (shown parent e).code = 0) :
    shown parent e = .none := by
  rw [shown] at h ⊢
  split
  · rfl
  · rename_i hMode
    rw [if_neg hMode] at h
    exact hNone h

omit [Qt] in
variable (parent) in
theorem shown_constructed (h : e.code ≠ 0 → Constructed e) (hCode : (shown parent e).code ≠ 0) :
    Constructed (shown parent e) := by
  rw [shown] at hCode ⊢
  split
  · rename_i hMode
    rw [if_pos hMode] at hCode
    exact absurd rfl hCode
  · rename_i hMode
    rw [if_neg hMode] at hCode
    exact h hCode

theorem answerValue_eq (hNone : e.code = 0 → e = .none)
    (hReady : σ.delayedResultReady (variant a) .none = some (.methodReturn (argument a), σ)) :
    σ.answerValue parent (a, e) argument variant dummy =
      some ([valueMessage (shown parent e) (argument a)], σ) := by
  cases parent with
  | plain =>
    have hShown : shown .plain e = e := if_neg nofun
    simp only [DBusModelAdaptor.answerValue, cached_eq 0 hNone, hShown, valueMessage]
    split <;> rfl
  | async mode =>
    simp only [DBusModelAdaptor.answerValue, DBusModelAdaptor.delayed, resultError_shown hNone,
      valueMessage]
    by_cases hCode : (shown (.async mode) e).code = 0
    · rw [shown_eq_none hNone hCode, hReady]
      rfl
    · rw [if_pos hCode, delayedResultReady_error hCode]
      rfl

/-- What the client gets from a method with a value. -/
theorem value_iff (hWell : WellFormed (variant a, e))
    (hReady : σ.delayedResultReady (variant a) .none = some (.methodReturn (argument a), σ))
    (hValid : (variant a).isInvalidIterator = false) {receive : Message → Value QString × Error}
    {v : Value QString} (hReturn : receive (.methodReturn (argument a)) = (v, .none))
    (hSame : e.code = 0 → SameResult σ.objects (variant a, e) v)
    (hError : ∀ d, (receive (.error d)).2 = cached 0 (convertError (some d)))
    (hSameError : ∀ d, (receive (.error d)).2.code ≠ 0 → e.code ≠ 0 →
      SameResult σ.objects (variant a, e) (receive (.error d)).1) :
    (∃ m τ, σ.answerValue parent (a, e) argument variant dummy = some ([m], τ) ∧
      (receive m).2 = e ∧ SameResult τ.objects (variant a, e) (receive m).1) ↔
        Meets parent (variant a, e) := by
  have hNone : e.code = 0 → e = .none := hWell.none
  rw [meets_iff hNone hValid, answerValue_eq hNone hReady]
  have hShown : (shown parent e).code = 0 → shown parent e = .none := shown_eq_none hNone
  have hConstructed := shown_constructed parent hWell.constructed
  have hReceived : (receive (valueMessage (shown parent e) (argument a))).2 =
      received (shown parent e) := by
    rw [valueMessage]
    split
    · rw [hError, cached_convertError hShown hConstructed]
    · rename_i hCode
      rw [hReturn, hShown (not_not.mp hCode)]
      rfl
  constructor
  · rintro ⟨m, τ, hCall, hSameError, -⟩
    cases hCall
    rw [← hReceived, hSameError]
  · intro h
    refine ⟨_, σ, rfl, hReceived.trans h, ?_⟩
    rw [valueMessage]
    split
    · rename_i hCode
      have hCodes : e.code = (shown parent e).code := by
        conv_lhs => rw [← h]
        rfl
      refine hSameError _ ?_ (hCodes ▸ hCode)
      rw [hError, cached_convertError hShown hConstructed]
      exact hCode
    · rename_i hCode
      rw [hReturn]
      refine hSame ?_
      rw [← h]
      exact not_not.mp hCode

/-- What the client gets from a method with an iterator. -/
theorem iterator_iff {it : Option I} {variant : Option I → Value I}
    {pathVariant : Option QString → Value QString} (hWell : WellFormed (variant it, e))
    (hSuccess : ∀ i, (variant (some i)).isSuccess = true)
    (hInvalid : ∀ it, (variant it).isInvalidIterator = it.isNone)
    (hReady : ∀ it, σ.delayedResultReady (variant it) .none =
      some (.methodReturn (.string (σ.registerIterator it).1), (σ.registerIterator it).2))
    (hSame : ∀ objects path, SameResult objects (variant it, e) (pathVariant path) ↔
      SameIterator objects it path) :
    (∃ m τ, σ.answerIterator parent (it, e) variant = some ([m], τ) ∧
      (DBusModel.iteratorResult pathVariant m).2 = e ∧
      SameResult τ.objects (variant it, e) (DBusModel.iteratorResult pathVariant m).1) ↔
        Meets parent (variant it, e) := by
  have hNone : e.code = 0 → e = .none := hWell.none
  have hConstructed : e.code ≠ 0 → Constructed e := hWell.constructed
  have hValid : ∀ i, it = some i → e = .none := by
    rintro i rfl
    exact hNone (hWell.cleared (hSuccess i))
  cases parent with
  | plain =>
    cases it with
    | some i =>
      obtain rfl : e = .none := hValid i rfl
      refine ⟨fun _ => ⟨rfl, nofun⟩, fun _ => ⟨_, _, rfl, rfl, ?_⟩⟩
      exact (hSame _ _).mpr (DBusModelAdaptor.lookup_registerIterator σ (some i))
    | none =>
      have hError := cached_convertError hNone hConstructed
      have hCall : σ.answerIterator .plain (none, e) variant =
          some ([.error (errorReply e)], σ) := by
        rw [DBusModelAdaptor.answerIterator]
        simp only [cached_eq 0 hNone]
        rfl
      rw [hCall]
      constructor
      · rintro ⟨m, τ, hEq, hReceived, -⟩
        cases hEq
        exact ⟨hError.symm.trans hReceived, nofun⟩
      · intro h
        exact ⟨_, σ, rfl, hError.trans h.1, (hSame _ _).mpr trivial⟩
  | async mode =>
    rw [DBusModelAdaptor.answerIterator, DBusModelAdaptor.delayed, resultError_shown hNone]
    by_cases hCode : (shown (.async mode) e).code = 0
    · rw [shown_eq_none hNone hCode, hReady]
      constructor
      · rintro ⟨m, τ, hEq, hReceived, hResult⟩
        cases hEq
        obtain rfl : e = .none := hReceived.symm
        refine ⟨rfl, fun mode' _ => ⟨fun _ => ?_, fun _ => rfl⟩⟩
        rw [hInvalid]
        cases it with
        | some i => rfl
        | none => exact absurd ((hSame _ _).mp hResult) id
      · rintro ⟨hReceived, hModes⟩
        obtain ⟨hSome, hMulti⟩ := hModes mode rfl
        have hZero : e.code = 0 := by
          cases mode with
          | singleThreaded => rwa [shown, if_neg nofun] at hCode
          | multiThreaded => exact hMulti rfl
        obtain rfl : e = .none := hNone hZero
        have hIt := hSome rfl
        rw [hInvalid] at hIt
        cases it with
        | some i =>
          exact ⟨_, _, rfl, rfl, (hSame _ _).mpr (DBusModelAdaptor.lookup_registerIterator σ (some i))⟩
        | none => cases hIt
    · have hMode : mode = .singleThreaded := by
        cases mode with
        | singleThreaded => rfl
        | multiThreaded => exact absurd rfl hCode
      subst hMode
      have hShown : shown (.async .singleThreaded) e = e := if_neg nofun
      rw [hShown] at hCode ⊢
      rw [delayedResultReady_error hCode]
      have hError := cached_convertError hNone hConstructed
      constructor
      · rintro ⟨m, τ, hEq, hReceived, -⟩
        cases hEq
        refine ⟨hError.symm.trans hReceived, fun mode hMode => ⟨fun h => absurd h hCode, ?_⟩⟩
        cases hMode
        nofun
      · intro h
        refine ⟨_, σ, rfl, hError.trans h.1, (hSame _ _).mpr ?_⟩
        cases it with
        | some i => exact absurd (by rw [hValid i rfl]; rfl) hCode
        | none => trivial

theorem errorCode_iff {outcome : ErrorCode × Error}
    (hWell : WellFormed (I := I) (.errorCode outcome.1, outcome.2)) :
    (∃ m τ, σ.answerValue parent outcome (fun c => .int c.code) .errorCode (.int 0) =
        some ([m], τ) ∧ (DBusModel.errorCodeResult m).2 = outcome.2 ∧
      SameResult τ.objects (.errorCode outcome.1, outcome.2) (DBusModel.errorCodeResult m).1) ↔
        Meets parent ((.errorCode outcome.1, outcome.2) : Value I × Error) := by
  obtain ⟨c, e⟩ := outcome
  refine value_iff hWell rfl rfl (v := .errorCode c) ?_ (fun _ => ⟨c, rfl, Iff.rfl, fun _ => rfl⟩)
    (fun d => rfl) fun d hReceived hCode => ⟨c, rfl, ?_, fun hZero => absurd hZero hCode⟩
  · have hNumber := ErrorCode.convertErrorCode_code c
    simp only [DBusModel.errorCodeResult, QDBusReply.ofMessage, ReplyValue.toInt, hNumber]
    rfl
  · have hFailure : c ≠ .errorNone := by
      rintro rfl
      exact hCode (hWell.cleared rfl)
    have hConverted : ∀ {n : Int32}, n ≠ 0 →
        ErrorCode.convertErrorCode n.toInt ≠ .errorNone := by
      intro n hn
      have hInt : n.toInt ≠ 0 := fun h => hn (Int32.toInt_inj.mp h)
      rw [ErrorCode.convertErrorCode, if_neg hInt]
      split_ifs <;> exact nofun
    have hReceived' : (cached 0 (convertError (some d))).code ≠ 0 := hReceived
    refine ⟨fun h => absurd ?_ (hConverted hReceived'), fun h => absurd h hFailure⟩
    exact (if_pos hReceived').symm.trans h

theorem int_iff {outcome : Int32 × Error}
    (hWell : WellFormed (I := I) (.int outcome.1, outcome.2)) :
    (∃ m τ, σ.answerValue parent outcome .int .int (.int 0) = some ([m], τ) ∧
      (DBusModel.intResult m).2 = outcome.2 ∧
      SameResult τ.objects (.int outcome.1, outcome.2) (DBusModel.intResult m).1) ↔
        Meets parent ((.int outcome.1, outcome.2) : Value I × Error) :=
  value_iff hWell rfl rfl rfl (fun _ => ⟨outcome.1, rfl, fun _ => rfl⟩) (fun _ => rfl)
    fun _ _ hCode => ⟨outcome.1, rfl, fun hZero => absurd hZero hCode⟩

theorem bool_iff {outcome : Bool × Error}
    (hWell : WellFormed (I := I) (.bool outcome.1, outcome.2)) :
    (∃ m τ, σ.answerValue parent outcome .bool .bool (.bool false) = some ([m], τ) ∧
      (DBusModel.boolResult m).2 = outcome.2 ∧
      SameResult τ.objects (.bool outcome.1, outcome.2) (DBusModel.boolResult m).1) ↔
        Meets parent ((.bool outcome.1, outcome.2) : Value I × Error) :=
  value_iff hWell rfl rfl rfl (fun _ => ⟨outcome.1, rfl, fun _ => rfl⟩) (fun _ => rfl)
    fun _ _ hCode => ⟨outcome.1, rfl, fun hZero => absurd hZero hCode⟩

theorem node_iff {outcome : Node × Error}
    (hWell : WellFormed (I := I) (.node outcome.1, outcome.2)) :
    (∃ m τ, σ.answerValue parent outcome .node .node (.node .empty) = some ([m], τ) ∧
      (DBusModel.nodeResult m).2 = outcome.2 ∧
      SameResult τ.objects (.node outcome.1, outcome.2) (DBusModel.nodeResult m).1) ↔
        Meets parent ((.node outcome.1, outcome.2) : Value I × Error) :=
  value_iff hWell rfl rfl rfl (fun _ => ⟨outcome.1, rfl, fun _ => rfl⟩) (fun _ => rfl)
    fun _ _ hCode => ⟨outcome.1, rfl, fun hZero => absurd hZero hCode⟩

/-- A model that lists nothing, fails to parse queries and refuses to remove anything. -/
def sampleModel : Model Unit where
  addStatement _ := (.errorNone, .none)
  removeStatement _ := (.errorParsingFailed,
    .ofLocator ⟨1, 2, 7, []⟩ "bad byte".toList ErrorCode.errorParsingFailed.code)
  removeAllStatements _ := (.errorNone, .none)
  containsStatement _ := (false, .none)
  containsAnyStatement _ := (false, .none)
  statementCount := (0, .none)
  isEmpty := (true, .none)
  createBlankNode := (.empty, .none)
  listStatements _ := (none, .none)
  listContexts := (some (), .none)
  executeQuery _ _ _ := (none,
    .ofLocator ⟨3, 14, -1, []⟩ "no %1 here".toList ErrorCode.errorParsingFailed.code)

/-- An adaptor that has no iterators yet. -/
def sampleAdaptor : DBusModelAdaptor Unit where
  dbusObjectPath := "/org/soprano/Server/models/main".toList
  iteratorCount := 0
  objects := []
  plain := by decide
  old _ h := absurd rfl h

end DBus

section Example

local instance dbusModelQt : Qt := asciiQt

open DBus

end Example

end Soprano
