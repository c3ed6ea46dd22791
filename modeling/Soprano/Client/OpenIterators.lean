import Soprano.Client.ClientModel

/-! Which iterators stay open.  In every state of a run in which no iterator gets the id 0, each open
iterator of the server is remembered by a client model, and each remembered one belongs to an
iterator that has not ended. -/

namespace Soprano

namespace Client

open Server

variable {W M SI NI QI : Type} [Qt] {host : Host W M SI NI QI} {c c' : Connection W M SI NI QI}

/-- The request that opens an iterator, of the actions that do. -/
def Action.openRequest (c : Connection W M SI NI QI) : Action → Option Request
  | .listStatements model s => c.models[model]?.map fun m => .listStatements m.modelId s
  | .listContexts model => c.models[model]?.map fun m => .listContexts m.modelId
  | .executeQuery model query language userQueryLanguage =>
    c.models[model]?.map fun m => .executeQuery m.modelId query language userQueryLanguage
  | _ => none

/-- Of the numbers that `rand()` is going to return, the first one that no iterator uses is positive as
an `int`.  Up to `RAND_MAX` only 0 is not. -/
def DrawsPositive (σ : State W M SI NI QI) : Prop :=
  ∀ used d rest, σ.draws = used ++ d :: rest →
    (∀ k ∈ used, ServerConnection.iteratorIdInUse σ k = true) →
    ServerConnection.iteratorIdInUse σ d = false → 0 < d.toInt32

/-- Where the action gets an iterator of a model, the number drawn for it is positive. -/
def Action.Meets (host : Host W M SI NI QI) (c : Connection W M SI NI QI) (a : Action) : Prop :=
  ∀ r, a.openRequest c = some r → (r.opens host c.server).isSome = true → DrawsPositive c.server

/-- Each action of the run meets the condition in the state that it finds. -/
def RunMeets (host : Host W M SI NI QI) : Connection W M SI NI QI → List Action → Prop :=
  Runs.AllMeet (Connection.perform host) fun c a => a.Meets host c

/-- Each open iterator of the server is remembered by a client model. -/
def Recorded (c : Connection W M SI NI QI) : Prop :=
  ∀ id, (iteratorOf c.server id).isSome = true →
    ∃ (k : Nat) (m : ClientModel), c.models[k]? = some m ∧ m.alive = true ∧
      id.toInt32 ∈ m.openIterators

/-- The ids of the server are distinct and remembered, and each remembered id belongs to an iterator of
its model that has not ended. -/
structure Invariant (c : Connection W M SI NI QI) : Prop where
  distinct : (openIds c.server).Nodup
  recorded : Recorded c
  owned : ∀ (k : Nat) (m : ClientModel), c.models[k]? = some m → m.alive = true →
    ∀ i ∈ m.openIterators, ∃ (j : Nat) (b : ClientIteratorBackend), c.iterators[j]? = some b ∧
      b.model = k ∧ b.iteratorId = i ∧ b.ended = false

/-! ### The server's side of each action -/

omit [Qt] in
theorem positive_of_generateUniqueId {σ : State W M SI NI QI} (h : DrawsPositive σ) {id : UInt32}
    {rest : List UInt32}
    (hId : generateUniqueId (ServerConnection.iteratorIdInUse σ) σ.draws = some (id, rest)) :
    0 < id.toInt32 := by
  obtain ⟨used, hDraws, hUsed, hFree⟩ := generateUniqueId_split hId
  exact h used id rest hDraws hUsed hFree

section Server

variable {σ : State W M SI NI QI}

theorem iteratorOf_close (hDistinct : (openIds σ).Nodup) (id : Int32) (other : UInt32) :
    iteratorOf (ServerConnection.performIteratorClose host σ id.toUInt32).1 other =
      if other.toInt32 = id then none else iteratorOf σ other := by
  have hPerform : (Request.iteratorClose id).perform host σ =
      some (ServerConnection.performIteratorClose host σ id.toUInt32) := rfl
  have hClosed := (perform_answered hDistinct hPerform).1.closed id.toUInt32 rfl other
  refine hClosed.trans ?_
  by_cases hId : other.toInt32 = id
  · rw [if_pos hId, if_pos (by rw [← hId, UInt32.toUInt32_toInt32])]
  · rw [if_neg hId, if_neg fun hEq => hId (by rw [hEq, Int32.toInt32_toUInt32])]

variable (host) in
theorem openIds_close (hDistinct : (openIds σ).Nodup) (id : Int32) :
    (openIds (ServerConnection.performIteratorClose host σ id.toUInt32).1).Nodup := by
  have hPerform : (Request.iteratorClose id).perform host σ =
      some (ServerConnection.performIteratorClose host σ id.toUInt32) := rfl
  exact (perform_answered hDistinct hPerform).2

variable (host) in
theorem sameTables_next (hDistinct : (openIds σ).Nodup) (id : Int32) :
    SameTables σ (ServerConnection.performIteratorNext host σ id.toUInt32).1 :=
  sameTables_perform (r := .iteratorNext id) hDistinct rfl rfl (h := rfl)

theorem sameTables_queryIteratorCurrent (hDistinct : (openIds σ).Nodup) (id : Int32) :
    SameTables σ (ServerConnection.performQueryIteratorCurrent host σ id.toUInt32).1 :=
  sameTables_perform (r := .queryIteratorCurrent id) hDistinct rfl rfl (h := rfl)

variable (host) in
/-- The ids that a destructor closes are closed, and no others. -/
theorem iteratorOf_closeAll (ids : List Int32) (hDistinct : (openIds σ).Nodup) :
    (openIds (ids.foldl (fun server id =>
      (ServerConnection.performIteratorClose host server id.toUInt32).1) σ)).Nodup ∧
    ∀ other, iteratorOf (ids.foldl (fun server id =>
      (ServerConnection.performIteratorClose host server id.toUInt32).1) σ) other =
        if other.toInt32 ∈ ids then none else iteratorOf σ other := by
  induction ids generalizing σ with
  | nil => exact ⟨hDistinct, fun other => by simp⟩
  | cons id ids ih =>
    obtain ⟨hNext, hRest⟩ := ih (openIds_close host hDistinct id)
    refine ⟨hNext, fun other => ?_⟩
    rw [List.foldl_cons, hRest, iteratorOf_close hDistinct]
    by_cases hId : other.toInt32 = id
    · simp [hId]
    · simp [hId]

end Server

omit [Qt] in
/-- The state of the server with the same iterator tables. -/
theorem Invariant.of_sameTables {server : State W M SI NI QI} (h : Invariant c)
    (hTables : SameTables c.server server) : Invariant { c with server := server } := by
  refine ⟨by rw [hTables.openIds]; exact h.distinct, fun id hId => ?_, h.owned⟩
  rw [hTables.iteratorOf] at hId
  exact h.recorded id hId

/-! ### The client's side -/

omit [Qt] in
theorem getElem?_set_cases {α : Type} {l : List α} {i k : Nat} {a b : α}
    (h : (l.set i a)[k]? = some b) : (k = i ∧ b = a) ∨ (k ≠ i ∧ l[k]? = some b) := by
  by_cases hk : i = k
  · subst hk
    have hi : i < l.length := by
      have := (List.getElem?_eq_some_iff.mp h).1
      simpa using this
    rw [List.getElem?_set_self hi, Option.some.injEq] at h
    exact .inl ⟨rfl, h.symm⟩
  · rw [List.getElem?_set_ne hk] at h
    exact .inr ⟨Ne.symm hk, h⟩

omit [Qt] in
theorem getElem?_set_of_getElem? {α : Type} {l : List α} {i : Nat} {a b : α}
    (h : l[i]? = some b) : (l.set i a)[i]? = some a :=
  List.getElem?_set_self (List.getElem?_eq_some_iff.mp h).1

variable (host) in
/-- A model that closes an iterator forgets it. -/
theorem Invariant.closeIterator (h : Invariant c) (k : Nat) (id : Int32) :
    Invariant (ClientModel.closeIterator host c k id) ∧
      (∀ (m : ClientModel), (ClientModel.closeIterator host c k id).models[k]? = some m →
        m.alive = true → id ∉ m.openIterators) ∧
      (ClientModel.closeIterator host c k id).iterators = c.iterators := by
  rw [ClientModel.closeIterator]
  cases hModel : c.models[k]? with
  | none =>
    refine ⟨h, fun m hm => ?_, rfl⟩
    rw [hModel] at hm
    cases hm
  | some m =>
    simp only
    split
    · rename_i hOpen
      simp only [Bool.and_eq_true, List.contains_iff_mem] at hOpen
      refine ⟨⟨openIds_close host h.distinct id, fun other hOther => ?_, fun l n hn hAlive i hi => ?_⟩,
        fun n hn hAlive => ?_, rfl⟩
      · rw [iteratorOf_close h.distinct] at hOther
        split at hOther
        · cases hOther
        · rename_i hne
          obtain ⟨l, n, hn, hAlive, hMem⟩ := h.recorded other hOther
          by_cases hl : l = k
          · subst hl
            obtain rfl : n = m := Option.some.inj (hn.symm.trans hModel)
            exact ⟨l, _, getElem?_set_of_getElem? hModel, hAlive, by simp [hMem, hne]⟩
          · exact ⟨l, n, by rw [List.getElem?_set_ne (Ne.symm hl)]; exact hn, hAlive, hMem⟩
      · rcases getElem?_set_cases hn with ⟨rfl, rfl⟩ | ⟨-, hn⟩
        · exact h.owned l m hModel hAlive i (List.mem_of_mem_filter hi)
        · exact h.owned l n hn hAlive i hi
      · rcases getElem?_set_cases hn with ⟨-, rfl⟩ | ⟨hk, -⟩
        · simp
        · exact absurd rfl hk
    · rename_i hOpen
      refine ⟨h, fun n hn hAlive hMem => hOpen ?_, rfl⟩
      rw [hModel] at hn
      cases hn
      simp [hAlive, hMem]

omit [Qt] in
/-- An iterator of which the model remembers nothing can end. -/
theorem Invariant.endIterator (h : Invariant c) {j : Nat} {b : ClientIteratorBackend}
    (hb : c.iterators[j]? = some b)
    (hForgotten : ∀ (m : ClientModel), c.models[b.model]? = some m → m.alive = true →
      b.iteratorId ∉ m.openIterators) : Invariant (c.endIterator j) := by
  refine ⟨h.distinct, h.recorded, fun k m hm hAlive i hi => ?_⟩
  obtain ⟨l, d, hd, hModel, hId, hEnded⟩ := h.owned k m hm hAlive i hi
  have hne : l ≠ j := by
    rintro rfl
    obtain rfl : d = b := Option.some.inj (hd.symm.trans hb)
    subst hModel
    exact hForgotten m hm hAlive (hId ▸ hi)
  refine ⟨l, d, ?_, hModel, hId, hEnded⟩
  rw [Connection.endIterator, List.getElem?_modify]
  simp [Ne.symm hne, hd]

/-- Closing an iterator and ending it. -/
theorem Invariant.close (h : Invariant c) {j : Nat} {b : ClientIteratorBackend}
    (hb : c.iterators[j]? = some b) : Invariant ((b.close host c).endIterator j) := by
  obtain ⟨hClosed, hForgotten, hIterators⟩ :=
    h.closeIterator host b.model b.iteratorId
  refine hClosed.endIterator (b := b) ?_ hForgotten
  exact (congrArg (fun l => l[j]?) hIterators).trans hb

omit [Qt] in
/-- The number of handles plays no part. -/
theorem Invariant.setHandles (h : Invariant c) {j : Nat} {b : ClientIteratorBackend}
    (hb : c.iterators[j]? = some b) (n : Nat) :
    Invariant { c with iterators := c.iterators.set j { b with handles := n } } := by
  refine ⟨h.distinct, h.recorded, fun k m hm hAlive i hi => ?_⟩
  obtain ⟨l, d, hd, hModel, hId, hEnded⟩ := h.owned k m hm hAlive i hi
  by_cases hl : l = j
  · subst hl
    obtain rfl : d = b := Option.some.inj (hd.symm.trans hb)
    exact ⟨l, _, getElem?_set_of_getElem? hb, hModel, hId, hEnded⟩
  · exact ⟨l, d, by rw [List.getElem?_set_ne (Ne.symm hl)]; exact hd, hModel, hId, hEnded⟩

variable (host) in
/-- A call of `next` leaves the tables of the server and the iterators alone. -/
theorem Invariant.next (h : Invariant c) (b : ClientIteratorBackend) :
    Invariant (b.next host c).2 ∧ (b.next host c).2.iterators = c.iterators := by
  have hNext := sameTables_next host h.distinct b.iteratorId
  have hDistinct : (openIds
      (ServerConnection.performIteratorNext host c.server b.iteratorId.toUInt32).1).Nodup := by
    rw [hNext.openIds]
    exact h.distinct
  have hAfter := h.of_sameTables hNext
  rw [ClientIteratorBackend.next]
  cases c.models[b.model]? with
  | none => exact ⟨h, rfl⟩
  | some m =>
    simp only
    split
    · split
      · exact ⟨hAfter.of_sameTables (sameTables_queryIteratorCurrent hDistinct b.iteratorId), rfl⟩
      · exact ⟨hAfter, rfl⟩
    · exact ⟨h, rfl⟩

/-- The destructor closes exactly what the model remembers. -/
theorem Invariant.destroy (h : Invariant c) {k : Nat} (hc : ClientModel.destroy host c k = some c') :
    Invariant c' := by
  rw [ClientModel.destroy] at hc
  cases hModel : c.models[k]? with
  | none =>
    rw [hModel] at hc
    cases hc
  | some m =>
    rw [hModel] at hc
    simp only at hc
    split at hc
    · cases hc
      obtain ⟨hDistinct, hClosed⟩ := iteratorOf_closeAll host m.openIterators h.distinct
      refine ⟨hDistinct, fun id hId => ?_, fun l n hn hAlive i hi => ?_⟩
      · rw [hClosed] at hId
        split at hId
        · cases hId
        · rename_i hOther
          obtain ⟨l, n, hn, hAlive, hMem⟩ := h.recorded id hId
          have hne : k ≠ l := by
            rintro rfl
            obtain rfl : n = m := Option.some.inj (hn.symm.trans hModel)
            exact hOther hMem
          exact ⟨l, n, by rw [List.getElem?_set_ne hne]; exact hn, hAlive, hMem⟩
      · rcases getElem?_set_cases hn with ⟨-, rfl⟩ | ⟨-, hn⟩
        · cases hAlive
        · exact h.owned l n hn hAlive i hi
    · cases hc

omit [Qt] in
/-- A further iterator, which nothing remembers yet. -/
theorem Invariant.addIterator (h : Invariant c) (b : ClientIteratorBackend) :
    Invariant { c with iterators := c.iterators ++ [b] } := by
  refine ⟨h.distinct, h.recorded, fun k m hm hAlive i hi => ?_⟩
  obtain ⟨j, d, hd, hOwned⟩ := h.owned k m hm hAlive i hi
  exact ⟨j, d, by rw [List.getElem?_append_left (List.getElem?_eq_some_iff.mp hd).1, hd], hOwned⟩

omit [Qt] in
/-- A model that remembers the id of the iterator that the server opened for it. -/
theorem Invariant.record (h : Invariant c) {server : State W M SI NI QI} {id : UInt32}
    {it : OpenIterator SI NI QI} (hFree : iteratorOf c.server id = none)
    (hTables : SameTables (it.insert c.server id) server) {k : Nat} {m : ClientModel}
    (hModel : c.models[k]? = some m) (hAlive : m.alive = true) (kind : IteratorKind) :
    Invariant ⟨server, c.models.set k { m with openIterators := m.openIterators ++ [id.toInt32] },
      c.iterators ++ [⟨id.toInt32, k, kind, 1, false⟩]⟩ := by
  have hNew : ∀ {j : Nat} {d : ClientIteratorBackend}, c.iterators[j]? = some d →
      (c.iterators ++ [⟨id.toInt32, k, kind, 1, false⟩])[j]? = some d := by
    intro j d hd
    rw [List.getElem?_append_left (List.getElem?_eq_some_iff.mp hd).1, hd]
  refine ⟨?_, fun other hOther => ?_, fun l n hn hAliveN i hi => ?_⟩
  · rw [hTables.openIds]
    exact openIds_insert hFree it h.distinct
  · rw [hTables.iteratorOf, iteratorOf_insert hFree] at hOther
    by_cases hId : other = id
    · subst hId
      exact ⟨k, _, getElem?_set_of_getElem? hModel, hAlive, by simp⟩
    · rw [if_neg hId] at hOther
      obtain ⟨l, n, hn, hAliveN, hMem⟩ := h.recorded other hOther
      by_cases hl : l = k
      · subst hl
        obtain rfl : n = m := Option.some.inj (hn.symm.trans hModel)
        exact ⟨l, _, getElem?_set_of_getElem? hModel, hAlive, by simp [hMem]⟩
      · exact ⟨l, n, by rw [List.getElem?_set_ne (Ne.symm hl)]; exact hn, hAliveN, hMem⟩
  · rcases getElem?_set_cases hn with ⟨rfl, rfl⟩ | ⟨-, hn⟩
    · rcases List.mem_append.mp hi with hi | hi
      · obtain ⟨j, d, hd, hOwned⟩ := h.owned l m hModel hAlive i hi
        exact ⟨j, d, hNew hd, hOwned⟩
      · obtain rfl : i = id.toInt32 := List.mem_singleton.mp hi
        exact ⟨c.iterators.length, _, List.getElem?_concat_length, rfl, rfl, rfl⟩
    · obtain ⟨j, d, hd, hOwned⟩ := h.owned l n hn hAliveN i hi
      exact ⟨j, d, hNew hd, hOwned⟩

/-- A request that got no iterator is answered by the id 0. -/
def Opening (host : Host W M SI NI QI) (r : Request) : Prop :=
  r.closes = none ∧ ∀ σ τ reply, r.opens host σ = none → r.perform host σ = some (τ, reply) →
    reply.value = .id 0

theorem opening_of_onModel {r : Request} (hCloses : r.closes = none) {modelId : Int32}
    {I : Type} {f : I → OpenIterator SI NI QI} {op : M → W → Option I × W} {error : M → W → Error}
    (hOpens : ∀ σ, r.opens host σ = (ModelPool.modelById σ modelId.toUInt32).bind fun model =>
      (op model σ.world).1.map f)
    (hPerform : ∀ σ, r.perform host σ = Request.onModel σ modelId (.id 0) fun model =>
      ServerConnection.answerIterator (fun σ id it => (f it).insert σ id) σ (op model)
        (error model)) : Opening host r := by
  refine ⟨hCloses, fun σ τ reply hNone h => ?_⟩
  rw [hPerform] at h
  rcases onModel_cases h with ⟨model, hModel, hIt⟩ | ⟨-, -, rfl⟩
  · have hAnswer := answerIterator_cases hIt
    rw [hOpens, hModel] at hNone
    rw [Option.map_eq_none_iff.mp hNone] at hAnswer
    exact hAnswer.1
  · rfl

theorem opening_listStatements (id : Int32) (s : Statement) :
    Opening host (.listStatements id s) :=
  opening_of_onModel (f := .statements) rfl (fun _ => rfl) fun _ => rfl

theorem opening_listContexts (id : Int32) : Opening host (.listContexts id) :=
  opening_of_onModel (f := .nodes) rfl (fun _ => rfl) fun _ => rfl

theorem opening_executeQuery (id : Int32) (query : QString) (language : UInt16)
    (userQueryLanguage : QString) :
    Opening host (.executeQuery id query language userQueryLanguage) :=
  opening_of_onModel (f := .results) rfl (fun _ => rfl) fun _ => rfl

theorem Invariant.openIterator (h : Invariant c) (hHost : ClearsErrors host) {k : Nat}
    {kind : IteratorKind} {f : Int32 → Request} (hOpening : ∀ id, Opening host (f id))
    (hMeets : ∀ (m : ClientModel), c.models[k]? = some m →
      ((f m.modelId).opens host c.server).isSome = true → DrawsPositive c.server)
    (hc : ClientModel.openIterator host c k kind f = some c') : Invariant c' := by
  rw [ClientModel.openIterator] at hc
  cases hModel : c.models[k]? with
  | none =>
    rw [hModel] at hc
    cases hc
  | some m =>
    simp only [hModel] at hc
    by_cases hAlive : m.alive = true
    · rw [if_pos hAlive] at hc
      obtain ⟨⟨server, reply⟩, hPerform, hc⟩ := Option.bind_eq_some_iff.mp hc
      cases hOpens : (f m.modelId).opens host c.server with
      | some it =>
        obtain ⟨id, rest, e, rfl, hError, hId, hFree, hTables⟩ := perform_opens hOpens hPerform
        have hPositive := hMeets m hModel (by rw [hOpens, Option.isSome_some])
        have hPos : id.toInt32 > 0 := positive_of_generateUniqueId hPositive hId
        simp only [hPos, if_true, Option.getD_some, hError hHost, ne_eq, not_true_eq_false,
          if_false, Option.some.injEq] at hc
        subst hc
        exact h.record hFree hTables hModel hAlive kind
      | none =>
        obtain ⟨hCloses, hValue⟩ := hOpening m.modelId
        have hTables := sameTables_perform h.distinct hOpens hCloses hPerform
        have hZero : ¬ (0 : UInt32).toInt32 > 0 := by decide
        simp only [hValue _ _ _ hOpens hPerform, hZero, if_false] at hc
        split at hc <;> cases hc
        · exact h.of_sameTables hTables
        · exact (h.of_sameTables hTables).addIterator _
    · rw [if_neg hAlive] at hc
      cases hc

omit [Qt] in
theorem Invariant.construct (h : Invariant c) (modelId : Int32) :
    Invariant { c with models := c.models ++ [⟨modelId, [], true⟩] } := by
  refine ⟨h.distinct, fun id hId => ?_, fun k m hm hAlive i hi => ?_⟩
  · obtain ⟨k, m, hm, hRecorded⟩ := h.recorded id hId
    have hk := (List.getElem?_eq_some_iff.mp hm).1
    exact ⟨k, m, by rw [List.getElem?_append_left hk, hm], hRecorded⟩
  · by_cases hk : k < c.models.length
    · rw [List.getElem?_append_left hk] at hm
      exact h.owned k m hm hAlive i hi
    · rw [List.getElem?_append_right (Nat.le_of_not_lt hk)] at hm
      have hNew := List.mem_singleton.mp (List.mem_of_getElem? hm)
      subst hNew
      cases hi

omit [Qt] in
theorem backend_eq_some {j : Nat} {b : ClientIteratorBackend} (h : c.backend j = some b) :
    c.iterators[j]? = some b := by
  rw [Connection.backend] at h
  exact (Option.filter_eq_some_iff.mp h).1

/-- The last handle closes the iterator, and so does the destructor of the backend. -/
theorem Invariant.release (h : Invariant c) {j : Nat} {b : ClientIteratorBackend}
    (hb : c.iterators[j]? = some b) (n : Nat) :
    let d : Connection W M SI NI QI :=
      { c with iterators := c.iterators.set j { b with handles := n } }
    Invariant ((b.close host (b.close host d)).endIterator j) := by
  intro d
  have hd : d.iterators[j]? = some { b with handles := n } := getElem?_set_of_getElem? hb
  obtain ⟨hFirst, -, hIterators⟩ :=
    (h.setHandles hb n).closeIterator host b.model b.iteratorId
  refine Invariant.close (b := { b with handles := n }) hFirst ?_
  exact (congrArg (fun l => l[j]?) hIterators).trans hd

/-- One action. -/
theorem Invariant.perform (h : Invariant c) (hHost : ClearsErrors host) {a : Action}
    (hMeets : a.Meets host c) (hc : c.perform host a = some c') : Invariant c' := by
  cases a with
  | construct modelId =>
    cases hc
    exact h.construct modelId
  | listStatements k s =>
    refine h.openIterator hHost (fun id => opening_listStatements id s) ?_ hc
    intro m hModel
    exact hMeets _ (by rw [Action.openRequest, hModel, Option.map_some])
  | listContexts k =>
    refine h.openIterator hHost opening_listContexts ?_ hc
    intro m hModel
    exact hMeets _ (by rw [Action.openRequest, hModel, Option.map_some])
  | executeQuery k query language userQueryLanguage =>
    refine h.openIterator hHost
      (fun id => opening_executeQuery id query language userQueryLanguage) ?_ hc
    intro m hModel
    exact hMeets _ (by rw [Action.openRequest, hModel, Option.map_some])
  | next j =>
    obtain ⟨b, hb, hc⟩ := Option.bind_eq_some_iff.mp hc
    obtain ⟨hNext, hIterators⟩ := h.next host b
    have hb' : (b.next host c).2.iterators[j]? = some b := by
      rw [hIterators]
      exact backend_eq_some hb
    have hAfter : c' = if (b.next host c).1 then (b.next host c).2 else
        (b.close host (b.next host c).2).endIterator j := (Option.some.inj hc).symm
    rw [hAfter]
    by_cases hHasNext : (b.next host c).1 = true
    · rw [if_pos hHasNext]
      exact hNext
    · rw [if_neg hHasNext]
      exact hNext.close hb'
  | close j =>
    obtain ⟨b, hb, hc⟩ := Option.bind_eq_some_iff.mp hc
    cases hc
    exact h.close (backend_eq_some hb)
  | copy j =>
    obtain ⟨b, hb, hc⟩ := Option.bind_eq_some_iff.mp hc
    cases hc
    exact h.setHandles (backend_eq_some hb) _
  | release j =>
    obtain ⟨b, hb, hc⟩ := Option.bind_eq_some_iff.mp hc
    split at hc <;> cases hc
    · exact h.release (backend_eq_some hb) _
    · exact h.setHandles (backend_eq_some hb) _
  | destroy k => exact h.destroy hc
  | request r =>
    rw [Connection.perform] at hc
    split at hc
    · rename_i hKeeps
      obtain ⟨⟨server, reply⟩, hPerform, hc⟩ := Option.bind_eq_some_iff.mp hc
      cases hc
      exact h.of_sameTables (sameTables_perform h.distinct hKeeps.1 hKeeps.2 hPerform)
    · cases hc

omit [Qt] in
/-- Nothing is open once each iterator has ended, or once each client model is gone. -/
theorem Invariant.openIds_eq_nil (h : Invariant c)
    (hEnded : (∀ b ∈ c.iterators, b.ended = true) ∨ ∀ m ∈ c.models, m.alive = false) :
    openIds c.server = [] := by
  refine List.eq_nil_iff_forall_not_mem.mpr fun id hId => ?_
  obtain ⟨k, m, hm, hAlive, hMem⟩ := h.recorded id (mem_openIds.mp hId)
  rcases hEnded with hEnded | hDestroyed
  · obtain ⟨j, b, hb, -, -, hOpen⟩ := h.owned k m hm hAlive _ hMem
    rw [hEnded b (List.mem_of_getElem? hb)] at hOpen
    cases hOpen
  · rw [hDestroyed m (List.mem_of_getElem? hm)] at hAlive
    cases hAlive

/-- In every state of a run on a fresh connection in which no iterator gets the id 0, a client model
remembers each open iterator of the server; nothing is open once all the iterators have ended, or
once all the client models are destroyed. -/
theorem openIterators_recorded (hHost : ClearsErrors host) {σ : State W M SI NI QI}
    (hFresh : openIds σ = []) {actions : List Action}
    (hMeets : RunMeets host ⟨σ, [], []⟩ actions)
    (hc : (Connection.mk σ [] []).run host actions = some c) :
    Recorded c ∧ ((∀ b ∈ c.iterators, b.ended = true) ∨ (∀ m ∈ c.models, m.alive = false) →
      openIds c.server = []) := by
  have hStart : Invariant (Connection.mk σ [] [] : Connection W M SI NI QI) := by
    refine ⟨?_, fun id hId => ?_, fun k m hm => ?_⟩
    · rw [hFresh]
      exact List.nodup_nil
    · rw [← mem_openIds, hFresh] at hId
      cases hId
    · cases hm
  have hEnd := Runs.invariant (fun h hMeets hc => h.perform hHost hMeets hc) hStart hMeets hc
  exact ⟨hEnd.recorded, hEnd.openIds_eq_nil⟩

omit [Qt] in
theorem drawsPositive_of_all {σ : State W M SI NI QI}
    (h : (σ.draws.all fun d => decide (0 < d.toInt32)) = true) : DrawsPositive σ := by
  intro used d rest hDraws _ _
  exact of_decide_eq_true (List.all_eq_true.mp h d (by simp [hDraws]))

end Client

section Example

local instance openIteratorsQt : Qt := asciiQt

open Client Server

/-- An iterator of the first model is exhausted, and one of the second goes with its model. -/
theorem openIterators_recorded_listing :
    let σ : State (List (List Statement)) Unit Nat Unit Unit :=
      ⟨[], [(1, ())], [], [], [], [], [7, 9]⟩
    let actions : List Action := [.construct 1, .construct 1, .listStatements 0 .empty,
      .listStatements 1 .empty, .next 0, .next 0, .destroy 0, .destroy 1]
    ∃ c, (Connection.mk σ [] []).run listingHost actions = some c ∧ openIds c.server = [] := by
  intro σ actions
  obtain ⟨c, hRun, hDestroyed⟩ : ∃ c, (Connection.mk σ [] []).run listingHost actions = some c ∧
      ∀ m ∈ c.models, m.alive = false := ⟨_, rfl, by decide⟩
  have hMeets : RunMeets listingHost (Connection.mk σ [] []) actions := by
    iterate 8
      refine Runs.AllMeet.cons (fun r _ _ => drawsPositive_of_all rfl) rfl ?_
    exact trivial
  exact ⟨c, hRun, (openIterators_recorded ⟨fun _ _ _ _ _ => rfl, fun _ _ _ _ => rfl,
    fun _ _ _ _ _ _ _ => rfl⟩ rfl hMeets hRun).2 (.inr hDestroyed)⟩

/-- The iterator that gets the id 0 stays open although the program closes it and destroys the
model. -/
theorem openIterators_id_zero :
    let σ : State (List (List Statement)) Unit Nat Unit Unit :=
      ⟨[], [(1, ())], [], [], [], [], [0]⟩
    let actions : List Action := [.construct 1, .listStatements 0 .empty, .close 0, .destroy 0]
    ∃ c, (Connection.mk σ [] []).run listingHost actions = some c ∧
      (∀ b ∈ c.iterators, b.ended = true) ∧ (∀ m ∈ c.models, m.alive = false) ∧
      openIds c.server = [0] ∧ ¬ Recorded c := by
  refine ⟨_, rfl, by decide, by decide, rfl, fun hRecorded => ?_⟩
  obtain ⟨k, m, hm, hAlive, -⟩ := hRecorded 0 rfl
  have hDestroyed := List.mem_singleton.mp (List.mem_of_getElem? hm)
  rw [hDestroyed] at hAlive
  cases hAlive

end Example

end Soprano
