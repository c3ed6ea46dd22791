import Soprano.Library.Runs
import Soprano.Server.ServerCore

/-! `DBusServerAdaptor` and the objects under which it exports the models of the core. -/

namespace Soprano

namespace Server

/-- A `DBusExportModel` over an `AsyncModel` over a model of the core. -/
structure DBusExportModel where
  model : Nat
  dbusPath : QString
  asyncAlive : Bool
  alive : Bool

/-- The adaptor with the core, the exports that it made and the objects that QtDBus knows by their paths;
`none` in the table is the null pointer. -/
structure DBusServerAdaptor where
  core : ServerCore
  modelDBusObjectPaths : QHash QString (Option Nat)
  exports : List DBusExportModel
  bus : QHash QString Nat

namespace DBusServerAdaptor

/-- The path of QtDBus consists of names of ASCII letters, digits and underscores. -/
def isValidObjectPath : QString → Bool
  | '/' :: path => path.isEmpty || (path.splitOn '/').all fun part =>
      !part.isEmpty && part.all fun c => c.isAlphanum || c == '_'
  | _ => false

/-- What a call is answered with. -/
inductive Reply where
  | path (objectPath : QString)
  | error (e : Error)
  | nothing

/-- A call of the adaptor, a call of the core by a thread of a connection, or a deletion that the event
loop of the adaptor's thread was asked for. -/
inductive Step where
  | createModel (name : QString)
  | removeModel (name : QString)
  | socketCreateModel (thread : Nat) (name : QString)
  | socketRemoveModel (thread : Nat) (name : QString)
  | deleteAsyncModel (e : Nat)
  | deleteExport (e : Nat)

section Methods

variable [Qt] (backend : Nat → Option Error) (dbusObjectPath : QString)

/-- `\w` contains `\d`; a character beyond the 16 bits of a `QChar` is two of them, which are no word
characters. -/
def normalizeModelName (name : QString) : QString :=
  name.flatMap fun c =>
    if c.toNat < 0x10000 then (if Qt.isWordChar c then [c] else ['_']) else ['_', '_']

/-- The path of the model's object. -/
def objectPath (name : QString) : QString :=
  dbusObjectPath ++ "/models/".toList ++ normalizeModelName name

/-- `DBusExportModel::registerModel` of the export with the number `e`, which is about to be made:
QtDBus refuses a path that is not valid or has an object. -/
def registerModel (bus : QHash QString Nat) (e : Nat) (path : QString) :
    QString × QHash QString Nat :=
  if isValidObjectPath path ∧ bus.lookup path = none then (path, bus.insert path e) else ([], bus)

/-- The thread of the adaptor. -/
def thread : Nat := 0

/-- `none` where the null pointer or a deleted export is dereferenced. -/
def createModel (σ : DBusServerAdaptor) (name : QString) : Option (Reply × DBusServerAdaptor) :=
  match σ.modelDBusObjectPaths.lookup name with
  | some it => do
    let b ← it.bind fun e => σ.exports[e]?.filter DBusExportModel.alive
    some (.path b.dbusPath, σ)
  | none =>
    match σ.core.model backend thread name with
    | (some model, core) =>
      let path := objectPath dbusObjectPath name
      let (dbusPath, bus) := registerModel σ.bus σ.exports.length path
      some (.path path, ⟨core, σ.modelDBusObjectPaths.insert name (some σ.exports.length),
        σ.exports ++ [⟨model, dbusPath, true, true⟩], bus⟩)
    | (none, core) => some (.error (core.errors.lastError thread), { σ with core := core })

/-- The destructor of an export, with which its path is free again. -/
def deleteExport (σ : DBusServerAdaptor) (e : Nat) : DBusServerAdaptor :=
  { σ with
    exports := σ.exports.modify e fun b => { b with alive := false }
    bus := σ.bus.filter fun entry => σ.bus.lookup entry.1 ≠ some e }

/-- `removeModel`, whose table gives null for a name that it does not have.  `unregisterModel` clears
the path first, so that it unregisters nothing. -/
def removeModel (σ : DBusServerAdaptor) (name : QString) : Option (Reply × DBusServerAdaptor) := do
  let core := σ.core.removeModel thread name
  let e ← (σ.modelDBusObjectPaths.lookup name).getD none
  let _ ← σ.exports[e]?.filter DBusExportModel.alive
  let τ := { σ with core := core }.deleteExport e
  let τ := { τ with modelDBusObjectPaths := τ.modelDBusObjectPaths.remove name }
  let error := core.errors.lastError thread
  some (if error.code ≠ 0 then .error error else .nothing, τ)

/-- One step.  A deleted model has its `AsyncModel` deleted later, and this its export. -/
def perform (σ : DBusServerAdaptor) : Step → Option (Reply × DBusServerAdaptor)
  | .createModel name => σ.createModel backend dbusObjectPath name
  | .removeModel name => σ.removeModel name
  | .socketCreateModel t name => some (.nothing, { σ with core := (σ.core.model backend t name).2 })
  | .socketRemoveModel t name => some (.nothing, { σ with core := σ.core.removeModel t name })
  | .deleteAsyncModel e => some (.nothing, { σ with
      exports := σ.exports.modify e fun b =>
        if b.model ∈ σ.core.alive then b else { b with asyncAlive := false } })
  | .deleteExport e =>
    match σ.exports[e]? with
    | some b => some (.nothing, if b.alive && !b.asyncAlive then σ.deleteExport e else σ)
    | none => some (.nothing, σ)

/-- The state behind a step. -/
def next (σ : DBusServerAdaptor) (s : Step) : Option DBusServerAdaptor :=
  (σ.perform backend dbusObjectPath s).map Prod.snd

end Methods

/-- The adaptor of a server that was just started. -/
def init : DBusServerAdaptor := ⟨ServerCore.init, [], [], []⟩

/-- The table has an export of the name, which is registered under the path. -/
def PathOf (σ : DBusServerAdaptor) (name path : QString) : Prop :=
  ∃ e b, σ.modelDBusObjectPaths.lookup name = some (some e) ∧ σ.exports[e]? = some b ∧
    b.dbusPath = path

/-- An export of the model that the core holds under the name is registered under the path. -/
def Exported (σ : DBusServerAdaptor) (name path : QString) : Prop :=
  ∃ e b, σ.bus.lookup path = some e ∧ σ.exports[e]? = some b ∧ b.alive = true ∧
    σ.core.models.lookup name = some (some b.model)

section Condition

variable [Qt] (dbusObjectPath : QString)

/-- The condition: a name that is not in the table has a valid path that none of the table has; a name
that is to be removed over D-Bus is in the table, and one removed over a socket is not. -/
def Step.Meets (σ : DBusServerAdaptor) : Step → Prop
  | .createModel name => σ.modelDBusObjectPaths.lookup name = none →
      isValidObjectPath (objectPath dbusObjectPath name) = true ∧
      ∀ other, σ.modelDBusObjectPaths.lookup other ≠ none →
        normalizeModelName other ≠ normalizeModelName name
  | .removeModel name => σ.modelDBusObjectPaths.lookup name ≠ none
  | .socketRemoveModel _ name => σ.modelDBusObjectPaths.lookup name = none
  | _ => True

/-- Each name of the table has a registered export of the model that the core holds under it, and
nothing else is registered. -/
structure Invariant (σ : DBusServerAdaptor) : Prop where
  owns : ServerCore.Owns σ.core
  listed : ∀ name it, σ.modelDBusObjectPaths.lookup name = some it → ∃ e b, it = some e ∧
    σ.exports[e]? = some b ∧ b.alive = true ∧ b.asyncAlive = true ∧
    b.dbusPath = objectPath dbusObjectPath name ∧
    σ.bus.lookup (objectPath dbusObjectPath name) = some e ∧
    σ.core.models.lookup name = some (some b.model)
  registered : ∀ path e, σ.bus.lookup path = some e →
    ∃ name, σ.modelDBusObjectPaths.lookup name = some (some e) ∧
      path = objectPath dbusObjectPath name

variable {dbusObjectPath} {σ τ : DBusServerAdaptor}

variable (dbusObjectPath) in
theorem invariant_init : Invariant dbusObjectPath init := by
  refine ⟨ServerCore.owns_init, ?_, ?_⟩
  · intro name it h
    cases h
  · intro path e h
    cases h

/-- No two names have one export. -/
theorem Invariant.distinct (h : Invariant dbusObjectPath σ) {name other : QString} {e : Nat}
    (hName : σ.modelDBusObjectPaths.lookup name = some (some e))
    (hOther : σ.modelDBusObjectPaths.lookup other = some (some e)) : name = other := by
  obtain ⟨d, b, hd, hb, -, -, -, -, hHeld⟩ := h.listed name _ hName
  obtain ⟨f, c, hf, hc, -, -, -, -, hHeldOther⟩ := h.listed other _ hOther
  cases hd
  cases hf
  obtain rfl : b = c := Option.some.inj (hb.symm.trans hc)
  exact h.owns.distinct name other _ hHeld hHeldOther

/-- No two names have one path. -/
theorem Invariant.objectPath_inj (h : Invariant dbusObjectPath σ) {name other : QString}
    {it it' : Option Nat} (hName : σ.modelDBusObjectPaths.lookup name = some it)
    (hOther : σ.modelDBusObjectPaths.lookup other = some it')
    (hPath : objectPath dbusObjectPath name = objectPath dbusObjectPath other) : name = other := by
  obtain ⟨e, b, rfl, -, -, -, -, hBus, -⟩ := h.listed name it hName
  obtain ⟨d, c, rfl, -, -, -, -, hBusOther, -⟩ := h.listed other it' hOther
  rw [hPath, hBusOther, Option.some.injEq] at hBus
  subst hBus
  exact h.distinct hName hOther

/-- A core that holds the same models under the names of the table. -/
theorem Invariant.setCore (h : Invariant dbusObjectPath σ) {core : ServerCore}
    (hOwns : ServerCore.Owns core)
    (hKeeps : ∀ name it m, σ.modelDBusObjectPaths.lookup name = some it →
      σ.core.models.lookup name = some m → core.models.lookup name = some m) :
    Invariant dbusObjectPath { σ with core := core } := by
  refine ⟨hOwns, fun name it hName => ?_, h.registered⟩
  obtain ⟨e, b, hIt, hb, hAlive, hAsync, hPath, hBus, hHeld⟩ := h.listed name it hName
  exact ⟨e, b, hIt, hb, hAlive, hAsync, hPath, hBus, hKeeps name it _ hName hHeld⟩

theorem Invariant.model (h : Invariant dbusObjectPath σ) (backend : Nat → Option Error)
    (t : Nat) (name : QString) :
    Invariant dbusObjectPath { σ with core := (σ.core.model backend t name).2 } := by
  obtain ⟨-, hOther, -, hName⟩ := ServerCore.model_spec backend t name σ.core
  refine h.setCore (h.owns.model name) fun other it m _ hHeld => ?_
  by_cases hEq : other = name
  · subst hEq
    exact hName m hHeld
  · rw [hOther other hEq, hHeld]

/-- An export is deleted with its names; the others keep theirs. -/
theorem Invariant.drop (h : Invariant dbusObjectPath σ) {e : Nat} (core : ServerCore)
    (table : QHash QString (Option Nat)) (hOwns : ServerCore.Owns core)
    (hTable : ∀ name it, table.lookup name = some it ↔
      σ.modelDBusObjectPaths.lookup name = some it ∧ it ≠ some e)
    (hKeeps : ∀ name it, table.lookup name = some it →
      core.models.lookup name = σ.core.models.lookup name) :
    Invariant dbusObjectPath
      { ({ σ with core := core } : DBusServerAdaptor).deleteExport e with
        modelDBusObjectPaths := table } := by
  have hBus : ∀ path d, (σ.bus.filter fun entry => decide (σ.bus.lookup entry.1 ≠ some e)).lookup path =
      some d ↔ σ.bus.lookup path = some d ∧ d ≠ e := by
    intro path d
    rw [QHash.lookup_filter (fun path => decide (σ.bus.lookup path ≠ some e))]
    by_cases hPath : σ.bus.lookup path = some e
    · simp [hPath, eq_comm]
    · simp only [hPath, ne_eq, not_false_eq_true, decide_true, if_true]
      refine ⟨fun hd => ⟨hd, ?_⟩, fun hd => hd.1⟩
      rintro rfl
      exact hPath hd
  refine ⟨hOwns, fun name it hName => ?_, fun path d hd => ?_⟩
  · obtain ⟨hBefore, hne⟩ := (hTable name it).mp hName
    obtain ⟨d, b, rfl, hb, hAlive, hAsync, hPath, hRegistered, hHeld⟩ := h.listed name it hBefore
    have hde : d ≠ e := fun hEq => hne (congrArg some hEq)
    refine ⟨d, b, rfl, ?_, hAlive, hAsync, hPath, (hBus _ d).mpr ⟨hRegistered, hde⟩, ?_⟩
    · rw [DBusServerAdaptor.deleteExport]
      simp only [List.getElem?_modify, Ne.symm hde, if_false, hb]
      rfl
    · exact (hKeeps name _ hName).trans hHeld
  · obtain ⟨hRegistered, hde⟩ := (hBus path d).mp hd
    obtain ⟨name, hName, hPath⟩ := h.registered path d hRegistered
    exact ⟨name, (hTable name _).mpr ⟨hName, fun hEq => hde (Option.some.inj hEq)⟩, hPath⟩

variable {backend : Nat → Option Error}

variable (backend) in
/-- What `createModel` answers, and what the path is then. -/
theorem Invariant.createModel (h : Invariant dbusObjectPath σ) {name : QString}
    (hMeets : (Step.createModel name).Meets dbusObjectPath σ) :
    ∃ r τ, σ.createModel backend dbusObjectPath name = some (r, τ) ∧ Invariant dbusObjectPath τ ∧
      ∀ path, r = .path path → τ.PathOf name path ∧ τ.Exported name path := by
  rw [DBusServerAdaptor.createModel]
  cases hName : σ.modelDBusObjectPaths.lookup name with
  | some it =>
    obtain ⟨e, b, rfl, hb, hAlive, -, hPath, hBus, hHeld⟩ := h.listed name it hName
    refine ⟨.path b.dbusPath, σ, ?_, h, fun path hReply => ?_⟩
    · simp only [Option.bind_some, hb, Option.filter_some_pos hAlive, Option.bind_eq_bind]
    · cases hReply
      rw [← hPath] at hBus
      exact ⟨⟨e, b, hName, hb, rfl⟩, e, b, hBus, hb, hAlive, hHeld⟩
  | none =>
    obtain ⟨hValid, hOthers⟩ := hMeets hName
    have hAfter := h.model backend thread name
    have hHeld := (ServerCore.model_spec backend thread name σ.core).1
    generalize σ.core.model backend thread name = created at hAfter hHeld
    obtain ⟨m, core⟩ := created
    cases m with
    | none =>
      refine ⟨_, _, rfl, hAfter, fun path hReply => ?_⟩
      cases hReply
    | some p =>
      have hFree : σ.bus.lookup (objectPath dbusObjectPath name) = none := by
        by_contra hTaken
        obtain ⟨e, he⟩ := Option.ne_none_iff_exists'.mp hTaken
        obtain ⟨other, hOther, hPath⟩ := h.registered _ e he
        refine hOthers other (by rw [hOther]; exact Option.some_ne_none _) ?_
        rw [objectPath, objectPath] at hPath
        exact (List.append_cancel_left hPath).symm
      have hRegister : registerModel σ.bus σ.exports.length (objectPath dbusObjectPath name) =
          (objectPath dbusObjectPath name,
            σ.bus.insert (objectPath dbusObjectPath name) σ.exports.length) :=
        if_pos ⟨hValid, hFree⟩
      simp only [hRegister]
      refine ⟨_, _, rfl, ⟨hAfter.owns, fun other it hOther => ?_, fun path e he => ?_⟩,
        fun path hReply => ?_⟩
      · rw [QHash.lookup_insert] at hOther
        split at hOther
        · rename_i hEq
          cases hOther
          subst hEq
          exact ⟨σ.exports.length, _, rfl, List.getElem?_concat_length, rfl, rfl, rfl,
            by rw [QHash.lookup_insert, if_pos rfl], hHeld⟩
        · rename_i hne
          obtain ⟨e, b, rfl, hb, hAlive, hAsync, hPath, hBus, hHeldOther⟩ :=
            hAfter.listed other it hOther
          refine ⟨e, b, rfl, ?_, hAlive, hAsync, hPath, ?_, hHeldOther⟩
          · rw [List.getElem?_append_left (List.getElem?_eq_some_iff.mp hb).1, hb]
          · rw [QHash.lookup_insert, if_neg, hBus]
            intro hEq
            rw [hEq, hFree] at hBus
            cases hBus
      · rw [QHash.lookup_insert] at he
        split at he
        · rename_i hEq
          cases he
          exact ⟨name, by rw [QHash.lookup_insert, if_pos rfl], hEq⟩
        · obtain ⟨other, hOther, hPath⟩ := h.registered path e he
          refine ⟨other, ?_, hPath⟩
          rw [QHash.lookup_insert, if_neg, hOther]
          rintro rfl
          rw [hName] at hOther
          cases hOther
      · cases hReply
        refine ⟨⟨σ.exports.length, _, by rw [QHash.lookup_insert, if_pos rfl],
          List.getElem?_concat_length, rfl⟩, σ.exports.length, _, ?_,
          List.getElem?_concat_length, rfl, hHeld⟩
        rw [QHash.lookup_insert, if_pos rfl]

/-- The other names keep their objects. -/
theorem Invariant.removeModel (h : Invariant dbusObjectPath σ) {name : QString}
    (hMeets : (Step.removeModel name).Meets dbusObjectPath σ) :
    ∃ r τ, σ.removeModel name = some (r, τ) ∧ Invariant dbusObjectPath τ ∧
      τ.modelDBusObjectPaths.lookup name = none ∧
      ∀ other, other ≠ name → ∀ path, σ.PathOf other path →
        τ.PathOf other path ∧ τ.Exported other path := by
  obtain ⟨it, hName⟩ := Option.ne_none_iff_exists'.mp hMeets
  obtain ⟨e, b, rfl, hb, hAlive, -, -, -, -⟩ := h.listed name it hName
  have hTable : ∀ other it, (σ.modelDBusObjectPaths.remove name).lookup other = some it ↔
      σ.modelDBusObjectPaths.lookup other = some it ∧ it ≠ some e := by
    intro other it
    rw [QHash.lookup_remove]
    by_cases hOther : other = name
    · subst hOther
      rw [if_pos rfl, hName]
      refine ⟨nofun, fun hSome => ?_⟩
      exact absurd (Option.some.inj hSome.1).symm hSome.2
    · rw [if_neg hOther]
      refine ⟨fun hSome => ⟨hSome, ?_⟩, fun hSome => hSome.1⟩
      rintro rfl
      exact hOther (h.distinct hSome hName)
  have hAfter : Invariant dbusObjectPath
      { ({ σ with core := σ.core.removeModel thread name } : DBusServerAdaptor).deleteExport e with
        modelDBusObjectPaths := σ.modelDBusObjectPaths.remove name } := by
    refine h.drop _ _ (h.owns.removeModel _ name) hTable fun other it hOther => ?_
    rw [ServerCore.lookup_removeModel, if_neg]
    rintro rfl
    rw [QHash.lookup_remove, if_pos rfl] at hOther
    cases hOther
  obtain ⟨r, hCall⟩ : ∃ r, σ.removeModel name = some (r,
      { ({ σ with core := σ.core.removeModel thread name } : DBusServerAdaptor).deleteExport e with
        modelDBusObjectPaths := σ.modelDBusObjectPaths.remove name }) := by
    rw [DBusServerAdaptor.removeModel, hName]
    simp only [Option.getD_some, hb, Option.filter_some_pos hAlive, Option.bind_eq_bind,
      Option.bind_some]
    exact ⟨_, rfl⟩
  refine ⟨r, _, hCall, hAfter, by rw [QHash.lookup_remove, if_pos rfl], ?_⟩
  intro other hOther path hPath
  obtain ⟨d, c, hd, hc, hcPath⟩ := hPath
  have hListed : (σ.modelDBusObjectPaths.remove name).lookup other = some (some d) := by
    rw [QHash.lookup_remove, if_neg hOther, hd]
  obtain ⟨f, c', hf, hc', hAlive', -, hPath', hBus', hHeld'⟩ := hAfter.listed other _ hListed
  obtain ⟨d', c'', hd', hc'', -, -, hPath'', -, -⟩ := h.listed other _ hd
  cases hf
  cases hd'
  obtain rfl : c = c'' := Option.some.inj (hc.symm.trans hc'')
  have hEq : path = objectPath dbusObjectPath other := hcPath.symm.trans hPath''
  subst hEq
  exact ⟨⟨d, c', hListed, hc', hPath'⟩, d, c', hBus', hc', hAlive', hHeld'⟩

/-- Each step that meets the condition dereferences no null pointer and no deleted export. -/
theorem Invariant.next (h : Invariant dbusObjectPath σ) {s : Step} (hMeets : s.Meets dbusObjectPath σ) :
    ∃ τ, σ.next backend dbusObjectPath s = some τ ∧ Invariant dbusObjectPath τ := by
  cases s with
  | createModel name =>
    obtain ⟨r, τ, hCall, hAfter, -⟩ := h.createModel backend hMeets
    exact ⟨τ, by rw [DBusServerAdaptor.next, perform, hCall]; rfl, hAfter⟩
  | removeModel name =>
    obtain ⟨r, τ, hCall, hAfter, -⟩ := h.removeModel hMeets
    exact ⟨τ, by rw [DBusServerAdaptor.next, perform, hCall]; rfl, hAfter⟩
  | socketCreateModel t name => exact ⟨_, rfl, h.model backend t name⟩
  | socketRemoveModel t name =>
    refine ⟨_, rfl, h.setCore (h.owns.removeModel _ name) fun other it m hOther hHeld => ?_⟩
    rw [ServerCore.lookup_removeModel, if_neg, hHeld]
    rintro rfl
    have hNone : σ.modelDBusObjectPaths.lookup other = none := hMeets
    rw [hNone] at hOther
    cases hOther
  | deleteAsyncModel e =>
    refine ⟨_, rfl, h.owns, fun name it hName => ?_, h.registered⟩
    obtain ⟨d, b, hIt, hb, hRest⟩ := h.listed name it hName
    have hHeld := hRest.2.2.2.2
    refine ⟨d, b, hIt, ?_, hRest⟩
    rw [List.getElem?_modify, hb]
    simp [h.owns.alive name _ hHeld]
  | deleteExport e =>
    rw [DBusServerAdaptor.next, perform]
    cases hb : σ.exports[e]? with
    | none => exact ⟨σ, rfl, h⟩
    | some b =>
      refine ⟨_, rfl, ?_⟩
      simp only
      split
      · rename_i hDead
        refine h.drop σ.core σ.modelDBusObjectPaths h.owns
          (fun name it => ⟨fun hName => ⟨hName, ?_⟩, fun hName => hName.1⟩) fun _ _ _ => rfl
        -- A listed export has its `AsyncModel`.
        rintro rfl
        obtain ⟨d, c, hd, hc, -, hAsync, -⟩ := h.listed name _ hName
        cases hd
        obtain rfl : b = c := Option.some.inj (hb.symm.trans hc)
        simp [hAsync] at hDead
      · exact h

/-- A run whose steps meet the condition dereferences no null pointer and no deleted export.  In each of
its states no two names have a path in common; a path that `createModel` then returns is that of an
export of the model that the core holds under the name; and `removeModel` then removes the name and
leaves the other names their objects. -/
theorem dbusModels_exported {steps : List Step}
    (hMeets : Runs.AllMeet (next backend dbusObjectPath) (fun σ s => s.Meets dbusObjectPath σ)
      init steps) :
    ∃ σ, Runs.run (next backend dbusObjectPath) init steps = some σ ∧
      (∀ name other path, σ.PathOf name path → σ.PathOf other path → name = other) ∧
      (∀ name, (Step.createModel name).Meets dbusObjectPath σ → ∃ r τ,
        σ.perform backend dbusObjectPath (.createModel name) = some (r, τ) ∧
        ∀ path, r = .path path → τ.PathOf name path ∧ τ.Exported name path) ∧
      ∀ name, (Step.removeModel name).Meets dbusObjectPath σ → ∃ r τ,
        σ.perform backend dbusObjectPath (.removeModel name) = some (r, τ) ∧
        τ.modelDBusObjectPaths.lookup name = none ∧
        ∀ other, other ≠ name → ∀ path, σ.PathOf other path →
          τ.PathOf other path ∧ τ.Exported other path := by
  obtain ⟨σ, hRun, h⟩ := Runs.exists_run (fun h hMeets => Invariant.next h hMeets)
    (invariant_init dbusObjectPath) hMeets
  refine ⟨σ, hRun, fun name other path hName hOther => ?_, fun name hName => ?_,
    fun name hName => ?_⟩
  · obtain ⟨e, b, he, hb, rfl⟩ := hName
    obtain ⟨d, c, hd, hc, hPath⟩ := hOther
    obtain ⟨e', b', hEq, hb', -, -, hbPath, -⟩ := h.listed name _ he
    obtain ⟨d', c', hEq', hc', -, -, hcPath, -⟩ := h.listed other _ hd
    cases hEq
    cases hEq'
    obtain rfl : b = b' := Option.some.inj (hb.symm.trans hb')
    obtain rfl : c = c' := Option.some.inj (hc.symm.trans hc')
    exact h.objectPath_inj he hd (hbPath.symm.trans (hPath.symm.trans hcPath))
  · obtain ⟨r, τ, hCall, -, hPath⟩ := h.createModel backend hName
    exact ⟨r, τ, hCall, hPath⟩
  · obtain ⟨r, τ, hCall, -, hGone, hOthers⟩ := h.removeModel hName
    exact ⟨r, τ, hCall, hGone, hOthers⟩

end Condition

end DBusServerAdaptor

end Server

section Example

local instance dbusServerQt : Qt := asciiQt

open Server DBusServerAdaptor

/-- The path of "a b" is free for "a_b" after its removal. -/
theorem dbusModels_exported_removed :
    let server : QString := "/org/soprano/Server".toList
    let backend : Nat → Option Error := fun _ => none
    let steps : List DBusServerAdaptor.Step := [.createModel "a b".toList,
      .removeModel "a b".toList, .createModel "a_b".toList, .deleteAsyncModel 0,
      .socketCreateModel 1 "d".toList, .socketRemoveModel 1 "d".toList]
    let path := "/org/soprano/Server/models/a_b".toList
    ∃ σ r τ, Runs.run (next backend server) init steps = some σ ∧
      σ.perform backend server (.createModel "a_b".toList) = some (r, τ) ∧ r = .path path ∧
      τ.Exported "a_b".toList path := by
  intro server backend steps path
  have hMeets : Runs.AllMeet (next backend server) (fun σ s => s.Meets server σ) init steps :=
    .cons (fun _ => ⟨by decide, fun other h => absurd rfl h⟩) rfl
      (.cons (Option.some_ne_none _) rfl
      (.cons (fun _ => ⟨by decide, fun other h => absurd rfl h⟩) rfl
      (.cons trivial rfl (.cons trivial rfl (.cons rfl rfl trivial)))))
  obtain ⟨σ, hRun, -, hCreate, -⟩ := dbusModels_exported hMeets
  have hSecond : (DBusServerAdaptor.Step.createModel "a_b".toList).Meets server σ := by
    cases hRun
    intro hNone
    cases hNone
  obtain ⟨r, τ, hCall, hExported⟩ := hCreate _ hSecond
  have hPath : r = .path path := by
    cases hRun
    cases hCall
    rfl
  exact ⟨σ, r, τ, hRun, hCall, hPath, (hExported path hPath).2⟩

/-- The path of "a_b" is that of the object of "a b"; a name that is not in the table, and one whose
model was removed over a socket, crash the server. -/
theorem dbusModels_shared_path :
    let server : QString := "/org/soprano/Server".toList
    let backend : Nat → Option Error := fun _ => none
    let path := "/org/soprano/Server/models/a_b".toList
    (∃ σ τ, Runs.run (next backend server) init [.createModel "a b".toList] = some σ ∧
      σ.perform backend server (.createModel "a_b".toList) = some (.path path, τ) ∧
      ¬ τ.Exported "a_b".toList path ∧ τ.Exported "a b".toList path) ∧
    init.perform backend server (.removeModel "a".toList) = none ∧
    ∃ σ, Runs.run (next backend server) init [.createModel "a".toList,
        .socketRemoveModel 1 "a".toList, .deleteAsyncModel 0, .deleteExport 0] = some σ ∧
      σ.perform backend server (.createModel "a".toList) = none ∧
      σ.perform backend server (.removeModel "a".toList) = none := by
  intro server backend path
  refine ⟨⟨_, _, rfl, rfl, ?_, 0, _, rfl, rfl, rfl, rfl⟩, rfl, _, rfl, rfl, rfl⟩
  rintro ⟨e, b, he, hb, -, hHeld⟩
  cases he
  cases hb
  cases hHeld

end Example

end Soprano
