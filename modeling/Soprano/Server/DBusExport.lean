import Mathlib.Logic.Function.Basic
import Soprano.Library.Runs
import Soprano.Qt.Text

/-! `DBusExportIterator` and `DBusExportModel`, on a bus that takes a path exactly if it is free.  The empty
path is none. -/

namespace Soprano.Server.DBusExport

/-- `DBusExportIterator::Private`, with the number of times that its iterator, whichever of the three it has,
was closed, and whether it is to be deleted. -/
structure ExportIterator where
  dbusObjectPath : QString
  dbusClient : QString
  watchedServices : List QString
  deleteOnClose : Bool
  closed : Nat
  deleteLater : Bool
deriving DecidableEq

/-- An object that can be registered: an iterator, or a model with its `dbusPath`. -/
inductive Export where
  | iterator (e : ExportIterator)
  | model (dbusPath : QString)
deriving DecidableEq

/-- `dbusObjectPath` -/
def Export.dbusObjectPath : Export → QString
  | iterator e => e.dbusObjectPath
  | model dbusPath => dbusPath

/-- The objects that there are, by the numbers that they were created with, and those that the bus has under
its paths. -/
structure State where
  objects : Nat → Option Export
  created : Nat
  bus : QString → Option Nat

namespace State

def init : State := ⟨fun _ => none, 0, fun _ => none⟩

def set (s : State) (object : Nat) (o : Export) : State :=
  { s with objects := Function.update s.objects object (some o) }

def create (s : State) (o : Export) : State :=
  { s with objects := Function.update s.objects s.created (some o), created := s.created + 1 }

/-- `QDBusConnection::registerObject` takes the path. -/
def IsFree (s : State) (path : QString) : Prop := path ≠ [] ∧ s.bus path = none

instance (s : State) (path : QString) : Decidable (s.IsFree path) :=
  inferInstanceAs (Decidable (path ≠ [] ∧ s.bus path = none))

def registerObject (s : State) (path : QString) (object : Nat) : State :=
  { s with bus := Function.update s.bus path (some object) }

/-- `QDBusConnection::unregisterObject` -/
def unregisterObject (s : State) (path : QString) : State :=
  { s with bus := Function.update s.bus path none }

end State

/-! ### `DBusExportIterator` -/

/-- `QDBusServiceWatcher::addWatchedService` -/
def addWatchedService (watchedServices : List QString) (service : QString) : List QString :=
  if service ∈ watchedServices then watchedServices else watchedServices ++ [service]

/-- The fields that `unregisterIterator` leaves. -/
def ExportIterator.unregistered (e : ExportIterator) : ExportIterator :=
  { e with
    watchedServices := e.watchedServices.erase e.dbusClient
    dbusObjectPath := []
    dbusClient := [] }

/-- `DBusExportIterator::unregisterIterator`, which unregisters the path that it has reset. -/
def unregisterIterator (s : State) (object : Nat) (e : ExportIterator) : State :=
  (s.set object (.iterator e.unregistered)).unregisterObject e.unregistered.dbusObjectPath

/-- `DBusExportIterator::registerIterator` of an iterator that has no path. -/
def registerUnregistered (s : State) (object : Nat) (e : ExportIterator) (dbusObjectPath dbusClient : QString) :
    Bool × State :=
  if s.IsFree dbusObjectPath then
    (true, (s.registerObject dbusObjectPath object).set object (.iterator
      { e with
        watchedServices := addWatchedService e.watchedServices dbusClient
        dbusObjectPath := dbusObjectPath
        dbusClient := dbusClient }))
  else (false, s.set object (.iterator { e with dbusObjectPath := [], dbusClient := [] }))

/-- `DBusExportIterator::registerIterator` -/
def registerIterator (s : State) (object : Nat) (e : ExportIterator) (dbusObjectPath dbusClient : QString) :
    Bool × State :=
  if e.dbusObjectPath ≠ [] then
    registerUnregistered (unregisterIterator s object e) object e.unregistered dbusObjectPath dbusClient
  else registerUnregistered s object e dbusObjectPath dbusClient

/-- `DBusExportIterator::Private::slotServiceUnregistered` -/
def slotServiceUnregistered (e : ExportIterator) (name : QString) : ExportIterator :=
  if name = e.dbusClient then
    { e with closed := e.closed + 1, deleteLater := e.deleteLater || e.deleteOnClose }
  else e

/-- A client disappears: the slots of the iterators that watch it are called. -/
def State.serviceUnregistered (s : State) (name : QString) : State :=
  { s with
    objects := fun object => (s.objects object).map fun
      | .iterator e => .iterator (if name ∈ e.watchedServices then slotServiceUnregistered e name else e)
      | .model dbusPath => .model dbusPath }

/-! ### `DBusExportModel` -/

/-- `DBusExportModel::registerModel` -/
def registerModel (s : State) (object : Nat) (dbusObjectPath : QString) : Bool × State :=
  if s.IsFree dbusObjectPath then
    (true, (s.registerObject dbusObjectPath object).set object (.model dbusObjectPath))
  else (false, s.set object (.model []))

/-- `DBusExportModel::unregisterModel`, which unregisters the path that it has reset. -/
def unregisterModel (s : State) (object : Nat) : State :=
  (s.set object (.model [])).unregisterObject []

/-! ### Runs -/

/-- An object that is deleted is taken off the bus. -/
def State.delete (s : State) (object : Nat) : State :=
  { s with
    objects := Function.update s.objects object none
    bus := fun path => if s.bus path = some object then none else s.bus path }

inductive Action where
  | createIterator
  | createModel
  | registerIterator (object : Nat) (dbusObjectPath dbusClient : QString)
  | unregisterIterator (object : Nat)
  | setDeleteOnClose (object : Nat) (deleteOnClose : Bool)
  | registerModel (object : Nat) (dbusObjectPath : QString)
  | unregisterModel (object : Nat)
  | serviceUnregistered (name : QString)
  /-- the event loop gets to a `deleteLater` -/
  | delete (object : Nat)

/-- What a member function of an iterator does. -/
def onIterator (s : State) (object : Nat) (f : ExportIterator → Option State) : Option State :=
  match s.objects object with
  | some (.iterator e) => f e
  | _ => none

/-- What a member function of a model does. -/
def onModel (s : State) (object : Nat) (f : Option State) : Option State :=
  match s.objects object with
  | some (.model _) => f
  | _ => none

def step (s : State) : Action → Option State
  | .createIterator => some (s.create (.iterator ⟨[], [], [], false, 0, false⟩))
  | .createModel => some (s.create (.model []))
  | .registerIterator object dbusObjectPath dbusClient =>
    onIterator s object fun e => some (registerIterator s object e dbusObjectPath dbusClient).2
  | .unregisterIterator object => onIterator s object fun e => some (unregisterIterator s object e)
  | .setDeleteOnClose object deleteOnClose =>
    onIterator s object fun e => some (s.set object (.iterator { e with deleteOnClose := deleteOnClose }))
  | .registerModel object dbusObjectPath => onModel s object (some (registerModel s object dbusObjectPath).2)
  | .unregisterModel object => onModel s object (some (unregisterModel s object))
  -- no client has an empty name
  | .serviceUnregistered name => if name = [] then none else some (s.serviceUnregistered name)
  | .delete object => onIterator s object fun e => if e.deleteLater then some (s.delete object) else none

/-- The iterator is registered for a client. -/
def ExportIterator.IsRegisteredFor (e : ExportIterator) (name : QString) : Prop :=
  e.dbusObjectPath ≠ [] ∧ e.dbusClient = name

/-- Each object is registered under its path alone, if it has one, each iterator watches its client alone, and
the disappearance of a client closes those that are registered for it. -/
structure Good (s : State) : Prop where
  registered : ∀ object o, s.objects object = some o →
    ∀ path, s.bus path = some object ↔ path = o.dbusObjectPath ∧ path ≠ []
  watched : ∀ object e, s.objects object = some (.iterator e) →
    ∀ name, name ≠ [] → (name ∈ e.watchedServices ↔ name = e.dbusClient)
  closed : ∀ object e, s.objects object = some (.iterator e) → ∀ name, name ≠ [] →
    ∃ e', (s.serviceUnregistered name).objects object = some (.iterator e') ∧
      (e.IsRegisteredFor name → e'.closed = e.closed + 1) ∧ (¬ e.IsRegisteredFor name → e'.closed = e.closed)

/-- The action registers or unregisters nothing that is registered. -/
def Unregistered (s : State) : Action → Prop
  | .registerIterator object _ _ | .unregisterIterator object =>
    ∀ e, s.objects object = some (.iterator e) → e.dbusObjectPath = []
  | .registerModel object _ | .unregisterModel object =>
    ∀ dbusPath, s.objects object = some (.model dbusPath) → dbusPath = []
  | _ => True

/-! ### What is kept -/

/-- An iterator without a path has no client, and watches its client alone. -/
def Export.Fits : Export → Prop
  | .iterator e => (e.dbusObjectPath = [] → e.dbusClient = []) ∧
      ∀ name, name ≠ [] → (name ∈ e.watchedServices ↔ name = e.dbusClient)
  | .model _ => True

structure Invariant (s : State) : Prop where
  registered : ∀ object o, s.objects object = some o →
    ∀ path, s.bus path = some object ↔ path = o.dbusObjectPath ∧ path ≠ []
  known : ∀ path object, s.bus path = some object → ∃ o, s.objects object = some o
  fresh : ∀ object, s.created ≤ object → s.objects object = none
  fits : ∀ object o, s.objects object = some o → o.Fits

variable {s s' : State} {object : Nat} {o o' : Export} {e : ExportIterator} {path client : QString}

theorem invariant_init : Invariant .init := ⟨nofun, nofun, fun _ _ => rfl, nofun⟩

theorem Invariant.bus_nil (h : Invariant s) : s.bus [] = none := by
  cases hBus : s.bus [] with
  | none => rfl
  | some object =>
    obtain ⟨o, ho⟩ := h.known [] object hBus
    exact absurd rfl ((h.registered object o ho []).mp hBus).2

/-- Nothing is registered under the empty path, so nothing is unregistered. -/
theorem Invariant.unregisterObject_nil (h : Invariant s) : Invariant (s.unregisterObject []) := by
  rw [State.unregisterObject, ← h.bus_nil, Function.update_eq_self]
  exact h

theorem State.set_self (s : State) (object : Nat) (o : Export) : (s.set object o).objects object = some o :=
  Function.update_self ..

theorem State.set_of_ne (s : State) {object other : Nat} (h : other ≠ object) (o : Export) :
    (s.set object o).objects other = s.objects other := Function.update_of_ne h ..

theorem State.of_set {other : Nat} (h : (s.set object o').objects other = some o) :
    other = object ∧ o = o' ∨ other ≠ object ∧ s.objects other = some o := by
  by_cases hSame : other = object
  · subst hSame
    rw [s.set_self] at h
    exact .inl ⟨rfl, (Option.some.inj h).symm⟩
  · exact .inr ⟨hSame, (s.set_of_ne hSame o').symm.trans h⟩

/-- An object changes, and keeps its path. -/
theorem Invariant.set (h : Invariant s) (ho : s.objects object = some o)
    (hPath : o'.dbusObjectPath = o.dbusObjectPath) (hFits : o'.Fits) : Invariant (s.set object o') := by
  refine ⟨fun other x hx path => ?_, fun path other hBus => ?_, fun other hOther => ?_, fun other x hx => ?_⟩
  · rcases State.of_set hx with ⟨rfl, rfl⟩ | ⟨-, hx⟩
    · rw [hPath]
      exact h.registered other o ho path
    · exact h.registered other x hx path
  · by_cases hSame : other = object
    · exact ⟨o', hSame ▸ s.set_self ..⟩
    · rw [s.set_of_ne hSame]
      exact h.known path other hBus
  · have hNone := h.fresh other hOther
    have hNe : other ≠ object := by
      rintro rfl
      rw [ho] at hNone
      cases hNone
    rw [s.set_of_ne hNe]
    exact hNone
  · rcases State.of_set hx with ⟨rfl, rfl⟩ | ⟨-, hx⟩
    · exact hFits
    · exact h.fits other x hx

/-- An object without a path is registered under a free one. -/
theorem Invariant.register (h : Invariant s) (ho : s.objects object = some o) (hNone : o.dbusObjectPath = [])
    (hFree : s.IsFree path) (hPath : o'.dbusObjectPath = path) (hFits : o'.Fits) :
    Invariant ((s.registerObject path object).set object o') := by
  obtain ⟨hPathNe, hBusNone⟩ := hFree
  refine ⟨fun other x hx p => ?_, fun p other hBus => ?_, fun other hOther => ?_, fun other x hx => ?_⟩
  · change Function.update s.bus path (some object) p = some other ↔ _
    rcases State.of_set hx with ⟨rfl, rfl⟩ | ⟨hNe, hx⟩
    · by_cases hp : p = path
      · subst hp
        rw [Function.update_self]
        exact iff_of_true rfl ⟨hPath.symm, hPathNe⟩
      · rw [Function.update_of_ne hp, h.registered other o ho p, hNone, hPath]
        exact iff_of_false (fun hEmpty => hEmpty.2 hEmpty.1) fun hSame => hp hSame.1
    · have hRegistered := h.registered other x hx
      by_cases hp : p = path
      · subst hp
        rw [Function.update_self, ← hRegistered, hBusNone]
        exact iff_of_false (fun hEq => hNe (Option.some.inj hEq).symm) nofun
      · rw [Function.update_of_ne hp]
        exact hRegistered p
  · by_cases hSame : other = object
    · exact ⟨o', hSame ▸ State.set_self ..⟩
    · rw [State.set_of_ne _ hSame]
      refine h.known p other ?_
      change Function.update s.bus path (some object) p = some other at hBus
      by_cases hp : p = path
      · subst hp
        rw [Function.update_self] at hBus
        exact absurd (Option.some.inj hBus).symm hSame
      · rwa [Function.update_of_ne hp] at hBus
  · have hUnknown := h.fresh other hOther
    have hNe : other ≠ object := by
      rintro rfl
      rw [ho] at hUnknown
      cases hUnknown
    rw [State.set_of_ne _ hNe]
    exact hUnknown
  · rcases State.of_set hx with ⟨rfl, rfl⟩ | ⟨-, hx⟩
    · exact hFits
    · exact h.fits other x hx

theorem Invariant.create (h : Invariant s) (hPath : o.dbusObjectPath = []) (hFits : o.Fits) :
    Invariant (s.create o) := by
  have hNew : ∀ path, s.bus path ≠ some s.created := by
    intro path hBus
    obtain ⟨x, hx⟩ := h.known path s.created hBus
    rw [h.fresh s.created (Nat.le_refl _)] at hx
    cases hx
  have hObjects : (s.create o).objects = (s.set s.created o).objects := rfl
  refine ⟨fun other x hx p => ?_, fun p other hBus => ?_, fun other hOther => ?_, fun other x hx => ?_⟩
  · rcases State.of_set hx with ⟨rfl, rfl⟩ | ⟨-, hx⟩
    · rw [hPath]
      exact iff_of_false (hNew p) fun hEmpty => hEmpty.2 hEmpty.1
    · exact h.registered other x hx p
  · obtain ⟨x, hx⟩ := h.known p other hBus
    have hNe : other ≠ s.created := by
      rintro rfl
      exact hNew p hBus
    exact ⟨x, (s.set_of_ne hNe o).trans hx⟩
  · have hLater : s.created + 1 ≤ other := hOther
    rw [hObjects, s.set_of_ne (by omega)]
    exact h.fresh other (by omega)
  · rcases State.of_set hx with ⟨rfl, rfl⟩ | ⟨-, hx⟩
    · exact hFits
    · exact h.fits other x hx

theorem Invariant.delete (h : Invariant s) (object : Nat) : Invariant (s.delete object) := by
  have hKept : ∀ {other x}, (s.delete object).objects other = some x →
      other ≠ object ∧ s.objects other = some x := by
    intro other x hx
    change Function.update s.objects object none other = some x at hx
    by_cases hSame : other = object
    · rw [hSame, Function.update_self] at hx
      cases hx
    · rw [Function.update_of_ne hSame] at hx
      exact ⟨hSame, hx⟩
  have hBusKept : ∀ {path other}, other ≠ object →
      ((s.delete object).bus path = some other ↔ s.bus path = some other) := by
    intro path other hNe
    change (if s.bus path = some object then none else s.bus path) = some other ↔ _
    split
    · next hBus =>
      rw [hBus]
      exact iff_of_false nofun fun hEq => hNe (Option.some.inj hEq).symm
    · rfl
  refine ⟨fun other x hx p => ?_, fun p other hBus => ?_, fun other hOther => ?_, fun other x hx => ?_⟩
  · obtain ⟨hNe, hx⟩ := hKept hx
    rw [hBusKept hNe]
    exact h.registered other x hx p
  · have hNe : other ≠ object := by
      rintro rfl
      change (if s.bus p = some other then none else s.bus p) = some other at hBus
      split at hBus
      · cases hBus
      · next hNot => exact hNot hBus
    obtain ⟨x, hx⟩ := h.known p other ((hBusKept hNe).mp hBus)
    exact ⟨x, (Function.update_of_ne hNe _ _).trans hx⟩
  · change Function.update s.objects object none other = none
    by_cases hSame : other = object
    · rw [hSame, Function.update_self]
    · rw [Function.update_of_ne hSame]
      exact h.fresh other hOther
  · exact h.fits other x (hKept hx).2

theorem Invariant.serviceUnregistered (h : Invariant s) (name : QString) :
    Invariant (s.serviceUnregistered name) := by
  -- the slots change neither a path nor a client nor what is watched
  have hKept : ∀ {object x}, (s.serviceUnregistered name).objects object = some x →
      ∃ o, s.objects object = some o ∧ x.dbusObjectPath = o.dbusObjectPath ∧ (o.Fits → x.Fits) := by
    intro object x hx
    obtain ⟨o, ho, rfl⟩ := Option.map_eq_some_iff.mp hx
    refine ⟨o, ho, ?_⟩
    cases o with
    | model dbusPath => exact ⟨rfl, id⟩
    | iterator e =>
      simp only [slotServiceUnregistered]
      split
      · split <;> exact ⟨rfl, id⟩
      · exact ⟨rfl, id⟩
  refine ⟨fun object x hx path => ?_, fun path object hBus => ?_, fun object hObject => ?_,
    fun object x hx => ?_⟩
  · obtain ⟨o, ho, hPath, -⟩ := hKept hx
    rw [hPath]
    exact h.registered object o ho path
  · obtain ⟨o, ho⟩ := h.known path object hBus
    exact ⟨_, Option.map_eq_some_iff.mpr ⟨o, ho, rfl⟩⟩
  · exact Option.map_eq_none_iff.mpr (h.fresh object hObject)
  · obtain ⟨o, ho, -, hFits⟩ := hKept hx
    exact hFits (h.fits object o ho)

theorem Invariant.good (h : Invariant s) : Good s := by
  refine ⟨h.registered, fun object e he => (h.fits object _ he).2, fun object e he name hName => ?_⟩
  obtain ⟨hNone, hWatched⟩ := h.fits object _ he
  refine ⟨if name ∈ e.watchedServices then slotServiceUnregistered e name else e,
    Option.map_eq_some_iff.mpr ⟨_, he, rfl⟩, fun hFor => ?_, fun hNot => ?_⟩
  · rw [if_pos ((hWatched name hName).mpr hFor.2.symm), slotServiceUnregistered, if_pos hFor.2.symm]
  · have hClient : name ≠ e.dbusClient := by
      rintro rfl
      exact hNot ⟨fun hPath => hName (hNone hPath), rfl⟩
    rw [if_neg fun hMem => hClient ((hWatched name hName).mp hMem)]

theorem mem_addWatchedService {watchedServices : List QString} {service name : QString} :
    name ∈ addWatchedService watchedServices service ↔ name ∈ watchedServices ∨ name = service := by
  rw [addWatchedService]
  split
  · next hMem =>
    refine ⟨.inl, ?_⟩
    rintro (h | rfl)
    · exact h
    · exact hMem
  · simp

theorem Invariant.registerUnregistered (h : Invariant s) (he : s.objects object = some (.iterator e))
    (hPath : e.dbusObjectPath = []) :
    Invariant (DBusExport.registerUnregistered s object e path client).2 := by
  obtain ⟨hClient, hWatched⟩ := h.fits object _ he
  rw [hClient hPath] at hWatched
  rw [DBusExport.registerUnregistered]
  split
  · next hFree =>
    refine h.register he hPath hFree rfl ⟨fun hNil => absurd hNil hFree.1, fun name hName => ?_⟩
    rw [mem_addWatchedService, hWatched name hName, or_iff_right hName]
  · exact h.set he hPath.symm ⟨fun _ => rfl, hWatched⟩

/-- An action that finds what it registers or unregisters not registered keeps the invariant. -/
theorem Invariant.step (h : Invariant s) {a : Action} (hMeets : Unregistered s a)
    (hStep : DBusExport.step s a = some s') : Invariant s' := by
  cases a with
  | createIterator =>
    cases hStep
    exact h.create rfl ⟨fun _ => rfl, by simp⟩
  | createModel =>
    cases hStep
    exact h.create rfl trivial
  | registerIterator object path client =>
    simp only [DBusExport.step, onIterator] at hStep
    split at hStep
    · next e he =>
      cases hStep
      rw [registerIterator, if_neg (not_not_intro (hMeets e he))]
      exact h.registerUnregistered he (hMeets e he)
    · cases hStep
  | unregisterIterator object =>
    simp only [DBusExport.step, onIterator] at hStep
    split at hStep
    · next e he =>
      cases hStep
      obtain ⟨hClient, hWatched⟩ := h.fits object _ he
      have hNone := hClient (hMeets e he)
      have hSet : Invariant (s.set object (.iterator e.unregistered)) := by
        refine h.set he (hMeets e he).symm ⟨fun _ => rfl, fun name hName => ?_⟩
        rw [hNone] at hWatched
        have hErase : name ∈ e.watchedServices.erase e.dbusClient ↔ name ∈ e.watchedServices := by
          rw [hNone]
          exact List.mem_erase_of_ne hName
        exact hErase.trans (hWatched name hName)
      exact hSet.unregisterObject_nil
    · cases hStep
  | setDeleteOnClose object deleteOnClose =>
    simp only [DBusExport.step, onIterator] at hStep
    split at hStep
    · next e he =>
      cases hStep
      have hFits : Export.Fits (.iterator { e with deleteOnClose := deleteOnClose }) :=
        h.fits object (.iterator e) he
      exact h.set he rfl hFits
    · cases hStep
  | registerModel object path =>
    simp only [DBusExport.step, onModel] at hStep
    split at hStep
    · next dbusPath hModel =>
      cases hStep
      rw [registerModel]
      split
      · next hFree => exact h.register hModel (hMeets dbusPath hModel) hFree rfl trivial
      · exact h.set hModel (hMeets dbusPath hModel).symm trivial
    · cases hStep
  | unregisterModel object =>
    simp only [DBusExport.step, onModel] at hStep
    split at hStep
    · next dbusPath hModel =>
      cases hStep
      have hSet : Invariant (s.set object (.model [])) := h.set hModel (hMeets dbusPath hModel).symm trivial
      exact hSet.unregisterObject_nil
    · cases hStep
  | serviceUnregistered name =>
    rw [DBusExport.step] at hStep
    split at hStep
    · cases hStep
    · cases hStep
      exact h.serviceUnregistered name
  | delete object =>
    simp only [DBusExport.step, onIterator] at hStep
    split at hStep
    · split at hStep
      · cases hStep
        exact h.delete object
      · cases hStep
    · cases hStep

/-! ### What stays on the bus -/

/-- An object that the bus has under a path that is not its own. -/
theorem not_good (ho : s.objects object = some o) (hBus : s.bus path = some object)
    (hPath : path ≠ o.dbusObjectPath) : ¬ Good s :=
  fun h => hPath ((h.registered object o ho path).mp hBus).1

theorem bus_registered (h : Invariant s) (ho : s.objects object = some o) (hPath : o.dbusObjectPath ≠ []) :
    s.bus o.dbusObjectPath = some object := (h.registered object o ho _).mpr ⟨rfl, hPath⟩

/-- A registration leaves what was on the bus, under a path that is not the object's any more. -/
theorem not_good_registered {old : QString} (hBus : s.bus old = some object)
    (hFree : s.IsFree path) (hPath : o.dbusObjectPath = path) :
    ¬ Good ((s.registerObject path object).set object o) := by
  have hNe : old ≠ path := by
    rintro rfl
    rw [hFree.2] at hBus
    cases hBus
  subst hPath
  exact not_good (State.set_self ..) ((Function.update_of_ne hNe _ _).trans hBus) hNe

theorem not_good_registerUnregistered {old : QString} (hBus : s.bus old = some object) (hOld : old ≠ []) :
    ¬ Good (DBusExport.registerUnregistered s object e path client).2 := by
  rw [DBusExport.registerUnregistered]
  split
  · next hFree => exact not_good_registered hBus hFree rfl
  · exact not_good (State.set_self ..) hBus hOld

theorem not_good_registerModel {old : QString} (hBus : s.bus old = some object) (hOld : old ≠ []) :
    ¬ Good (registerModel s object path).2 := by
  rw [registerModel]
  split
  · next hFree => exact not_good_registered hBus hFree rfl
  · exact not_good (State.set_self ..) hBus hOld

theorem bus_unregisterObject {old : QString} (hBus : s.bus old = some object) (hOld : old ≠ []) :
    (s.unregisterObject []).bus old = some object := (Function.update_of_ne hOld _ _).trans hBus

/-- An action that finds what it registers or unregisters registered leaves it on the bus under its old path. -/
theorem exists_not_good (h : Invariant s) {a : Action} (hNot : ¬ Unregistered s a) :
    ∃ s', DBusExport.step s a = some s' ∧ ¬ Good s' := by
  cases a with
  | registerIterator object path client =>
    simp only [Unregistered, not_forall] at hNot
    obtain ⟨e, he, hPath⟩ := hNot
    have hBus : (s.set object (.iterator e.unregistered)).bus e.dbusObjectPath = some object :=
      bus_registered h he hPath
    refine ⟨_, by rw [DBusExport.step, onIterator, he], ?_⟩
    rw [registerIterator, if_pos hPath]
    exact not_good_registerUnregistered (bus_unregisterObject hBus hPath) hPath
  | unregisterIterator object =>
    simp only [Unregistered, not_forall] at hNot
    obtain ⟨e, he, hPath⟩ := hNot
    have hBus : (s.set object (.iterator e.unregistered)).bus e.dbusObjectPath = some object :=
      bus_registered h he hPath
    refine ⟨_, by rw [DBusExport.step, onIterator, he], ?_⟩
    exact not_good (State.set_self ..) (bus_unregisterObject hBus hPath) hPath
  | registerModel object path =>
    simp only [Unregistered, not_forall] at hNot
    obtain ⟨dbusPath, hModel, hPath⟩ := hNot
    refine ⟨_, by rw [DBusExport.step, onModel, hModel], ?_⟩
    exact not_good_registerModel (bus_registered h hModel hPath) hPath
  | unregisterModel object =>
    simp only [Unregistered, not_forall] at hNot
    obtain ⟨dbusPath, hModel, hPath⟩ := hNot
    have hBus : (s.set object (.model [])).bus dbusPath = some object := bus_registered h hModel hPath
    refine ⟨_, by rw [DBusExport.step, onModel, hModel], ?_⟩
    exact not_good (State.set_self ..) (bus_unregisterObject hBus hPath) hPath
  | _ => exact absurd trivial hNot

/-- Along a run the bus and the objects agree exactly as long as nothing is registered or unregistered that is
registered. -/
theorem agree_iff (actions : List Action) :
    (∀ done s, done <+: actions → Runs.run DBusExport.step .init done = some s → Good s) ↔
      Runs.AllMeet DBusExport.step Unregistered .init actions :=
  Runs.good_iff_allMeet Invariant.good (fun h => h.step) (fun h hNot => exists_not_good h hNot) invariant_init

/-- A model is registered and unregistered, and stays on the bus. -/
theorem not_good_unregistered : ¬ ∀ (actions done : List Action) (s : State), done <+: actions →
    Runs.run DBusExport.step .init done = some s → Good s := by
  intro h
  obtain ⟨s, hRun, hModel, hBus⟩ : ∃ s, Runs.run DBusExport.step .init
      [.createModel, .registerModel 0 ['/', 'm'], .unregisterModel 0] = some s ∧
        s.objects 0 = some (.model []) ∧ s.bus ['/', 'm'] = some 0 := ⟨_, rfl, rfl, rfl⟩
  exact not_good hModel hBus (by decide) (h _ _ s (List.prefix_refl _) hRun)

end Soprano.Server.DBusExport
