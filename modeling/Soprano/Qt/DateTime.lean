import Soprano.Qt.Text
import Soprano.Library.Calendar

/-! `QDate`, `QTime` and `QDateTime`.  A null value is `none`.  A `QDateTime` is represented by its
date and time in UTC: the modelled code compares instants, converts to UTC before it prints, and
never asks for the time specification. -/

namespace Soprano

/-- The calendar has no year 0: the year before 1 is -1.  The year as the calendar counts on. -/
def astronomicalYear (year : Int) : Int := if year < 0 then year + 1 else year

/-- The year of the calendar without a year 0. -/
def civilYear (astronomical : Int) : Int :=
  if astronomical ≤ 0 then astronomical - 1 else astronomical

theorem civilYear_astronomicalYear {year : Int} (h : year ≠ 0) :
    civilYear (astronomicalYear year) = year := by
  unfold civilYear astronomicalYear
  split <;> split <;> omega

/-- `QDate::isValid( year, month, day )` -/
def validDate (year : Int) (month day : Nat) : Prop :=
  year ≠ 0 ∧ year.natAbs < 2 ^ 31 ∧ (1 ≤ month ∧ month ≤ 12) ∧
    (1 ≤ day ∧ day ≤ Calendar.daysInMonth (astronomicalYear year) month)

instance (year : Int) (month day : Nat) : Decidable (validDate year month day) := by
  unfold validDate
  infer_instance

/-- A valid date. -/
structure CivilDate where
  year : Int
  month : Nat
  day : Nat
  valid : validDate year month day
deriving DecidableEq

/-- A valid time of day. -/
structure ClockTime where
  hour : Nat
  minute : Nat
  second : Nat
  msec : Nat
  valid : hour < 24 ∧ minute < 60 ∧ second < 60 ∧ msec < 1000
deriving DecidableEq

abbrev QDate : Type := Option CivilDate

abbrev QTime : Type := Option ClockTime

structure QDateTime where
  date : QDate
  time : QTime
deriving DecidableEq

/-- `QDate( y, m, d )` -/
def QDate.ofYmd (year month day : Int) : QDate :=
  if h : 0 ≤ month ∧ 0 ≤ day ∧ validDate year month.toNat day.toNat then
    some ⟨year, month.toNat, day.toNat, h.2.2⟩
  else none

/-- `QTime( h, m, s, ms )` -/
def QTime.ofHms (hour minute second msec : Int) : QTime :=
  if h : 0 ≤ hour ∧ 0 ≤ minute ∧ 0 ≤ second ∧ 0 ≤ msec ∧
      (hour.toNat < 24 ∧ minute.toNat < 60 ∧ second.toNat < 60 ∧ msec.toNat < 1000) then
    some ⟨hour.toNat, minute.toNat, second.toNat, msec.toNat, h.2.2.2.2⟩
  else none

@[simp] theorem QDate.ofYmd_self (d : CivilDate) :
    QDate.ofYmd d.year d.month d.day = some d := by
  rw [QDate.ofYmd, dif_pos ⟨by omega, by omega, d.valid⟩]
  rfl

@[simp] theorem QTime.ofHms_self (t : ClockTime) :
    QTime.ofHms t.hour t.minute t.second t.msec = some t := by
  rw [QTime.ofHms, dif_pos ⟨by omega, by omega, by omega, by omega, t.valid⟩]
  rfl

/-- The milliseconds since midnight. -/
def ClockTime.msecs (t : ClockTime) : Nat :=
  ((t.hour * 60 + t.minute) * 60 + t.second) * 1000 + t.msec

/-- `QTime::addSecs`, which wraps at midnight. -/
def QTime.addSecs (time : QTime) (seconds : Int) : QTime :=
  match time with
  | none => none
  | some t =>
    let msecs := (t.msecs + seconds * 1000) % 86400000
    QTime.ofHms (msecs / 3600000) (msecs / 60000 % 60) (msecs / 1000 % 60) (msecs % 1000)

/-- `QDateTime( date, time, Qt::UTC )`: a missing time is midnight. -/
def QDateTime.ofUtc (date : QDate) (time : QTime) : QDateTime :=
  if date.isSome && time.isNone then ⟨date, QTime.ofHms 0 0 0 0⟩ else ⟨date, time⟩

/-- `QDateTime::isValid` -/
def QDateTime.isValid (dt : QDateTime) : Bool := dt.date.isSome && dt.time.isSome

/-- The number of the day on which the seconds of `toTime_t` start. -/
def epochDay : Int := Calendar.dayNumber 1970 1 1

/-- The whole seconds between 1970-01-01T00:00:00Z and a valid instant. -/
def secondsSinceEpoch (d : CivilDate) (t : ClockTime) : Int :=
  (Calendar.dayNumber (astronomicalYear d.year) d.month d.day - epochDay) * 86400 +
    ((t.hour * 60 + t.minute) * 60 + t.second : Nat)

/-- `QDateTime::toTime_t`: the seconds since 1970 where they fit, and else `uint( -1 )`. -/
def QDateTime.toTime_t (dt : QDateTime) : UInt32 :=
  match dt.date, dt.time with
  | some d, some t =>
    let seconds := secondsSinceEpoch d t
    if 0 ≤ seconds ∧ seconds < 2 ^ 32 then UInt32.ofNat seconds.toNat else 0xffffffff
  | _, _ => 0xffffffff

/-- `QDateTime::fromTime_t` -/
def QDateTime.fromTime_t (seconds : UInt32) : QDateTime :=
  let (year, month, day) := Calendar.civil (epochDay + (seconds.toNat / 86400 : Nat))
  let second := seconds.toNat % 86400
  ⟨QDate.ofYmd (civilYear year) month day,
    QTime.ofHms (second / 3600 : Nat) (second / 60 % 60 : Nat) (second % 60 : Nat) 0⟩

/-- A whole number of seconds since 1970 that fits in 32 bits. -/
def QDateTime.WholeSeconds (dt : QDateTime) : Prop :=
  ∃ d t, dt.date = some d ∧ dt.time = some t ∧ t.msec = 0 ∧
    0 ≤ secondsSinceEpoch d t ∧ secondsSinceEpoch d t < 2 ^ 32

theorem Calendar.civil_civilDate (d : CivilDate) :
    Calendar.civil (Calendar.dayNumber (astronomicalYear d.year) d.month d.day) =
      (astronomicalYear d.year, d.month, d.day) :=
  Calendar.civil_dayNumber d.valid.2.2.1 d.valid.2.2.2

/-- The time of day of a second of the day. -/
theorem QTime.ofHms_second {t : ClockTime} (h : t.msec = 0) {second : Nat}
    (hs : second = (t.hour * 60 + t.minute) * 60 + t.second) :
    QTime.ofHms (second / 3600 : Nat) (second / 60 % 60 : Nat) (second % 60 : Nat) 0 = some t := by
  have hClock := t.valid
  have hHour : second / 3600 = t.hour := by omega
  have hMinute : second / 60 % 60 = t.minute := by omega
  have hSecond : second % 60 = t.second := by omega
  rw [hHour, hMinute, hSecond, show (0 : Int) = (t.msec : Int) by omega, QTime.ofHms_self]

theorem QDateTime.fromTime_t_toTime_t {dt : QDateTime} (h : dt.WholeSeconds) :
    fromTime_t dt.toTime_t = dt := by
  obtain ⟨date, time⟩ := dt
  obtain ⟨d, t, rfl, rfl, hmsec, hLow, hHigh⟩ := h
  have hClock := t.valid
  have hSeconds : (toTime_t ⟨some d, some t⟩).toNat = (secondsSinceEpoch d t).toNat := by
    simp only [toTime_t, if_pos (And.intro hLow hHigh)]
    rw [UInt32.toNat_ofNat_of_lt' (by simp [UInt32.size]; omega)]
  have hDay : epochDay + ((toTime_t ⟨some d, some t⟩).toNat / 86400 : Nat) =
      Calendar.dayNumber (astronomicalYear d.year) d.month d.day := by
    rw [hSeconds]
    unfold secondsSinceEpoch at hLow ⊢
    omega
  have hSecond : (toTime_t ⟨some d, some t⟩).toNat % 86400 =
      (t.hour * 60 + t.minute) * 60 + t.second := by
    rw [hSeconds]
    unfold secondsSinceEpoch at hLow ⊢
    omega
  unfold fromTime_t
  rw [hDay, Calendar.civil_civilDate]
  simp only [QTime.ofHms_second hmsec hSecond, civilYear_astronomicalYear d.valid.1,
    QDate.ofYmd_self]

theorem QDateTime.wholeSeconds_last : (fromTime_t 0xffffffff).WholeSeconds := by
  have h : fromTime_t 0xffffffff =
      ⟨some ⟨2106, 2, 7, by decide⟩, some ⟨6, 28, 15, 0, by decide⟩⟩ := by decide
  rw [h]
  exact ⟨_, _, rfl, rfl, rfl, by decide, by decide⟩

/-- The instants that survive a conversion to whole seconds since 1970 and back. -/
theorem QDateTime.fromTime_t_toTime_t_iff (dt : QDateTime) :
    fromTime_t dt.toTime_t = dt ↔ dt.WholeSeconds := by
  refine ⟨fun h => ?_, fromTime_t_toTime_t⟩
  obtain ⟨date, time⟩ := dt
  cases date with
  | none => exact h ▸ wholeSeconds_last
  | some d =>
    cases time with
    | none => exact h ▸ wholeSeconds_last
    | some t =>
      by_cases hRange : 0 ≤ secondsSinceEpoch d t ∧ secondsSinceEpoch d t < 2 ^ 32
      · refine ⟨d, t, rfl, rfl, ?_, hRange⟩
        have hTime := congrArg QDateTime.time h
        simp only [fromTime_t, QTime.ofHms] at hTime
        split at hTime
        · exact (congrArg ClockTime.msec (Option.some.inj hTime)).symm
        · cases hTime
      · have hLast : toTime_t ⟨some d, some t⟩ = 0xffffffff := by
          simp only [toTime_t, if_neg hRange]
        rw [hLast] at h
        exact h ▸ wholeSeconds_last

end Soprano
