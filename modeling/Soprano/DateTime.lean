import Soprano.Qt.DateTime
import Mathlib.Data.List.DropRight

/-! `Soprano::DateTime`: the lexical forms of XML Schema dates, times and date-times, and the proof
that each valid value is read back from its own text. -/

namespace Soprano

namespace QString

/-- `QString::mid` -/
def mid (s : QString) (position count : Nat) : QString := (s.drop position).take count

/-- `QString::indexOf` of a character, from a position on. -/
def indexOf (s : QString) (c : Char) (start : Nat) : Option Nat :=
  ((s.drop start).findIdx? (· == c)).map (· + start)

/-- `QString::mid` of any position and count; a negative count goes to the end. -/
def midAt (s : QString) (position count : Int) : QString :=
  let count := if count < 0 then s.length - position else count
  if position < 0 then s.take (count + position).toNat
  else (s.drop position.toNat).take count.toNat

/-- `QString::indexOf` from any position on, -1 where there is none. -/
def indexOfAt (s : QString) (c : Char) (start : Int) : Int :=
  let start := if start < 0 then max (start + s.length) 0 else start
  match s.indexOf c start.toNat with
  | some i => i
  | none => -1

/-- `QString::leftJustified` -/
def leftJustified (s : QString) (width : Nat) (fill : Char) : QString :=
  s ++ List.replicate (width - s.length) fill

theorem findIdx?_append {p : Char → Bool} {s t : QString} {c : Char} (h : ∀ d ∈ s, p d = false)
    (hc : p c = true) : (s ++ c :: t).findIdx? p = some s.length := by
  induction s with
  | nil => simp [List.findIdx?_cons, hc]
  | cons d s ih =>
    rw [List.cons_append, List.findIdx?_cons, ih fun e he => h e (by simp [he])]
    simp [h d (by simp)]

/-- The first occurrence of a character behind text that does not hold it. -/
theorem indexOf_of_drop {s before after : QString} {c : Char} {start : Nat}
    (hDrop : s.drop start = before ++ c :: after) (h : c ∉ before) :
    s.indexOf c start = some (start + before.length) := by
  unfold indexOf
  have hBefore : ∀ d ∈ before, (d == c) = false := fun d hd => by
    rw [beq_eq_false_iff_ne]
    rintro rfl
    exact h hd
  rw [hDrop, findIdx?_append hBefore (by simp), Option.map_some, Nat.add_comm]

end QString

namespace DateTime

open QString

/-- The offset of a time zone that stands at the end of a time, in seconds.  The outer `none` is an
invalid zone. -/
def zoneSeconds (s : QString) (pos : Nat) : Option Int :=
  if s.length ≠ pos + 6 then none
  else
    match s[pos]? with
    | some '+' => do
      let hh ← toInt (s.mid (pos + 1) 2)
      let mm ← toInt (s.mid (pos + 4) 2)
      pure (-1 * (60 * (60 * hh.toInt + mm.toInt)))
    | some '-' => do
      let hh ← toInt (s.mid (pos + 1) 2)
      let mm ← toInt (s.mid (pos + 4) 2)
      pure (60 * (60 * hh.toInt + mm.toInt))
    | _ => none

/-- The digits of the fraction of seconds, where there is one. -/
def fraction (s : QString) : Option QString :=
  if s[8]? = some '.' ∨ s[8]? = some ',' then some ((s.drop 9).takeWhile Char.isDigit) else none

/-- `DateTime::fromTimeString` -/
def fromTimeString (s : QString) : QTime :=
  if s.length < 8 ∨ s[2]? ≠ some ':' ∨ s[5]? ≠ some ':' then none
  else do
    let hh ← toInt (s.mid 0 2)
    let mm ← toInt (s.mid 3 2)
    let ss ← toInt (s.mid 6 2)
    let z ← match fraction s with
      | some digits => toInt (digits.leftJustified 3 '0')
      | none => some 0
    let pos := match fraction s with
      | some digits => 9 + digits.length
      | none => 8
    let t := QTime.ofHms hh.toInt mm.toInt ss.toInt z.toInt
    if pos = s.length ∨ s[pos]? = some 'Z' then t
    else do
      let seconds ← zoneSeconds s pos
      t.addSecs seconds

/-- `DateTime::fromDateString` -/
def fromDateString (s : QString) : QDate := do
  let yLen := s.indexOf '-' 1
  let y ← toInt (match yLen with
    | some n => s.mid 0 n
    | none => s)
  let pos := match yLen with
    | some n => n + 1
    | none => 0
  let m ← toInt (s.mid pos 2)
  let d ← toInt (s.mid (pos + 3) 2)
  QDate.ofYmd y.toInt m.toInt d.toInt

/-- `DateTime::fromDateTimeString`: the time follows a `T` or, failing that, a space. -/
def fromDateTimeString (s : QString) : QDateTime :=
  let pos := (s.indexOf 'T' 0).or (s.indexOf ' ' 0)
  let date := fromDateString (match pos with
    | some n => s.mid 0 n
    | none => s)
  match date, pos with
  | none, _ => ⟨none, none⟩
  | some d, some (n + 1) =>
    match fromTimeString (s.drop (n + 2)) with
    | none => ⟨none, none⟩
    | some t => QDateTime.ofUtc (some d) (some t)
  | some d, _ => QDateTime.ofUtc (some d) none

/-- The fraction of seconds of a time, without trailing zeros. -/
def fractionText (msec : Nat) : QString :=
  if 0 < msec then ('.' :: padded 3 msec).rdropWhile (· == '0') else []

/-- `DateTime::toString( QTime )` -/
def timeToString (time : QTime) : QString :=
  match time with
  | some t =>
    padded 2 t.hour ++ ':' :: (padded 2 t.minute ++ ':' :: (padded 2 t.second ++
      (fractionText t.msec ++ ['Z'])))
  | none => ['Z']

/-- The text of a year, a month and a day. -/
def ymdToString (year : Int) (month day : Nat) : QString :=
  (if year < 0 then ['-'] else []) ++ (padded 4 year.natAbs ++ '-' :: (padded 2 month ++
    '-' :: padded 2 day))

/-- `DateTime::toString( QDate )`: a null date has year, month and day 0. -/
def dateToString (date : QDate) : QString :=
  match date with
  | some d => ymdToString d.year d.month d.day
  | none => ymdToString 0 0 0

/-- `DateTime::toString( QDateTime )` -/
def dateTimeToString (dt : QDateTime) : QString :=
  dateToString dt.date ++ 'T' :: timeToString dt.time

/-! ### Times -/

theorem length_padded {width n : Nat} (h : n < 10 ^ width) (hw : 0 < width) :
    (padded width n).length = width := by
  have := (Nat.length_toDigits_le_iff (n := n) (k := width) (by decide : 1 < 10) hw).mpr h
  simp only [padded, natural, List.length_append, List.length_replicate]
  omega

theorem padded_two {n : Nat} (h : n < 100) : ∃ a b, padded 2 n = [a, b] :=
  List.length_eq_two.mp (length_padded (by simpa using h) (by decide))

/-- A padded number is read as a number with its value. -/
theorem exists_toInt_padded (width : Nat) {n : Nat} (h : n < 2 ^ 31) :
    ∃ v : Int32, toInt (padded width n) = some v ∧ v.toInt = n :=
  ⟨_, toInt_padded h, Int32.toInt_ofInt_of_le (by simp) (by simp; omega)⟩

/-- Restoring the zeros that were dropped from the end of a text. -/
theorem leftJustified_rdropWhile (l : QString) :
    leftJustified (l.rdropWhile (· == '0')) l.length '0' = l := by
  unfold leftJustified
  induction l using List.reverseRecOn with
  | nil => rfl
  | append_singleton l c ih =>
    rw [List.rdropWhile_concat]
    split
    · rename_i h
      have hle := (List.rdropWhile_prefix (· == '0') (l := l)).length_le
      rw [List.length_append, List.length_singleton,
        show l.length + 1 - (l.rdropWhile (· == '0')).length =
          l.length - (l.rdropWhile (· == '0')).length + 1 by omega,
        List.replicate_succ', ← List.append_assoc, ih, beq_iff_eq.mp h]
    · simp

theorem rdropWhile_cons {p : Char → Bool} {c : Char} (h : p c = false) (l : QString) :
    (c :: l).rdropWhile p = c :: l.rdropWhile p := by
  induction l using List.reverseRecOn with
  | nil => simp [List.rdropWhile, h]
  | append_singleton l d ih =>
    rw [← List.cons_append, List.rdropWhile_concat, List.rdropWhile_concat, ih]
    split <;> rfl

/-- The digits of the fraction of a time that has one. -/
theorem fractionText_of_pos {msec : Nat} (h : 0 < msec) :
    fractionText msec = '.' :: (padded 3 msec).rdropWhile (· == '0') := by
  rw [fractionText, if_pos h, rdropWhile_cons (by rfl)]

theorem takeWhile_isDigit {f : QString} (h : ∀ c ∈ f, c.isDigit = true) (t : QString) :
    (f ++ 'Z' :: t).takeWhile Char.isDigit = f := by
  rw [List.takeWhile_append_of_pos h]
  simp [show Char.isDigit 'Z' = false from rfl]

theorem leftJustified_fraction {msec : Nat} (h : msec < 1000) :
    leftJustified ((padded 3 msec).rdropWhile (· == '0')) 3 '0' = padded 3 msec := by
  have := leftJustified_rdropWhile (padded 3 msec)
  rwa [length_padded (show msec < 10 ^ 3 by omega) (by decide)] at this

/-- The text of a valid time is read as that time. -/
theorem fromTimeString_timeToString (t : ClockTime) :
    fromTimeString (timeToString (some t)) = some t := by
  obtain ⟨hHour, hMinute, hSecond, hMsec⟩ := t.valid
  obtain ⟨h₁, h₂, hh⟩ := padded_two (n := t.hour) (by omega)
  obtain ⟨m₁, m₂, hm⟩ := padded_two (n := t.minute) (by omega)
  obtain ⟨s₁, s₂, hs⟩ := padded_two (n := t.second) (by omega)
  obtain ⟨hour, hReadHour, hHour'⟩ := exists_toInt_padded 2 (n := t.hour) (by omega)
  obtain ⟨minute, hReadMinute, hMinute'⟩ :=
    exists_toInt_padded 2 (n := t.minute) (by omega)
  obtain ⟨second, hReadSecond, hSecond'⟩ :=
    exists_toInt_padded 2 (n := t.second) (by omega)
  obtain ⟨msec, hReadMsec, hMsec'⟩ := exists_toInt_padded 3 (n := t.msec) (by omega)
  rw [hh] at hReadHour
  rw [hm] at hReadMinute
  rw [hs] at hReadSecond
  have hText : timeToString (some t) =
      h₁ :: h₂ :: ':' :: m₁ :: m₂ :: ':' :: s₁ :: s₂ :: (fractionText t.msec ++ ['Z']) := by
    simp [timeToString, hh, hm, hs]
  rw [hText, fromTimeString, if_neg (by simp)]
  simp only [mid, List.drop_zero, List.drop_succ_cons, List.take_succ_cons, List.take_zero,
    hReadHour, hReadMinute, hReadSecond]
  rcases Nat.eq_zero_or_pos t.msec with h0 | hpos
  · have hNone : fraction (h₁ :: h₂ :: ':' :: m₁ :: m₂ :: ':' :: s₁ :: s₂ ::
        (fractionText t.msec ++ ['Z'])) = none := by
      simp [fraction, fractionText, h0]
    have hTime := QTime.ofHms_self t
    rw [h0] at hTime
    rw [hNone]
    simpa [fractionText, h0, hHour', hMinute', hSecond'] using hTime
  · have hDigits : ∀ c ∈ (padded 3 t.msec).rdropWhile (· == '0'), c.isDigit = true := fun c hc =>
      (digits_padded 3 t.msec).2 c ((List.rdropWhile_prefix _ _).subset hc)
    have hSome : fraction (h₁ :: h₂ :: ':' :: m₁ :: m₂ :: ':' :: s₁ :: s₂ ::
        (fractionText t.msec ++ ['Z'])) = some ((padded 3 t.msec).rdropWhile (· == '0')) := by
      simp [fraction, fractionText_of_pos hpos, takeWhile_isDigit hDigits]
    rw [hSome]
    simp [leftJustified_fraction hMsec, hReadMsec, fractionText_of_pos hpos, hHour', hMinute',
      hSecond', hMsec', Nat.add_comm 9]

/-! ### Dates -/

theorem indexOf_append {s t : QString} {c : Char} {start : Nat} (h : c ∉ s.drop start)
    (hs : start ≤ s.length) : (s ++ c :: t).indexOf c start = some s.length := by
  rw [indexOf_of_drop (List.drop_append_of_le_length hs) h, List.length_drop,
    Nat.add_sub_cancel' hs]

theorem notMem_digits {s : QString} (h : Digits s) {c : Char} (hc : c.isDigit = false) : c ∉ s :=
  fun hm => ne_of_isDigit (h.2 c hm) hc rfl

/-- The text of a year: a sign for a year before 1, and at least four digits. -/
def yearText (year : Int) : QString :=
  (if year < 0 then ['-'] else []) ++ padded 4 year.natAbs

theorem toInt_yearText {year : Int} (h : year.natAbs < 2 ^ 31) :
    ∃ v : Int32, toInt (yearText year) = some v ∧ v.toInt = year := by
  unfold yearText toInt
  have hBound : -2 ^ 31 ≤ year ∧ year < 2 ^ 31 := by omega
  refine ⟨Int32.ofInt year, ?_, Int32.toInt_ofInt_of_le (by simp; omega) (by simp; omega)⟩
  split
  · rw [List.singleton_append, (digits_padded _ _).toIntegral_neg, digitsValue_padded,
      Option.map_some, Option.bind_some, show -(year.natAbs : Int) = year by omega, if_pos hBound]
  · rw [List.nil_append, (digits_padded _ _).toIntegral, digitsValue_padded, Option.map_some,
      Option.bind_some, show Int.ofNat year.natAbs = year by simp; omega, if_pos hBound]

theorem length_yearText (year : Int) : 1 ≤ (yearText year).length := by
  have := List.length_pos_iff.mpr (digits_padded 4 year.natAbs).1
  rw [yearText, List.length_append]
  omega

/-- A year's text holds no dash behind its first character. -/
theorem notMem_yearText (year : Int) : '-' ∉ (yearText year).drop 1 := by
  have h := notMem_digits (digits_padded 4 year.natAbs) (c := '-') rfl
  unfold yearText
  split
  · simpa using h
  · exact fun hm => h (List.mem_of_mem_drop hm)

theorem ymdToString_eq (year : Int) (month day : Nat) :
    ymdToString year month day =
      yearText year ++ '-' :: (padded 2 month ++ '-' :: padded 2 day) := by
  simp [ymdToString, yearText]

/-- The text of a year, a month and a day is read as the date with these, if there is one. -/
theorem fromDateString_ymdToString {year : Int} {month day : Nat} (hYear : year.natAbs < 2 ^ 31)
    (hMonth : month < 100) (hDay : day < 100) :
    fromDateString (ymdToString year month day) = QDate.ofYmd year month day := by
  obtain ⟨y, hReadYear, hYear'⟩ := toInt_yearText hYear
  obtain ⟨m, hReadMonth, hMonth'⟩ := exists_toInt_padded 2 (n := month) (by omega)
  obtain ⟨d, hReadDay, hDay'⟩ := exists_toInt_padded 2 (n := day) (by omega)
  obtain ⟨m₁, m₂, hm⟩ := padded_two hMonth
  obtain ⟨d₁, d₂, hd⟩ := padded_two hDay
  rw [hm] at hReadMonth
  rw [hd] at hReadDay
  rw [ymdToString_eq, fromDateString,
    indexOf_append (notMem_yearText year) (length_yearText year), hm, hd]
  simp [mid, hReadYear, hReadMonth, hReadDay, hYear', hMonth', hDay', Nat.add_assoc]

/-- The text of a valid date is read as that date. -/
theorem fromDateString_dateToString (d : CivilDate) :
    fromDateString (dateToString (some d)) = some d := by
  obtain ⟨-, hYear, hMonth, hDay⟩ := d.valid
  have hLength : Calendar.daysInMonth (astronomicalYear d.year) d.month ≤ 31 := by
    unfold Calendar.daysInMonth
    split <;> try split
    all_goals omega
  rw [dateToString, fromDateString_ymdToString hYear (by omega) (by omega), QDate.ofYmd_self]

/-- A null date is not read back. -/
theorem fromDateString_null : fromDateString (dateToString none) = none := by
  rw [dateToString, fromDateString_ymdToString (by decide) (by decide) (by decide)]
  rfl

/-- A null time is not read back. -/
theorem fromTimeString_null : fromTimeString (timeToString none) = none := rfl

/-! ### Date-times -/

theorem notMem_ymdToString {c : Char} (hc : c.isDigit = false) (hc' : c ≠ '-') (year : Int)
    (month day : Nat) : c ∉ ymdToString year month day := by
  have h := fun width n => notMem_digits (digits_padded width n) hc
  unfold ymdToString
  split <;> simp [h, hc']

theorem notMem_dateToString {c : Char} (hc : c.isDigit = false) (hc' : c ≠ '-') (date : QDate) :
    c ∉ dateToString date := by
  cases date <;> exact notMem_ymdToString hc hc' _ _ _

theorem fromDateTimeString_of_indexOf {date time : QString} {c : Char} (hLength : 1 ≤ date.length)
    (hIndex : ((date ++ c :: time).indexOf 'T' 0).or ((date ++ c :: time).indexOf ' ' 0) =
      some date.length) :
    fromDateTimeString (date ++ c :: time) =
      match fromDateString date, fromTimeString time with
      | some d, some t => ⟨some d, some t⟩
      | _, _ => ⟨none, none⟩ := by
  obtain ⟨n, hn⟩ : ∃ n, date.length = n + 1 := ⟨date.length - 1, by omega⟩
  have hDate : mid (date ++ c :: time) 0 (n + 1) = date := by simp [mid, ← hn]
  have hTime : (date ++ c :: time).drop (n + 2) = time := by
    rw [show n + 2 = date.length + 1 by omega, List.drop_length_add_append]
    rfl
  rw [hn] at hIndex
  rw [fromDateTimeString]
  simp only [hIndex, hDate]
  cases fromDateString date with
  | none => rfl
  | some d =>
    simp only [hTime]
    cases fromTimeString time with
    | none => rfl
    | some t => rfl

theorem fromDateTimeString_eq {date time : QString} (hT : 'T' ∉ date) (hLength : 1 ≤ date.length) :
    fromDateTimeString (date ++ 'T' :: time) =
      match fromDateString date, fromTimeString time with
      | some d, some t => ⟨some d, some t⟩
      | _, _ => ⟨none, none⟩ := by
  refine fromDateTimeString_of_indexOf hLength ?_
  rw [indexOf_append (by simpa using hT) (by omega), Option.some_or]

theorem length_dateToString (date : QDate) : 1 ≤ (dateToString date).length := by
  have h : ∀ year month day, 1 ≤ (ymdToString year month day).length := fun year month day => by
    rw [ymdToString_eq, List.length_append]
    have := length_yearText year
    omega
  cases date <;> exact h _ _ _

/-- A date-time is read back from its text exactly if it is valid. -/
theorem fromDateTimeString_dateTimeToString (dt : QDateTime) :
    fromDateTimeString (dateTimeToString dt) =
      if dt.isValid then dt else ⟨none, none⟩ := by
  obtain ⟨date, time⟩ := dt
  rw [dateTimeToString, fromDateTimeString_eq (notMem_dateToString rfl (by decide) date)
    (length_dateToString date)]
  cases date with
  | none => rw [fromDateString_null]; rfl
  | some d =>
    rw [fromDateString_dateToString]
    cases time with
    | none => rw [fromTimeString_null]; rfl
    | some t => rw [fromTimeString_timeToString]; rfl

/-- Every valid date, time and date-time is read back from its text. -/
theorem from_toString :
    (∀ d : CivilDate, fromDateString (dateToString (some d)) = some d) ∧
      (∀ t : ClockTime, fromTimeString (timeToString (some t)) = some t) ∧
      ∀ (d : CivilDate) (t : ClockTime),
        fromDateTimeString (dateTimeToString ⟨some d, some t⟩) = ⟨some d, some t⟩ :=
  ⟨fromDateString_dateToString, fromTimeString_timeToString,
    fun d t => fromDateTimeString_dateTimeToString ⟨some d, some t⟩⟩

end DateTime

end Soprano
