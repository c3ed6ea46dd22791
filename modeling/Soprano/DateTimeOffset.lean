import Soprano.DateTime

/-! The instants that date-times with an offset are read as.  The offset is applied to the time of day
alone, and the fraction of seconds is read as a number of milliseconds, whatever its length. -/

namespace Soprano

theorem ClockTime.msecs_lt (t : ClockTime) : t.msecs < 86400000 := by
  have := t.valid
  unfold ClockTime.msecs
  omega

theorem ClockTime.msecs_inj {t u : ClockTime} (h : t.msecs = u.msecs) : t = u := by
  have ht := t.valid
  have hu := u.valid
  unfold ClockTime.msecs at h
  cases t
  cases u
  simp only [ClockTime.mk.injEq] at *
  omega

namespace DateTime

open QString

/-- A fraction of seconds, behind its mark. -/
structure Fraction where
  comma : Bool
  digits : QString
  valid : Digits digits

/-- A written time of day. -/
structure TimeText where
  hour : Nat
  minute : Nat
  second : Nat
  fraction : Option Fraction
  valid : hour < 24 ∧ minute < 60 ∧ second < 60

/-- A written time zone: none, `Z`, or an offset to the east or the west. -/
inductive Zone where
  | absent
  | utc
  | offset (east : Bool) (hour minute : Nat) (valid : hour < 24 ∧ minute < 60)

/-- What stands between the date and the time. -/
inductive Separator where
  | t
  | space
deriving DecidableEq

def Separator.char : Separator → Char
  | t => 'T'
  | space => ' '

def Fraction.text (f : Fraction) : QString := (if f.comma then ',' else '.') :: f.digits

def Zone.text : Zone → QString
  | absent => []
  | utc => ['Z']
  | offset east hour minute _ =>
    (if east then '+' else '-') :: (padded 2 hour ++ ':' :: padded 2 minute)

def fractionOf : Option Fraction → QString
  | some f => f.text
  | none => []

def TimeText.text (t : TimeText) (z : Zone) : QString :=
  padded 2 t.hour ++ ':' :: (padded 2 t.minute ++ ':' :: (padded 2 t.second ++
    (fractionOf t.fraction ++ z.text)))

/-! ### What a text denotes -/

/-- The first three digits count the milliseconds. -/
def Fraction.msecs (f : Fraction) : Nat := Nat.ofDigitChars 10 ((f.digits.leftJustified 3 '0').take 3) 0

def TimeText.msecs (t : TimeText) : Nat :=
  ((t.hour * 60 + t.minute) * 60 + t.second) * 1000 + (t.fraction.map Fraction.msecs).getD 0

/-- The seconds by which the local time is ahead of UTC. -/
def Zone.seconds : Zone → Int
  | absent | utc => 0
  | offset east hour minute _ => (if east then 1 else -1) * (60 * (60 * hour + minute))

/-- The milliseconds up to the first of a day. -/
def dayMsecs (d : CivilDate) : Int :=
  Calendar.dayNumber (astronomicalYear d.year) d.month d.day * 86400000

/-- The instant that is written. -/
def instant (d : CivilDate) (t : TimeText) (z : Zone) : Int := dayMsecs d + t.msecs - z.seconds * 1000

/-- The date-time is that instant in UTC. -/
def Denotes (dt : QDateTime) (n : Int) : Prop :=
  ∃ d t, dt = ⟨some d, some t⟩ ∧ dayMsecs d + t.msecs = n

theorem dayMsecs_inj {d e : CivilDate} (h : dayMsecs d = dayMsecs e) : d = e := by
  have hNumber : Calendar.dayNumber (astronomicalYear d.year) d.month d.day =
      Calendar.dayNumber (astronomicalYear e.year) e.month e.day := by
    unfold dayMsecs at h
    omega
  have hCivil := Calendar.civil_civilDate d
  rw [hNumber, Calendar.civil_civilDate, Prod.mk.injEq, Prod.mk.injEq] at hCivil
  obtain ⟨hYear, hMonth, hDay⟩ := hCivil
  have hCivilYear := congrArg civilYear hYear
  rw [civilYear_astronomicalYear d.valid.1, civilYear_astronomicalYear e.valid.1] at hCivilYear
  cases d
  cases e
  simp_all

/-- An instant has one date and time in UTC. -/
theorem Denotes.unique {a b : QDateTime} {n : Int} (ha : Denotes a n) (hb : Denotes b n) : a = b := by
  obtain ⟨d, t, rfl, rfl⟩ := ha
  obtain ⟨e, u, rfl, hEq⟩ := hb
  have ht := t.msecs_lt
  have hu := u.msecs_lt
  have hDay : dayMsecs d = dayMsecs e := by
    unfold dayMsecs at hEq ⊢
    omega
  obtain rfl := dayMsecs_inj hDay
  obtain rfl := ClockTime.msecs_inj (show t.msecs = u.msecs by omega)
  rfl

/-! ### Reading a time -/

/-- The number that the fraction is read as. -/
def Fraction.value (f : Fraction) : Nat := Nat.ofDigitChars 10 (f.digits.leftJustified 3 '0') 0

/-- The fraction has at most three digits, or is zero. -/
def Fraction.Short (f : Fraction) : Prop := f.digits.length ≤ 3 ∨ ∀ c ∈ f.digits, c = '0'

def TimeText.Short (t : TimeText) : Prop := ∀ f ∈ t.fraction, f.Short

/-- The instant lies in the day that is written. -/
def SameDay (t : TimeText) (z : Zone) : Prop :=
  0 ≤ t.msecs - z.seconds * 1000 ∧ t.msecs - z.seconds * 1000 < 86400000

/-- The number of milliseconds that the first three digits count. -/
def milliseconds (digits : QString) : Nat := Nat.ofDigitChars 10 ((digits.leftJustified 3 '0').take 3) 0

/-- The number that digits are read as. -/
def readMilliseconds (digits : QString) : Nat := Nat.ofDigitChars 10 (digits.leftJustified 3 '0') 0

theorem digits_leftJustified {digits : QString} (h : ∀ c ∈ digits, c.isDigit = true) :
    Digits (digits.leftJustified 3 '0') := by
  refine ⟨fun hNil => ?_, fun c hc => ?_⟩
  · have hLength := congrArg List.length hNil
    simp only [leftJustified, List.length_append, List.length_replicate, List.length_nil] at hLength
    omega
  · rcases List.mem_append.mp hc with hc | hc
    · exact h c hc
    · rw [List.eq_of_mem_replicate hc]
      rfl

/-- A digit is zero, or counts. -/
theorem ofDigitChars_eq_zero {s : QString} (h : ∀ c ∈ s, c.isDigit = true) :
    Nat.ofDigitChars 10 s 0 = 0 ↔ ∀ c ∈ s, c = '0' := by
  induction s with
  | nil => simp
  | cons c s ih =>
    obtain ⟨hc, hs⟩ := List.forall_mem_cons.mp h
    rw [Nat.ofDigitChars_cons, Nat.ofDigitChars_eq_ofDigitChars_zero, List.forall_mem_cons, ← ih hs]
    have hDigit : 48 ≤ c.toNat := (Char.isDigit_iff_toNat.mp hc).1
    have hZero : c = '0' ↔ c.toNat = 48 := by rw [← Char.toNat_inj]; rfl
    have hPower : 0 < 10 ^ s.length := Nat.pow_pos (by decide)
    rw [hZero, show '0'.toNat = 48 from rfl]
    constructor
    · intro hSum
      rw [Nat.add_eq_zero_iff, Nat.mul_eq_zero] at hSum
      omega
    · rintro ⟨hFirst, hRest⟩
      rw [hFirst, hRest]
      simp

/-- What is read is the number of milliseconds, or more. -/
theorem readMilliseconds_eq {digits : QString} (h : ∀ c ∈ digits, c.isDigit = true) :
    milliseconds digits ≤ readMilliseconds digits ∧
      (readMilliseconds digits = milliseconds digits ↔ digits.length ≤ 3 ∨ ∀ c ∈ digits, c = '0') := by
  by_cases hLength : digits.length ≤ 3
  · have hTake : (digits.leftJustified 3 '0').take 3 = digits.leftJustified 3 '0' :=
      List.take_of_length_le (by
        simp only [leftJustified, List.length_append, List.length_replicate]
        omega)
    have hEq : milliseconds digits = readMilliseconds digits := by
      rw [milliseconds, readMilliseconds, hTake]
    exact ⟨Nat.le_of_eq hEq, iff_of_true hEq.symm (.inl hLength)⟩
  · have hSame : digits.leftJustified 3 '0' = digits := by
      rw [leftJustified, show 3 - digits.length = 0 by omega]
      simp
    have hSplit : readMilliseconds digits = 10 ^ (digits.length - 3) * milliseconds digits +
        Nat.ofDigitChars 10 (digits.drop 3) 0 := by
      rw [readMilliseconds, milliseconds, hSame, ← List.take_append_drop 3 digits, Nat.ofDigitChars_append,
        Nat.ofDigitChars_eq_ofDigitChars_zero, List.length_drop, List.take_append_drop]
    have hPower : 10 ≤ 10 ^ (digits.length - 3) := Nat.le_self_pow (by omega) 10
    have hTen : 10 * milliseconds digits ≤ 10 ^ (digits.length - 3) * milliseconds digits :=
      Nat.mul_le_mul_right _ hPower
    refine ⟨by omega, fun hEq => .inr ?_, fun hShort => ?_⟩
    · refine (ofDigitChars_eq_zero h).mp ?_
      rw [← hSame]
      show readMilliseconds digits = 0
      omega
    · have hZero := (ofDigitChars_eq_zero h).mpr (hShort.resolve_left hLength)
      have hValue : readMilliseconds digits = 0 := by rw [readMilliseconds, hSame, hZero]
      omega

theorem ofDigitChars_lt {s : QString} (h : ∀ c ∈ s, c.isDigit = true) :
    Nat.ofDigitChars 10 s 0 < 10 ^ s.length := by
  induction s with
  | nil => simp
  | cons c s ih =>
    obtain ⟨hc, hs⟩ := List.forall_mem_cons.mp h
    have hDigit : c.toNat ≤ 57 := (Char.isDigit_iff_toNat.mp hc).2
    have hFirst : 10 ^ s.length * (10 * 0 + (c.toNat - 48)) ≤ 10 ^ s.length * 9 :=
      Nat.mul_le_mul_left _ (by omega)
    have hRest := ih hs
    rw [Nat.ofDigitChars_cons, Nat.ofDigitChars_eq_ofDigitChars_zero, List.length_cons, Nat.pow_succ,
      show '0'.toNat = 48 from rfl]
    omega

theorem milliseconds_lt {digits : QString} (h : ∀ c ∈ digits, c.isDigit = true) :
    milliseconds digits < 1000 := by
  have hDigits : ∀ c ∈ (digits.leftJustified 3 '0').take 3, c.isDigit = true := fun c hc =>
    (digits_leftJustified h).2 c (List.mem_of_mem_take hc)
  have hLength : ((digits.leftJustified 3 '0').take 3).length ≤ 3 := List.length_take_le 3 _
  have hPower : 10 ^ ((digits.leftJustified 3 '0').take 3).length ≤ 10 ^ 3 :=
    Nat.pow_le_pow_right (by decide) hLength
  exact Nat.lt_of_lt_of_le (ofDigitChars_lt hDigits) hPower

/-- The number of milliseconds that is read. -/
def TimeText.value (t : TimeText) : Nat := (t.fraction.map Fraction.value).getD 0

/-- The time of day that is read. -/
def TimeText.clock (t : TimeText) : QTime := .ofHms t.hour t.minute t.second t.value

/-- No zone starts with a digit or the mark of a fraction. -/
theorem Zone.head_text {z : Zone} {c : Char} (h : c ∈ z.text.head?) :
    c.isDigit = false ∧ c ≠ '.' ∧ c ≠ ',' := by
  cases z with
  | absent => cases h
  | utc =>
    obtain rfl := Option.some.inj h
    decide
  | offset east hour minute valid =>
    obtain rfl := Option.some.inj h
    cases east <;> decide

theorem toInt_leftJustified {digits : QString} (h : ∀ c ∈ digits, c.isDigit = true) :
    toInt (digits.leftJustified 3 '0') = if readMilliseconds digits < 2 ^ 31
      then some (Int32.ofInt (readMilliseconds digits)) else none := by
  have hDigits := digits_leftJustified h
  rw [toInt, hDigits.toIntegral, hDigits.value, Option.map_some, Option.bind_some]
  show (if -2 ^ 31 ≤ (readMilliseconds digits : Int) ∧ (readMilliseconds digits : Int) < 2 ^ 31
    then some (Int32.ofInt (readMilliseconds digits)) else none) = _
  by_cases hFits : readMilliseconds digits < 2 ^ 31
  · rw [if_pos hFits, if_pos ⟨by omega, by omega⟩]
  · rw [if_neg hFits, if_neg (by omega)]

theorem exists_addSecs (c : ClockTime) (n : Int) :
    ∃ c' : ClockTime, QTime.addSecs (some c) n = some c' ∧
      (c'.msecs : Int) = (c.msecs + n * 1000) % 86400000 := by
  have hLow : 0 ≤ (c.msecs + n * 1000) % 86400000 := Int.emod_nonneg _ (by decide)
  have hHigh : (c.msecs + n * 1000) % 86400000 < 86400000 := Int.emod_lt_of_pos _ (by decide)
  simp only [QTime.addSecs]
  generalize (c.msecs + n * 1000 : Int) % 86400000 = k at hLow hHigh
  rw [QTime.ofHms, dif_pos ⟨by omega, by omega, by omega, by omega, by omega⟩]
  refine ⟨_, rfl, ?_⟩
  simp only [ClockTime.msecs]
  omega

theorem addSecs_zero (time : QTime) : time.addSecs 0 = time := by
  cases time with
  | none => rfl
  | some c =>
    obtain ⟨c', hSum, hMsecs⟩ := exists_addSecs c 0
    have hc := c.msecs_lt
    rw [hSum, ClockTime.msecs_inj (show c'.msecs = c.msecs by omega)]

theorem takeWhile_isDigit_append {f r : QString} (hf : ∀ c ∈ f, c.isDigit = true)
    (hr : ∀ c ∈ r.head?, c.isDigit = false) : (f ++ r).takeWhile Char.isDigit = f := by
  rw [List.takeWhile_append_of_pos hf]
  cases r with
  | nil => simp
  | cons c r => simp [hr c rfl]

/-- What the fraction is read from, behind a mark. -/
theorem fraction_mark {front : QString} (hFront : front.length = 8) (comma : Bool) {digits : QString}
    (h : ∀ c ∈ digits, c.isDigit = true) (z : Zone) :
    fraction (front ++ (if comma then ',' else '.') :: (digits ++ z.text)) = some digits := by
  have hHead : (front ++ (if comma then ',' else '.') :: (digits ++ z.text))[8]? = some '.' ∨
      (front ++ (if comma then ',' else '.') :: (digits ++ z.text))[8]? = some ',' := by
    rw [List.getElem?_append_right (by omega), hFront]
    cases comma
    · exact .inl rfl
    · exact .inr rfl
  have hDrop : (front ++ (if comma then ',' else '.') :: (digits ++ z.text)).drop 9 = digits ++ z.text := by
    rw [List.drop_append, hFront, List.drop_eq_nil_of_le (by omega)]
    rfl
  rw [fraction, if_pos hHead, hDrop, takeWhile_isDigit_append h fun c hc => (Zone.head_text hc).1]

theorem fraction_zone {front : QString} (hFront : front.length = 8) (z : Zone) :
    fraction (front ++ z.text) = none := by
  have hHead : (front ++ z.text)[8]? = z.text.head? := by
    rw [List.getElem?_append_right (by omega), hFront, List.head?_eq_getElem?]
  rw [fraction, hHead, if_neg]
  rintro (h | h)
  · exact (Zone.head_text h).2.1 rfl
  · exact (Zone.head_text h).2.2 rfl

/-- A zone is read as the seconds that are added. -/
theorem zoneSeconds_offset {front : QString} {east : Bool} {hour minute : Nat}
    (valid : hour < 24 ∧ minute < 60) :
    zoneSeconds (front ++ (Zone.offset east hour minute valid).text) front.length =
      some (-(Zone.offset east hour minute valid).seconds) := by
  obtain ⟨h₁, h₂, hh⟩ := padded_two (n := hour) (by omega)
  obtain ⟨m₁, m₂, hm⟩ := padded_two (n := minute) (by omega)
  obtain ⟨h, hReadHour, hHour⟩ := exists_toInt_padded 2 (n := hour) (by omega)
  obtain ⟨m, hReadMinute, hMinute⟩ := exists_toInt_padded 2 (n := minute) (by omega)
  rw [hh] at hReadHour
  rw [hm] at hReadMinute
  have hMid (k : Nat) (rest : QString) : mid (front ++ rest) (front.length + k) 2 = mid rest k 2 := by
    rw [mid, mid, List.drop_length_add_append]
  simp only [zoneSeconds, Zone.text, hMid]
  rw [if_neg (by simp [hh, hm]), List.getElem?_append_right (Nat.le_refl _), Nat.sub_self]
  cases east <;>
    simp [hh, hm, mid, hReadHour, hReadMinute, hHour, hMinute, Zone.seconds]

/-- What is done with the time of day that stands before a zone. -/
theorem addSecs_zone (front : QString) (z : Zone) (time : QTime) :
    (if front.length = (front ++ z.text).length ∨ (front ++ z.text)[front.length]? = some 'Z' then time
      else do
        let seconds ← zoneSeconds (front ++ z.text) front.length
        time.addSecs seconds) = time.addSecs (-z.seconds) := by
  have hHead : (front ++ z.text)[front.length]? = z.text.head? := by
    rw [List.getElem?_append_right (Nat.le_refl _), Nat.sub_self, List.head?_eq_getElem?]
  rw [hHead]
  cases z with
  | absent =>
    rw [if_pos (.inl (by simp [Zone.text]))]
    exact (addSecs_zero time).symm
  | utc =>
    rw [if_pos (.inr rfl)]
    exact (addSecs_zero time).symm
  | offset east hour minute valid =>
    have hNot : ¬ (front.length = (front ++ (Zone.offset east hour minute valid).text).length ∨
        (Zone.offset east hour minute valid).text.head? = some 'Z') := by
      rintro (h | h)
      · simp [Zone.text] at h
      · cases east <;> cases h
    rw [if_neg hNot, zoneSeconds_offset]
    rfl

/-- What is read behind the hours, minutes and seconds. -/
theorem fromTimeString_clock {hour minute second : Nat} (h : hour < 24 ∧ minute < 60 ∧ second < 60) :
    ∃ front : QString, front.length = 8 ∧
      ∀ rest, padded 2 hour ++ ':' :: (padded 2 minute ++ ':' :: (padded 2 second ++ rest)) = front ++ rest ∧
        fromTimeString (front ++ rest) = (do
          let z ← match fraction (front ++ rest) with
            | some digits => toInt (digits.leftJustified 3 '0')
            | none => some 0
          let pos := match fraction (front ++ rest) with
            | some digits => 9 + digits.length
            | none => 8
          let t := QTime.ofHms hour minute second z.toInt
          if pos = (front ++ rest).length ∨ (front ++ rest)[pos]? = some 'Z' then t
          else do
            let seconds ← zoneSeconds (front ++ rest) pos
            t.addSecs seconds) := by
  obtain ⟨hHour, hMinute, hSecond⟩ := h
  obtain ⟨h₁, h₂, hh⟩ := padded_two (n := hour) (by omega)
  obtain ⟨m₁, m₂, hm⟩ := padded_two (n := minute) (by omega)
  obtain ⟨s₁, s₂, hs⟩ := padded_two (n := second) (by omega)
  obtain ⟨readHour, hReadHour, hHour'⟩ := exists_toInt_padded 2 (n := hour) (by omega)
  obtain ⟨readMinute, hReadMinute, hMinute'⟩ := exists_toInt_padded 2 (n := minute) (by omega)
  obtain ⟨readSecond, hReadSecond, hSecond'⟩ := exists_toInt_padded 2 (n := second) (by omega)
  rw [hh] at hReadHour
  rw [hm] at hReadMinute
  rw [hs] at hReadSecond
  refine ⟨[h₁, h₂, ':', m₁, m₂, ':', s₁, s₂], rfl, fun rest => ⟨by simp [hh, hm, hs], ?_⟩⟩
  have hMid : mid ([h₁, h₂, ':', m₁, m₂, ':', s₁, s₂] ++ rest) 0 2 = [h₁, h₂] ∧
      mid ([h₁, h₂, ':', m₁, m₂, ':', s₁, s₂] ++ rest) 3 2 = [m₁, m₂] ∧
      mid ([h₁, h₂, ':', m₁, m₂, ':', s₁, s₂] ++ rest) 6 2 = [s₁, s₂] := ⟨rfl, rfl, rfl⟩
  rw [fromTimeString, if_neg (by simp), hMid.1, hMid.2.1, hMid.2.2, hReadHour, hReadMinute, hReadSecond,
    ← hHour', ← hMinute', ← hSecond']
  rfl

/-- The time that is read with any number of digits behind a mark: the time of day with what the digits are
read as, and the offset applied to it alone. -/
theorem fromTimeString_mark {hour minute second : Nat} (h : hour < 24 ∧ minute < 60 ∧ second < 60)
    (comma : Bool) {digits : QString} (hDigits : ∀ c ∈ digits, c.isDigit = true) (z : Zone) :
    fromTimeString (padded 2 hour ++ ':' :: (padded 2 minute ++ ':' :: (padded 2 second ++
      (if comma then ',' else '.') :: (digits ++ z.text)))) =
        (QTime.ofHms hour minute second (readMilliseconds digits)).addSecs (-z.seconds) := by
  obtain ⟨front, hFront, hRead⟩ := fromTimeString_clock h
  rw [(hRead _).1, (hRead _).2, fraction_mark hFront comma hDigits z]
  simp only [toInt_leftJustified hDigits]
  by_cases hFits : readMilliseconds digits < 2 ^ 31
  · have hValue : (Int32.ofInt (readMilliseconds digits)).toInt = readMilliseconds digits :=
      Int32.toInt_ofInt_of_le (by simp) (by simp; omega)
    have hLength : (front ++ (if comma then ',' else '.') :: digits).length = 9 + digits.length := by
      rw [List.length_append, List.length_cons, hFront]
      omega
    have hZone := addSecs_zone (front ++ (if comma then ',' else '.') :: digits) z
      (.ofHms hour minute second (readMilliseconds digits))
    rw [hLength, List.append_assoc] at hZone
    rw [if_pos hFits, Option.bind_eq_bind, Option.bind_some, hValue]
    exact hZone
  · have hClock : QTime.ofHms hour minute second (readMilliseconds digits) = none := dif_neg (by omega)
    rw [if_neg hFits, hClock]
    rfl

/-- The time that is read: the time of day, and the offset applied to it alone. -/
theorem fromTimeString_text (t : TimeText) (z : Zone) :
    fromTimeString (t.text z) = t.clock.addSecs (-z.seconds) := by
  rw [TimeText.text, TimeText.clock, TimeText.value]
  cases t.fraction with
  | none =>
    obtain ⟨front, hFront, hRead⟩ := fromTimeString_clock t.valid
    have hZone := addSecs_zone front z (.ofHms t.hour t.minute t.second 0)
    rw [hFront] at hZone
    rw [fractionOf, List.nil_append, (hRead z.text).1, (hRead z.text).2, fraction_zone hFront]
    exact hZone
  | some f => exact fromTimeString_mark t.valid f.comma f.valid.2 z

/-! ### Fractions of any length -/

/-- A written time of day with a mark and any number of digits behind the seconds. -/
structure MarkedTime where
  hour : Nat
  minute : Nat
  second : Nat
  comma : Bool
  digits : QString
  valid : hour < 24 ∧ minute < 60 ∧ second < 60
  digits_valid : ∀ c ∈ digits, c.isDigit = true

def MarkedTime.text (t : MarkedTime) (z : Zone) : QString :=
  padded 2 t.hour ++ ':' :: (padded 2 t.minute ++ ':' :: (padded 2 t.second ++
    (if t.comma then ',' else '.') :: (t.digits ++ z.text)))

/-- The milliseconds since midnight, cut behind the third digit. -/
def MarkedTime.msecs (t : MarkedTime) : Nat :=
  ((t.hour * 60 + t.minute) * 60 + t.second) * 1000 + milliseconds t.digits

/-- A time is read as what is written, cut behind the third digit, the offset subtracted within the day. -/
def Truncated (time : QTime) (t : MarkedTime) (z : Zone) : Prop :=
  ∃ c : ClockTime, time = some c ∧ c.msec = milliseconds t.digits ∧
    (c.msecs : Int) = (t.msecs - z.seconds * 1000) % 86400000

/-- A fraction is cut behind the third digit exactly if it has no digit there, or counts nothing. -/
theorem truncated_iff (t : MarkedTime) (z : Zone) :
    Truncated (fromTimeString (t.text z)) t z ↔ t.digits.length ≤ 3 ∨ ∀ c ∈ t.digits, c = '0' := by
  obtain ⟨hLe, hShort⟩ := readMilliseconds_eq t.digits_valid
  have hLt := milliseconds_lt t.digits_valid
  have hValid := t.valid
  rw [MarkedTime.text, fromTimeString_mark t.valid t.comma t.digits_valid z, ← hShort]
  by_cases hValue : readMilliseconds t.digits < 1000
  · obtain ⟨c, hSum, hMsecs⟩ := exists_addSecs
      ⟨t.hour, t.minute, t.second, readMilliseconds t.digits, by omega⟩ (-z.seconds)
    have hClock := QTime.ofHms_self ⟨t.hour, t.minute, t.second, readMilliseconds t.digits, by omega⟩
    have hc := c.valid
    rw [hClock, hSum]
    simp only [ClockTime.msecs] at hMsecs
    constructor
    · rintro ⟨c', hEq, -, hTime⟩
      obtain rfl := Option.some.inj hEq
      simp only [ClockTime.msecs, MarkedTime.msecs] at hTime
      omega
    · intro hEq
      refine ⟨c, rfl, ?_, ?_⟩
      · omega
      · simp only [ClockTime.msecs, MarkedTime.msecs]
        omega
  · have hClock : QTime.ofHms t.hour t.minute t.second (readMilliseconds t.digits) = none :=
      dif_neg (by omega)
    rw [hClock]
    refine iff_of_false ?_ fun hEq => hValue (by omega)
    rintro ⟨c, hEq, -⟩
    cases hEq

/-- A fourth digit makes the time invalid. -/
theorem not_truncated :
    ¬ ∀ t z, Truncated (fromTimeString (MarkedTime.text t z)) t z := by
  intro h
  obtain ⟨c, hRead, -⟩ := h ⟨0, 0, 0, false, ['1', '2', '3', '4'], by decide, by simp⟩ .utc
  have hInvalid : fromTimeString (MarkedTime.text
      ⟨0, 0, 0, false, ['1', '2', '3', '4'], by decide, by simp⟩ .utc) = none := by decide
  rw [hInvalid] at hRead
  cases hRead

/-! ### Reading a date-time -/

/-- The text of a date, a time and a zone. -/
def written (d : CivilDate) (separator : Separator) (t : TimeText) (z : Zone) : QString :=
  dateToString (some d) ++ separator.char :: t.text z

theorem notMem_text (t : TimeText) (z : Zone) : 'T' ∉ t.text z := by
  have hPadded (n : Nat) : 'T' ∉ padded 2 n := notMem_digits (digits_padded 2 n) rfl
  have hFraction : 'T' ∉ fractionOf t.fraction := by
    cases t.fraction with
    | none => exact List.not_mem_nil
    | some f =>
      have hDigits : 'T' ∉ f.digits := notMem_digits f.valid rfl
      rw [fractionOf, Fraction.text]
      cases f.comma <;> simp [hDigits]
  have hZone : 'T' ∉ z.text := by
    cases z with
    | absent => exact List.not_mem_nil
    | utc => decide
    | offset east hour minute valid =>
      rw [Zone.text]
      cases east <;> simp [hPadded]
  simp [TimeText.text, hPadded, hFraction, hZone]

theorem fromDateTimeString_written (d : CivilDate) (separator : Separator) (t : TimeText) (z : Zone) :
    fromDateTimeString (written d separator t z) =
      match t.clock.addSecs (-z.seconds) with
      | some c => ⟨some d, some c⟩
      | none => ⟨none, none⟩ := by
  have hLength := length_dateToString (some d)
  have hT : 'T' ∉ dateToString (some d) := notMem_dateToString rfl (by decide) _
  have hSpace : ' ' ∉ dateToString (some d) := notMem_dateToString rfl (by decide) _
  have hIndex : ((written d separator t z).indexOf 'T' 0).or ((written d separator t z).indexOf ' ' 0) =
      some (dateToString (some d)).length := by
    cases separator with
    | t => rw [written, Separator.char, indexOf_append hT (by omega), Option.some_or]
    | space =>
      have hNone : (written d .space t z).indexOf 'T' 0 = none := by
        rw [indexOf, List.drop_zero, List.findIdx?_eq_none_iff.mpr fun c hc => ?_]
        · rfl
        · rw [beq_eq_false_iff_ne]
          rintro rfl
          rcases List.mem_append.mp hc with hc | hc
          · exact hT hc
          · rcases List.mem_cons.mp hc with hc | hc
            · cases hc
            · exact notMem_text t z hc
      rw [hNone, Option.none_or, written, Separator.char, indexOf_append hSpace (by omega)]
  rw [written] at hIndex ⊢
  rw [fromDateTimeString_of_indexOf hLength hIndex, fromDateString_dateToString, fromTimeString_text]
  cases t.clock.addSecs (-z.seconds) <;> rfl

theorem TimeText.value_eq (t : TimeText) : (t.fraction.map Fraction.msecs).getD 0 ≤ t.value ∧
    (t.value = (t.fraction.map Fraction.msecs).getD 0 ↔ t.Short) ∧
      (t.fraction.map Fraction.msecs).getD 0 < 1000 := by
  rw [TimeText.value, TimeText.Short]
  cases t.fraction with
  | none => exact ⟨Nat.le_refl 0, iff_of_true rfl (by nofun), by decide⟩
  | some f =>
    have hShort : (∀ g ∈ some f, g.Short) ↔ f.Short := by simp
    rw [hShort]
    exact ⟨(readMilliseconds_eq f.valid.2).1, (readMilliseconds_eq f.valid.2).2, milliseconds_lt f.valid.2⟩

theorem denotes_some {d : CivilDate} {c : ClockTime} {n : Int} :
    Denotes ⟨some d, some c⟩ n ↔ dayMsecs d + c.msecs = n := by
  refine ⟨?_, fun h => ⟨d, c, rfl, h⟩⟩
  rintro ⟨d', c', hEq, hInstant⟩
  cases hEq
  exact hInstant

/-- The text denotes the instant that is written exactly if that lies in the day that is written, and the
fraction of seconds has no digits behind the third that count. -/
theorem denotes_iff (d : CivilDate) (separator : Separator) (t : TimeText) (z : Zone) :
    Denotes (fromDateTimeString (written d separator t z)) (instant d t z) ↔ t.Short ∧ SameDay t z := by
  obtain ⟨hLe, hShort, hMsecs⟩ := t.value_eq
  rw [fromDateTimeString_written, ← hShort, SameDay, instant, TimeText.msecs]
  by_cases hValue : t.value < 1000
  · have hValid := t.valid
    obtain ⟨c, hClock, hc⟩ : ∃ c : ClockTime, t.clock = some c ∧
        c.msecs = ((t.hour * 60 + t.minute) * 60 + t.second) * 1000 + t.value :=
      ⟨⟨t.hour, t.minute, t.second, t.value, by omega⟩,
        QTime.ofHms_self ⟨t.hour, t.minute, t.second, t.value, by omega⟩, rfl⟩
    obtain ⟨c', hSum, hc'⟩ := exists_addSecs c (-z.seconds)
    rw [hc] at hc'
    rw [hClock, hSum]
    -- fewer than 1000 milliseconds can be read too many, and whole days be lost
    simp only [denotes_some]
    omega
  · have hClock : t.clock = none := dif_neg (by omega)
    rw [hClock]
    refine iff_of_false ?_ fun h => hValue (by omega)
    rintro ⟨d', c', hEq, -⟩
    cases hEq

/-- Half an hour into the new year, an hour ahead of UTC. -/
theorem not_denotes :
    ¬ ∀ d separator t z, Denotes (fromDateTimeString (written d separator t z)) (instant d t z) := by
  intro h
  obtain ⟨d, c, hRead, hInstant⟩ :=
    h ⟨2009, 1, 1, by decide⟩ .t ⟨0, 30, 0, none, by decide⟩ (.offset true 1 0 (by decide))
  have hWrapped : fromDateTimeString (written ⟨2009, 1, 1, by decide⟩ .t ⟨0, 30, 0, none, by decide⟩
      (.offset true 1 0 (by decide))) =
        ⟨some ⟨2009, 1, 1, by decide⟩, some ⟨23, 30, 0, 0, by decide⟩⟩ := by decide
  rw [hWrapped] at hRead
  cases hRead
  revert hInstant
  decide

end DateTime

end Soprano
