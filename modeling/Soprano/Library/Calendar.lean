import Mathlib.Tactic.Ring

/-! The proleptic Gregorian calendar: days numbered from 0000-03-01, the civil date of a day, and
the proof that numbering a civil date and reading it back gives the date.  A year is counted here
from March, so that the leap day is the last day of its year. -/

namespace Calendar

/-- The leap years: every fourth, less the centuries that are not multiples of 400. -/
def isLeap (y : Int) : Bool := y % 4 == 0 && (y % 100 != 0 || y % 400 == 0)

/-- The length of month `m` (1 to 12) of year `y`. -/
def daysInMonth (y : Int) (m : Nat) : Nat :=
  match m with
  | 2 => if isLeap y then 29 else 28
  | 4 | 6 | 9 | 11 => 30
  | _ => 31

/-- The days before the March of year `y`. -/
def daysBefore (y : Int) : Int := 365 * y + y / 4 - y / 100 + y / 400

/-- The days of a year before its month `k`, counted from March as month 0. -/
def daysBeforeMonth (k : Nat) : Nat := (153 * k + 2) / 5

/-- The number of a civil date, counted from 0000-03-01 as day 0. -/
def dayNumber (y : Int) (m d : Nat) : Int :=
  if m ≤ 2 then daysBefore (y - 1) + daysBeforeMonth (m + 9) + d - 1
  else daysBefore y + daysBeforeMonth (m - 3) + d - 1

/-- The year, counted from March, that holds day `n`. -/
def yearOf (n : Int) : Int :=
  let era := n / 146097
  let day := n % 146097
  let century := min (day / 36524) 3
  let cycle := (day - century * 36524) / 1461
  let year := min ((day - century * 36524 - cycle * 1461) / 365) 3
  era * 400 + century * 100 + cycle * 4 + year

/-- The month, counted from March as month 0, that holds day `k` of its year. -/
def monthOf (k : Nat) : Nat := (5 * k + 2) / 153

/-- The civil date of day `n`. -/
def civil (n : Int) : Int × Nat × Nat :=
  let y := yearOf n
  let k := (n - daysBefore y).toNat
  let m := monthOf k
  let d := k - daysBeforeMonth m + 1
  if m < 10 then (y, m + 3, d) else (y + 1, m - 9, d)

theorem daysBefore_split (e c q r : Int) (hc : 0 ≤ c ∧ c ≤ 3) (hq : 0 ≤ q ∧ q ≤ 24)
    (hr : 0 ≤ r ∧ r ≤ 3) :
    daysBefore (e * 400 + c * 100 + q * 4 + r) = e * 146097 + c * 36524 + q * 1461 + r * 365 := by
  unfold daysBefore
  have h4 : (e * 400 + c * 100 + q * 4 + r) / 4 = e * 100 + c * 25 + q := by omega
  have h100 : (e * 400 + c * 100 + q * 4 + r) / 100 = e * 4 + c := by omega
  have h400 : (e * 400 + c * 100 + q * 4 + r) / 400 = e := by omega
  rw [h4, h100, h400]
  ring

/-- Every year is a year of a four-year cycle of a century of an era of 400 years. -/
theorem exists_split (y : Int) : ∃ e c q r : Int, y = e * 400 + c * 100 + q * 4 + r ∧
    (0 ≤ c ∧ c ≤ 3) ∧ (0 ≤ q ∧ q ≤ 24) ∧ (0 ≤ r ∧ r ≤ 3) :=
  ⟨y / 400, y % 400 / 100, y % 100 / 4, y % 4, by omega, by omega, by omega, by omega⟩

theorem length_year (y : Int) :
    daysBefore (y + 1) - daysBefore y = if isLeap (y + 1) then 366 else 365 := by
  unfold daysBefore isLeap
  split <;> rename_i h <;>
    simp only [Bool.and_eq_true, Bool.or_eq_true, beq_iff_eq, bne_iff_ne, ne_eq] at h <;> omega

/-- A day from the first of year `y` to the last lies in that year. -/
theorem yearOf_eq {y n : Int} (hLow : daysBefore y ≤ n) (hHigh : n < daysBefore (y + 1)) :
    yearOf n = y := by
  obtain ⟨e, c, q, r, rfl, hc, hq, hr⟩ := exists_split y
  have hLength := length_year (e * 400 + c * 100 + q * 4 + r)
  have hLeap : isLeap (e * 400 + c * 100 + q * 4 + r + 1) = true → r = 3 ∧ (q ≤ 23 ∨ c = 3) := by
    unfold isLeap
    simp only [Bool.and_eq_true, Bool.or_eq_true, beq_iff_eq, bne_iff_ne, ne_eq]
    omega
  have hDay : n - (e * 146097 + c * 36524 + q * 1461 + r * 365) < 365 ∨
      (n - (e * 146097 + c * 36524 + q * 1461 + r * 365) < 366 ∧ r = 3 ∧ (q ≤ 23 ∨ c = 3)) := by
    rw [← daysBefore_split e c q r hc hq hr]
    split at hLength
    · rename_i h
      exact Or.inr ⟨by omega, hLeap h⟩
    · exact Or.inl (by omega)
  rw [daysBefore_split e c q r hc hq hr] at hLow
  have hEra : n / 146097 = e := by omega
  have hRest : n % 146097 = n - e * 146097 := by omega
  have hCentury : min ((n - e * 146097) / 36524) 3 = c := by omega
  have hCycle : (n - e * 146097 - c * 36524) / 1461 = q := by omega
  have hYear : min ((n - e * 146097 - c * 36524 - q * 1461) / 365) 3 = r := by omega
  simp only [yearOf, hEra, hRest, hCentury, hCycle, hYear]

/-- A day of a month, numbered in its year, lies in that month. -/
theorem monthOf_eq {k m : Nat} (hLow : daysBeforeMonth m ≤ k)
    (hHigh : k < daysBeforeMonth (m + 1)) : monthOf k = m := by
  unfold daysBeforeMonth monthOf at *
  omega

theorem civil_of_split {y : Int} {m d : Nat} (hd : 1 ≤ d)
    (hMonth : daysBeforeMonth m + d ≤ daysBeforeMonth (m + 1))
    (hYear : daysBefore y + daysBeforeMonth m + d ≤ daysBefore (y + 1)) :
    civil (daysBefore y + daysBeforeMonth m + d - 1) =
      if m < 10 then (y, m + 3, d) else (y + 1, m - 9, d) := by
  have hy : yearOf (daysBefore y + daysBeforeMonth m + d - 1) = y :=
    yearOf_eq (by omega) (by omega)
  have hk : (daysBefore y + (daysBeforeMonth m : Int) + d - 1 - daysBefore y).toNat =
      daysBeforeMonth m + d - 1 := by omega
  have hm : monthOf (daysBeforeMonth m + d - 1) = m := monthOf_eq (by omega) (by omega)
  have hday : daysBeforeMonth m + d - 1 - daysBeforeMonth m + 1 = d := by omega
  simp only [civil, hy, hk, hm, hday]

theorem daysInMonth_february (y : Int) : daysInMonth y 2 = if isLeap y then 29 else 28 := rfl

theorem daysInMonth_of_march {y : Int} {k : Nat} (hk : k < 10) :
    daysBeforeMonth k + daysInMonth y (k + 3) ≤ daysBeforeMonth (k + 1) := by
  obtain rfl | rfl | rfl | rfl | rfl | rfl | rfl | rfl | rfl | rfl :
    k = 0 ∨ k = 1 ∨ k = 2 ∨ k = 3 ∨ k = 4 ∨ k = 5 ∨ k = 6 ∨ k = 7 ∨ k = 8 ∨ k = 9 := by omega
  all_goals simp [daysBeforeMonth, daysInMonth]

/-- The civil date of a civil date's number is that date. -/
theorem civil_dayNumber {y : Int} {m d : Nat} (hm : 1 ≤ m ∧ m ≤ 12)
    (hd : 1 ≤ d ∧ d ≤ daysInMonth y m) : civil (dayNumber y m d) = (y, m, d) := by
  have hBefore := length_year (y - 1)
  have hAfter : daysBefore y + 365 ≤ daysBefore (y + 1) := by
    have := length_year y
    split at this <;> omega
  rw [show y - 1 + 1 = y by omega] at hBefore
  unfold dayNumber
  split
  · obtain rfl | rfl : m = 1 ∨ m = 2 := by omega
    · have hJanuary : d ≤ 31 := hd.2
      have hLow : 365 ≤ daysBefore y - daysBefore (y - 1) := by split at hBefore <;> omega
      rw [civil_of_split hd.1 (by simp [daysBeforeMonth]; omega)
        (by rw [show y - 1 + 1 = y by omega]; simp [daysBeforeMonth]; omega)]
      simp
    · rw [daysInMonth_february] at hd
      have hLow : d + 337 ≤ daysBefore y - daysBefore (y - 1) := by
        split at hBefore <;> simp_all <;> omega
      have hFebruary : d ≤ 29 := by split at hd <;> omega
      rw [civil_of_split hd.1 (by simp [daysBeforeMonth]; omega)
        (by rw [show y - 1 + 1 = y by omega]; simp [daysBeforeMonth]; omega)]
      simp
  · obtain ⟨k, rfl⟩ : ∃ k, m = k + 3 := ⟨m - 3, by omega⟩
    have hMonth := daysInMonth_of_march (y := y) (k := k) (by omega)
    have hLast : daysBeforeMonth (k + 1) ≤ 365 := by unfold daysBeforeMonth; omega
    rw [Nat.add_sub_cancel, civil_of_split hd.1 (by omega) (by omega), if_pos (by omega)]

end Calendar
