import Mathlib.Algebra.BigOperators.Group.Finset.Basic
import Mathlib.Order.Interval.Finset.Basic
import Mathlib.Data.Int.Interval
import Mathlib.Tactic.IntervalCases

/-!
The Gregorian calendar, continued to all years, and the number of days from the first day of a
year to a date.
-/

namespace DirtybirdMiner.Lib.Calendar

section Total

variable (f : Int → Int)

/-- The sum from one place to another; backwards it counts negative. -/
def total (a b : Int) : Int :=
  ∑ i ∈ Finset.range (b - a).toNat, f (a + i) - ∑ i ∈ Finset.range (a - b).toNat, f (b + i)

@[simp] theorem total_self (a : Int) : total f a a = 0 := by simp [total]

theorem total_succ (a b : Int) : total f a (b + 1) = total f a b + f b := by
  unfold total
  rcases le_or_gt a b with hab | hba
  · have hcount : (b + 1 - a).toNat = (b - a).toNat + 1 := by omega
    have hlast : a + ((b - a).toNat : Int) = b := by omega
    rw [hcount, Finset.sum_range_succ, hlast, Int.toNat_of_nonpos (by omega : a - b ≤ 0),
      Int.toNat_of_nonpos (by omega : a - (b + 1) ≤ 0), Finset.sum_range_zero,
      Finset.sum_range_zero]
    omega
  · have hcount : (a - b).toNat = (a - (b + 1)).toNat + 1 := by omega
    have hshift : ∀ i : Nat, b + ((i + 1 : Nat) : Int) = b + 1 + i := by
      intro i
      omega
    rw [hcount, Finset.sum_range_succ', Int.toNat_of_nonpos (by omega : b - a ≤ 0),
      Int.toNat_of_nonpos (by omega : b + 1 - a ≤ 0), Finset.sum_range_zero]
    simp only [hshift]
    rw [Nat.cast_zero, add_zero]
    omega

variable {f}

/-- A function with the same steps is the sum, up to its start. -/
theorem total_eq {g : Int → Int} (h : ∀ i, g (i + 1) = g i + f i) (a b : Int) :
    total f a b = g b - g a := by
  induction b using Int.inductionOn' (b := a) with
  | zero => rw [total_self, sub_self]
  | succ b _ ih => rw [total_succ, ih, h]; omega
  | pred b _ ih =>
      have hstep := total_succ f a (b - 1)
      have hg := h (b - 1)
      rw [Int.sub_add_cancel] at hstep hg
      omega

theorem total_lt_iff (h : ∀ i, 0 < f i) (a : Int) {b c : Int} :
    total f a b < total f a c ↔ b < c := by
  have hmono : StrictMono (total f a) := by
    apply strictMono_int_of_lt_succ
    intro b
    rw [total_succ]
    have hpos := h b
    omega
  exact hmono.lt_iff_lt

end Total

section Dates

/-- Leap years. -/
def Leap (y : Int) : Prop := 4 ∣ y ∧ (¬100 ∣ y ∨ 400 ∣ y)

instance (y : Int) : Decidable (Leap y) := inferInstanceAs (Decidable (_ ∧ _))

def yearDays (y : Int) : Int := if Leap y then 366 else 365

def monthDays (y m : Int) : Int :=
  if m = 2 then (if Leap y then 29 else 28)
  else if m = 4 ∨ m = 6 ∨ m = 9 ∨ m = 11 then 30
  else 31

/-- A day of the calendar. -/
structure Date where
  year : Int
  month : Int
  day : Int
  month_mem : 1 ≤ month ∧ month ≤ 12
  day_mem : 1 ≤ day ∧ day ≤ monthDays year month

/-- The days from the first of January of a year to a date. -/
def dayNumber (epoch : Int) (date : Date) : Int :=
  total yearDays epoch date.year + total (monthDays date.year) 1 date.month + (date.day - 1)

/-- A second of a day of the calendar. -/
structure Instant extends Date where
  hour : Int
  minute : Int
  second : Int
  hour_mem : 0 ≤ hour ∧ hour < 24
  minute_mem : 0 ≤ minute ∧ minute < 60
  second_mem : 0 ≤ second ∧ second < 60

/-- The seconds from the beginning of a year to an instant. -/
def secondNumber (epoch : Int) (t : Instant) : Int :=
  dayNumber epoch t.toDate * 86400 + t.hour * 3600 + t.minute * 60 + t.second

theorem yearDays_pos (y : Int) : 0 < yearDays y := by
  unfold yearDays
  split <;> decide

/-- The days of the years before a year, from the years that are divisible. -/
theorem total_yearDays (a b : Int) : total yearDays a b =
    (365 * b + (b - 1) / 4 - (b - 1) / 100 + (b - 1) / 400) -
      (365 * a + (a - 1) / 4 - (a - 1) / 100 + (a - 1) / 400) := by
  refine total_eq (g := fun b => 365 * b + (b - 1) / 4 - (b - 1) / 100 + (b - 1) / 400) ?_ a b
  intro i
  unfold yearDays
  by_cases hleap : Leap i
  · rw [if_pos hleap]
    unfold Leap at hleap
    omega
  · rw [if_neg hleap]
    unfold Leap at hleap
    omega

/-- The days of the months before a month, counted from March. -/
theorem total_monthDays {m : Int} (y : Int) (hm : 1 ≤ m ∧ m ≤ 12) :
    total (monthDays y) 1 m = if m ≤ 2 then 31 * (m - 1)
      else (153 * (m - 3) + 2) / 5 + (if Leap y then 60 else 59) := by
  obtain ⟨hlo, hhi⟩ := hm
  induction m, hlo using Int.leInduction with
  | base => simp
  | succ m hlo ih =>
      rw [total_succ, ih (by omega)]
      have hlast : m ≤ 11 := by omega
      unfold monthDays
      by_cases hleap : Leap y
      · simp only [if_pos hleap]
        interval_cases m <;> simp
      · simp only [if_neg hleap]
        interval_cases m <;> simp

/-- A date stands between the first days of its year and of the next. -/
theorem dayNumber_mem_year (epoch : Int) (date : Date) :
    total yearDays epoch date.year ≤ dayNumber epoch date ∧
      dayNumber epoch date < total yearDays epoch (date.year + 1) := by
  obtain ⟨y, m, d, ⟨hlo, hhi⟩, hd⟩ := date
  have hmonths := total_monthDays y ⟨hlo, hhi⟩
  rw [total_succ]
  unfold dayNumber
  unfold monthDays yearDays at *
  by_cases hleap : Leap y
  · simp only [if_pos hleap] at *
    interval_cases m <;> simp at * <;> omega
  · simp only [if_neg hleap] at *
    interval_cases m <;> simp at * <;> omega

/-- A day number belongs to one year only. -/
theorem year_unique {epoch n y y' : Int}
    (h : total yearDays epoch y ≤ n ∧ n < total yearDays epoch (y + 1))
    (h' : total yearDays epoch y' ≤ n ∧ n < total yearDays epoch (y' + 1)) : y = y' := by
  have hlt := (total_lt_iff yearDays_pos epoch).mp (lt_of_le_of_lt h.1 h'.2)
  have hgt := (total_lt_iff yearDays_pos epoch).mp (lt_of_le_of_lt h'.1 h.2)
  omega

/-- The days of the years that begin in March, before such a year. -/
def marchDays (y : Int) : Int := 365 * y + y / 4 - y / 100 + y / 400

/-- The year, counted from March, that a month of a year belongs to. -/
def marchYear (y m : Int) : Int := if m ≤ 2 then y - 1 else y

/-- The months since March. -/
def marchMonth (m : Int) : Int := if m ≤ 2 then m + 9 else m - 3

/-- Counted from March, the lengths of the months do not depend on the year. -/
theorem dayNumber_march (epoch : Int) (date : Date) :
    dayNumber epoch date = marchDays (marchYear date.year date.month) +
      (153 * marchMonth date.month + 2) / 5 + (date.day - 1) - (marchDays (epoch - 1) + 306) := by
  obtain ⟨y, m, d, ⟨hlo, hhi⟩, hd⟩ := date
  have hmonths := total_monthDays y ⟨hlo, hhi⟩
  rw [dayNumber, total_yearDays, hmonths]
  unfold marchDays marchYear marchMonth
  by_cases hleap : Leap y
  · simp only [if_pos hleap]
    unfold Leap at hleap
    split_ifs <;> omega
  · simp only [if_neg hleap]
    unfold Leap at hleap
    split_ifs <;> omega

end Dates

end DirtybirdMiner.Lib.Calendar
