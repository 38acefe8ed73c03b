/-
  The Gregorian calendar, a day at a time.

  A `Date` is a day of a month of a year, of those the calendar has; `next` is the day
  after it, and `after` so many days after.  What counts the days of the calendar is told
  by what it does at one date and from each date to the next.
-/
import Mathlib

namespace Aegir.Lib

/-- Every fourth year but three of four centuries' last ones. -/
def Leap (year : ℕ) : Prop := year % 4 = 0 ∧ (year % 100 ≠ 0 ∨ year % 400 = 0)

instance : DecidablePred Leap := fun year => inferInstanceAs (Decidable (year % 4 = 0 ∧ (year % 100 ≠ 0 ∨ year % 400 = 0)))

def monthDays (year month : ℕ) : ℕ :=
  if month = 2 then (if Leap year then 29 else 28)
  else if month = 4 ∨ month = 6 ∨ month = 9 ∨ month = 11 then 30 else 31

theorem monthDays_pos (year month : ℕ) : 1 ≤ monthDays year month := by
  unfold monthDays
  split_ifs
  all_goals decide

theorem monthDays_le (year month : ℕ) : monthDays year month ≤ 31 := by
  unfold monthDays
  split_ifs
  all_goals decide

@[ext]
structure Date where
  year : ℕ
  month : ℕ
  day : ℕ
  month_pos : 1 ≤ month
  month_le : month ≤ 12
  day_pos : 1 ≤ day
  day_le : day ≤ monthDays year month
deriving DecidableEq

namespace Date

/-- The day after. -/
def next (d : Date) : Date :=
  if h : d.day < monthDays d.year d.month then
    ⟨d.year, d.month, d.day + 1, d.month_pos, d.month_le, Nat.le_add_left 1 _, h⟩
  else if h' : d.month < 12 then
    ⟨d.year, d.month + 1, 1, Nat.le_add_left 1 _, h', Nat.le_refl 1, monthDays_pos _ _⟩
  else ⟨d.year + 1, 1, 1, Nat.le_refl 1, by decide, Nat.le_refl 1, monthDays_pos _ _⟩

/-- The first of January. -/
def newYear (year : ℕ) : Date := ⟨year, 1, 1, Nat.le_refl 1, by decide, Nat.le_refl 1, monthDays_pos _ _⟩

def after (d : Date) : ℕ → Date
  | 0 => d
  | n + 1 => (d.after n).next

theorem next_year (d : Date) : d.year ≤ d.next.year := by
  unfold next
  split_ifs
  all_goals dsimp only
  all_goals omega

theorem year_le_after (d : Date) (n : ℕ) : d.year ≤ (d.after n).year := by
  induction n with
  | zero => exact Nat.le_refl _
  | succ n ih => exact Nat.le_trans ih (next_year _)

theorem after_add (d : Date) (n k : ℕ) : d.after (n + k) = (d.after n).after k := by
  induction k with
  | zero => rfl
  | succ k ih => rw [← Nat.add_assoc, after, ih, after]

end Date

end Aegir.Lib
