import Mathlib.Logic.Function.Iterate
import Mathlib.Tactic.IntervalCases

set_option autoImplicit false

/-! # The Gregorian calendar

A date is what `n` steps of `next` lead to from the first of January 1970. `days` counts these steps: for
the count March is taken as the first month of the year, so that the leap day is the last one. -/

namespace Calendar

/-- A day of the Gregorian calendar. -/
structure Date where
  year : Nat
  month : Nat
  day : Nat
deriving DecidableEq

/-- The year has a 29th of February. -/
def IsLeap (year : Nat) : Prop := year % 4 = 0 ∧ (year % 100 ≠ 0 ∨ year % 400 = 0)

instance (year : Nat) : Decidable (IsLeap year) := inferInstanceAs (Decidable (_ ∧ _))

/-- The days of a month. -/
def monthLength (year month : Nat) : Nat :=
  if month = 2 then if IsLeap year then 29 else 28
  else if month ∈ [4, 6, 9, 11] then 30
  else 31

namespace Date

/-- There is such a day. -/
structure Valid (d : Date) : Prop where
  month_pos : 1 ≤ d.month
  month_le : d.month ≤ 12
  day_pos : 1 ≤ d.day
  day_le : d.day ≤ monthLength d.year d.month

/-- The day after. -/
def next (d : Date) : Date :=
  if d.day < monthLength d.year d.month then { d with day := d.day + 1 }
  else if d.month < 12 then { d with month := d.month + 1, day := 1 }
  else { year := d.year + 1, month := 1, day := 1 }

/-- The first of January 1970. -/
def epoch : Date := { year := 1970, month := 1, day := 1 }

end Date

open Date

/-- The date `n` days after the first of January 1970. -/
def dateAfter (n : Nat) : Date := next^[n] epoch

theorem dateAfter_succ (n : Nat) : dateAfter (n + 1) = (dateAfter n).next :=
  Function.iterate_succ_apply' next n epoch

theorem monthLength_pos (year month : Nat) : 1 ≤ monthLength year month := by
  unfold monthLength
  repeat' split
  all_goals omega

theorem monthLength_le (year month : Nat) : monthLength year month ≤ 31 := by
  unfold monthLength
  repeat' split
  all_goals omega

theorem Date.Valid.next {d : Date} (h : d.Valid) : d.next.Valid := by
  unfold Date.next
  split
  · next hday => exact ⟨h.month_pos, h.month_le, Nat.le_add_left 1 d.day, hday⟩
  · split
    · next hmonth => exact ⟨Nat.le_add_left 1 d.month, hmonth, Nat.le_refl 1, monthLength_pos _ _⟩
    · exact ⟨Nat.le_refl 1, Nat.le_add_left 1 11, Nat.le_refl 1, monthLength_pos _ _⟩

theorem dateAfter_valid (n : Nat) : (dateAfter n).Valid := by
  induction n with
  | zero => exact ⟨by decide, by decide, by decide, by decide⟩
  | succ n ih =>
      rw [dateAfter_succ]
      exact ih.next

theorem year_next (d : Date) : d.year ≤ d.next.year := by
  unfold Date.next
  split
  · exact Nat.le_refl d.year
  · split
    · exact Nat.le_refl d.year
    · exact Nat.le_succ d.year

theorem year_dateAfter (n : Nat) : 1970 ≤ (dateAfter n).year := by
  induction n with
  | zero => exact Nat.le_refl 1970
  | succ n ih =>
      rw [dateAfter_succ]
      exact Nat.le_trans ih (year_next _)

/-! ## Counting days -/

/-- The days before the year that begins with the March of `year`. -/
def leapDays (year : Nat) : Nat := year / 4 - year / 100 + year / 400

/-- The days from the end of the February of the year 0 on, and some more. -/
def count (year month day : Nat) : Nat := leapDays year + 367 * month / 12 + day + year * 365

/-- The count with January and February put to the end of the year before. -/
def Date.count (d : Date) : Nat :=
  if 2 < d.month then Calendar.count d.year (d.month - 2) d.day
  else Calendar.count (d.year - 1) (d.month + 10) d.day

theorem leapDays_succ (year : Nat) :
    leapDays (year + 1) = leapDays year + if IsLeap (year + 1) then 1 else 0 := by
  have hle : year / 100 ≤ year / 4 := Nat.div_le_div_left (by decide) (by decide)
  unfold leapDays
  rw [Nat.succ_div, Nat.succ_div, Nat.succ_div]
  by_cases h4 : 4 ∣ year + 1
  · by_cases h100 : 100 ∣ year + 1
    · by_cases h400 : 400 ∣ year + 1
      · rw [if_pos h4, if_pos h100, if_pos h400, if_pos ⟨by omega, by omega⟩]
        omega
      · rw [if_pos h4, if_pos h100, if_neg h400, if_neg fun h => by unfold IsLeap at h; omega]
        omega
    · have h400 : ¬ 400 ∣ year + 1 := fun h => h100 (Dvd.dvd.trans (by decide) h)
      rw [if_pos h4, if_neg h100, if_neg h400, if_pos ⟨by omega, by omega⟩]
      omega
  · have h100 : ¬ 100 ∣ year + 1 := fun h => h4 (Dvd.dvd.trans (by decide) h)
    have h400 : ¬ 400 ∣ year + 1 := fun h => h4 (Dvd.dvd.trans (by decide) h)
    rw [if_neg h4, if_neg h100, if_neg h400, if_neg fun h => by unfold IsLeap at h; omega]
    simp only [Nat.add_zero]

/-- The last day of a month. -/
theorem count_nextMonth (year : Nat) {month : Nat} (hpos : 1 ≤ month) (hlt : month < 12) :
    Date.count { year := year + 1, month := month + 1, day := 1 } =
      Date.count { year := year + 1, month := month, day := monthLength (year + 1) month } + 1 := by
  by_cases hfeb : month = 2
  · have hleap := leapDays_succ year
    subst hfeb
    simp only [Date.count, Calendar.count, monthLength, hleap]
    by_cases hyear : IsLeap (year + 1) <;> simp [hyear] <;> omega
  · rw [monthLength, if_neg hfeb]
    interval_cases month <;> simp [Date.count, Calendar.count]
    all_goals omega

theorem Date.count_next {d : Date} (h : d.Valid) (hyear : 1 ≤ d.year) : d.next.count = d.count + 1 := by
  obtain ⟨year, month, day⟩ := d
  obtain ⟨hpos, hle, hday, hlen⟩ := h
  obtain ⟨year, rfl⟩ := Nat.exists_eq_succ_of_ne_zero (Nat.ne_of_gt hyear)
  unfold Date.next
  split
  · simp only [Date.count, Calendar.count]
    clear hlen hyear
    split <;> omega
  · next hlast =>
      have hday : day = monthLength (year + 1) month := Nat.le_antisymm hlen (Nat.not_lt.1 hlast)
      rw [hday]
      split
      · next hmonth => exact count_nextMonth year hpos hmonth
      · next hmonth =>
          have hdec : month = 12 := Nat.le_antisymm hle (Nat.not_lt.1 hmonth)
          subst hdec
          simp [Date.count, Calendar.count, monthLength]
          omega

theorem count_dateAfter (n : Nat) : (dateAfter n).count = n + epoch.count := by
  induction n with
  | zero => exact (Nat.zero_add _).symm
  | succ n ih =>
      have hyear : 1 ≤ (dateAfter n).year := Nat.le_trans (by omega) (year_dateAfter n)
      rw [dateAfter_succ, Date.count_next (dateAfter_valid n) hyear, ih, Nat.add_right_comm]

theorem count_epoch : epoch.count = 719499 := by decide

/-! ## Every date -/

theorem exists_prev {d : Date} (h : d.Valid) (hyear : 1970 ≤ d.year) (hne : d ≠ epoch) :
    ∃ d' : Date, d'.Valid ∧ 1970 ≤ d'.year ∧ d'.next = d := by
  obtain ⟨year, month, day⟩ := d
  obtain ⟨hpos, hle, hday, hlen⟩ := h
  simp only at hpos hle hday hlen hyear
  by_cases hfirst : day = 1
  · subst hfirst
    by_cases hjan : month = 1
    · subst hjan
      have hlt : 1970 < year := Nat.lt_of_le_of_ne hyear fun heq => hne (by rw [← heq, epoch])
      refine ⟨⟨year - 1, 12, 31⟩, ⟨Nat.le_add_left 1 11, Nat.le_refl 12, Nat.le_add_left 1 30,
        Nat.le_refl 31⟩, Nat.le_pred_of_lt hlt, ?_⟩
      simp [Date.next, monthLength, Nat.sub_add_cancel (Nat.one_le_of_lt hlt)]
    · refine ⟨⟨year, month - 1, monthLength year (month - 1)⟩, ⟨by simp only; omega, by simp only; omega,
        monthLength_pos _ _, Nat.le_refl _⟩, hyear, ?_⟩
      have hmonth : month - 1 < 12 := by omega
      simp [Date.next, hmonth, Nat.sub_add_cancel hpos]
  · have hlt : day - 1 < monthLength year month := by omega
    refine ⟨⟨year, month, day - 1⟩, ⟨hpos, hle, by simp only; omega, Nat.le_of_lt hlt⟩, hyear, ?_⟩
    simp [Date.next, hlt, Nat.sub_add_cancel hday]

/-- The dates from 1970 on are those that days lead to. -/
theorem exists_dateAfter {d : Date} (h : d.Valid) (hyear : 1970 ≤ d.year) : ∃ n, dateAfter n = d := by
  induction hcount : d.count using Nat.strong_induction_on generalizing d with
  | _ c ih =>
      by_cases hepoch : d = epoch
      · exact ⟨0, hepoch.symm⟩
      obtain ⟨d', hvalid, hyear', rfl⟩ := exists_prev h hyear hepoch
      rw [Date.count_next hvalid (by omega)] at hcount
      obtain ⟨n, rfl⟩ := ih d'.count (by omega) hvalid hyear' rfl
      exact ⟨n + 1, dateAfter_succ n⟩

theorem dateAfter_eq {d : Date} {n : Nat} (h : d.Valid) (hyear : 1970 ≤ d.year)
    (hcount : d.count = n + epoch.count) : dateAfter n = d := by
  obtain ⟨k, rfl⟩ := exists_dateAfter h hyear
  rw [count_dateAfter] at hcount
  rw [Nat.add_right_cancel hcount]

end Calendar
