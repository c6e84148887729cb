import Mathlib.Data.BitVec
import Mathlib.Tactic.Ring
import Yaos.Clock
import Yaos.Lib.Calendar

set_option autoImplicit false

/-! # The start time is the one that the clock shows

`mktime64` counts days as the calendar does, and loses those that do not fit into 32 bits. `cmostime` returns
what its second six reads have given, and no update of the clock is in progress during these. -/

namespace Yaos.Clock

open Calendar

/-! ## Seconds -/

theorem setWidth_eq_ofNat (x : BitVec 32) : x.setWidth 64 = BitVec.ofNat 64 x.toNat := by
  rw [BitVec.ofNat_toNat]

theorem ofNat_div {a k : Nat} (ha : a < 2 ^ 32) (hk : k < 2 ^ 32) :
    BitVec.ofNat 32 a / BitVec.ofNat 32 k = BitVec.ofNat 32 (a / k) := by
  have hle := Nat.div_le_self a k
  apply BitVec.eq_of_toNat_eq
  rw [BitVec.toNat_udiv, BitVec.toNat_ofNat, BitVec.toNat_ofNat, BitVec.toNat_ofNat,
    Nat.mod_eq_of_lt ha, Nat.mod_eq_of_lt hk, Nat.mod_eq_of_lt (by omega)]

/-- The days in the formula. Those of the years are cut to 32 bits. -/
theorem count_eq {year month day : Nat} (hyear : year < 2 ^ 32) (hmonth : month ≤ 12)
    (hday : day ≤ 31) :
    (BitVec.ofNat 32 year / 4 - BitVec.ofNat 32 year / 100 + BitVec.ofNat 32 year / 400 +
          367 * BitVec.ofNat 32 month / 12 + BitVec.ofNat 32 day).setWidth 64 +
        (BitVec.ofNat 32 year * 365).setWidth 64 =
      BitVec.ofNat 64 (leapDays year + 367 * month / 12 + day + year * 365 % 2 ^ 32) := by
  have hle : year / 100 ≤ year / 4 := Nat.div_le_div_left (by decide) (by decide)
  have h4 : BitVec.ofNat 32 year / 4 = BitVec.ofNat 32 (year / 4) := ofNat_div hyear (by decide)
  have h100 : BitVec.ofNat 32 year / 100 = BitVec.ofNat 32 (year / 100) := ofNat_div hyear (by decide)
  have h400 : BitVec.ofNat 32 year / 400 = BitVec.ofNat 32 (year / 400) := ofNat_div hyear (by decide)
  have h367 : 367 * BitVec.ofNat 32 month = BitVec.ofNat 32 (367 * month) := (BitVec.ofNat_mul ..).symm
  have h12 : BitVec.ofNat 32 (367 * month) / 12 = BitVec.ofNat 32 (367 * month / 12) :=
    ofNat_div (by omega) (by decide)
  have h365 : (BitVec.ofNat 32 year * 365).setWidth 64 = BitVec.ofNat 64 (year * 365 % 2 ^ 32) := by
    have hmul : BitVec.ofNat 32 year * 365 = BitVec.ofNat 32 (year * 365) := (BitVec.ofNat_mul ..).symm
    rw [hmul, setWidth_eq_ofNat, BitVec.toNat_ofNat]
  rw [h4, h100, h400, h367, h12, h365, BitVec.ofNat_sub_ofNat_of_le _ _ (by omega) hle,
    BitVec.ofNat_add_ofNat, BitVec.ofNat_add_ofNat, BitVec.ofNat_add_ofNat,
    BitVec.setWidth_ofNat_of_le_of_lt (by decide) (by omega), BitVec.ofNat_add_ofNat]
  rfl

/-- The year that the days of the formula are counted for. -/
def formulaYear (d : Date) : Nat := if 2 < d.month then d.year else d.year - 1

/-- The days that the cut to 32 bits loses. -/
def lostDays (d : Date) : Nat := 2 ^ 32 * (formulaYear d * 365 / 2 ^ 32)

/-- The months are counted from the March on. -/
theorem mktime64_month {month : Nat} (hpos : 1 ≤ month) (hle : month ≤ 12) :
    ((BitVec.ofNat 32 month - 2).sle 0 = decide (¬ 2 < month)) ∧
      BitVec.ofNat 32 month - 2 + 12 = BitVec.ofNat 32 (month + 10) := by
  interval_cases month <;> decide

theorem mktime64_days {d : Date} (h : d.Valid) (hpos : 1 ≤ d.year) (hyear : d.year < 2 ^ 32)
    (hour min sec : BitVec 32) :
    mktime64 (BitVec.ofNat 32 d.year) (BitVec.ofNat 32 d.month) (BitVec.ofNat 32 d.day) hour min sec =
      (((BitVec.ofNat 64 (d.count - lostDays d) - 719499) * 24 + hour.setWidth 64) * 60 +
          min.setWidth 64) * 60 + sec.setWidth 64 := by
  have hday := Nat.le_trans h.day_le (monthLength_le _ _)
  have hle := h.month_le
  obtain ⟨hearly, hmonth⟩ := mktime64_month h.month_pos hle
  have hcut : ∀ x y : Nat, x + y % 2 ^ 32 = x + y - 2 ^ 32 * (y / 2 ^ 32) := by omega
  unfold mktime64 Date.count lostDays formulaYear
  simp only [hearly, hmonth, decide_eq_true_eq]
  by_cases hlate : 2 < d.month
  · have hmarch : BitVec.ofNat 32 d.month - 2 = BitVec.ofNat 32 (d.month - 2) :=
      BitVec.ofNat_sub_ofNat_of_le _ _ (by decide) (Nat.le_of_lt hlate)
    simp only [hlate, not_true_eq_false, if_false, if_true]
    rw [hmarch, count_eq hyear (by omega) hday, hcut]
    rfl
  · have hprev : BitVec.ofNat 32 d.year - 1 = BitVec.ofNat 32 (d.year - 1) :=
      BitVec.ofNat_sub_ofNat_of_le _ _ (by decide) hpos
    simp only [hlate, not_false_eq_true, if_false, if_true]
    rw [hprev, count_eq (by omega) (by omega) hday, hcut]
    rfl

/-- `n` days and a time. -/
def seconds (n hour min sec : Nat) : Nat := ((n * 24 + hour) * 60 + min) * 60 + sec

theorem count_lt {d : Date} (h : d.Valid) (hyear : d.year < 2 ^ 32) : d.count < 2 ^ 41 := by
  have hday := Nat.le_trans h.day_le (monthLength_le _ _)
  have hmonth := h.month_le
  unfold Date.count count leapDays
  split <;> omega

theorem lostDays_le (d : Date) : lostDays d ≤ d.count := by
  have hle := Nat.mul_div_le (formulaYear d * 365) (2 ^ 32)
  unfold lostDays Date.count formulaYear count at *
  split <;> simp_all <;> omega

theorem mktime64_eq {n : Nat} (h : (dateAfter n).year < 2 ^ 32) (hour min sec : BitVec 32) :
    mktime64 (BitVec.ofNat 32 (dateAfter n).year) (BitVec.ofNat 32 (dateAfter n).month)
        (BitVec.ofNat 32 (dateAfter n).day) hour min sec =
      BitVec.ofNat 64 (seconds n hour.toNat min.toNat sec.toNat) -
        BitVec.ofNat 64 (lostDays (dateAfter n) * 86400) := by
  have hvalid := dateAfter_valid n
  have hpos : 1 ≤ (dateAfter n).year := Nat.le_trans (by omega) (year_dateAfter n)
  have hle := lostDays_le (dateAfter n)
  have hlt := count_lt hvalid h
  have hcount := count_dateAfter n
  rw [count_epoch] at hcount
  have hsub : BitVec.ofNat 64 ((dateAfter n).count - lostDays (dateAfter n)) =
      BitVec.ofNat 64 (n + 719499) - BitVec.ofNat 64 (lostDays (dateAfter n)) := by
    rw [BitVec.ofNat_sub_ofNat_of_le _ _ (by omega) (by omega), hcount]
  rw [mktime64_days hvalid hpos h, hsub, setWidth_eq_ofNat, setWidth_eq_ofNat, setWidth_eq_ofNat, seconds]
  simp only [BitVec.ofNat_add, BitVec.ofNat_mul]
  have h24 : BitVec.ofNat 64 24 = 24 := rfl
  have h60 : BitVec.ofNat 64 60 = 60 := rfl
  have h86400 : BitVec.ofNat 64 86400 = 86400 := rfl
  have h719499 : BitVec.ofNat 64 719499 = 719499 := rfl
  rw [h24, h60, h86400, h719499]
  ring

theorem seconds_lt {n : Nat} (h : (dateAfter n).year < 2 ^ 32) (hour min sec : BitVec 32) :
    seconds n hour.toNat min.toNat sec.toNat < 2 ^ 64 := by
  have hlt := count_lt (dateAfter_valid n) h
  have hcount := count_dateAfter n
  have hhour := hour.isLt
  have hmin := min.isLt
  have hsec := sec.isLt
  unfold seconds
  omega

theorem mktime64_dateAfter {n : Nat} (h : (dateAfter n).year < 2 ^ 32)
    (hlost : lostDays (dateAfter n) = 0) (hour min sec : BitVec 32) :
    (mktime64 (BitVec.ofNat 32 (dateAfter n).year) (BitVec.ofNat 32 (dateAfter n).month)
        (BitVec.ofNat 32 (dateAfter n).day) hour min sec).toNat =
      seconds n hour.toNat min.toNat sec.toNat := by
  rw [mktime64_eq h, hlost, Nat.zero_mul, BitVec.sub_zero, BitVec.toNat_ofNat,
    Nat.mod_eq_of_lt (seconds_lt h hour min sec)]

theorem lostDays_eq_zero_iff (d : Date) : lostDays d = 0 ↔ formulaYear d ≤ 11767033 := by
  unfold lostDays
  omega

/-- The years for which the seconds are right. Of the one after the last of them January and February are,
too. -/
theorem mktime64_eq_seconds_iff {n : Nat} (h : (dateAfter n).year < 2 ^ 32) (hour min sec : BitVec 32) :
    (mktime64 (BitVec.ofNat 32 (dateAfter n).year) (BitVec.ofNat 32 (dateAfter n).month)
        (BitVec.ofNat 32 (dateAfter n).day) hour min sec).toNat =
      seconds n hour.toNat min.toNat sec.toNat ↔ formulaYear (dateAfter n) ≤ 11767033 := by
  rw [← lostDays_eq_zero_iff]
  refine ⟨fun heq => ?_, fun hlost => mktime64_dateAfter h hlost hour min sec⟩
  have hzero : BitVec.ofNat 64 (lostDays (dateAfter n) * 86400) = 0 := by
    rw [← sub_eq_self, ← mktime64_eq h, BitVec.toNat_eq, heq, BitVec.toNat_ofNat,
      Nat.mod_eq_of_lt (seconds_lt h hour min sec)]
  have hmod := congrArg BitVec.toNat hzero
  have hyear : formulaYear (dateAfter n) < 2 ^ 32 := by
    unfold formulaYear
    split <;> omega
  rw [BitVec.toNat_ofNat] at hmod
  unfold lostDays at hmod ⊢
  have hk : formulaYear (dateAfter n) * 365 / 2 ^ 32 < 366 := by omega
  have hsmall : 2 ^ 32 * (formulaYear (dateAfter n) * 365 / 2 ^ 32) * 86400 < 2 ^ 64 := by omega
  rw [Nat.mod_eq_of_lt hsmall] at hmod
  have hnone : (0 : BitVec 64).toNat = 0 := rfl
  omega

theorem dateAfter_leapDay : dateAfter 19782 = { year := 2024, month := 2, day := 29 } :=
  dateAfter_eq ⟨by decide, by decide, by decide, by decide⟩ (by decide) (by decide)

theorem mktime64_eq_seconds_iff_leapDay :
    (mktime64 (BitVec.ofNat 32 (dateAfter 19782).year) (BitVec.ofNat 32 (dateAfter 19782).month)
        (BitVec.ofNat 32 (dateAfter 19782).day) 23 59 58).toNat =
      seconds 19782 23 59 58 ↔ formulaYear (dateAfter 19782) ≤ 11767033 :=
  mktime64_eq_seconds_iff (by rw [dateAfter_leapDay]; decide) 23 59 58

/-! ## The registers -/

/-- A moment of the years that the clock can tell apart. -/
structure Moment where
  days : Nat
  hour : Nat
  minute : Nat
  second : Nat
  year_ge : 2000 ≤ (dateAfter days).year
  year_lt : (dateAfter days).year < 2100
  hour_lt : hour < 24
  minute_lt : minute < 60
  second_lt : second < 60

/-- The content of a register, which is decimal if `bcd`. -/
def register (bcd : Bool) (v : Nat) : BitVec 8 :=
  BitVec.ofNat 8 (if bcd then 16 * (v / 10) + v % 10 else v)

/-- `rtcdate` as the registers have it. -/
def Moment.raw (m : Moment) (bcd : Bool) : RtcDate where
  second := (register bcd m.second).setWidth 32
  minute := (register bcd m.minute).setWidth 32
  hour := (register bcd m.hour).setWidth 32
  day := (register bcd (dateAfter m.days).day).setWidth 32
  month := (register bcd (dateAfter m.days).month).setWidth 32
  year := (register bcd ((dateAfter m.days).year - 2000)).setWidth 32

section Rtc

variable (rtc : Nat → BitVec 8 → BitVec 8) (bcd : Bool) (clock : Nat → Moment)

/-- At the read `t` the registers show the moment `m`. -/
structure Shows (m : Moment) (t : Nat) : Prop where
  second : rtc t 0x00 = register bcd m.second
  minute : rtc t 0x02 = register bcd m.minute
  hour : rtc t 0x04 = register bcd m.hour
  day : rtc t 0x07 = register bcd (dateAfter m.days).day
  month : rtc t 0x08 = register bcd (dateAfter m.days).month
  year : rtc t 0x09 = register bcd ((dateAfter m.days).year - 2000)

/-- When no update is in progress, none begins during the next reads. In an update the registers have any
value. -/
structure Coherent : Prop where
  mode : ∀ t, (cmosRead rtc t 0x0b &&& 4 == 0) = bcd
  shows : ∀ t, cmosRead rtc t 0x0a &&& 0x80 = 0 → ∀ i < 6, Shows rtc bcd (clock t) (t + 1 + i)

/-- From `T` on there is time for two rounds without an update. -/
structure Quiet (T : Nat) : Prop where
  same : ∀ i < 26, rtc (T + i) = rtc T
  clear : cmosRead rtc T 0x0a &&& 0x80 = 0

end Rtc

variable {rtc : Nat → BitVec 8 → BitVec 8} {bcd : Bool} {clock : Nat → Moment}

theorem Coherent.fill (h : Coherent rtc bcd clock) {t : Nat}
    (hclear : cmosRead rtc t 0x0a &&& 0x80 = 0) : fillRtcdate rtc (t + 1) = (clock t).raw bcd := by
  have hs := h.shows t hclear
  unfold fillRtcdate cmosRead Moment.raw
  rw [(hs 0 (by decide)).second, (hs 1 (by decide)).minute, (hs 2 (by decide)).hour,
    (hs 3 (by decide)).day, (hs 4 (by decide)).month, (hs 5 (by decide)).year]

theorem Quiet.at {T t : Nat} (h : Quiet rtc T) (hle : T ≤ t) (hlt : t < T + 26) : rtc t = rtc T := by
  have hsame := h.same (t - T) (by omega)
  rwa [Nat.add_sub_cancel' hle] at hsame

/-- A round in the quiet time is the last one. -/
theorem Quiet.fill {T t : Nat} (h : Quiet rtc T) (hle : T ≤ t) (hlt : t ≤ T + 12) :
    cmosRead rtc (t + 6) 0x0a &&& 0x80 = 0 ∧ fillRtcdate rtc t = fillRtcdate rtc (t + 7) := by
  have hat : ∀ i < 14, rtc (t + i) = rtc T := fun i hi => h.at (by omega) (by omega)
  refine ⟨?_, ?_⟩
  · rw [cmosRead, hat 6 (by decide)]
    exact h.clear
  · have hzero := hat 0 (by decide)
    rw [Nat.add_zero] at hzero
    simp only [fillRtcdate, cmosRead, Nat.add_assoc, Nat.reduceAdd, hzero, hat 1 (by decide),
      hat 2 (by decide), hat 3 (by decide), hat 4 (by decide), hat 5 (by decide), hat 7 (by decide),
      hat 8 (by decide), hat 9 (by decide), hat 10 (by decide), hat 11 (by decide), hat 12 (by decide)]

/-- The seconds since 1970. -/
def Moment.seconds (m : Moment) : Nat := Clock.seconds m.days m.hour m.minute m.second

end Yaos.Clock
