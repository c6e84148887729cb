import Mathlib.Data.BitVec

set_option autoImplicit false

/-! # The time of day (`arch/x86_64/time.c`, `mktime64` in `kernel/timer.c`)

`init_time` reads the date from the clock in the CMOS memory and turns it into seconds. The clock goes on
between two reads, so what a register holds depends on how many reads there have been. -/

namespace Yaos.Clock

/-- `unsigned int` except for the result. -/
def mktime64 (year0 mon0 day hour min sec : BitVec 32) : BitVec 64 :=
  let early := (mon0 - 2).sle 0
  let mon := if early then mon0 - 2 + 12 else mon0 - 2
  let year := if early then year0 - 1 else year0
  ((((year / 4 - year / 100 + year / 400 + 367 * mon / 12 + day).setWidth 64 +
      (year * 365).setWidth 64 - 719499) * 24 + hour.setWidth 64) * 60 + min.setWidth 64) * 60 +
    sec.setWidth 64

/-- `struct rtcdate` -/
structure RtcDate where
  second : BitVec 32
  minute : BitVec 32
  hour : BitVec 32
  day : BitVec 32
  month : BitVec 32
  year : BitVec 32
deriving DecidableEq

section Cmos

-- what the register `reg` gives at the `t`-th read
variable (rtc : Nat → BitVec 8 → BitVec 8)

/-- `cmos_read`, as the read with the number `t`. -/
def cmosRead (t : Nat) (reg : BitVec 8) : BitVec 32 := (rtc t reg).setWidth 32

/-- Six reads. -/
def fillRtcdate (t : Nat) : RtcDate where
  second := cmosRead rtc t 0x00
  minute := cmosRead rtc (t + 1) 0x02
  hour := cmosRead rtc (t + 2) 0x04
  day := cmosRead rtc (t + 3) 0x07
  month := cmosRead rtc (t + 4) 0x08
  year := cmosRead rtc (t + 5) 0x09

end Cmos

end Yaos.Clock
