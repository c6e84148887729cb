import Yaos.Fault
import Yaos.Lib.Word

set_option autoImplicit false

/-! # Setting the timer of the local APIC (`arch/x86_64/apic_timer.c`)

`calibrate_APIC_clock` measures the period of the bus clock and that of the time stamp counter, in
femtoseconds. An event is set as a number of ticks: of the bus clock divided by 16, to be counted down, or of
the counter, as the value that it is to reach. -/

namespace Yaos.ApicTimer

open Word

/-- `APIC_DIVISOR`. -/
def apicDivisor : Nat := 16

/-- `FSEC_PER_NSEC`. -/
def fsecPerNsec : Nat := 1000000

/-- `FSEC_PER_MSEC`. -/
def fsecPerMsec : Nat := 1000000000000

/-- `a * b` on 64-bit words. -/
def wmul (a b : Nat) : Nat := a * b % 2 ^ 64

/-- `a / b`. The handler of the divide error ends in `for(;;)`. -/
def wdiv (a b : Nat) : Except Fault Nat := if b = 0 then .error .hang else .ok (a / b)

/-- `a || b` as a number. -/
def lor (a b : Nat) : Nat := if a ≠ 0 ∨ b ≠ 0 then 1 else 0

/-! ## Calibration -/

/-- The clocks when the timer is started and when it is calibrated. -/
structure Readings where
  startUptime : Nat
  startTsc : Nat
  nowUptime : Nat
  nowTsc : Nat
  remain : Nat

/-- What the calibration writes. -/
structure ApicClocks where
  clkFsecs : Nat
  clkKhz : Nat
  tscFsecs : Nat
  tscKhz : Nat
  lapicTimerPeriod : Nat
deriving DecidableEq, Repr

/-- `calibrate_APIC_clock`, with the readings it takes. -/
def calibrateApicClock (r : Readings) : Except Fault ApicClocks := do
  let delta := wsub r.nowUptime r.startUptime
  assert "delta<0x400000000" (delta < 0x400000000)
  let clock ← wdiv (wmul delta 1000) (wmul apicDivisor (wsub 0xffffffff r.remain))
  let clock := wadd clock 5
  let clock := clock / 10
  let clock := wmul clock 10000
  let clkFsecs := clock
  let clkKhz ← wdiv fsecPerMsec clkFsecs
  let lapicTimerPeriod ← wdiv (fsecPerMsec / apicDivisor) clock
  let clock ← wdiv (wmul 1000 delta) (wsub r.nowTsc r.startTsc)
  let clock := wmul clock 1000
  let tscFsecs := clock
  let tscKhz ← wdiv fsecPerMsec tscFsecs
  .ok { clkFsecs, clkKhz, tscFsecs, tscKhz, lapicTimerPeriod }

/-! ## The device -/

/-- The functions that can program the timer. -/
inductive NextEvent
  | lapicNextEvent
  | lapicNextDeadline
deriving DecidableEq, Repr

/-- `clock_event_device`. -/
structure ClockEventDevice where
  name : String
  periodic : Bool
  oneshot : Bool
  setNextEvent : NextEvent
  minDeltaNs : Nat
  maxDeltaNs : Nat
  khz : Nat

/-- `lapic_clockevent`, and what `setup_APIC_timer` sets in its copy. `deadlineTimer` is
    `boot_cpu_has(X86_FEATURE_TSC_DEADLINE_TIMER)`. -/
def setupApicTimer (c : ApicClocks) (deadlineTimer : Bool) : Except Fault (ClockEventDevice × ApicClocks) :=
  if deadlineTimer then do
    let lapicTimerPeriod ← wdiv fsecPerMsec c.tscFsecs
    .ok ({ name := "lapic-deadline", periodic := false, oneshot := true, setNextEvent := .lapicNextDeadline
           minDeltaNs := c.tscFsecs / fsecPerNsec
           maxDeltaNs := wmul (wmul 0x7fffffff c.tscFsecs / fsecPerNsec) (2 ^ 32)
           khz := c.tscKhz }, { c with lapicTimerPeriod })
  else do
    let lapicTimerPeriod ← wdiv (fsecPerMsec / apicDivisor) c.clkFsecs
    .ok ({ name := "lapic", periodic := true, oneshot := true, setNextEvent := .lapicNextEvent
           minDeltaNs := wmul c.clkFsecs apicDivisor / fsecPerNsec
           maxDeltaNs := wmul (wmul 0x7fffffff c.clkFsecs / fsecPerNsec) apicDivisor
           khz := c.clkKhz }, { c with lapicTimerPeriod })

/-- What the two functions write: `APIC_TMICT` and `MSR_IA32_TSC_DEADLINE`. -/
structure LapicTimer where
  tmict : Nat
  tscDeadline : Nat

/-- `lapic_write(APIC_TMICT, (delta_ns * (FSEC_PER_NSEC / APIC_DIVISOR )/ clk_fsecs) || 1);` -/
def lapicNextEvent (c : ApicClocks) (deltaNs : Nat) (l : LapicTimer) : Except Fault LapicTimer := do
  let ticks ← wdiv (wmul deltaNs (fsecPerNsec / apicDivisor)) c.clkFsecs
  .ok { l with tmict := lor ticks 1 }

/-- `tsc` is what `rdtsc` returns. -/
def lapicNextDeadline (c : ApicClocks) (tsc deltaNs : Nat) (l : LapicTimer) : Except Fault LapicTimer := do
  let ticks ← wdiv (wmul deltaNs fsecPerNsec) c.tscFsecs
  .ok { l with tscDeadline := wadd tsc ticks }

/-! ## What it is for -/

/-- An event after `ticks` ticks comes no earlier than the last tick before `deltaNs`, and no later than
    `deltaNs` rounded up to one tick. -/
structure InTime (tick ticks deltaNs : Nat) : Prop where
  notEarly : deltaNs * fsecPerNsec < (ticks + 1) * tick
  notLate : ticks * tick ≤ max (deltaNs * fsecPerNsec) tick

/-- The count is the number of whole ticks in `deltaNs`, or one, and nothing overflows on the way. -/
structure EventProgrammed (c : ApicClocks) (deltaNs : Nat) (l : LapicTimer) : Prop where
  count : l.tmict = max 1 (deltaNs * fsecPerNsec / (apicDivisor * c.clkFsecs))
  exact : wmul deltaNs (fsecPerNsec / apicDivisor) = deltaNs * (fsecPerNsec / apicDivisor)
  inTime : InTime (apicDivisor * c.clkFsecs) l.tmict deltaNs

/-- The deadline is so many whole ticks behind `tsc`, and nothing overflows on the way. -/
structure DeadlineProgrammed (c : ApicClocks) (tsc deltaNs : Nat) (l : LapicTimer) : Prop where
  deadline : l.tscDeadline = tsc + deltaNs * fsecPerNsec / c.tscFsecs
  exact : wmul deltaNs fsecPerNsec = deltaNs * fsecPerNsec
  inTime : InTime c.tscFsecs (l.tscDeadline - tsc) deltaNs

/-- There are less than two ticks in `deltaNs`. -/
def ApicClocks.OneTick (c : ApicClocks) (deltaNs : Nat) : Prop :=
  deltaNs * fsecPerNsec < 2 * (apicDivisor * c.clkFsecs)

/-- `deltaNs` in femtoseconds is a 64-bit number, that is `deltaNs` is at most 18446744073709, and so is the
    deadline. -/
def ApicClocks.Fits (c : ApicClocks) (tsc deltaNs : Nat) : Prop :=
  deltaNs * fsecPerNsec < 2 ^ 64 ∧ tsc + deltaNs * fsecPerNsec / c.tscFsecs < 2 ^ 64

/-- The periods that are measured: neither is zero, and both are 64-bit numbers; that of the bus clock is
    smaller since no more than 0x400000000 nanoseconds have passed. -/
structure ApicClocks.Calibrated (c : ApicClocks) : Prop where
  clk_pos : 0 < c.clkFsecs
  clk_lt : c.clkFsecs < 2 ^ 63
  tsc_pos : 0 < c.tscFsecs
  tsc_lt : c.tscFsecs < 2 ^ 64

section Apic

variable {a b q : Nat} {r : Readings} {c : ApicClocks} {tick ticks tsc deltaNs : Nat} {l : LapicTimer}

theorem wdiv_eq_ok : wdiv a b = .ok q ↔ b ≠ 0 ∧ q = a / b := by
  rw [wdiv]
  split
  case isTrue hzero => exact iff_of_false (fun h => by cases h) fun h => h.1 hzero
  case isFalse hpos => exact ⟨fun h => ⟨hpos, (Except.ok.inj h).symm⟩, fun h => congrArg _ h.2.symm⟩

theorem wmul_lt (a b : Nat) : wmul a b < 2 ^ 64 := Nat.mod_lt _ (by decide)

theorem wmul_le (a b : Nat) : wmul a b ≤ a * b := Nat.mod_le ..

theorem wmul_eq_iff : wmul a b = a * b ↔ a * b < 2 ^ 64 :=
  ⟨fun h => h ▸ wmul_lt a b, fun h => Nat.mod_eq_of_lt h⟩

theorem calibrated (h : calibrateApicClock r = .ok c) : c.Calibrated := by
  obtain ⟨hdelta, h⟩ := assert_bind_eq_ok.1 h
  obtain ⟨clock, hclock, h⟩ := bind_eq_ok.1 h
  obtain ⟨clkKhz, hclkKhz, h⟩ := bind_eq_ok.1 h
  obtain ⟨period, -, h⟩ := bind_eq_ok.1 h
  obtain ⟨clock', -, h⟩ := bind_eq_ok.1 h
  obtain ⟨tscKhz, htscKhz, h⟩ := bind_eq_ok.1 h
  obtain rfl := Except.ok.inj h
  -- the divisions by the periods have come back, so that neither is zero
  refine ⟨Nat.pos_of_ne_zero (wdiv_eq_ok.1 hclkKhz).1, ?_, Nat.pos_of_ne_zero (wdiv_eq_ok.1 htscKhz).1, wmul_lt ..⟩
  have hsmall : clock ≤ 0x400000000 * 1000 := by
    rw [(wdiv_eq_ok.1 hclock).2]
    exact (Nat.div_le_self ..).trans ((wmul_le ..).trans (Nat.mul_le_mul_right _ (Nat.le_of_lt hdelta)))
  have hadd : wadd clock 5 = clock + 5 := wadd_eq (by omega)
  have hmul : wmul (wadd clock 5 / 10) 10000 ≤ wadd clock 5 / 10 * 10000 := wmul_le ..
  rw [hadd] at hmul
  dsimp only
  rw [hadd]
  omega

/-! ## What is written -/

theorem lor_one (a : Nat) : lor a 1 = 1 := if_pos (.inr Nat.one_ne_zero)

theorem lapicNextEvent_eq (hc : c.Calibrated) : lapicNextEvent c deltaNs l = .ok { l with tmict := 1 } := by
  rw [lapicNextEvent, wdiv, if_neg (Nat.ne_of_gt hc.clk_pos), ok_bind, lor_one]

theorem lapicNextDeadline_eq (hc : c.Calibrated) : lapicNextDeadline c tsc deltaNs l =
    .ok { l with tscDeadline := wadd tsc (wmul deltaNs fsecPerNsec / c.tscFsecs) } := by
  rw [lapicNextDeadline, wdiv, if_neg (Nat.ne_of_gt hc.tsc_pos), ok_bind]

/-- The whole ticks of a time are in time, and one tick is for a time that has none. -/
theorem inTime_div (htick : 0 < tick) : InTime tick (deltaNs * fsecPerNsec / tick) deltaNs := by
  constructor
  · have hlt := Nat.lt_mul_div_succ (deltaNs * fsecPerNsec) htick
    rwa [Nat.mul_comm tick] at hlt
  · exact (Nat.div_mul_le_self ..).trans (Nat.le_max_left ..)

theorem inTime_one (h : deltaNs * fsecPerNsec < 2 * tick) : InTime tick 1 deltaNs := by
  constructor
  · exact h
  · rw [Nat.one_mul]
    exact Nat.le_max_right ..

theorem oneTick_lt (hc : c.Calibrated) (h : c.OneTick deltaNs) :
    deltaNs * (fsecPerNsec / apicDivisor) < 2 ^ 64 := by
  have hexact : fsecPerNsec / apicDivisor * apicDivisor = fsecPerNsec := by decide
  have hticks : deltaNs * (fsecPerNsec / apicDivisor) * apicDivisor < 2 * c.clkFsecs * apicDivisor := by
    rw [Nat.mul_assoc, hexact, Nat.mul_assoc, Nat.mul_comm c.clkFsecs]
    exact h
  calc deltaNs * (fsecPerNsec / apicDivisor) < 2 * c.clkFsecs := Nat.lt_of_mul_lt_mul_right hticks
    _ < 2 * 2 ^ 63 := Nat.mul_lt_mul_of_pos_left hc.clk_lt (by decide)

theorem event_iff (hc : c.Calibrated) :
    (∃ l', lapicNextEvent c deltaNs l = .ok l' ∧ EventProgrammed c deltaNs l') ↔ c.OneTick deltaNs := by
  have hpos : 0 < apicDivisor * c.clkFsecs := Nat.mul_pos (by decide) hc.clk_pos
  rw [ApicClocks.OneTick, lapicNextEvent_eq hc]
  constructor
  · rintro ⟨l', hl', hprogrammed⟩
    obtain rfl := Except.ok.inj hl'
    have hone : deltaNs * fsecPerNsec / (apicDivisor * c.clkFsecs) ≤ 1 :=
      (Nat.le_max_right ..).trans (Nat.le_of_eq hprogrammed.count.symm)
    exact (Nat.div_lt_iff_lt_mul hpos).1 (Nat.lt_succ_of_le hone)
  · intro h
    have hone : deltaNs * fsecPerNsec / (apicDivisor * c.clkFsecs) < 2 := (Nat.div_lt_iff_lt_mul hpos).2 h
    exact ⟨_, rfl, (Nat.max_eq_left (Nat.le_of_lt_succ hone)).symm, wmul_eq_iff.2 (oneTick_lt hc h), inTime_one h⟩

/-- Where the product overflows, the deadline is at least one tick too early. -/
theorem deadline_eq_iff (hc : c.Calibrated) :
    wadd tsc (wmul deltaNs fsecPerNsec / c.tscFsecs) = tsc + deltaNs * fsecPerNsec / c.tscFsecs ↔
      c.Fits tsc deltaNs := by
  constructor
  · intro h
    refine ⟨?_, h ▸ wadd_lt ..⟩
    by_contra hover
    -- what is lost is 2 ^ 64 at least, and a tick is less
    have hlow : wmul deltaNs fsecPerNsec + c.tscFsecs ≤ deltaNs * fsecPerNsec := by
      have := hc.tsc_lt
      rw [wmul]
      omega
    have hless : wmul deltaNs fsecPerNsec / c.tscFsecs + 1 ≤ deltaNs * fsecPerNsec / c.tscFsecs := by
      rw [← Nat.add_div_right _ hc.tsc_pos]
      exact Nat.div_le_div_right hlow
    have hwrap : wadd tsc (wmul deltaNs fsecPerNsec / c.tscFsecs) ≤
        tsc + wmul deltaNs fsecPerNsec / c.tscFsecs := Nat.mod_le ..
    omega
  · rintro ⟨hproduct, hsum⟩
    rw [wmul_eq_iff.2 hproduct, wadd_eq hsum]

theorem deadline_iff (hc : c.Calibrated) :
    (∃ l', lapicNextDeadline c tsc deltaNs l = .ok l' ∧ DeadlineProgrammed c tsc deltaNs l') ↔
      c.Fits tsc deltaNs := by
  rw [lapicNextDeadline_eq hc]
  constructor
  · rintro ⟨l', hl', hprogrammed⟩
    obtain rfl := Except.ok.inj hl'
    exact (deadline_eq_iff hc).1 hprogrammed.deadline
  · intro h
    have heq := (deadline_eq_iff hc).2 h
    refine ⟨_, rfl, heq, wmul_eq_iff.2 h.1, ?_⟩
    dsimp only
    rw [heq, Nat.add_sub_cancel_left]
    exact inTime_div hc.tsc_pos

end Apic

/-- **Programming the timer.** With periods that have been measured, `lapic_next_event` sets the right count
    exactly for times of less than two ticks, since it always sets one; `lapic_next_deadline` sets the right
    deadline exactly where the time in femtoseconds, and the deadline, are 64-bit numbers. -/
theorem timer_programmed_iff {r : Readings} {c : ApicClocks} (hc : calibrateApicClock r = .ok c)
    (tsc deltaNs : Nat) (l : LapicTimer) :
    ((∃ l', lapicNextEvent c deltaNs l = .ok l' ∧ EventProgrammed c deltaNs l') ↔ c.OneTick deltaNs) ∧
      ((∃ l', lapicNextDeadline c tsc deltaNs l = .ok l' ∧ DeadlineProgrammed c tsc deltaNs l') ↔
        c.Fits tsc deltaNs) :=
  ⟨event_iff (calibrated hc), deadline_iff (calibrated hc)⟩

/-- A bus clock of 1 GHz and a counter of 3 GHz, over a millisecond. -/
def measured : Readings where
  startUptime := 0
  startTsc := 0
  nowUptime := 1000000
  nowTsc := 3000000
  remain := 0xffffffff - 62500

/-- The clocks of a machine with a 3 GHz counter and a 1 GHz bus. -/
def measuredClocks : ApicClocks where
  clkFsecs := 1000000
  clkKhz := 1000000
  tscFsecs := 333000
  tscKhz := 3003003
  lapicTimerPeriod := 62500

theorem calibrate_measured : calibrateApicClock measured = .ok measuredClocks := by decide +kernel

/-- A time of 20 ns, which is one tick of the bus clock and 60 of the counter. -/
theorem timer_programmed_short :
    (∃ l', lapicNextEvent measuredClocks 20 ⟨0, 0⟩ = .ok l' ∧ EventProgrammed measuredClocks 20 l') ∧
      ∃ l', lapicNextDeadline measuredClocks 5000 20 ⟨0, 0⟩ = .ok l' ∧
        DeadlineProgrammed measuredClocks 5000 20 l' := by
  obtain ⟨hevent, hdeadline⟩ := timer_programmed_iff calibrate_measured 5000 20 ⟨0, 0⟩
  refine ⟨hevent.2 ?_, hdeadline.2 ?_⟩
  · unfold ApicClocks.OneTick
    decide
  · unfold ApicClocks.Fits
    decide

/-- A millisecond is set as one tick of 16 ns, and a time of five hours as a deadline one tick away; both are
    times that the devices accept. -/
theorem timer_misprogrammed : calibrateApicClock measured = .ok measuredClocks ∧
    (∃ dev c', setupApicTimer measuredClocks false = .ok (dev, c') ∧ dev.setNextEvent = .lapicNextEvent ∧
      1000000 ≤ dev.maxDeltaNs ∧ ¬ ∃ l', lapicNextEvent measuredClocks 1000000 ⟨0, 0⟩ = .ok l' ∧
        EventProgrammed measuredClocks 1000000 l') ∧
    ∃ dev c', setupApicTimer measuredClocks true = .ok (dev, c') ∧ dev.setNextEvent = .lapicNextDeadline ∧
      18446744073710 ≤ dev.maxDeltaNs ∧
        ¬ ∃ l', lapicNextDeadline measuredClocks 5000 18446744073710 ⟨0, 0⟩ = .ok l' ∧
          DeadlineProgrammed measuredClocks 5000 18446744073710 l' := by
  have hc := calibrated calibrate_measured
  refine ⟨calibrate_measured, ⟨_, _, rfl, rfl, by decide, ?_⟩, _, _, rfl, rfl, by decide, ?_⟩
  · rw [event_iff hc, ApicClocks.OneTick]
    decide
  · rw [deadline_iff hc, ApicClocks.Fits]
    decide

end Yaos.ApicTimer
