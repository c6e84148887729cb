import Mathlib.Data.Nat.Notation
import Mathlib.Logic.Function.Basic
import Yaos.Fault
import Yaos.Lib.Run

set_option autoImplicit false

/-! # Softirqs (`kernel/softirq.c`)

A softirq is a bit of a mask. `__do_softirq` copies the mask and clears it, and goes through the copy
from its lowest bit, shifting the copy and advancing a pointer into the vector of actions by the same
amount. It starts again while there are new bits, at most ten times and for at most two milliseconds.

Interrupts are enabled from the moment the mask is cleared until the copy is used up, so the steps are
one action each: a raise, a tick of the clock or another attempt to start may come before and after any
of them. -/

namespace Yaos.Softirq

/-- `NR_SOFTIRQS`. -/
def nrSoftirqs : Nat := 11

/-- `ffs`: the place of the lowest set bit counted from 1, or 0. -/
def ffs (x : BitVec 32) : Nat :=
  match (List.range 32).find? (x.getLsbD ·) with
  | none => 0
  | some i => i + 1

/-- What the step of a run writes down. -/
inductive Event
  /-- `or_softirq_pending(1UL << nr)`. -/
  | raised (nr : Nat)
  /-- `h->action(h)` with `h == &softirq_vec[nr]`. -/
  | began (nr : Nat)
deriving DecidableEq, Repr

/-- The locals of `__do_softirq`, with the bit whose action has been called and has not returned. -/
structure Frame where
  limit : BitVec 64
  maxRestart : Nat
  h : Nat
  pending : BitVec 32
  softirqBit : Option Nat

/-- One CPU. -/
structure State where
  /-- `softirq_vec[nr].action`. -/
  vec : Nat → Option Nat
  pending : BitVec 32
  taskletCount : Int
  msecCount : BitVec 64
  /-- The `__do_softirq` at work. -/
  frame : Option Frame
  /-- Written by the step of a run, not by the code. -/
  log : List Event

/-- `in_tasklet`. -/
def State.inTasklet (s : State) : Bool := decide (0 ≤ s.taskletCount)

/-- `open_softirq`. -/
def openSoftirq (s : State) (nr action : Nat) : State :=
  { s with vec := Function.update s.vec nr (some action) }

/-- `raise_softirq`. -/
def raiseSoftirq (s : State) (nr : Nat) : State := { s with pending := s.pending ||| 1#32 <<< nr }

/-! ## `__do_softirq` -/

/-- From `restart:` to the loop, with the mask that was read. -/
def State.restart (s : State) (f : Frame) : State :=
  { s with pending := 0, frame := some { f with pending := s.pending, h := 0 } }

/-- Up to the loop. -/
def State.enter (s : State) : State :=
  { s with taskletCount := s.taskletCount + 1 }.restart
    { limit := s.msecCount + 2, maxRestart := 10, h := 0, pending := 0, softirqBit := none }

/-- `enable_tasklet` at the end. -/
def State.leave (s : State) : State :=
  { s with taskletCount := s.taskletCount - 1, frame := none }

/-- What follows the loop, with interrupts disabled. -/
def State.finish (s : State) (f : Frame) : State :=
  if s.pending ≠ 0 then
    if s.msecCount < f.limit ∧ f.maxRestart - 1 ≠ 0 then
      s.restart { f with maxRestart := f.maxRestart - 1 }
    -- `wakeup_taskletd` comes after `enable_tasklet`
    else s.leave
  else s.leave

/-- `softirq_bit = ffs(pending); h += softirq_bit - 1;`. -/
def Frame.called (f : Frame) : Frame :=
  { f with h := f.h + (ffs f.pending - 1), softirqBit := some (ffs f.pending) }

/-- The loop, up to the call of the next action. -/
def State.loop (s : State) (f : Frame) : Except Fault State :=
  if ffs f.pending = 0 then .ok (s.finish f)
  else
    match s.vec f.called.h with
    | none => .error .null
    | some _ => .ok { s with frame := some f.called }

/-- An action returns: `h++; pending >>= softirq_bit;`. -/
def State.returned (s : State) (f : Frame) (softirqBit : Nat) : State :=
  { s with
    frame := some { f with h := f.h + 1, pending := f.pending >>> softirqBit, softirqBit := none } }

/-- `__do_softirq` goes on, up to the next call or return of an action. -/
def State.turn (s : State) : Except Fault State :=
  match s.frame with
  | none => .ok s
  | some f =>
      match f.softirqBit with
      | none => s.loop f
      | some softirqBit => .ok (s.returned f softirqBit)

/-- At the end of each interrupt. -/
def irqExit (s : State) : State :=
  if s.inTasklet = false ∧ s.pending ≠ 0 then s.enter else s

/-- `do_softirq`, which a system call may make. -/
def doSoftirq (s : State) : State :=
  if s.inTasklet then s else if s.pending ≠ 0 then s.enter else s

/-- The thread of the softirqs, which runs only when no other code does. -/
def runKsoftirqd (s : State) : State :=
  if s.frame = none ∧ s.pending ≠ 0 then s.enter else s

/-! ## Runs -/

/-- What happens on the CPU. -/
inductive Step
  | open (nr action : Nat)
  | raise (nr : Nat)
  | tick (msecCount : BitVec 64)
  | irqExit
  | doSoftirq
  | runKsoftirqd
  | turn

/-- The record of a step. -/
def State.record (s : State) (es : List Event) : State := { s with log := s.log ++ es }

/-- The action that is at work. After a turn it is the one that the turn has called, since a turn that
    starts with an action at work ends it. -/
def State.atWork (s : State) : List Event :=
  match s.frame with
  | none => []
  | some f => if f.softirqBit.isSome then [.began f.h] else []

/-- One step, which also records the raises and the calls. -/
def step (s : State) : Step → Except Fault State
  | .open nr action => .ok (openSoftirq s nr action)
  | .raise nr => .ok ((raiseSoftirq s nr).record [.raised nr])
  | .tick t => .ok { s with msecCount := t }
  | .irqExit => .ok (irqExit s)
  | .doSoftirq => .ok (doSoftirq s)
  | .runKsoftirqd => .ok (runKsoftirqd s)
  | .turn => s.turn.map fun s' => s'.record s'.atWork

/-- A run. -/
def steps (s : State) (cs : List Step) : Except Fault State := cs.foldlM step s

/-- Only registered softirqs are raised. -/
def Step.Registered (s : State) : Step → Prop
  | .open nr _ => nr < nrSoftirqs
  | .raise nr => nr < nrSoftirqs ∧ (s.vec nr).isSome
  | _ => True

instance (s : State) (c : Step) : Decidable (c.Registered s) :=
  match c with
  | .open nr _ => inferInstanceAs (Decidable (nr < nrSoftirqs))
  | .raise nr => inferInstanceAs (Decidable (nr < nrSoftirqs ∧ (s.vec nr).isSome))
  | .tick _ | .irqExit | .doSoftirq | .runKsoftirqd | .turn => isTrue trivial

theorem getLsbD_eq_false_of_ffs {x : BitVec 32} (h : ffs x = 0) (i : Nat) : x.getLsbD i = false := by
  unfold ffs at h
  cases hfind : (List.range 32).find? (x.getLsbD ·) with
  | none =>
      by_cases hi : i < 32
      · simpa using List.find?_eq_none.1 hfind i (List.mem_range.2 hi)
      · exact BitVec.getLsbD_of_ge x i (Nat.le_of_not_lt hi)
  | some j => simp [hfind] at h

theorem ffs_spec {x : BitVec 32} (h : ffs x ≠ 0) :
    x.getLsbD (ffs x - 1) = true ∧ ∀ i < ffs x - 1, x.getLsbD i = false := by
  unfold ffs at h ⊢
  cases hfind : (List.range 32).find? (x.getLsbD ·) with
  | none => simp [hfind] at h
  | some j =>
      obtain ⟨hj, -, hbelow⟩ := List.find?_range_eq_some.1 hfind
      simp only [Nat.add_sub_cancel]
      exact ⟨hj, fun i hi => by simpa using hbelow i hi⟩

/-- The actions that the loop has not come to. -/
def Frame.remaining (f : Frame) (k : Nat) : Bool :=
  match f.softirqBit with
  | none => decide (f.h ≤ k) && f.pending.getLsbD (k - f.h)
  | some softirqBit => decide (f.h < k) && f.pending.getLsbD (softirqBit + (k - (f.h + 1)))

/-- The same of the CPU. -/
def State.remaining (s : State) (k : Nat) : Bool := s.frame.any (·.remaining k)

/-- How often the action of a bit is still to be called if the bit is not raised again. -/
def State.owes (s : State) (k : Nat) : Nat := (s.pending.getLsbD k).toNat + (s.remaining k).toNat

section Owes

variable {s : State} {f : Frame} {k : Nat}

@[simp]
theorem owes_record {es : List Event} : (s.record es).owes k = s.owes k := rfl

@[simp]
theorem record_nil : s.record [] = s := by
  simp [State.record]

theorem owes_idle (h : s.frame = none) : s.owes k = (s.pending.getLsbD k).toNat := by
  simp [State.owes, State.remaining, h]

theorem remaining_restart (hbit : f.softirqBit = none) :
    (s.restart f).remaining k = s.pending.getLsbD k := by
  simp [State.remaining, State.restart, Frame.remaining, hbit]

/-- The copy takes over what the mask has. -/
theorem owes_restart (hbit : f.softirqBit = none) (hrest : s.remaining k = false) :
    (s.restart f).owes k = s.owes k := by
  rw [State.owes, remaining_restart hbit, State.owes, hrest]
  simp [State.restart]

theorem owes_enter (h : s.frame = none) : s.enter.owes k = s.owes k :=
  owes_restart (s := { s with taskletCount := s.taskletCount + 1 }) rfl (by simp [State.remaining, h])

theorem owes_leave (hrest : s.remaining k = false) : s.leave.owes k = s.owes k := by
  rw [owes_idle rfl, State.owes, hrest]
  rfl

theorem remaining_used_up (hf : s.frame = some f) (hbit : f.softirqBit = none) (hffs : ffs f.pending = 0) :
    s.remaining k = false := by
  simp [State.remaining, hf, Frame.remaining, hbit, getLsbD_eq_false_of_ffs hffs]

theorem owes_returned {softirqBit : Nat} (hf : s.frame = some f)
    (hbit : f.softirqBit = some softirqBit) : (s.returned f softirqBit).owes k = s.owes k := by
  have hrest : (s.returned f softirqBit).remaining k = s.remaining k := by
    simp only [State.remaining, State.returned, hf, Option.any_some, Frame.remaining, hbit,
      BitVec.getLsbD_ushiftRight]
    -- `f.h + 1 ≤ k` is `f.h < k`
    rfl
  rw [State.owes, hrest]
  rfl

theorem owes_raise_self {nr : Nat} (h : nr < nrSoftirqs) :
    0 < (raiseSoftirq s nr).owes nr ∧ (raiseSoftirq s nr).owes nr ≤ s.owes nr + 1 := by
  have hset : (raiseSoftirq s nr).pending.getLsbD nr = true := by
    have hnr : nr < 32 := Nat.lt_trans h (by decide)
    simp [raiseSoftirq, hnr]
  rw [State.owes, hset]
  constructor
  · exact Nat.add_pos_left (by decide) _
  · simp [State.owes, raiseSoftirq, State.remaining]
    omega

theorem owes_raise_of_ne {nr : Nat} (h : k ≠ nr) : (raiseSoftirq s nr).owes k = s.owes k := by
  have hclear : (1#32 <<< nr).getLsbD k = false := by
    rw [← BitVec.twoPow_eq, BitVec.getLsbD_twoPow]
    simp [h.symm]
  simp [State.owes, raiseSoftirq, State.remaining, hclear]

theorem remaining_next (hbit : f.softirqBit = none) (hffs : ffs f.pending ≠ 0) :
    f.remaining f.called.h = true := by
  simp [Frame.remaining, hbit, Frame.called, (ffs_spec hffs).1]

/-- An action that is called is no longer remaining, and the order of the bits leaves no other one
    out. -/
theorem remaining_called (hbit : f.softirqBit = none) (hffs : ffs f.pending ≠ 0) :
    f.called.remaining k = (f.remaining k && decide (k ≠ f.called.h)) := by
  obtain ⟨-, hbelow⟩ := ffs_spec hffs
  simp only [Frame.remaining, hbit, Frame.called]
  by_cases hk : f.h + (ffs f.pending - 1) < k
  · have hle : f.h ≤ k := by omega
    have hplace : ffs f.pending + (k - (f.h + (ffs f.pending - 1) + 1)) = k - f.h := by omega
    simp [hk, hle, hplace, Nat.ne_of_gt hk]
  · by_cases hkh : k = f.h + (ffs f.pending - 1)
    · simp [hkh]
    · by_cases hle : f.h ≤ k
      · simp [hk, hbelow (k - f.h) (by omega)]
      · simp [hk, hle]

end Owes

/-! ## What a run keeps -/

/-- Every raise has been answered since, or is still to be; no action is called more often than its bit
    was raised. -/
structure State.Tallied (s : State) : Prop where
  delivered : ∀ k a b, s.log = a ++ .raised k :: b → .began k ∈ b ∨ 0 < s.owes k
  budget : ∀ k, s.log.count (.began k) + s.owes k ≤ s.log.count (.raised k)
  answered : ∀ k l, l <+: s.log → l.count (.began k) ≤ l.count (.raised k)
  registered : ∀ k, 0 < s.owes k → (s.vec k).isSome
  balanced : s.taskletCount = if s.frame.isSome then 0 else -1

theorem append_raised {log a b : List Event} {e : Event} {k : Nat}
    (h : log ++ [e] = a ++ .raised k :: b) :
    b = [] ∧ e = .raised k ∨ ∃ b', b = b' ++ [e] ∧ log = a ++ .raised k :: b' := by
  rcases List.eq_nil_or_concat' b with rfl | ⟨b', x, rfl⟩
  · obtain ⟨-, he⟩ := List.append_inj' h rfl
    exact .inl ⟨rfl, List.singleton_inj.1 he⟩
  · have hassoc : a ++ .raised k :: (b' ++ [x]) = (a ++ .raised k :: b') ++ [x] := by simp
    obtain ⟨hlog, hx⟩ := List.append_inj' (h.trans hassoc) rfl
    rw [List.singleton_inj.1 hx]
    exact .inr ⟨b', rfl, hlog⟩

namespace State.Tallied

variable {s s' : State}

/-- A step that neither raises a bit nor calls an action. -/
theorem quiet_step (h : s.Tallied) (hlog : s'.log = s.log) (howes : ∀ k, s'.owes k = s.owes k)
    (hvec : ∀ k, (s.vec k).isSome → (s'.vec k).isSome)
    (hcount : s'.taskletCount = if s'.frame.isSome then 0 else -1) : s'.Tallied where
  delivered k a b hab := by
    rw [howes]
    exact h.delivered k a b (hlog ▸ hab)
  budget k := by
    rw [hlog, howes]
    exact h.budget k
  answered k l hl := h.answered k l (hlog ▸ hl)
  registered k hk := hvec k (h.registered k (howes k ▸ hk))
  balanced := hcount

/-- What an event adds to the log is counted by the budget of the state after it. -/
theorem answered_concat {e : Event} (h : s.Tallied) (hlog : s'.log = s.log ++ [e])
    (hbudget : ∀ k, s'.log.count (.began k) + s'.owes k ≤ s'.log.count (.raised k)) (k : Nat)
    (l : List Event) (hl : l <+: s'.log) : l.count (.began k) ≤ l.count (.raised k) := by
  rw [hlog] at hl
  rcases List.prefix_concat_iff.1 hl with rfl | hl
  · have := hbudget k
    rw [hlog] at this
    exact Nat.le_of_add_right_le this
  · exact h.answered k l hl

theorem raise {nr : Nat} (h : s.Tallied) (hnr : nr < nrSoftirqs) (hvec : (s.vec nr).isSome) :
    ((raiseSoftirq s nr).record [.raised nr]).Tallied := by
  obtain ⟨hpos, hle⟩ := owes_raise_self (s := s) hnr
  have hbudget : ∀ k, (s.log ++ [Event.raised nr]).count (.began k) + (raiseSoftirq s nr).owes k ≤
      (s.log ++ [Event.raised nr]).count (.raised k) := by
    intro k
    have := h.budget k
    by_cases hk : k = nr
    · subst hk
      simp [List.count_append] at hle ⊢
      omega
    · rw [owes_raise_of_ne hk]
      simpa [List.count_append, Ne.symm hk] using this
  refine ⟨fun k a b hab => ?_, hbudget, h.answered_concat rfl hbudget, fun k hk => ?_, h.balanced⟩
  · rw [owes_record]
    by_cases hk : k = nr
    · subst hk
      exact .inr hpos
    · rw [owes_raise_of_ne hk]
      rcases append_raised hab with ⟨-, he⟩ | ⟨b', rfl, hlog⟩
      · exact absurd (Event.raised.inj he).symm hk
      · rcases h.delivered k a b' hlog with hmem | hown
        · exact .inl (List.mem_append_left _ hmem)
        · exact .inr hown
  · rw [owes_record] at hk
    by_cases hkn : k = nr
    · subst hkn
      exact hvec
    · rw [owes_raise_of_ne hkn] at hk
      exact h.registered k hk

/-- The loop calls the action of the lowest bit that remains. -/
theorem called {f : Frame} (h : s.Tallied) (hf : s.frame = some f) (hbit : f.softirqBit = none)
    (hffs : ffs f.pending ≠ 0) :
    ({ s with frame := some f.called : State }.record [.began f.called.h]).Tallied := by
  have howes : ∀ k, { s with frame := some f.called : State }.owes k
      = (s.pending.getLsbD k).toNat + (f.remaining k && decide (k ≠ f.called.h)).toNat := by
    intro k
    simp [State.owes, State.remaining, remaining_called hbit hffs]
  have hold : ∀ k, s.owes k = (s.pending.getLsbD k).toNat + (f.remaining k).toNat := by
    intro k
    simp [State.owes, State.remaining, hf]
  have hbudget : ∀ k, (s.log ++ [Event.began f.called.h]).count (.began k) +
      { s with frame := some f.called : State }.owes k ≤
      (s.log ++ [Event.began f.called.h]).count (.raised k) := by
    intro k
    have := h.budget k
    rw [hold] at this
    rw [howes]
    by_cases hk : k = f.called.h
    · subst hk
      rw [remaining_next hbit hffs] at this
      simp [List.count_append] at this ⊢
      omega
    · simpa [hk, Ne.symm hk, List.count_append] using this
  refine ⟨fun k a b hab => ?_, hbudget, h.answered_concat rfl hbudget, fun k hk => ?_, ?_⟩
  · rcases append_raised hab with ⟨-, he⟩ | ⟨b', rfl, hlog⟩
    · cases he
    · by_cases hk : k = f.called.h
      · exact .inl (by simp [hk])
      · rcases h.delivered k a b' hlog with hmem | hown
        · exact .inl (List.mem_append_left _ hmem)
        · rw [hold] at hown
          rw [owes_record, howes]
          exact .inr (by simpa [hk] using hown)
  · refine h.registered k ?_
    rw [owes_record, howes] at hk
    rw [hold]
    cases hrem : f.remaining k with
    | true => exact Nat.add_pos_right _ (by decide)
    | false => simpa [hrem] using hk
  · have hcount := h.balanced
    rwa [hf] at hcount

theorem enter (h : s.Tallied) (hf : s.frame = none) : s.enter.Tallied := by
  refine h.quiet_step rfl (fun k => owes_enter hf) (fun k hk => hk) ?_
  have hcount := h.balanced
  rw [hf] at hcount
  simp [State.enter, State.restart, hcount]

theorem finish {f : Frame} (h : s.Tallied) (hf : s.frame = some f) (hbit : f.softirqBit = none)
    (hffs : ffs f.pending = 0) : (s.finish f).Tallied := by
  have hcount := h.balanced
  rw [hf] at hcount
  have hleave : s.leave.Tallied := by
    refine h.quiet_step rfl (fun k => owes_leave (remaining_used_up hf hbit hffs)) (fun k hk => hk) ?_
    simp [State.leave, hcount]
  unfold State.finish
  split
  · split
    · refine h.quiet_step rfl (fun k => ?_) (fun k hk => hk) (by simp [State.restart, hcount])
      exact owes_restart hbit (remaining_used_up hf hbit hffs)
    · exact hleave
  · exact hleave

/-- A frame that waits for no action when the loop ends waits for none after it. -/
theorem atWork_finish {f : Frame} (hbit : f.softirqBit = none) : (s.finish f).atWork = [] := by
  unfold State.finish
  split
  · split
    · simp [State.atWork, State.restart, hbit]
    · rfl
  · rfl

/-- The action that the loop comes to is registered. -/
theorem loop {f : Frame} (h : s.Tallied) (hf : s.frame = some f) (hbit : f.softirqBit = none) :
    ∃ s', s.loop f = .ok s' ∧ (s'.record s'.atWork).Tallied := by
  unfold State.loop
  by_cases hffs : ffs f.pending = 0
  · refine ⟨s.finish f, if_pos hffs, ?_⟩
    rw [atWork_finish hbit, record_nil]
    exact h.finish hf hbit hffs
  · rw [if_neg hffs]
    have hown : 0 < s.owes f.called.h := by
      simp [State.owes, State.remaining, hf, remaining_next hbit hffs]
    obtain ⟨action, haction⟩ := Option.isSome_iff_exists.1 (h.registered _ hown)
    rw [haction]
    exact ⟨_, rfl, h.called hf hbit hffs⟩

theorem turn (h : s.Tallied) : ∃ s', s.turn = .ok s' ∧ (s'.record s'.atWork).Tallied := by
  unfold State.turn
  cases hf : s.frame with
  | none =>
      refine ⟨s, rfl, ?_⟩
      have hnone : s.atWork = [] := by simp [State.atWork, hf]
      rwa [hnone, record_nil]
  | some f =>
      dsimp only
      cases hbit : f.softirqBit with
      | none => exact h.loop hf hbit
      | some softirqBit =>
          refine ⟨_, rfl, ?_⟩
          have hnone : (s.returned f softirqBit).atWork = [] := by simp [State.atWork, State.returned]
          rw [hnone, record_nil]
          refine h.quiet_step rfl (fun k => owes_returned hf hbit) (fun k hk => hk) ?_
          have hcount := h.balanced
          rw [hf] at hcount
          simp [State.returned, hcount]

/-- Outside the thread of the softirqs `__do_softirq` is not entered while it is at work. -/
theorem frame_eq_none (h : s.Tallied) (hin : s.inTasklet = false) : s.frame = none := by
  have hcount := h.balanced
  cases hf : s.frame with
  | none => rfl
  | some f =>
      rw [hf] at hcount
      simp [State.inTasklet, hcount] at hin

theorem step {c : Step} (h : s.Tallied) (hc : c.Registered s) :
    ∃ s', Softirq.step s c = .ok s' ∧ s'.Tallied := by
  cases c with
  | «open» nr action =>
      refine ⟨_, rfl, h.quiet_step rfl (fun k => rfl) (fun k hk => ?_) h.balanced⟩
      by_cases hkn : k = nr
      · simp [openSoftirq, hkn]
      · simpa [openSoftirq, hkn] using hk
  | raise nr => exact ⟨_, rfl, h.raise hc.1 hc.2⟩
  | tick t => exact ⟨_, rfl, h.quiet_step rfl (fun k => rfl) (fun k hk => hk) h.balanced⟩
  | irqExit =>
      refine ⟨_, rfl, ?_⟩
      unfold irqExit
      split
      case isTrue hgo => exact h.enter (h.frame_eq_none hgo.1)
      case isFalse => exact h
  | doSoftirq =>
      refine ⟨_, rfl, ?_⟩
      unfold doSoftirq
      split
      case isTrue => exact h
      case isFalse hin =>
          split
          · exact h.enter (h.frame_eq_none (by simpa using hin))
          · exact h
  | runKsoftirqd =>
      refine ⟨_, rfl, ?_⟩
      unfold runKsoftirqd
      split
      case isTrue hgo => exact h.enter hgo.1
      case isFalse => exact h
  | turn =>
      obtain ⟨s', hturn, hs'⟩ := h.turn
      exact ⟨_, by rw [Softirq.step, hturn]; rfl, hs'⟩

end State.Tallied

end Yaos.Softirq
