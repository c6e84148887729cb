import Yaos.Timer.Proofs

set_option autoImplicit false

/-! # Runs of the timer queue

No step fails and each keeps the places of the nodes. -/

namespace Yaos

open Chains

/-! ## Runs -/

/-- Every node is in its place. -/
def TimersOk (s : Timers) : Prop := ∃ lists place, TimersAt s none lists place

/-- The clock and its event may change. -/
theorem TimersAt.clock {s : Timers} {lists : TimerList → List Nat} {place : Nat → Option TimerList}
    (h : TimersAt s none lists place) (now : Nat) (event : Option Nat) :
    TimersAt { s with now := now, event := event } none lists place := by
  refine { h with armed := fun p hp => ?_ }
  have hcb := h.armed p hp
  exact ⟨hcb.count, hcb.deadline, hcb.param_new, hcb.handle⟩

/-- A call for which `pfree` has not changed since it was read, with its record. -/
theorem TimersOk.request {s : Timers} {read : Option Nat} (h : TimersOk s)
    (hread : read = none ∨ read = s.pfree) (nsec thread : Nat) (mem : Bool) :
    ∃ s', s.request read nsec thread mem = .ok s' ∧ TimersOk s' ∧
      (s'.accepted = s.accepted ∨ s'.accepted = s.accepted ++ [nsec + s.now]) := by
  obtain ⟨lists, place, h⟩ := h
  obtain ⟨r, s', hrun, hacc, ⟨-, rfl, rfl⟩ | ⟨-, rfl, hat⟩⟩ := h.setFrom hread nsec thread mem
  · rw [Timers.request, hrun]
    exact ⟨_, rfl, ⟨lists, place, h⟩, .inl rfl⟩
  · rw [Timers.request, hrun]
    refine ⟨_, rfl, ?_, .inr rfl⟩
    rw [Timers.accept, hacc] at hat
    exact hat

theorem TimersOk.step {s : Timers} (h : TimersOk s) (c : TimerStep) :
    ∃ s', timerStep s c = .ok s' ∧ TimersOk s' := by
  have hset := h.request (.inr rfl)
  obtain ⟨lists, place, h⟩ := h
  cases c with
  | set nsec thread mem =>
      obtain ⟨s', hrun, hok, -⟩ := hset nsec thread mem
      exact ⟨s', hrun, hok⟩
  | tick d =>
      refine ⟨_, rfl, lists, place, ?_⟩
      split
      · exact h.clock (s.now + d) s.event
      · exact h
  | softirq =>
      obtain ⟨lists', place', h', -⟩ := h.softirq
      exact ⟨_, rfl, lists', place', h'⟩
  | fire =>
      rw [timerStep]
      cases s.event with
      | none => exact ⟨_, rfl, lists, place, h⟩
      | some e =>
          dsimp only
          split
          · obtain ⟨lists', place', h', -⟩ := (h.clock s.now none).softirq
            exact ⟨_, rfl, lists', place', h'⟩
          · exact ⟨_, rfl, lists, place, h⟩
  | dispatch => exact h.dispatch
  | finish p => exact ⟨_, rfl, h.finish p⟩
  | drain t => exact ⟨_, rfl, h.drain t⟩
  | poll t => exact h.poll t

theorem TimersOk.fresh : TimersOk freshTimers := by
  have hchain : ∀ n i, i + n = 64 →
      Chain freshTimers.pnext (if i < 64 then some i else none) (List.range' i n) := by
    intro n
    induction n with
    | zero =>
        intro i hi
        exact if_neg (by omega)
    | succ n ih =>
        intro i hi
        exact ⟨if_pos (by omega), ih (i + 1) (by omega)⟩
  refine ⟨fun k => if k = .free then List.range' 0 64 else [], fun p => if p < 64 then some .free else none,
    ⟨fun k => ?_, fun k p => ?_⟩, List.nodup_nil, List.nodup_nil, by simp [freshTimers],
    by simp [freshTimers], by simp [freshTimers], by simp, fun p => ?_, by simp, fun p hp => ?_,
    fun p q hp => ?_, fun i hi => absurd hi (Nat.not_lt_zero i), fun p t hp => ?_, by simp [freshTimers],
    List.nodup_nil, by simp [freshTimers]⟩
  · cases k with
    | free => exact hchain 64 0 rfl
    | _ => rfl
  · by_cases hp : p < 64
    · cases k <;> simp [hp]
    · cases k <;> simp [hp]
  · by_cases hp : p < 64
    · simp [freshTimers, hp]
    · simp [freshTimers, hp]
  · simp [Timers.Armed, freshTimers] at hp
  · simp [Timers.Armed, freshTimers] at hp
  · simp at hp

/-! ## Steps that leave the queue alone -/

/-- `s'` has the pending timers, the deadlines, the record and the clock of `s`. -/
structure SameQueue (s s' : Timers) : Prop where
  deadline : ∀ q, s'.deadline q = s.deadline q
  accepted : s'.accepted = s.accepted
  ptimer : s'.ptimer = s.ptimer
  event : s'.event = s.event
  now : s'.now = s.now

theorem SameQueue.refl (s : Timers) : SameQueue s s := ⟨fun _ => rfl, rfl, rfl, rfl, rfl⟩

theorem SameQueue.trans {s s₁ s' : Timers} (h : SameQueue s s₁) (h' : SameQueue s₁ s') :
    SameQueue s s' :=
  ⟨fun q => (h'.deadline q).trans (h.deadline q), h'.accepted.trans h.accepted,
    h'.ptimer.trans h.ptimer, h'.event.trans h.event, h'.now.trans h.now⟩

theorem SameQueue.set {s : Timers} {p : Nat} {cb : TimeoutCb}
    (hdeadline : cb.deadline = (s.cbs p).deadline) : SameQueue s (s.set p cb) := by
  refine ⟨fun q => ?_, rfl, rfl, rfl, rfl⟩
  by_cases hq : q = p
  · rw [hq, Timers.deadline, Timers.set_self, hdeadline, Timers.deadline]
  · rw [Timers.deadline, Timers.set_of_ne hq, Timers.deadline]

theorem SameQueue.setNext (s : Timers) (p : Nat) (link : Option Nat) :
    SameQueue s (s.setNext p link) := .set rfl

theorem addPoll_same (s : Timers) (p : Nat) : SameQueue s (s.addPoll p) := by
  rw [Timers.addPoll]
  split
  · have hset := SameQueue.setNext s p (s.polls (s.cbs p).thread)
    exact ⟨hset.deadline, rfl, rfl, rfl, rfl⟩
  · exact .refl s

theorem timerCb_same {s s' : Timers} {p : Nat} (h : timerCb s p = .ok s') : SameQueue s s' := by
  have hset : SameQueue s (s.set p { s.cbs p with count := (s.cbs p).count - 1 }) := .set rfl
  obtain ⟨-, h⟩ := assert_bind_eq_ok.1 h
  split at h
  · obtain rfl := Except.ok.inj h
    exact ⟨hset.deadline, rfl, rfl, rfl, rfl⟩
  · obtain rfl := Except.ok.inj h
    exact hset.trans (addPoll_same _ p)

theorem dispatch_same {s s' : Timers} (h : s.dispatch = .ok s') : SameQueue s s' := by
  rw [Timers.dispatch] at h
  split at h
  · obtain rfl := Except.ok.inj h
    exact .refl s
  · obtain ⟨hdeadline, hacc, hptimer, hevent, hnow⟩ := timerCb_same h
    exact ⟨hdeadline, hacc, hptimer, hevent, hnow⟩

theorem callbackReturn_same (s : Timers) (p : Nat) : SameQueue s (callbackReturn s p) := by
  rw [callbackReturn]
  split
  · have hset : SameQueue s (s.set p { s.cbs p with handle := .errPoll, pnext := s.pfree }) := .set rfl
    exact ⟨hset.deadline, rfl, rfl, rfl, rfl⟩
  · exact .refl s

theorem drainStart_same (s : Timers) (t : Nat) : SameQueue s (drainStart s t) := by
  rw [drainStart]
  split
  · exact ⟨fun _ => rfl, rfl, rfl, rfl, rfl⟩
  · exact .refl s

theorem drainTurn_same {s s' : Timers} {t : Nat} (h : drainTurn s t = .ok s') : SameQueue s s' := by
  rw [drainTurn] at h
  split at h
  · obtain rfl := Except.ok.inj h
    exact .refl s
  case h_2 p hhead =>
      have hset := SameQueue.setNext s p none
      dsimp only at h
      split at h
      · obtain rfl := Except.ok.inj h
        exact ⟨hset.deadline, rfl, rfl, rfl, rfl⟩
      · cases h
      · cases h

/-! ## Steps of the queue -/

theorem runHrtimerSoftirq_same (s : Timers) :
    (runHrtimerSoftirq s).cbs = s.cbs ∧ (runHrtimerSoftirq s).now = s.now ∧
      (runHrtimerSoftirq s).accepted = s.accepted := by
  rw [runHrtimerSoftirq]
  split
  · exact ⟨rfl, rfl, rfl⟩
  · split
    · exact ⟨rfl, rfl, rfl⟩
    · dsimp only
      split
      · exact ⟨rfl, rfl, rfl⟩
      · split
        · exact ⟨rfl, rfl, rfl⟩
        · exact ⟨rfl, rfl, rfl⟩

theorem addTimer_due {s s' : Timers} {nsec p : Nat} (h : addTimer s nsec p = .ok s') :
    (∀ q, s'.deadline q = s.deadline q) ∧ s'.now = s.now := by
  have hfront : ∀ q, (s.addFront nsec p).deadline q = s.deadline q := by
    have hset := SameQueue.setNext s p s.ptimer
    exact hset.deadline
  rw [addTimer] at h
  split at h
  · obtain rfl := Except.ok.inj h
    exact ⟨hfront, rfl⟩
  · split at h
    · obtain rfl := Except.ok.inj h
      exact ⟨hfront, rfl⟩
    · split at h
      · cases h
      case h_2 ptr _ =>
          obtain rfl := Except.ok.inj h
          have hset := (SameQueue.setNext s p (s.pnext ptr)).trans (.setNext _ ptr (some p))
          exact ⟨hset.deadline, rfl⟩

/-- The step of a call is the call and a record. -/
theorem request_eq_ok {s s' : Timers} {read : Option Nat} {nsec thread : Nat} {mem : Bool}
    (h : s.request read nsec thread mem = .ok s') :
    ∃ r s₁, setTimeoutFrom s read nsec thread s.accepted.length mem = .ok (r, s₁) ∧
      s' = if r = OK then { s₁ with accepted := s.accepted ++ [nsec + s.now] } else s₁ := by
  obtain ⟨⟨r, s₁⟩, hrun, h⟩ := bind_eq_ok.1 h
  exact ⟨r, s₁, hrun, (Except.ok.inj h).symm⟩

/-- The deadlines after a call of `set_timeout_nsec_cb` or `set_timeout_nsec_poll`. -/
theorem request_due {s s' : Timers} {read : Option Nat} {nsec thread : Nat} {mem : Bool}
    (h : s.request read nsec thread mem = .ok s') :
    s'.now = s.now ∧ ∀ q, s'.deadline q = s.deadline q ∨ s'.deadline q = (nsec + s.now) % 2 ^ 64 := by
  obtain ⟨r, s₂, hrun, rfl⟩ := request_eq_ok h
  suffices hsame : s₂.now = s.now ∧
      ∀ q, s₂.deadline q = s.deadline q ∨ s₂.deadline q = (nsec + s.now) % 2 ^ 64 by
    split
    · exact hsame
    · exact hsame
  rw [setTimeoutFrom] at hrun
  cases hnode : s.nodeFrom read mem with
  | none =>
      rw [hnode] at hrun
      obtain ⟨-, rfl⟩ := Prod.mk.inj (Except.ok.inj hrun)
      exact ⟨rfl, fun _ => .inl rfl⟩
  | some w =>
      obtain ⟨p, s₁⟩ := w
      rw [hnode] at hrun
      obtain ⟨s₃, hadd, hrun⟩ := bind_eq_ok.1 hrun
      obtain ⟨-, rfl⟩ := Prod.mk.inj (Except.ok.inj hrun)
      obtain ⟨hdeadline, hnow⟩ := addTimer_due hadd
      obtain ⟨hnow₁, -, -, -, -, hcbs₁, -⟩ := nodeFrom_same hnode
      refine ⟨hnow.trans hnow₁, fun q => ?_⟩
      rw [hdeadline]
      by_cases hq : q = p
      · subst hq
        right
        show ((s₁.set q _).cbs q).deadline = _
        rw [Timers.set_self, hnow₁]
      · left
        show ((s₁.set p _).cbs q).deadline = _
        rw [Timers.set_of_ne hq, hcbs₁, Timers.deadline]

end Yaos
