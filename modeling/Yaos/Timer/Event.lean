import Yaos.Timer.Runs

set_option autoImplicit false

/-! # The clock event of the timer queue

The softirq sets the event for the first timer that it leaves. It takes at most twenty timers, so the
next one may be overdue as well. Then `deadline - uptime` wraps around, and the event is set for a time
centuries ahead. -/

namespace Yaos

open Chains

/-- A pending timer has an event that comes in time. -/
def EventArmed (s : Timers) : Prop :=
  ∀ p, s.ptimer = some p → ∃ e, s.event = some e ∧ e ≤ max s.now (s.deadline p)

/-- A call of `set_timeout_nsec_cb` or `set_timeout_nsec_poll` would make its timer the first. -/
def Timers.SetsFirst (s : Timers) (nsec : Nat) (mem : Bool) : Prop :=
  s.takeNode mem ≠ none ∧ ∀ p, s.ptimer = some p → (nsec + s.now) % 2 ^ 64 < s.deadline p

/-- A softirq would leave no timer that is overdue: the twenty-first is not. -/
def Timers.BatchReaches (s : Timers) : Prop :=
  s.batch = [] → ∀ l, Chain s.pnext s.ptimer l → ∀ q, l[20]? = some q → s.now ≤ s.deadline q

/-- The condition on a step under which the event stays armed. -/
def TimerStep.KeepsEvent (s : Timers) : TimerStep → Prop
  | .set nsec _ mem => s.SetsFirst nsec mem → nsec + s.now < 2 ^ 64
  | .softirq => s.BatchReaches
  | .fire => ∀ e, s.event = some e → e ≤ s.now → s.BatchReaches
  | _ => True

/-- The event is set for the first pending timer. -/
structure EventInv (s : Timers) : Prop where
  ok : TimersOk s
  now : s.now < 2 ^ 64
  deadline : ∀ q, s.deadline q < 2 ^ 64
  event : ∀ p, s.ptimer = some p → s.event = some (s.deadline p)

theorem EventInv.armed {s : Timers} (h : EventInv s) : EventArmed s := fun p hp =>
  ⟨_, h.event p hp, Nat.le_max_right ..⟩

theorem EventInv.same {s s' : Timers} (h : EventInv s) (hok : TimersOk s') (hsame : SameQueue s s') :
    EventInv s' := by
  refine ⟨hok, hsame.now ▸ h.now, fun q => hsame.deadline q ▸ h.deadline q, fun p hp => ?_⟩
  rw [hsame.event, hsame.deadline]
  exact h.event p (hsame.ptimer ▸ hp)

/-! ## Setting a timer -/

theorem addTimer_first {s s' : Timers} {nsec p : Nat} (h : addTimer s nsec p = .ok s') :
    ((∀ q, s.ptimer = some q → s.deadline p < s.deadline q) ∧ s'.event = some (s.now + nsec) ∧
      s'.ptimer = some p) ∨
    ((∃ q, s.ptimer = some q ∧ s.deadline q ≤ s.deadline p) ∧ s'.event = s.event ∧
      s'.ptimer = s.ptimer) := by
  rw [addTimer] at h
  split at h
  case h_1 hhead =>
      obtain rfl := Except.ok.inj h
      exact .inl ⟨fun q hq => absurd (hhead.symm.trans hq) (by simp), rfl, rfl⟩
  case h_2 head hhead =>
      split at h
      case isTrue hlt =>
          obtain rfl := Except.ok.inj h
          refine .inl ⟨fun q hq => ?_, rfl, rfl⟩
          obtain rfl := Option.some.inj (hhead.symm.trans hq)
          exact hlt
      case isFalse hlt =>
          split at h
          · cases h
          · obtain rfl := Except.ok.inj h
            exact .inr ⟨⟨head, hhead, Nat.le_of_not_lt hlt⟩, rfl, rfl⟩

/-- The new timer becomes the first one, with an event for it, or the first one and its event stay. -/
theorem request_first {s s' : Timers} {nsec thread : Nat} {mem : Bool} (h : TimersOk s)
    (h₀ : s.request s.pfree nsec thread mem = .ok s') :
    (s.SetsFirst nsec mem ∧ s'.event = some (s.now + nsec) ∧
      ∃ p, s'.ptimer = some p ∧ s'.deadline p = (nsec + s.now) % 2 ^ 64) ∨
    (¬ s.SetsFirst nsec mem ∧ s'.event = s.event ∧ s'.ptimer = s.ptimer ∧
      ∀ p, s.ptimer = some p → s'.deadline p = s.deadline p) := by
  obtain ⟨lists, place, h⟩ := h
  obtain ⟨r, s₂, hrun, rfl⟩ := request_eq_ok h₀
  -- the record concerns neither the list nor the event
  suffices hsame : (s.SetsFirst nsec mem ∧ s₂.event = some (s.now + nsec) ∧
      ∃ p, s₂.ptimer = some p ∧ s₂.deadline p = (nsec + s.now) % 2 ^ 64) ∨
    (¬ s.SetsFirst nsec mem ∧ s₂.event = s.event ∧ s₂.ptimer = s.ptimer ∧
      ∀ p, s.ptimer = some p → s₂.deadline p = s.deadline p) by
    split
    · exact hsame
    · exact hsame
  rw [setTimeoutFrom, ← Timers.takeNode] at hrun
  cases hnode : s.takeNode mem with
  | none =>
      rw [hnode] at hrun
      obtain ⟨-, rfl⟩ := Prod.mk.inj (Except.ok.inj hrun)
      exact .inr ⟨fun hfirst => hfirst.1 hnode, rfl, rfl, fun _ _ => rfl⟩
  | some w =>
      obtain ⟨p, s₁⟩ := w
      obtain ⟨hnow, -, -, hptimer, hevent, hcbs, -⟩ := nodeFrom_same hnode
      obtain ⟨lists₁, place₁, h₁⟩ := h.nodeFrom (.inr rfl) hnode
      rw [hnode] at hrun
      dsimp only at hrun
      generalize hcb : ({ pnext := s₁.pnext p, handle := if thread = 0 then .null else .timeoutPoll
                          param := s.accepted.length, thread := thread
                          deadline := (nsec + s₁.now) % 2 ^ 64, count := 1 } : TimeoutCb) = cb at hrun
      obtain ⟨s₃, hadd, hrun⟩ := bind_eq_ok.1 hrun
      obtain ⟨-, rfl⟩ := Prod.mk.inj (Except.ok.inj hrun)
      obtain ⟨hdeadline, -⟩ := addTimer_due hadd
      have hnew : s₃.deadline p = (nsec + s.now) % 2 ^ 64 := by
        rw [hdeadline, Timers.deadline]
        show ((s₁.set p cb).cbs p).deadline = _
        rw [Timers.set_self, ← hcb, hnow]
      have hold : ∀ q, s.ptimer = some q → s₃.deadline q = s.deadline q := by
        intro q hq
        have hqp : q ≠ p := by
          rintro rfl
          obtain ⟨rest, hlist⟩ := h₁.exists_head (k := .pending) (hptimer.trans hq)
          have hmem := (h₁.family.mem .pending q).1 (hlist ▸ List.mem_cons_self)
          rw [(h₁.loose_free q rfl).1] at hmem
          cases hmem
        rw [hdeadline, Timers.deadline]
        show ((s₁.set p cb).cbs q).deadline = _
        rw [Timers.set_of_ne hqp, hcbs, Timers.deadline]
      have hsome : s.takeNode mem ≠ none := by simp [hnode]
      rcases addTimer_first hadd with ⟨hfirst, hevent', hptimer'⟩ | ⟨⟨q, hq, hle⟩, hevent', hptimer'⟩
      · refine .inl ⟨⟨hsome, fun q hq => ?_⟩, ?_, p, hptimer', hnew⟩
        · have hlt := hfirst q (hptimer.trans hq)
          rwa [← hdeadline, ← hdeadline, hnew, hold q hq] at hlt
        · rw [hevent']
          exact congrArg (fun t => some (t + nsec)) hnow
      · have hq' : s.ptimer = some q := hptimer.symm.trans hq
        rw [← hdeadline, ← hdeadline, hnew, hold q hq'] at hle
        exact .inr ⟨fun hsets => Nat.not_lt.2 hle (hsets.2 q hq'), hevent'.trans hevent,
          hptimer'.trans hptimer, hold⟩

/-! ## The softirq -/

theorem nsecUntil_of_le {deadline now : Nat} (hle : now ≤ deadline) (hfit : deadline < 2 ^ 64) :
    now + nsecUntil deadline now = deadline := by
  rw [nsecUntil, Nat.mod_eq_of_lt (Nat.lt_of_le_of_lt hle hfit)]
  omega

/-- The subtraction wraps around for a timer that is overdue. -/
theorem nsecUntil_of_lt {deadline now : Nat} (hlt : deadline < now) (hfit : now < 2 ^ 64) :
    now + nsecUntil deadline now = deadline + 2 ^ 64 := by
  rw [nsecUntil, Nat.mod_eq_of_lt hfit]
  omega

/-- What a softirq with room in its array leaves has not expired. -/
theorem lt_of_batchSize_lt {s : Timers} {l : List Nat} (hlt : s.batchSize l < 20)
    (hdue : ∀ q ∈ l.take (s.batchSize l), s.deadline q ≤ s.now) :
    ∀ q ∈ l.drop (s.batchSize l), s.now < s.deadline q := by
  have hcount : s.batchSize l = l.countP fun q => s.deadline q ≤ s.now := by
    rw [Timers.batchSize] at hlt ⊢
    omega
  have hle : s.batchSize l ≤ l.length := hcount ▸ List.countP_le_length
  have htake : (l.take (s.batchSize l)).countP (fun q => s.deadline q ≤ s.now) = s.batchSize l := by
    rw [List.countP_eq_length.2 (by simpa using hdue), List.length_take, Nat.min_eq_left hle]
  have hsplit : l.countP (fun q => s.deadline q ≤ s.now) =
      (l.take (s.batchSize l)).countP (fun q => s.deadline q ≤ s.now) +
        (l.drop (s.batchSize l)).countP (fun q => s.deadline q ≤ s.now) := by
    rw [← List.countP_append, List.take_append_drop]
  have hzero : (l.drop (s.batchSize l)).countP (fun q => s.deadline q ≤ s.now) = 0 := by omega
  intro q hq
  have hnot := List.countP_eq_zero.1 hzero q hq
  simpa using hnot

/-- If the twenty-first timer has expired, the array is full. -/
theorem batchSize_of_expired {s : Timers} {l : List Nat} {q : Nat}
    (hsorted : l.Pairwise fun p q => s.deadline p ≤ s.deadline q) (hq : l[20]? = some q)
    (hexpired : s.deadline q ≤ s.now) : s.batchSize l = 20 := by
  obtain ⟨hlt, hget⟩ := List.getElem?_eq_some_iff.1 hq
  have htake : (l.take 20).countP (fun q => s.deadline q ≤ s.now) = 20 := by
    rw [List.countP_eq_length.2, List.length_take, Nat.min_eq_left (Nat.le_of_lt hlt)]
    intro r hr
    obtain ⟨i, hi, rfl⟩ := List.mem_take_iff_getElem.1 hr
    have hle := List.pairwise_iff_getElem.1 hsorted i 20 (by omega) hlt (by omega)
    rw [hget] at hle
    simpa using Nat.le_trans hle hexpired
  have hsub : (l.take 20).countP (fun q => s.deadline q ≤ s.now) ≤
      l.countP fun q => s.deadline q ≤ s.now :=
    (List.take_sublist 20 l).countP_le
  rw [Timers.batchSize]
  omega

/-- A softirq keeps the event for the first timer if and only if it leaves no timer that is overdue. -/
theorem softirq_event {s : Timers} (hok : TimersOk s) (hnow : s.now < 2 ^ 64)
    (hdeadline : ∀ q, s.deadline q < 2 ^ 64) (hbatch : s.batch = [])
    (hevent : ∀ p, s.ptimer = some p → s.now < s.deadline p → s.event = some (s.deadline p)) :
    (s.BatchReaches → ∀ p, (runHrtimerSoftirq s).ptimer = some p →
      (runHrtimerSoftirq s).event = some (s.deadline p)) ∧
    (EventArmed (runHrtimerSoftirq s) → s.BatchReaches) := by
  obtain ⟨lists, place, h⟩ := hok
  have hchain : Chain s.pnext s.ptimer (lists .pending) := h.family.chain .pending
  have hsorted := h.sorted
  generalize lists .pending = l at hchain hsorted
  have hreach : s.BatchReaches ↔ ∀ q, l[20]? = some q → s.now ≤ s.deadline q := by
    refine ⟨fun hall => hall hbatch l hchain, fun hall _ l' hl' => ?_⟩
    obtain rfl := hchain.unique hl'
    exact hall
  rw [hreach]
  by_cases hsize : s.batchSize l = 0
  · have hlater : ∀ q ∈ l, s.now < s.deadline q := by
      have hlt := lt_of_batchSize_lt (s := s) (l := l) (by omega) (by simp [hsize])
      rwa [hsize, List.drop_zero] at hlt
    rw [softirq_idle hchain hsize]
    refine ⟨fun _ p hp => hevent p hp (hlater p ?_), fun _ q hq =>
      Nat.le_of_lt (hlater q (List.mem_of_getElem? hq))⟩
    exact List.mem_of_head? (hchain.head_eq.symm.trans hp)
  · obtain ⟨pre, last, hlist, htake, hdue, heq⟩ := softirq_eq hchain hsorted hbatch hsize
    have hnext : s.pnext last = l[s.batchSize l]? := by
      rw [hlist] at hchain
      rw [hchain.after.head_eq, List.head?_drop]
    rw [heq]
    constructor
    · intro hall p (hp : s.pnext last = some p)
      rw [hnext] at hp
      -- the batch ends at the first timer that is not due, unless it is full
      have hlater : s.now ≤ s.deadline p := by
        by_cases hfull : s.batchSize l = 20
        · rw [hfull] at hp
          exact hall p hp
        · have hlt : s.batchSize l < 20 := by
            have hle : s.batchSize l ≤ 20 := Nat.min_le_left ..
            omega
          refine Nat.le_of_lt (lt_of_batchSize_lt hlt (htake ▸ hdue) p ?_)
          rw [← List.head?_drop] at hp
          exact List.mem_of_head? hp
      dsimp only
      rw [hnext, hp, Timers.nextEvent, nsecUntil_of_le hlater (hdeadline p)]
    · intro harmed q hq
      refine Nat.le_of_not_lt fun hover => ?_
      have hfull := batchSize_of_expired hsorted hq (Nat.le_of_lt hover)
      rw [hfull, hq] at hnext
      obtain ⟨e, he, hle⟩ := harmed q hnext
      dsimp only at he
      rw [hnext, Timers.nextEvent, nsecUntil_of_lt hover hnow] at he
      obtain rfl := Option.some.inj he
      have hmax : max s.now (s.deadline q) < 2 ^ 64 := Nat.max_lt.2 ⟨hnow, hdeadline q⟩
      have hle' : s.deadline q + 2 ^ 64 ≤ max s.now (s.deadline q) := hle
      omega

theorem runHrtimerSoftirq_busy {s : Timers} (h : s.batch ≠ []) : runHrtimerSoftirq s = s := by
  rw [runHrtimerSoftirq, if_pos h]

/-- A softirq keeps the invariant if and only if it leaves no timer that is overdue. -/
theorem softirq_inv {s : Timers} (hok : TimersOk s) (hnow : s.now < 2 ^ 64)
    (hdeadline : ∀ q, s.deadline q < 2 ^ 64)
    (hevent : ∀ p, s.ptimer = some p → s.now < s.deadline p ∨ s.batch ≠ [] →
      s.event = some (s.deadline p)) :
    (s.BatchReaches → EventInv (runHrtimerSoftirq s)) ∧
      (EventArmed (runHrtimerSoftirq s) → s.BatchReaches) := by
  by_cases hbatch : s.batch = []
  · obtain ⟨hkeep, hbreak⟩ := softirq_event hok hnow hdeadline hbatch fun p hp hlt =>
      hevent p hp (.inl hlt)
    obtain ⟨hcbs, hnow', -⟩ := runHrtimerSoftirq_same s
    have hsame : ∀ q, (runHrtimerSoftirq s).deadline q = s.deadline q := fun q => by
      rw [Timers.deadline, hcbs, Timers.deadline]
    obtain ⟨s', hrun, hok'⟩ := hok.step .softirq
    obtain rfl := Except.ok.inj hrun
    refine ⟨fun hreach => ⟨hok', hnow' ▸ hnow, fun q => hsame q ▸ hdeadline q, fun p hp => ?_⟩, hbreak⟩
    rw [hsame]
    exact hkeep hreach p hp
  · rw [runHrtimerSoftirq_busy hbatch]
    exact ⟨fun _ => ⟨hok, hnow, hdeadline, fun p hp => hevent p hp (.inr hbatch)⟩,
      fun _ hnil => absurd hnil hbatch⟩

/-! ## Runs -/

/-- A step that keeps the event keeps the invariant, and any other one leaves a timer without an
    event in time. -/
theorem EventInv.step {s s' : Timers} {c : TimerStep} (h : EventInv s)
    (hrun : timerStep s c = .ok s') :
    (c.KeepsEvent s → EventInv s') ∧ (EventArmed s' → c.KeepsEvent s) := by
  have hok : TimersOk s' := by
    obtain ⟨s₁, hrun₁, hok⟩ := h.ok.step c
    obtain rfl := Except.ok.inj (hrun.symm.trans hrun₁)
    exact hok
  cases c with
  | set nsec thread mem =>
      obtain ⟨hnow, hdue⟩ := request_due hrun
      have hdeadline : ∀ q, s'.deadline q < 2 ^ 64 := by
        intro q
        rcases hdue q with hq | hq
        · exact hq ▸ h.deadline q
        · exact hq ▸ Nat.mod_lt _ (by decide)
      have hfits : s'.now < 2 ^ 64 := hnow ▸ h.now
      rcases request_first h.ok hrun with
        ⟨hfirst, hevent, p, hp, hpd⟩ | ⟨hfirst, hevent, hptimer, hold⟩
      · constructor
        · intro hkeep
          refine ⟨hok, hfits, hdeadline, fun q hq => ?_⟩
          obtain rfl := Option.some.inj (hp.symm.trans hq)
          rw [hevent, hpd, Nat.mod_eq_of_lt (hkeep hfirst), Nat.add_comm]
        · intro harmed _
          obtain ⟨e, he, hle⟩ := harmed p hp
          obtain rfl := Option.some.inj (hevent.symm.trans he)
          have hmax : max s'.now (s'.deadline p) < 2 ^ 64 := Nat.max_lt.2 ⟨hfits, hdeadline p⟩
          omega
      · refine ⟨fun _ => ⟨hok, hfits, hdeadline, fun q hq => ?_⟩, fun _ hsets => absurd hsets hfirst⟩
        rw [hptimer] at hq
        rw [hevent, hold q hq]
        exact h.event q hq
  | tick d =>
      obtain rfl := Except.ok.inj hrun
      refine ⟨fun _ => ?_, fun _ => trivial⟩
      by_cases hfits : s.now + d < 2 ^ 64
      · rw [if_pos hfits] at hok ⊢
        exact ⟨hok, hfits, h.deadline, h.event⟩
      · rw [if_neg hfits]
        exact h
  | softirq =>
      obtain rfl := Except.ok.inj hrun
      exact softirq_inv h.ok h.now h.deadline fun p hp _ => h.event p hp
  | fire =>
      rw [timerStep] at hrun
      split at hrun
      case h_1 hnone =>
          obtain rfl := Except.ok.inj hrun
          exact ⟨fun _ => h, fun _ e he => absurd (hnone.symm.trans he) (by simp)⟩
      case h_2 e he =>
          split at hrun
          case isFalse hwait =>
              obtain rfl := Except.ok.inj hrun
              refine ⟨fun _ => h, fun _ e' he' hle hnil => ?_⟩
              obtain rfl := Option.some.inj (he.symm.trans he')
              exact absurd ⟨hle, hnil⟩ hwait
          case isTrue hdue =>
              obtain rfl := Except.ok.inj hrun
              have hok' : TimersOk { s with event := none } := by
                obtain ⟨lists, place, hat⟩ := h.ok
                exact ⟨lists, place, hat.clock s.now none⟩
              -- The first timer has expired, since the event was set for it.
              have hfirst : ∀ p, s.ptimer = some p → s.now < s.deadline p ∨ s.batch ≠ [] →
                  none = some (s.deadline p) := by
                rintro p hp (hlt | hbusy)
                · obtain rfl := Option.some.inj (he.symm.trans (h.event p hp))
                  exact absurd hdue.1 (Nat.not_le.2 hlt)
                · exact absurd hdue.2 hbusy
              obtain ⟨hkeep, hbreak⟩ := softirq_inv hok' h.now h.deadline hfirst
              exact ⟨fun hsafe => hkeep (hsafe e he hdue.1), fun harmed _ _ _ => hbreak harmed⟩
  | dispatch => exact ⟨fun _ => h.same hok (dispatch_same hrun), fun _ => trivial⟩
  | finish p =>
      obtain rfl := Except.ok.inj hrun
      exact ⟨fun _ => h.same hok (callbackReturn_same s p), fun _ => trivial⟩
  | drain t =>
      obtain rfl := Except.ok.inj hrun
      exact ⟨fun _ => h.same hok (drainStart_same s t), fun _ => trivial⟩
  | poll t => exact ⟨fun _ => h.same hok (drainTurn_same hrun), fun _ => trivial⟩

theorem EventInv.fresh : EventInv freshTimers :=
  ⟨TimersOk.fresh, by decide, fun _ => show 0 < 2 ^ 64 by decide, fun p hp => absurd hp (by simp [freshTimers])⟩

/-- Throughout a run every pending timer has an event in time if and only if no softirq leaves an overdue
    timer and no timer whose deadline has wrapped around becomes the first. -/
theorem event_armed_iff {steps : List TimerStep} :
    (∀ pre, pre <+: steps → ∀ s, timerSteps freshTimers pre = .ok s → EventArmed s) ↔
      Run.AllSafe timerStep (fun s c => c.KeepsEvent s) freshTimers steps :=
  Run.good_iff_allSafe (fun _ h => h.armed) (fun _ _ _ h hrun => (h.step hrun).1)
    (fun _ _ _ h hrun => (h.step hrun).2) EventInv.fresh

/-- Twenty-one timers that expire together: the last is left without an event. -/
theorem event_not_armed :
    ¬ ∀ steps s, timerSteps freshTimers steps = .ok s → EventArmed s := by
  intro hall
  let steps : List TimerStep := List.replicate 21 (.set 5 0 true) ++ [.tick 6, .softirq]
  have hend : (timerSteps freshTimers steps).map (fun s => (s.ptimer, s.event, s.now, s.deadline 1)) =
      .ok (some 1, some (5 + 2 ^ 64), 6, 5) := by rfl
  obtain ⟨s, hrun, hs⟩ := map_eq_ok.1 hend
  simp only [Prod.mk.injEq] at hs
  obtain ⟨hptimer, hevent, hnow, hdeadline⟩ := hs
  obtain ⟨e, he, hle⟩ := hall steps s hrun 1 hptimer
  obtain rfl := Option.some.inj (hevent.symm.trans he)
  rw [hnow, hdeadline] at hle
  exact absurd hle (by decide)

end Yaos
