import Yaos.Timer.Runs

set_option autoImplicit false

/-! # Timers in order, and interrupted calls

A call of `set_timeout_nsec_cb` or `set_timeout_nsec_poll` reads `pfree` and later writes it, and so does
`free_poll`. The softirq of an interrupt in between may take or free a node. Then the call goes on with
what it has read before, and a node is set twice or lost. As long as no call is disturbed in this way, the
queue does what it is for. -/

namespace Yaos

open Chains

/-! ## The timer queue -/

/-- The places that a node can be in. -/
inductive TimerPlace
  | free
  | pending
  | batch
  | calling
  | poll (t : Nat)
  | drain (t : Nat)

/-- Where a node is. -/
def Timers.On (s : Timers) (p : Nat) : TimerPlace → Prop
  | .free => ∃ l, Chain s.pnext s.pfree l ∧ p ∈ l
  | .pending => ∃ l, Chain s.pnext s.ptimer l ∧ p ∈ l
  | .batch => p ∈ s.batch
  | .calling => p ∈ s.calling
  | .poll t => ∃ l, Chain s.pnext (s.polls t) l ∧ p ∈ l
  | .drain t => ∃ l, Chain s.pnext (s.drains t) l ∧ p ∈ l

/-- The timer queue works: it is sorted, no accepted timer is lost or called twice or too early, and no node is
    in two places. -/
structure Timers.InOrder (s : Timers) : Prop where
  sorted : ∃ l, Chain s.pnext s.ptimer l ∧ l.Pairwise fun p q => s.deadline p ≤ s.deadline q
  /-- A softirq takes the first timers and leaves the rest. -/
  softirq : s.batch = [] → ∀ l, Chain s.pnext s.ptimer l →
    (runHrtimerSoftirq s).batch = l.take (s.batchSize l) ∧
      ((runHrtimerSoftirq s).batch ≠ [] → (runHrtimerSoftirq s).uptime = s.now) ∧
      Chain (runHrtimerSoftirq s).pnext (runHrtimerSoftirq s).ptimer (l.drop (s.batchSize l))
  /-- It dispatches them one after the other. -/
  dispatch : ∀ p rest, s.batch = p :: rest → ∃ s', s.dispatch = .ok s' ∧ s'.batch = rest ∧
    s'.log = s.log ++ [{ param := (s.cbs p).param, uptime := s.uptime }]
  once : (s.log.map Dispatch.param).Nodup
  due : ∀ e ∈ s.log, ∃ d, s.accepted[e.param]? = some d ∧ d ≤ e.uptime
  kept : ∀ i < s.accepted.length, i ∈ s.log.map Dispatch.param ∨
    ∃ p, (s.On p .pending ∨ s.On p .batch) ∧ (s.cbs p).param = i ∧ s.accepted[i]? = some (s.deadline p)
  /-- A call is refused only for lack of memory. -/
  refused : ∀ nsec thread mem, ∃ r s', setTimeoutNsec s nsec thread s.accepted.length mem = .ok (r, s') ∧
    (r = if s.pfree = none ∧ mem = false then ENOMEM else OK)
  place : ∀ p, p < s.nodes → ∃! w, s.On p w

/-- The place of the nodes of a list. -/
def TimerList.place : TimerList → TimerPlace
  | .free => .free
  | .pending => .pending
  | .poll t => .poll t
  | .drain t => .drain t

section Places

variable {s : Timers} {lists : TimerList → List Nat} {place : Nat → Option TimerList} {p : Nat}

/-- A node is on a list if the chain from the head of that list leads to it. -/
theorem TimersAt.on_list (h : TimersAt s none lists place) (k : TimerList) :
    s.On p k.place ↔ place p = some k := by
  have hchain := h.family.chain k
  have hon : s.On p k.place ↔ ∃ l, Chain s.pnext (s.heads k) l ∧ p ∈ l := by
    cases k <;> rfl
  rw [hon, ← h.family.mem]
  constructor
  · rintro ⟨l, hl, hp⟩
    rw [hchain.unique hl]
    exact hp
  · exact fun hp => ⟨_, hchain, hp⟩

theorem TimersAt.on_unique (h : TimersAt s none lists place) (hp : p < s.nodes) :
    ∃! w, s.On p w := by
  have hlist : ∀ k : TimerList, place p = none → ¬ s.On p k.place := fun k hnone hon => by
    rw [h.on_list, hnone] at hon
    cases hon
  have hwhere : ∀ w, w = .batch ∨ w = .calling ∨ ∃ k : TimerList, w = k.place := by
    rintro (_ | _ | _ | _ | t | t)
    · exact .inr (.inr ⟨.free, rfl⟩)
    · exact .inr (.inr ⟨.pending, rfl⟩)
    · exact .inl rfl
    · exact .inr (.inl rfl)
    · exact .inr (.inr ⟨.poll t, rfl⟩)
    · exact .inr (.inr ⟨.drain t, rfl⟩)
  rcases (h.nodes p).1 hp with hplace | hbatch | hcalling | hloose
  · obtain ⟨k, hk⟩ := Option.ne_none_iff_exists'.1 hplace
    refine ⟨k.place, (h.on_list k).2 hk, fun w hw => ?_⟩
    rcases hwhere w with rfl | rfl | ⟨k', rfl⟩
    · exact absurd (h.batch_place p hw) hplace
    · exact absurd (h.calling_place p hw) hplace
    · rw [h.on_list, hk] at hw
      rw [Option.some.inj hw]
  · refine ⟨.batch, hbatch, fun w hw => ?_⟩
    rcases hwhere w with rfl | rfl | ⟨k, rfl⟩
    · rfl
    · exact absurd hw (h.batch_calling p hbatch)
    · exact absurd hw (hlist k (h.batch_place p hbatch))
  · refine ⟨.calling, hcalling, fun w hw => ?_⟩
    rcases hwhere w with rfl | rfl | ⟨k, rfl⟩
    · exact absurd hcalling (h.batch_calling p hw)
    · rfl
    · exact absurd hw (hlist k (h.calling_place p hcalling))
  · cases hloose

end Places

/-- No deadline wraps around. -/
def DuesFit (s : Timers) : Prop := ∀ d ∈ s.accepted, d < 2 ^ 64

theorem DuesFit.get {s : Timers} (h : DuesFit s) {i d : Nat} (hi : s.accepted[i]? = some d) :
    d % 2 ^ 64 = d :=
  Nat.mod_eq_of_lt (h d (List.mem_of_getElem? hi))

theorem dispatch_log {s s' : Timers} {p : Nat} {rest : List Nat} (hbatch : s.batch = p :: rest)
    (hrun : s.dispatch = .ok s') :
    s'.batch = rest ∧ s'.log = s.log ++ [{ param := (s.cbs p).param, uptime := s.uptime }] := by
  rw [Timers.dispatch, hbatch] at hrun
  obtain ⟨-, hrun⟩ := assert_bind_eq_ok.1 hrun
  split at hrun
  · obtain rfl := Except.ok.inj hrun
    exact ⟨rfl, rfl⟩
  · obtain rfl := Except.ok.inj hrun
    rw [Timers.addPoll]
    split
    · exact ⟨rfl, rfl⟩
    · exact ⟨rfl, rfl⟩

theorem softirq_uptime {s : Timers} (hbatch : s.batch = []) (hsome : (runHrtimerSoftirq s).batch ≠ []) :
    (runHrtimerSoftirq s).uptime = s.now := by
  rw [runHrtimerSoftirq, if_neg (not_not.2 hbatch)] at hsome ⊢
  split
  case h_1 hnone =>
      rw [hnone] at hsome
      exact absurd hbatch hsome
  case h_2 p hp =>
      rw [hp] at hsome
      dsimp only at hsome ⊢
      split at hsome
      · exact absurd hbatch hsome
      case isFalse hdue =>
          rw [if_neg hdue]
          split
          · rfl
          · rfl

theorem TimersOk.inOrder {s : Timers} (h : TimersOk s) (hfit : DuesFit s) : s.InOrder := by
  obtain ⟨lists, place, h⟩ := h
  have hpending : Chain s.pnext s.ptimer (lists .pending) := h.family.chain .pending
  refine ⟨⟨_, hpending, h.sorted⟩, fun hbatch l hl => ?_, fun p rest hbatch => ?_, h.log_nodup,
    fun e he => ?_, fun i hi => ?_, fun nsec thread mem => ?_, fun p hp => h.on_unique hp⟩
  · obtain rfl := hl.unique hpending
    obtain ⟨lists', place', h', htake⟩ := h.softirq
    obtain ⟨htaken, hleft⟩ := htake hbatch
    exact ⟨htaken, softirq_uptime hbatch, hleft ▸ h'.family.chain .pending⟩
  · obtain ⟨s', hrun, -⟩ := h.dispatch
    exact ⟨s', hrun, dispatch_log hbatch hrun⟩
  · obtain ⟨d, hd, hle⟩ := h.log_due e he
    rw [hfit.get hd] at hle
    exact ⟨d, hd, hle⟩
  · refine (h.kept i hi).imp_right ?_
    rintro ⟨p, hp, rfl⟩
    refine ⟨p, hp.imp_left (h.on_list .pending).2, rfl, ?_⟩
    obtain ⟨d, hd, hdeadline⟩ := (h.armed p hp).deadline
    rw [hd, Timers.deadline, hdeadline, hfit.get hd]
  · obtain ⟨r, s', hrun, -, ⟨hnone, hr, -⟩ | ⟨hsome, hr, -⟩⟩ := h.setFrom (.inr rfl) nsec thread mem
    · exact ⟨r, s', hrun, by rw [hr, if_pos hnone]⟩
    · exact ⟨r, s', hrun, by rw [hr, if_neg hsome]⟩

/-! ## Interrupted calls -/

/-- No call of `set_timeout_nsec_cb` or `set_timeout_nsec_poll` runs into the end of the clock. -/
def TimerPart.NoWrap (st : Interrupted) : TimerPart → Prop
  | .whole (.set nsec _ _) => nsec + st.timers.now < 2 ^ 64
  | .resume _ nsec _ _ => nsec + st.timers.now < 2 ^ 64
  | _ => True

/-- A call writes `pfree` when it still is what the call has read. -/
def TimerPart.Undisturbed (st : Interrupted) : TimerPart → Prop
  | .resume k _ _ _ => st.reading k ≠ none →
      st.reading k = some none ∨ st.reading k = some st.timers.pfree
  | .push p => p ∈ st.linked → st.timers.pnext p = st.timers.pfree
  | _ => True

instance (st : Interrupted) : DecidablePred (TimerPart.NoWrap st)
  | .whole (.set nsec _ _) => inferInstanceAs (Decidable (nsec + st.timers.now < 2 ^ 64))
  | .resume _ nsec _ _ => inferInstanceAs (Decidable (nsec + st.timers.now < 2 ^ 64))
  | .whole (.tick _) | .whole .softirq | .whole .fire | .whole .dispatch | .whole (.finish _)
  | .whole (.drain _) | .whole (.poll _) | .read _ | .link _ | .push _ => inferInstanceAs (Decidable True)

instance (st : Interrupted) : DecidablePred (TimerPart.Undisturbed st)
  | .resume k _ _ _ => inferInstanceAs (Decidable (st.reading k ≠ none →
      st.reading k = some none ∨ st.reading k = some st.timers.pfree))
  | .push p => inferInstanceAs (Decidable (p ∈ st.linked → st.timers.pnext p = st.timers.pfree))
  | .whole _ | .read _ | .link _ => inferInstanceAs (Decidable True)

/-- The invariant as long as no call is disturbed. -/
structure Interrupted.Ok (st : Interrupted) : Prop where
  timers : TimersOk st.timers
  fit : DuesFit st.timers
  linked : st.linked.Nodup
  calling : ∀ p ∈ st.linked, p ∈ st.timers.calling

section Steps

variable {s s' : Timers} {st : Interrupted}

theorem addTimer_calling {nsec p : Nat} (h : addTimer s nsec p = .ok s') : s'.calling = s.calling := by
  rw [addTimer] at h
  split at h
  · obtain rfl := Except.ok.inj h
    rfl
  · split at h
    · obtain rfl := Except.ok.inj h
      rfl
    · split at h
      · cases h
      · obtain rfl := Except.ok.inj h
        rfl

theorem request_calling {read : Option Nat} {nsec thread : Nat} {mem : Bool}
    (h : s.request read nsec thread mem = .ok s') : s'.calling = s.calling := by
  obtain ⟨r, s₂, hset, rfl⟩ := request_eq_ok h
  suffices hsame : s₂.calling = s.calling by
    split
    · exact hsame
    · exact hsame
  unfold setTimeoutFrom Timers.nodeFrom at hset
  cases read with
  | some p =>
      obtain ⟨s₃, hadd, hset⟩ := bind_eq_ok.1 hset
      obtain ⟨-, rfl⟩ := Prod.mk.inj (Except.ok.inj hset)
      have hcalling := addTimer_calling hadd
      exact hcalling
  | none =>
      cases mem with
      | false =>
          obtain ⟨-, rfl⟩ := Prod.mk.inj (Except.ok.inj hset)
          rfl
      | true =>
          obtain ⟨s₃, hadd, hset⟩ := bind_eq_ok.1 hset
          obtain ⟨-, rfl⟩ := Prod.mk.inj (Except.ok.inj hset)
          have hcalling := addTimer_calling hadd
          exact hcalling

theorem runHrtimerSoftirq_calling (s : Timers) : (runHrtimerSoftirq s).calling = s.calling := by
  rw [runHrtimerSoftirq]
  split
  · rfl
  · split
    · rfl
    · dsimp only
      split
      · rfl
      · split
        · rfl
        · rfl

/-- A callback runs until it returns. -/
theorem timerStep_calling {c : TimerStep} {q : Nat} (h : timerStep s c = .ok s') (hq : q ∈ s.calling)
    (hne : c ≠ .finish q) : q ∈ s'.calling := by
  cases c with
  | set nsec thread mem => exact request_calling h ▸ hq
  | tick d =>
      obtain rfl := Except.ok.inj h
      split
      · exact hq
      · exact hq
  | softirq =>
      obtain rfl := Except.ok.inj h
      exact runHrtimerSoftirq_calling s ▸ hq
  | fire =>
      rw [timerStep] at h
      split at h
      · obtain rfl := Except.ok.inj h
        exact hq
      · split at h
        · obtain rfl := Except.ok.inj h
          rw [runHrtimerSoftirq_calling]
          exact hq
        · obtain rfl := Except.ok.inj h
          exact hq
  | dispatch =>
      rw [timerStep, Timers.dispatch] at h
      split at h
      · obtain rfl := Except.ok.inj h
        exact hq
      · obtain ⟨-, h⟩ := assert_bind_eq_ok.1 h
        split at h
        · obtain rfl := Except.ok.inj h
          exact List.mem_cons_of_mem _ hq
        · obtain rfl := Except.ok.inj h
          rw [Timers.addPoll]
          split
          · exact hq
          · exact hq
  | finish p =>
      obtain rfl := Except.ok.inj h
      rw [callbackReturn]
      split
      · have hqp : q ≠ p := by
          rintro rfl
          exact hne rfl
        exact (List.mem_erase_of_ne hqp).2 hq
      · exact hq
  | drain t =>
      obtain rfl := Except.ok.inj h
      rw [drainStart]
      split
      · exact hq
      · exact hq
  | poll t =>
      rw [timerStep, drainTurn] at h
      split at h
      · obtain rfl := Except.ok.inj h
        exact hq
      · dsimp only at h
        split at h
        · obtain rfl := Except.ok.inj h
          exact List.mem_cons_of_mem _ hq
        · cases h
        · cases h

theorem DuesFit.accept {d : Nat} (h : DuesFit s) (hd : d < 2 ^ 64)
    (hacc : s'.accepted = s.accepted ∨ s'.accepted = s.accepted ++ [d]) : DuesFit s' := by
  intro d' hd'
  rcases hacc with hacc | hacc
  · exact h d' (hacc ▸ hd')
  · rw [hacc] at hd'
    rcases List.mem_append.1 hd' with hd' | hd'
    · exact h d' hd'
    · exact List.mem_singleton.1 hd' ▸ hd

theorem DuesFit.step {c : TimerStep} (hok : TimersOk s) (h : DuesFit s)
    (hwrap : ∀ nsec thread mem, c = .set nsec thread mem → nsec + s.now < 2 ^ 64)
    (hrun : timerStep s c = .ok s') : DuesFit s' := by
  have hsame : s'.accepted = s.accepted → DuesFit s' := fun hacc d hd => h d (hacc ▸ hd)
  cases c with
  | set nsec thread mem =>
      obtain ⟨s₁, hrun₁, -, hacc⟩ := hok.request (.inr rfl) nsec thread mem
      obtain rfl := Except.ok.inj (hrun₁.symm.trans hrun)
      exact h.accept (hwrap nsec thread mem rfl) hacc
  | tick d =>
      obtain rfl := Except.ok.inj hrun
      split
      · exact h
      · exact h
  | softirq =>
      obtain rfl := Except.ok.inj hrun
      exact hsame (runHrtimerSoftirq_same s).2.2
  | fire =>
      rw [timerStep] at hrun
      split at hrun
      · obtain rfl := Except.ok.inj hrun
        exact h
      · split at hrun
        · obtain rfl := Except.ok.inj hrun
          exact hsame (runHrtimerSoftirq_same _).2.2
        · obtain rfl := Except.ok.inj hrun
          exact h
  | dispatch => exact hsame (dispatch_same hrun).accepted
  | finish p =>
      obtain rfl := Except.ok.inj hrun
      exact hsame (callbackReturn_same s p).accepted
  | drain t =>
      obtain rfl := Except.ok.inj hrun
      exact hsame (drainStart_same s t).accepted
  | poll t => exact hsame (drainTurn_same hrun).accepted

/-- The first half of `free_poll` writes to a node that is in no list. -/
theorem TimersOk.link {p : Nat} (h : TimersOk s) (hp : p ∈ s.calling) : TimersOk (linkFree s p) := by
  obtain ⟨lists, place, h⟩ := h
  exact ⟨lists, place, h.write (h.calling_place p hp) (fun hmem => h.batch_calling p hmem hp) _⟩

/-- The second half frees the node. -/
theorem TimersOk.push {p : Nat} (h : TimersOk s) (hp : p ∈ s.calling) (hlink : s.pnext p = s.pfree) :
    TimersOk (pushFree { s with calling := s.calling.erase p } p) := by
  obtain ⟨lists, place, h⟩ := h
  refine ⟨_, _, (h.uncall hp).push (k := .free) (by simp) (fun _ _ => rfl) ?_ (heads_pfree _ _)
    ⟨rfl, rfl, rfl, rfl, rfl, rfl⟩ fun hk => absurd rfl hk⟩
  show s.pnext = Function.update s.pnext p s.pfree
  rw [← hlink, Function.update_eq_self]

/-- What a part of a call that is not disturbed keeps. -/
theorem Interrupted.Ok.step {c : TimerPart} (h : st.Ok) (hwrap : c.NoWrap st) (hc : c.Undisturbed st) :
    ∃ st', timerPart st c = .ok st' ∧ st'.Ok := by
  cases c with
  | whole c =>
      rw [timerPart]
      split
      · exact ⟨st, rfl, h⟩
      case isFalse hlinked =>
          obtain ⟨s', hrun, hok⟩ := h.timers.step c
          rw [hrun]
          refine ⟨_, rfl, hok, h.fit.step h.timers (fun nsec thread mem heq => ?_) hrun, h.linked,
            fun p hp => timerStep_calling hrun (h.calling p hp) fun heq => hlinked ⟨p, hp, heq⟩⟩
          rw [heq] at hwrap
          exact hwrap
  | read k =>
      refine ⟨_, rfl, ?_⟩
      split
      · exact ⟨h.timers, h.fit, h.linked, h.calling⟩
      · exact h
  | resume k nsec thread mem =>
      rw [timerPart]
      cases hread : st.reading k with
      | none => exact ⟨st, rfl, h⟩
      | some read =>
          have hkept : read = none ∨ read = st.timers.pfree := by
            have hnow := hc (by simp [hread])
            rw [hread] at hnow
            exact hnow.imp Option.some.inj Option.some.inj
          obtain ⟨s', hrun, hok, hacc⟩ := h.timers.request hkept nsec thread mem
          dsimp only
          rw [hrun]
          refine ⟨_, rfl, hok, h.fit.accept hwrap hacc, h.linked, fun p hp => ?_⟩
          exact (request_calling hrun).symm ▸ h.calling p hp
  | link p =>
      refine ⟨_, rfl, ?_⟩
      split
      case isTrue hp =>
          refine ⟨h.timers.link hp.1, h.fit, List.nodup_cons.2 ⟨hp.2, h.linked⟩, fun q hq => ?_⟩
          rcases List.mem_cons.1 hq with rfl | hq
          · exact hp.1
          · exact h.calling q hq
      case isFalse => exact h
  | push p =>
      refine ⟨_, rfl, ?_⟩
      split
      case isTrue hp =>
          refine ⟨h.timers.push (h.calling p hp) (hc hp), h.fit, h.linked.erase p, fun q hq => ?_⟩
          obtain ⟨hqp, hq⟩ := h.linked.mem_erase_iff.1 hq
          exact (List.mem_erase_of_ne hqp).2 (h.calling q hq)
      case isFalse => exact h

end Steps

end Yaos
