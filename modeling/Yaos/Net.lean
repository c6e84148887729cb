import Mathlib.Data.List.Basic
import Mathlib.Logic.Function.Basic
import Yaos.Fault
import Yaos.Lib.Run

set_option autoImplicit false

/-! # Network softirqs (`kernel/net.c`)

`run_net_tx` and `run_net_rx` set a flag and raise a softirq. The softirq calls the callbacks of all
registered drivers as long as it finds the flag set, and clears the flag before each pass. Both softirqs
clear the flag `canrun_tx`, and in both the cursor over the drivers is set once, before the first pass.

The steps are those between which a request may come, from a callback or from an interrupt. Of
`__do_softirq` the model has the order of the two bits and the copy it takes of the pending ones; when
it is started, and that it starts again while bits are pending, is left to the steps of a run. -/

namespace Yaos

/-- The two softirqs. -/
inductive NetDir
  | tx
  | rx
deriving DecidableEq, Repr

/-- The state of a softirq at work: its counter, its cursor, and whether it is in the inner loop. -/
structure NetAction where
  dir : NetDir
  loop : Nat
  p : List Nat
  inner : Bool
deriving DecidableEq, Repr

/-- The `netdriver_manager` of a CPU and its two softirq bits. -/
structure NetManager where
  drivers : List Nat
  canrun : NetDir → Bool
  /-- The bits of `local_softirq_pending()`. -/
  pending : NetDir → Bool
  /-- The bits that `__do_softirq` has copied and not come to. -/
  todo : NetDir → Bool
  action : Option NetAction
  /-- The drivers whose callback has not started since the last request, written by the step of a
      run. -/
  owed : NetDir → List Nat

/-- `run_net_tx` and `run_net_rx`. -/
def runNet (s : NetManager) (d : NetDir) : NetManager :=
  { s with
    canrun := Function.update s.canrun d true
    pending := Function.update s.pending d true }

/-- `__do_softirq` takes the pending bits; it does not come in between while one is at work. -/
def doSoftirq (s : NetManager) : NetManager :=
  if s.action = none ∧ s.todo .tx = false ∧ s.todo .rx = false then
    { s with todo := s.pending, pending := fun _ => false }
  else s

/-- `h->action(h)` up to the outer loop. -/
def startNetSoftirq (s : NetManager) (d : NetDir) : NetManager :=
  let s := { s with todo := Function.update s.todo d false }
  if s.drivers = [] then s
  else { s with action := some { dir := d, loop := 0, p := s.drivers, inner := false } }

/-- A callback that a step calls. -/
structure NetCall where
  dir : NetDir
  driver : Nat
deriving DecidableEq, Repr

/-- One step of the body that `run_net_tx_softirq` and `run_net_rx_softirq` share, with the flag that
    it clears, and the callback it calls. -/
def netSoftirqTurn (clears : NetDir) (s : NetManager) (a : NetAction) : NetManager × Option NetCall :=
  if a.inner then
    match a.p with
    | p :: rest => ({ s with action := some { a with p := rest } }, some { dir := a.dir, driver := p })
    | [] => ({ s with action := some { a with inner := false } }, none)
  else if s.canrun a.dir = true ∧ a.loop + 1 < 10 then
    ({ s with
      canrun := Function.update s.canrun clears false
      action := some { a with loop := a.loop + 1, inner := true } }, none)
  else ({ s with action := none }, none)

/-- `run_net_tx_softirq`. -/
def runNetTxSoftirq : NetManager → NetAction → NetManager × Option NetCall := netSoftirqTurn .tx

/-- `run_net_rx_softirq`. -/
def runNetRxSoftirq : NetManager → NetAction → NetManager × Option NetCall := netSoftirqTurn .tx

/-- The bit of the transmit softirq comes before that of the receive softirq. -/
def softirqTurn (s : NetManager) : NetManager × Option NetCall :=
  match s.action with
  | some a =>
      match a.dir with
      | .tx => runNetTxSoftirq s a
      | .rx => runNetRxSoftirq s a
  | none =>
      if s.todo .tx then (startNetSoftirq s .tx, none)
      else if s.todo .rx then (startNetSoftirq s .rx, none)
      else (s, none)

/-! ## Runs -/

/-- The steps of a CPU. -/
inductive NetStep
  | request (d : NetDir)
  | softirq
  | turn
deriving DecidableEq, Repr

/-- The record of a request: every driver is to be called. -/
def NetManager.asked (s : NetManager) (d : NetDir) : NetManager :=
  { s with owed := Function.update s.owed d s.drivers }

/-- The record of what a turn has called. -/
def NetManager.recorded : NetManager × Option NetCall → NetManager
  | (s, none) => s
  | (s, some c) =>
      { s with owed := Function.update s.owed c.dir ((s.owed c.dir).filter (· ≠ c.driver)) }

/-- One step, which also records the request and the callback. -/
def netStep (s : NetManager) : NetStep → Except Fault NetManager
  | .request d => .ok ((runNet s d).asked d)
  | .softirq => .ok (doSoftirq s)
  | .turn => .ok (.recorded (softirqTurn s))

/-- A run. -/
def netSteps (s : NetManager) (steps : List NetStep) : Except Fault NetManager :=
  steps.foldlM netStep s

/-- The bit is not pending, `__do_softirq` is not about to serve it, and its softirq is not at work. -/
def NetManager.Idle (s : NetManager) (d : NetDir) : Prop :=
  s.pending d = false ∧ s.todo d = false ∧ ∀ a, s.action = some a → a.dir ≠ d

/-- A softirq that is idle has served all requests. -/
def NetManager.Served (s : NetManager) : Prop := ∀ d, s.Idle d → s.owed d = []

/-- No `run_net_tx` comes while the transmit softirq has passed a driver, and the receive softirq does
    not clear `canrun_tx` while a request to transmit is open. -/
def NetStep.Safe (s : NetManager) : NetStep → Prop
  | .request .tx => ∀ a, s.action = some a → a.dir = .tx → a.p = s.drivers
  | .turn => ∀ a, s.action = some a → a.dir = .rx → a.inner = false → s.canrun .rx = true →
      a.loop + 1 < 10 → s.owed .tx = []
  | _ => True

instance (s : NetManager) (c : NetStep) : Decidable (c.Safe s) :=
  match c with
  | .request .tx => inferInstanceAs (Decidable (∀ a ∈ s.action, a.dir = .tx → a.p = s.drivers))
  | .turn => inferInstanceAs (Decidable (∀ a ∈ s.action, a.dir = .rx → a.inner = false →
      s.canrun .rx = true → a.loop + 1 < 10 → s.owed .tx = []))
  | .request .rx | .softirq => isTrue trivial

/-! ## What keeps a request open -/

/-- The softirq at work still comes to all drivers that wait. -/
def NetManager.Coming (s : NetManager) (d : NetDir) : Prop :=
  ∃ a, s.action = some a ∧ a.dir = d ∧ s.owed d ⊆ a.p ∧
    (a.inner = true ∨ a.loop = 0 ∧ s.canrun d = true)

/-- An open request will be served: by the softirq at work, or by the next one, which then finds the
    flag set. A transmit softirq at work has passed no driver that waits. -/
structure NetManager.Kept (s : NetManager) : Prop where
  sub : ∀ d, s.owed d ⊆ s.drivers
  kept : ∀ d, s.owed d = [] ∨ s.Coming d ∨
    s.canrun d = true ∧ (s.pending d = true ∨ s.todo d = true)
  ahead : ∀ a, s.action = some a → a.dir = .tx → s.owed .tx ⊆ a.p

section Steps

variable {s : NetManager}

theorem NetManager.Kept.served (h : s.Kept) : s.Served := by
  rintro d ⟨hpending, htodo, hidle⟩
  rcases h.kept d with hnone | ⟨a, ha, hd, -⟩ | ⟨-, hp | ht⟩
  · exact hnone
  · exact absurd hd (hidle a ha)
  · rw [hpending] at hp
    cases hp
  · rw [htodo] at ht
    cases ht

theorem NetManager.Kept.request {d : NetDir} (h : s.Kept)
    (hsafe : NetStep.Safe s (.request d)) : ((runNet s d).asked d).Kept := by
  refine ⟨fun e => ?_, fun e => ?_, fun a ha hdir => ?_⟩
  · by_cases he : e = d
    · subst he
      simp [runNet, NetManager.asked]
    · simpa [runNet, NetManager.asked, he] using h.sub e
  · by_cases he : e = d
    · subst he
      exact .inr (.inr (by simp [runNet, NetManager.asked]))
    · simpa [runNet, NetManager.asked, NetManager.Coming, he] using h.kept e
  · cases d with
    | tx =>
        have hall : a.p = s.drivers := hsafe a ha hdir
        simp [runNet, NetManager.asked, hall]
    | rx => simpa [runNet, NetManager.asked] using h.ahead a ha hdir

theorem NetManager.Kept.doSoftirq (h : s.Kept) : (doSoftirq s).Kept := by
  rw [Yaos.doSoftirq]
  split
  case isTrue hidle =>
      obtain ⟨haction, htx, hrx⟩ := hidle
      refine ⟨h.sub, fun d => ?_, h.ahead⟩
      have htodo : s.todo d = false := by
        cases d with
        | tx => exact htx
        | rx => exact hrx
      rcases h.kept d with hnone | hcoming | ⟨hcan, hp | ht⟩
      · exact .inl hnone
      · exact .inr (.inl hcoming)
      · exact .inr (.inr ⟨hcan, .inr hp⟩)
      · rw [htodo] at ht
        cases ht
  case isFalse => exact h

theorem NetManager.Kept.start {d : NetDir} (h : s.Kept) (haction : s.action = none) :
    (startNetSoftirq s d).Kept := by
  have hcases : ∀ e, s.owed e = [] ∨ s.canrun e = true ∧ (s.pending e = true ∨ s.todo e = true) := by
    intro e
    rcases h.kept e with hnone | ⟨a, ha, -⟩ | hcan
    · exact .inl hnone
    · rw [haction] at ha
      cases ha
    · exact .inr hcan
  rw [startNetSoftirq]
  dsimp only
  split
  case isTrue hempty =>
      refine ⟨h.sub, fun e => .inl ?_, fun a ha => ?_⟩
      · have hsub := h.sub e
        rw [hempty] at hsub
        exact List.subset_nil.1 hsub
      · rw [haction] at ha
        cases ha
  case isFalse =>
      refine ⟨h.sub, fun e => ?_, fun a ha _ => ?_⟩
      · rcases hcases e with hnone | ⟨hcan, hp⟩
        · exact .inl hnone
        · by_cases he : e = d
          · exact .inr (.inl ⟨_, rfl, he.symm, h.sub e, .inr ⟨rfl, hcan⟩⟩)
          · refine .inr (.inr ⟨hcan, ?_⟩)
            simpa [he] using hp
      · obtain rfl := Option.some.inj ha
        exact h.sub .tx

/-- A pass of a softirq, whichever flag it clears, keeps the requests of its own direction. -/
theorem kept_of_turn {clears : NetDir} {a : NetAction} (h : s.Kept) (ha : s.action = some a)
    (hown : a.dir = clears → s.owed a.dir ⊆ a.p)
    (hother : a.dir ≠ clears → a.inner = false → s.canrun a.dir = true → a.loop + 1 < 10 →
      s.owed clears = []) : (NetManager.recorded (netSoftirqTurn clears s a)).Kept := by
  -- of the softirq at work only its own direction is coming
  have hcases : ∀ e, s.owed e = [] ∨
      (e = a.dir ∧ s.owed e ⊆ a.p ∧ (a.inner = true ∨ a.loop = 0 ∧ s.canrun e = true)) ∨
      s.canrun e = true ∧ (s.pending e = true ∨ s.todo e = true) := by
    intro e
    rcases h.kept e with hnone | ⟨b, hb, hdir, hsub, hwhere⟩ | hcan
    · exact .inl hnone
    · obtain rfl := Option.some.inj (ha.symm.trans hb)
      exact .inr (.inl ⟨hdir.symm, hsub, hwhere⟩)
    · exact .inr (.inr hcan)
  rw [netSoftirqTurn]
  split
  case isTrue hinner =>
      split
      case h_1 p rest hp =>
          have hfilter : ∀ l : List Nat, l ⊆ a.p → l.filter (· ≠ p) ⊆ rest := by
            intro l hl q hq
            obtain ⟨hmem, hne⟩ := List.mem_filter.1 hq
            have hin := hl hmem
            rw [hp] at hin
            exact (List.mem_cons.1 hin).resolve_left (by simpa using hne)
          refine ⟨fun e => ?_, fun e => ?_, fun b hb hdir => ?_⟩
          · by_cases he : e = a.dir
            · subst he
              dsimp only [NetManager.recorded]
              rw [Function.update_self]
              exact fun q hq => h.sub a.dir (List.mem_of_mem_filter hq)
            · simpa [NetManager.recorded, he] using h.sub e
          · rcases hcases e with hnone | ⟨rfl, hsub, -⟩ | hcan
            · left
              by_cases he : e = a.dir
              · subst he
                simp [NetManager.recorded, hnone]
              · simpa [NetManager.recorded, he] using hnone
            · refine .inr (.inl ⟨_, rfl, rfl, ?_, .inl hinner⟩)
              simpa [NetManager.recorded] using hfilter _ hsub
            · exact .inr (.inr hcan)
          · obtain rfl := Option.some.inj hb
            have hdir : a.dir = .tx := hdir
            simpa [NetManager.recorded, hdir] using hfilter _ (h.ahead a ha hdir)
      case h_2 hp =>
          refine ⟨h.sub, fun e => ?_, fun b hb hdir => ?_⟩
          · rcases hcases e with hnone | ⟨-, hsub, -⟩ | hcan
            · exact .inl hnone
            · rw [hp] at hsub
              exact .inl (List.subset_nil.1 hsub)
            · exact .inr (.inr hcan)
          · obtain rfl := Option.some.inj hb
            exact h.ahead a ha hdir
  case isFalse hinner =>
      split
      case isTrue hgo =>
          refine ⟨h.sub, fun e => ?_, fun b hb hdir => ?_⟩
          · by_cases he : e = clears
            · subst he
              by_cases hdir : a.dir = e
              · refine .inr (.inl ⟨_, rfl, hdir, ?_, .inl rfl⟩)
                rw [← hdir]
                exact hown hdir
              · exact .inl (hother hdir (by simpa using hinner) hgo.1 hgo.2)
            · rcases hcases e with hnone | ⟨hdir, hsub, -⟩ | hcan
              · exact .inl hnone
              · exact .inr (.inl ⟨_, rfl, hdir.symm, hsub, .inl rfl⟩)
              · refine .inr (.inr ?_)
                simpa [NetManager.recorded, he] using hcan
          · obtain rfl := Option.some.inj hb
            exact h.ahead a ha hdir
      case isFalse hstop =>
          refine ⟨h.sub, fun e => ?_, fun b hb => ?_⟩
          · rcases hcases e with hnone | ⟨rfl, -, hin | ⟨hloop, hcan⟩⟩ | hcan
            · exact .inl hnone
            · exact absurd hin hinner
            · exact absurd ⟨hcan, by rw [hloop]; decide⟩ hstop
            · exact .inr (.inr hcan)
          · cases hb

theorem NetManager.Kept.turn (h : s.Kept) (hsafe : NetStep.Safe s .turn) :
    (NetManager.recorded (softirqTurn s)).Kept := by
  rw [softirqTurn]
  split
  case h_1 a ha =>
      cases hdir : a.dir with
      | tx =>
          refine kept_of_turn h ha (fun _ => ?_) fun hne => absurd hdir hne
          rw [hdir]
          exact h.ahead a ha hdir
      | rx =>
          refine kept_of_turn h ha (fun heq => ?_) fun _ hinner hcan hloop => ?_
          · rw [hdir] at heq
            cases heq
          · rw [hdir] at hcan
            exact hsafe a ha hdir hinner hcan hloop
  case h_2 haction =>
      split
      · exact h.start haction
      · split
        · exact h.start haction
        · exact h

end Steps

/-! ## Whole runs -/

/-- No request has been made, and nothing is at work. -/
def quietNet (drivers : List Nat) : NetManager where
  drivers := drivers
  canrun _ := false
  pending _ := false
  todo _ := false
  action := none
  owed _ := []

theorem quietNet_kept (drivers : List Nat) : (quietNet drivers).Kept :=
  ⟨fun _ => List.nil_subset _, fun _ => .inl rfl, fun _ ha => by cases ha⟩

/-- In every state of a run with safe steps, a softirq that is idle has called every driver since the
    last request. -/
theorem net_requests_served (drivers : List Nat) (steps : List NetStep) (s : NetManager)
    (hsafe : Run.AllSafe netStep (fun s c => c.Safe s) (quietNet drivers) steps)
    (hrun : netSteps (quietNet drivers) steps = .ok s) : s.Served := by
  refine NetManager.Kept.served (hsafe.keeps ?_ (quietNet_kept drivers) hrun)
  intro c s s' h hstep hc
  cases c with
  | request d =>
      obtain rfl := Except.ok.inj hstep
      exact h.request hc
  | softirq =>
      obtain rfl := Except.ok.inj hstep
      exact h.doSoftirq
  | turn =>
      obtain rfl := Except.ok.inj hstep
      exact h.turn hc

/-- Two drivers. Both softirqs are requested before they start, and again while the transmit softirq is
    at work; the next request to transmit comes in the last pass of the receive softirq. -/
def busyNet : List NetStep :=
  [.request .tx, .request .rx, .softirq, .turn, .turn, .request .tx, .turn, .request .rx] ++
    List.replicate 25 .turn ++ [.request .tx, .turn, .turn, .softirq] ++ List.replicate 28 .turn

/-- Every request of the run is served in its end, where both softirqs are idle. -/
theorem net_requests_served_busy : ∃ s, netSteps (quietNet [5, 7]) busyNet = .ok s ∧
    s.Served ∧ ∀ d, s.Idle d := by
  have hend : (netSteps (quietNet [5, 7]) busyNet).map
      (fun s => (s.pending .tx, s.pending .rx, s.todo .tx, s.todo .rx, s.action)) =
      .ok (false, false, false, false, none) := by
    decide +kernel
  obtain ⟨s, hrun, hend⟩ := map_eq_ok.1 hend
  simp only [Prod.mk.injEq] at hend
  obtain ⟨hptx, hprx, httx, htrx, haction⟩ := hend
  refine ⟨s, hrun, net_requests_served [5, 7] _ s (by decide +kernel) hrun, fun d => ?_⟩
  cases d with
  | tx => exact ⟨hptx, httx, by simp [haction]⟩
  | rx => exact ⟨hprx, htrx, by simp [haction]⟩

/-- A second request comes after the only driver was called: the flag is cleared again without a
    call, and the softirq ends idle. -/
theorem net_request_dropped : ∃ s, netSteps (quietNet [5])
    [.request .tx, .softirq, .turn, .turn, .turn, .request .tx, .turn, .turn, .turn, .turn,
      .softirq, .turn, .turn] = .ok s ∧ ¬ s.Served := by
  refine ⟨_, rfl, fun hserved => ?_⟩
  have hidle := hserved .tx ⟨rfl, rfl, fun a ha => by cases ha⟩
  exact absurd hidle (by decide)

end Yaos
