import Mathlib.Algebra.Group.Nat.Defs
import Mathlib.Data.List.Basic
import Mathlib.Data.List.Count
import Yaos.Fault
import Yaos.Lib.Family
import Yaos.Lib.Run

set_option autoImplicit false

/-! # Timers (`kernel/timer.c`)

The pending timers of a CPU are a list in the order of their deadlines. A softirq takes up to twenty
expired timers from its front into an array and then calls `timer_cb` on each: a timer of
`set_timeout_nsec_cb` is called back at once and freed, one of `set_timeout_nsec_poll` is put on the poll
list of its thread, whose next drain calls and frees it. The field `pnext` links the free nodes, the
pending ones and those on a poll list.

The steps of this model end where a callback runs, so that a callback may set further timers. Interrupts
are enabled while a node is taken off the free list or put back, and the softirq that runs then may do the
same. So a second machine, `timerPart`, has the two halves of these calls as steps of their own. -/

namespace Yaos

open Chains

/-- The `handle` of a node. -/
inductive TimerHandle
  | null
  | errPoll
  | timeoutPoll
deriving DecidableEq, Repr

/-- A `timeout_callback`, without its `callback`. -/
structure TimeoutCb where
  pnext : Option Nat
  handle : TimerHandle
  param : Nat
  /-- 0 for a timer that is called back by the softirq. -/
  thread : Nat
  deadline : Nat
  count : Int

/-- One call of `timer_cb` for a timer with this `param`, in a softirq that found the time `uptime`. -/
structure Dispatch where
  param : Nat
  uptime : Nat
deriving DecidableEq

/-- The `timer_manager` of a CPU with the poll lists of its threads and its clock event. -/
structure Timers where
  cbs : Nat → TimeoutCb
  pfree : Option Nat
  ptimer : Option Nat
  /-- `polls[POLL_LVL_TIMER]` of a thread, and the list that its drain has taken. -/
  polls : Nat → Option Nat
  drains : Nat → Option Nat
  /-- The rest of `paramarr`. -/
  batch : List Nat
  /-- Nodes whose callback runs. -/
  calling : List Nat
  now : Nat
  /-- The time the softirq has found. -/
  uptime : Nat
  /-- When the clock event fires, if it is armed. -/
  event : Option Nat
  /-- The nodes are those below this number. -/
  nodes : Nat
  /-- The deadlines that were asked for in the calls that returned 0, oldest first. -/
  accepted : List Nat
  log : List Dispatch

/-- The node behind `p`. -/
def Timers.pnext (s : Timers) (p : Nat) : Option Nat := (s.cbs p).pnext

/-- When the node is due. -/
def Timers.deadline (s : Timers) (p : Nat) : Nat := (s.cbs p).deadline

/-- A node is changed. -/
def Timers.set (s : Timers) (p : Nat) (cb : TimeoutCb) : Timers :=
  { s with cbs := Function.update s.cbs p cb }

/-- The link of a node is written. -/
def Timers.setNext (s : Timers) (p : Nat) (link : Option Nat) : Timers :=
  s.set p { s.cbs p with pnext := link }

/-- `levt->set_next_event(nsec,levt);`. -/
def Timers.setNextEvent (s : Timers) (nsec : Nat) : Timers := { s with event := some (s.now + nsec) }

/-- `free_poll` up to `p->pnext = ptime->pfree;`. -/
def linkFree (s : Timers) (p : Nat) : Timers :=
  s.set p { s.cbs p with handle := .errPoll, pnext := s.pfree }

/-- `ptime->pfree = p;`. -/
def pushFree (s : Timers) (p : Nat) : Timers := { s with pfree := some p }

/-- `free_poll`. -/
def freePoll (s : Timers) (p : Nat) : Timers := pushFree (linkFree s p) p

/-- `p->pnext = ptimer; ptimer = p;` and a new event. -/
def Timers.addFront (s : Timers) (nsec p : Nat) : Timers :=
  { s.setNext p s.ptimer with ptimer := some p }.setNextEvent nsec

/-- The node already has its deadline and its count. -/
def addTimer (s : Timers) (nsec p : Nat) : Except Fault Timers :=
  match s.ptimer with
  | none => .ok (s.addFront nsec p)
  | some head =>
      if s.deadline p < s.deadline head then .ok (s.addFront nsec p)
      else
        match advance s.pnext (fun q => s.deadline q < s.deadline p) s.nodes head with
        | none => .error .hang
        | some ptr => .ok ((s.setNext p (s.pnext ptr)).setNext ptr (some p))

/-- The node of a call that has read `read` from `pfree`: that one, or one from `yaos_malloc`, which gives
    one if `mem`. -/
def Timers.nodeFrom (s : Timers) (read : Option Nat) (mem : Bool) : Option (Nat × Timers) :=
  match read with
  | some p => some (p, { s with pfree := s.pnext p })
  | none => if mem then some (s.nodes, { s with nodes := s.nodes + 1 }) else none

/-- The node of a call that reads `pfree` now. -/
def Timers.takeNode (s : Timers) (mem : Bool) : Option (Nat × Timers) := s.nodeFrom s.pfree mem

/-- `set_timeout_nsec_cb` for thread 0 and `set_timeout_nsec_poll` called by another one, from where it has
    read `pfree`. -/
def setTimeoutFrom (s : Timers) (read : Option Nat) (nsec thread param : Nat) (mem : Bool) :
    Except Fault (Nat × Timers) :=
  match s.nodeFrom read mem with
  | none => .ok (ENOMEM, s)
  | some (p, s) => do
      let s ← addTimer (s.set p
        { pnext := s.pnext p, handle := if thread = 0 then .null else .timeoutPoll, param := param
          thread := thread, deadline := (nsec + s.now) % 2 ^ 64, count := 1 }) nsec p
      .ok (OK, s)

/-- The whole call. -/
def setTimeoutNsec (s : Timers) (nsec thread param : Nat) (mem : Bool) : Except Fault (Nat × Timers) :=
  setTimeoutFrom s s.pfree nsec thread param mem

/-- `while (ptr->pnext && uptime >= ptr->pnext->deadline && callnr > 0)`, with the nodes it puts into
    the array and its last `ptr`. -/
def takeBatch (s : Timers) : Nat → Nat → List Nat × Nat
  | 0, ptr => ([], ptr)
  | callnr + 1, ptr =>
      match s.pnext ptr with
      | none => ([], ptr)
      | some q =>
          if s.deadline q ≤ s.now then
            let (rest, last) := takeBatch s callnr q
            (q :: rest, last)
          else ([], ptr)

/-- `ptime->ptimer->deadline - uptime` in 64 bits. -/
def nsecUntil (deadline uptime : Nat) : Nat := (deadline + (2 ^ 64 - uptime % 2 ^ 64)) % 2 ^ 64

/-- Up to the calls of `timer_cb`. It does not come in between while it is at work. -/
def runHrtimerSoftirq (s : Timers) : Timers :=
  if s.batch ≠ [] then s
  else
    match s.ptimer with
    | none => s
    | some p =>
        if s.now < s.deadline p then s
        else
          let (rest, last) := takeBatch s 19 p
          let s := { s with ptimer := s.pnext last, batch := p :: rest, uptime := s.now }
          match s.ptimer with
          | none => s
          -- where twenty timers were taken `q` may be due already, and the difference wraps around
          | some q => s.setNextEvent (nsecUntil (s.deadline q) s.now)

/-- `thread_add_poll(p, POLL_LVL_TIMER)`. -/
def Timers.addPoll (s : Timers) (p : Nat) : Timers :=
  let t := (s.cbs p).thread
  if s.polls t ≠ some p then
    { s.setNext p (s.polls t) with polls := Function.update s.polls t (some p) }
  else s

/-- `timer_cb` up to the callback of the timer. -/
def timerCb (s : Timers) (p : Nat) : Except Fault Timers := do
  let cb := s.cbs p
  let s := s.set p { cb with count := cb.count - 1 }
  assert "p->count==0" (cb.count - 1 = 0)
  -- no thread: the callback runs here
  if cb.thread = 0 then .ok { s with calling := p :: s.calling }
  else .ok (s.addPoll p)

/-- A callback returns, and its node is freed. -/
def callbackReturn (s : Timers) (p : Nat) : Timers :=
  if p ∈ s.calling then freePoll { s with calling := s.calling.erase p } p else s

/-- `can_main_run` takes the poll list of a thread. -/
def drainStart (s : Timers) (t : Nat) : Timers :=
  if s.drains t = none then
    { s with
      drains := Function.update s.drains t (s.polls t)
      polls := Function.update s.polls t none }
  else s

/-- `do_poll_head` takes the next node and calls `timeout_poll`, up to the callback of the timer. -/
def drainTurn (s : Timers) (t : Nat) : Except Fault Timers :=
  match s.drains t with
  | none => .ok s
  | some p =>
      let s := { s with drains := Function.update s.drains t (s.pnext p) }
      let s := s.setNext p none
      match (s.cbs p).handle with
      | .timeoutPoll => .ok { s with calling := p :: s.calling }
      | .errPoll => .error (.panic "err_poll:%lx\n")
      | .null => .error .null

/-- The steps of a run: calls, callbacks that return, and what the clock does. -/
inductive TimerStep
  | set (nsec thread : Nat) (mem : Bool)
  /-- The clock goes on, within its 64 bits. -/
  | tick (d : Nat)
  | softirq
  /-- The clock event fires if its time has come: it is disarmed, and the softirq runs. While a softirq
      is at work the one that is raised has to wait. -/
  | fire
  | dispatch
  | finish (p : Nat)
  | drain (t : Nat)
  | poll (t : Nat)
deriving DecidableEq

/-- A call of `set_timeout_nsec_cb` or `set_timeout_nsec_poll` with the record of it. The callers number
    their timers: `param` is the number of calls accepted before. -/
def Timers.request (s : Timers) (read : Option Nat) (nsec thread : Nat) (mem : Bool) :
    Except Fault Timers := do
  let (r, s') ← setTimeoutFrom s read nsec thread s.accepted.length mem
  .ok (if r = OK then { s' with accepted := s.accepted ++ [nsec + s.now] } else s')

/-- The loop over `paramarr` goes on to the next node, and the call of `timer_cb` is recorded. -/
def Timers.dispatch (s : Timers) : Except Fault Timers :=
  match s.batch with
  | [] => .ok s
  | p :: rest =>
      let entry : Dispatch := { param := (s.cbs p).param, uptime := s.uptime }
      timerCb { s with batch := rest, log := s.log ++ [entry] } p

/-- One step. -/
def timerStep (s : Timers) : TimerStep → Except Fault Timers
  | .set nsec thread mem => s.request s.pfree nsec thread mem
  | .tick d => .ok (if s.now + d < 2 ^ 64 then { s with now := s.now + d } else s)
  | .softirq => .ok (runHrtimerSoftirq s)
  | .fire =>
      match s.event with
      | none => .ok s
      | some e =>
          if e ≤ s.now ∧ s.batch = [] then .ok (runHrtimerSoftirq { s with event := none }) else .ok s
  | .dispatch => s.dispatch
  | .finish p => .ok (callbackReturn s p)
  | .drain t => .ok (drainStart s t)
  | .poll t => drainTurn s t

/-- A run. -/
def timerSteps (s : Timers) (steps : List TimerStep) : Except Fault Timers :=
  steps.foldlM timerStep s

/-- After `init_hrtimer`: the 64 nodes of `timerbuf` are free. -/
def freshTimers : Timers where
  cbs p := { pnext := if p + 1 < 64 then some (p + 1) else none, handle := .null, thread := 0
             deadline := 0, count := 0, param := 0 }
  pfree := some 0
  ptimer := none
  polls _ := none
  drains _ := none
  batch := []
  calling := []
  now := 0
  uptime := 0
  event := none
  nodes := 64
  accepted := []
  log := []

/-! ## Interrupted calls -/

/-- The timers, with the calls that an interrupt has found between two accesses to `pfree`. -/
structure Interrupted where
  timers : Timers
  /-- What a call of `set_timeout_nsec_cb` or `set_timeout_nsec_poll` has read from `pfree`. -/
  reading : Nat → Option (Option Nat)
  /-- The nodes that `free_poll` has linked to what was free then. -/
  linked : List Nat

/-- The steps of a CPU that is interrupted, in which a call of `set_timeout_nsec` comes in two parts. -/
inductive TimerPart
  /-- A step without an interrupt. -/
  | whole (c : TimerStep)
  /-- `p = ptime->pfree;` in the call `k`. -/
  | read (k : Nat)
  /-- The rest of the call `k`. Behind `ptime->pfree = p->pnext;` the node is its own, and `add_timer`
      disables interrupts. -/
  | resume (k nsec thread : Nat) (mem : Bool)
  /-- A callback returns, and `free_poll` gets as far as `p->pnext = ptime->pfree;`. -/
  | link (p : Nat)
  /-- `ptime->pfree = p;`. -/
  | push (p : Nat)

/-- A node that is linked is not freed a second time. -/
def timerPart (st : Interrupted) : TimerPart → Except Fault Interrupted
  | .whole c =>
      if ∃ p ∈ st.linked, c = .finish p then .ok st
      else do
        let s ← timerStep st.timers c
        .ok { st with timers := s }
  | .read k =>
      .ok (if st.reading k = none then
        { st with reading := Function.update st.reading k (some st.timers.pfree) } else st)
  | .resume k nsec thread mem =>
      match st.reading k with
      | none => .ok st
      | some read => do
          let s ← st.timers.request read nsec thread mem
          .ok { st with timers := s, reading := Function.update st.reading k none }
  | .link p =>
      .ok (if p ∈ st.timers.calling ∧ p ∉ st.linked then
        { st with timers := linkFree st.timers p, linked := p :: st.linked } else st)
  | .push p =>
      .ok (if p ∈ st.linked then
        { st with
          timers := pushFree { st.timers with calling := st.timers.calling.erase p } p
          linked := st.linked.erase p }
      else st)

end Yaos
