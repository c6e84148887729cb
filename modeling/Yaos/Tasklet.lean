import Mathlib.Data.Int.Order.Basic
import Yaos.Fault
import Yaos.Lib.Chain
import Yaos.Lib.Run

set_option autoImplicit false

/-! # Tasklets (`kernel/tasklet.c`)

A CPU has two lists of scheduled tasklets, each with a pointer to its last link so that a tasklet can
be put at the end. A softirq takes a whole list at once and goes through it: it calls the function of
each tasklet that is enabled and puts the others back at the end of the list.

The steps of this model are those between which an interrupt or the function of a tasklet may schedule
more. `true` stands for the list of high priority. -/

namespace Yaos

/-- `sched` and `run` are the bits `TASKLET_STATE_SCHED` and `TASKLET_STATE_RUN`. -/
structure Tasklet where
  next : Option Nat
  sched : Bool
  run : Bool
  count : Int

/-- The pointer `tail` is the `next` field of a tasklet, or nothing for `&head`. -/
structure TaskletHead where
  head : Option Nat
  tail : Option Nat

/-- The tasklets of a CPU and its two lists. -/
structure Tasklets where
  tasklets : Nat → Tasklet
  vecs : Bool → TaskletHead
  /-- The action at work and its local `list`. -/
  list : Option (Bool × Option Nat)
  /-- The tasklet whose function has been called and has not returned. -/
  running : Option Nat
  /-- On which list a tasklet was scheduled last. -/
  kind : Nat → Bool
  /-- All schedulings that were not turned away, and all calls of functions. -/
  scheduled : List Nat
  calls : List Nat

/-- The tasklet behind `t`. -/
def Tasklets.next (s : Tasklets) (t : Nat) : Option Nat := (s.tasklets t).next

/-- A tasklet is changed. -/
def Tasklets.set (s : Tasklets) (t : Nat) (v : Tasklet) : Tasklets :=
  { s with tasklets := Function.update s.tasklets t v }

/-- The link of a tasklet is written. -/
def Tasklets.setNext (s : Tasklets) (t : Nat) (link : Option Nat) : Tasklets :=
  s.set t { s.tasklets t with next := link }

/-- One of the two lists is changed. -/
def Tasklets.setVec (s : Tasklets) (hi : Bool) (v : TaskletHead) : Tasklets :=
  { s with vecs := Function.update s.vecs hi v }

/-- `t->next = NULL; *tail = t; tail = &t->next;`. -/
def Tasklets.append (s : Tasklets) (hi : Bool) (t : Nat) : Tasklets :=
  let s := s.setNext t none
  match (s.vecs hi).tail with
  | none => s.setVec hi { head := some t, tail := some t }
  | some u => (s.setNext u (some t)).setVec hi { head := (s.vecs hi).head, tail := some t }

/-- `test_and_set_bit(TASKLET_STATE_SCHED)` on a tasklet that was not scheduled. -/
def Tasklets.mark (s : Tasklets) (hi : Bool) (t : Nat) : Tasklets :=
  { s.set t { s.tasklets t with sched := true } with
    kind := Function.update s.kind t hi
    scheduled := s.scheduled ++ [t] }

/-- `tasklet_schedule` and `tasklet_hi_schedule`. -/
def taskletSchedule (s : Tasklets) (hi : Bool) (t : Nat) : Tasklets :=
  if (s.tasklets t).sched then s else (s.mark hi t).append hi t

/-- `t->next = head; head = t;`, which leaves the tail as it is. -/
def Tasklets.pushFirst (s : Tasklets) (t : Nat) : Tasklets :=
  (s.setNext t (s.vecs true).head).setVec true { head := some t, tail := (s.vecs true).tail }

/-- `__tasklet_hi_schedule_first`. It leaves `tail` as it is. -/
def taskletHiScheduleFirst (s : Tasklets) (t : Nat) : Tasklets :=
  if (s.tasklets t).sched then s else (s.mark true t).pushFirst t

/-- The start of `tasklet_action` and `tasklet_hi_action`. A softirq that comes while another one is at
    work returns at once. -/
def taskletAction (s : Tasklets) (hi : Bool) : Tasklets :=
  match s.list with
  | some _ => s
  | none =>
      { s.setVec hi { head := none, tail := none } with list := some (hi, (s.vecs hi).head) }

/-- One turn of the loop, up to the call of the function. -/
def taskletTurn (s : Tasklets) : Except Fault Tasklets :=
  match s.running, s.list with
  | none, some (_, none) => .ok { s with list := none }
  | none, some (hi, some t) =>
      let s := { s with list := some (hi, s.next t) }
      if (s.tasklets t).run = false ∧ (s.tasklets t).count = (0 : Int) then
        if (s.tasklets t).sched then
          .ok { s.set t { s.tasklets t with sched := false, run := true } with
                running := some t
                calls := s.calls ++ [t] }
        else .error (.panic "BUG")
      -- locked or disabled: back to the tail of the list it came from, `sched` as it is
      else .ok (s.append hi t)
  | _, _ => .ok s

/-- The function returns, and `tasklet_unlock`. -/
def taskletReturn (s : Tasklets) : Tasklets :=
  match s.running with
  | none => s
  | some t => { s.set t { s.tasklets t with run := false } with running := none }

/-- The steps of a CPU. -/
inductive TaskletStep
  | schedule (hi : Bool) (t : Nat)
  | scheduleFirst (t : Nat)
  /-- `tasklet_disable_nosync` and `tasklet_enable`. -/
  | disable (t : Nat)
  | enable (t : Nat)
  | action (hi : Bool)
  | turn
  | leave

/-- The disable count is changed. -/
def Tasklets.addCount (s : Tasklets) (t : Nat) (d : Int) : Tasklets :=
  s.set t { s.tasklets t with count := (s.tasklets t).count + d }

/-- One step. -/
def taskletStep (s : Tasklets) : TaskletStep → Except Fault Tasklets
  | .schedule hi t => .ok (taskletSchedule s hi t)
  | .scheduleFirst t => .ok (taskletHiScheduleFirst s t)
  | .disable t => .ok (s.addCount t 1)
  | .enable t => .ok (s.addCount t (-1))
  | .action hi => .ok (taskletAction s hi)
  | .turn => taskletTurn s
  | .leave => .ok (taskletReturn s)

/-- A run. -/
def taskletSteps (s : Tasklets) (steps : List TaskletStep) : Except Fault Tasklets :=
  steps.foldlM taskletStep s

end Yaos
