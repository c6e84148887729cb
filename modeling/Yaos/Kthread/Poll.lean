import Mathlib.Data.Finset.Card
import Yaos.Fault
import Yaos.Lib.Chain

set_option autoImplicit false

/-! # Deferred polls (`kernel/kthread.c`)

Each thread has a list of `poll_cb` nodes for every level, linked through the `pnext` field of the
nodes. `thread_add_poll` puts a node in front of a list of its thread, and `can_main_run` takes all
lists of a thread and calls the handle of every node it comes to.

A handle is seen here by its call: the node and what its `data` was. The test that a node is not in
the read-only section and the mark in `poll_pending` have no part in this. -/

namespace Yaos

open Chains

/-- `NR_POLL_LVL`. -/
def nrPollLvl : Nat := 7

/-- `POLL_LVL_LUA`. -/
def pollLvlLua : Nat := 6

/-- `poll_cb`. -/
structure PollCb where
  pnext : Option Nat
  thread : Nat
  data : Nat

/-- The nodes, and `polls[lvl]` of every thread. -/
structure PollLists where
  cbs : Nat → PollCb
  polls : Nat → Nat → Option Nat

/-- The node behind `p`. -/
def PollLists.pnext (s : PollLists) (p : Nat) : Option Nat := (s.cbs p).pnext

/-- `p->pnext = link;`. -/
def PollLists.setNext (s : PollLists) (p : Nat) (link : Option Nat) : PollLists :=
  { s with cbs := Function.update s.cbs p { s.cbs p with pnext := link } }

/-- `pcb->pnext = polls[lvl]; polls[lvl] = pcb;`. -/
def PollLists.push (s : PollLists) (t p lvl : Nat) : PollLists :=
  { s.setNext p (s.polls t lvl) with
    polls := Function.update s.polls t (Function.update (s.polls t) lvl (some p)) }

/-- `thread_add_poll`. Only the head of the list is looked at. -/
def threadAddPoll (s : PollLists) (p lvl : Nat) : Except Fault PollLists := do
  assert "lvl<NR_POLL_LVL" (lvl < nrPollLvl)
  let t := (s.cbs p).thread
  if s.polls t lvl ≠ some p then .ok (s.push t p lvl) else .ok s

/-- Returns the calls of handles. The handles add no polls. -/
def doPollHead : Nat → PollLists → Option Nat → Except Fault (List (Nat × Nat) × PollLists)
  | _, s, none => .ok ([], s)
  | 0, _, some _ => .error .hang
  | fuel + 1, s, some phead => do
      let pnext := s.pnext phead
      let (calls, s') ← doPollHead fuel (s.setNext phead none) pnext
      .ok ((phead, (s.cbs phead).data) :: calls, s')

/-- The loop of `can_main_run` over the heads it has copied. -/
def doPollHeads (fuel : Nat) : PollLists → List (Option Nat) →
    Except Fault (List (Nat × Nat) × PollLists)
  | s, [] => .ok ([], s)
  | s, phead :: pheads => do
      let (calls, s) ← doPollHead fuel s phead
      let (more, s) ← doPollHeads fuel s pheads
      .ok (calls ++ more, s)

/-- `memcpy(pheads, p->polls); memset(p->polls, 0);`, then all levels in turn. -/
def canMainRun (fuel : Nat) (s : PollLists) (t : Nat) :
    Except Fault (List (Nat × Nat) × PollLists) :=
  doPollHeads fuel { s with polls := Function.update s.polls t fun _ => none }
    ((List.range nrPollLvl).map (s.polls t))

end Yaos
