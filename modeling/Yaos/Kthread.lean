import Mathlib.Logic.Function.Basic
import Yaos.Fault

set_option autoImplicit false

/-! # Threads and the switches between them (`kernel/kthread.c`)

The threads of a CPU hand it on by calls: `resume_thread` and `wake_up_thread` switch to the thread
they are given and become its parent, `yield_thread`, `suspend_thread` and `exit_thread` switch to a
parent. Each call does its bookkeeping first and then changes stacks, by `switch_first` onto the empty
stack of a thread that never ran and by `switch_to` onto a saved one.

A saved stack pointer is seen here by the thread that owns the stack it points into. -/

namespace Yaos

/-- The state in the flags of a thread. -/
inductive ThreadState
  | init
  | ready
  | run
  | done
deriving DecidableEq, Repr

/-- A `thread_struct`, as far as the switches read it. -/
structure Thread where
  state : ThreadState
  /-- `flag & THREAD_SUSPEND`. -/
  suspend : Bool
  parent : Option Nat
  /-- The thread on whose stack `rsp` points, or nothing for 0. -/
  rsp : Option Nat
  /-- `stack_addr + stack_size - 16` is not 0 and below the end of memory or mapped. -/
  mapped : Bool
  /-- The stack lies above `KERNEL_STACK_ZONE_START`. -/
  inZone : Bool
deriving DecidableEq, Repr

/-- The threads of a CPU, its `current`, and the thread on whose stack it really runs. -/
structure Cpu where
  threads : Nat → Thread
  current : Nat
  stack : Nat

/-- A thread is changed. -/
def Cpu.set (s : Cpu) (p : Nat) (th : Thread) : Cpu :=
  { s with threads := Function.update s.threads p th }

/-- The state of a thread is set. -/
def Cpu.setState (s : Cpu) (p : Nat) (st : ThreadState) : Cpu :=
  s.set p { s.threads p with state := st }

/-- `THREAD_SUSPEND` is set or cleared. -/
def Cpu.setSuspend (s : Cpu) (p : Nat) (b : Bool) : Cpu :=
  s.set p { s.threads p with suspend := b }

/-- The parent of a thread is set. -/
def Cpu.setParent (s : Cpu) (p q : Nat) : Cpu :=
  s.set p { s.threads p with parent := some q }

/-- `set_current(p);`. -/
def Cpu.setCurrent (s : Cpu) (p : Nat) : Cpu := { s with current := p }

/-- Both entries push the registers and do `mov %rsp,(old)`, then take the new stack. -/
def Cpu.switchStack (s : Cpu) (old owner : Nat) : Cpu :=
  { s.set old { s.threads old with rsp := some s.stack } with stack := owner }

/-! What each of these leaves alone. -/

section Fields

variable (s : Cpu) (p q t : Nat) (st : ThreadState) (b : Bool)

theorem Cpu.set_proj {α : Type} (f : Thread → α) {s : Cpu} {p : Nat} {th : Thread}
    (h : f th = f (s.threads p)) (t : Nat) : f ((s.set p th).threads t) = f (s.threads t) := by
  by_cases ht : t = p
  · rw [ht, ← h]
    exact congrArg f (Function.update_self ..)
  · exact congrArg f (Function.update_of_ne ht ..)

@[simp] theorem setState_suspend : ((s.setState p st).threads t).suspend = (s.threads t).suspend :=
  Cpu.set_proj Thread.suspend (by rfl) t

@[simp] theorem setState_parent : ((s.setState p st).threads t).parent = (s.threads t).parent :=
  Cpu.set_proj Thread.parent (by rfl) t

@[simp] theorem setState_rsp : ((s.setState p st).threads t).rsp = (s.threads t).rsp :=
  Cpu.set_proj Thread.rsp (by rfl) t

@[simp] theorem setSuspend_state : ((s.setSuspend p b).threads t).state = (s.threads t).state :=
  Cpu.set_proj Thread.state (by rfl) t

@[simp] theorem setSuspend_parent : ((s.setSuspend p b).threads t).parent = (s.threads t).parent :=
  Cpu.set_proj Thread.parent (by rfl) t

@[simp] theorem setSuspend_rsp : ((s.setSuspend p b).threads t).rsp = (s.threads t).rsp :=
  Cpu.set_proj Thread.rsp (by rfl) t

@[simp] theorem setParent_state : ((s.setParent p q).threads t).state = (s.threads t).state :=
  Cpu.set_proj Thread.state (by rfl) t

@[simp] theorem setParent_suspend : ((s.setParent p q).threads t).suspend = (s.threads t).suspend :=
  Cpu.set_proj Thread.suspend (by rfl) t

@[simp] theorem setParent_rsp : ((s.setParent p q).threads t).rsp = (s.threads t).rsp :=
  Cpu.set_proj Thread.rsp (by rfl) t

@[simp] theorem switchStack_state : ((s.switchStack p q).threads t).state = (s.threads t).state :=
  Cpu.set_proj Thread.state (by rfl) t

@[simp] theorem switchStack_suspend :
    ((s.switchStack p q).threads t).suspend = (s.threads t).suspend :=
  Cpu.set_proj Thread.suspend (by rfl) t

@[simp] theorem switchStack_parent :
    ((s.switchStack p q).threads t).parent = (s.threads t).parent :=
  Cpu.set_proj Thread.parent (by rfl) t

end Fields

/-- `thread_switch_first`. -/
def threadSwitchFirst (s : Cpu) (p old : Nat) : Except Fault Cpu := do
  assert "stack_point < __max_phy_mem_addr || get_pte_with_addr(stack_point)" ((s.threads p).mapped)
  .ok (s.switchStack old p)

/-- `thread_switch_to`. -/
def threadSwitchTo (s : Cpu) (p old : Nat) : Except Fault Cpu :=
  match (s.threads p).rsp with
  | none => .error (.assertion "p->rsp")
  | some owner => do
      assert "p->rsp > KERNEL_STACK_ZONE_START" ((s.threads owner).inZone)
      .ok (s.switchStack old owner)

/-- The end of every call: a thread that never ran is started, another one goes on. `mark` is the
    `p->state = THREAD_RUN;` that some calls have in the second branch too. -/
def switchThread (s : Cpu) (p old : Nat) (mark : Bool) : Except Fault Cpu :=
  if (s.threads p).state = .ready then threadSwitchFirst (s.setState p .run) p old
  else threadSwitchTo (if mark then s.setState p .run else s) p old

/-- `exit_thread`. It does not set the current thread. -/
def exitThread (s : Cpu) : Except Fault Cpu :=
  let pold := s.current
  match (s.threads pold).parent with
  | none => .error (.panic "no parent thread running\n")
  | some p => switchThread (s.setState pold .done) p pold true

/-- The check under `DEBUG`: goes up from `pold` to the end and looks for `p`. -/
def ancestorFound (s : Cpu) (p : Nat) : Nat → Option Nat → Bool → Except Fault Bool
  | _, none, found => .ok found
  | 0, some _, _ => .error .hang
  | fuel + 1, some pold, found =>
      let up := (s.threads pold).parent
      ancestorFound s p fuel up (found || up = some p)

/-- `wake_up_thread`. -/
def wakeUpThread (fuel : Nat) (s : Cpu) (p : Nat) : Except Fault Cpu :=
  let pold := s.current
  if p = pold then .ok s
  else if (s.threads p).state = .init then .ok s
  else if (s.threads p).suspend = false then do
    let found ← ancestorFound s p fuel (some pold) false
    assert "!found" (found = false)
    .ok s
  else switchThread (((s.setSuspend p false).setCurrent p).setParent p pold) p pold false

/-- `while (p && (p->flag & THREAD_SUSPEND)) p = p->parent;`. -/
def firstAwake (s : Cpu) : Nat → Option Nat → Except Fault (Option Nat)
  | _, none => .ok none
  | 0, some _ => .error .hang
  | fuel + 1, some p =>
      if (s.threads p).suspend then firstAwake s fuel (s.threads p).parent else .ok (some p)

/-- `suspend_thread`. -/
def suspendThread (fuel : Nat) (s : Cpu) : Except Fault Cpu := do
  let pold := s.current
  assert "p != pold" ((s.threads pold).parent ≠ some pold)
  match ← firstAwake s fuel (s.threads pold).parent with
  | none => .error (.panic "no parent thread running\n")
  | some p => do
      assert "!(pold->flag & THREAD_SUSPEND)" ((s.threads pold).suspend = false)
      switchThread ((s.setSuspend pold true).setCurrent p) p pold true

/-- A thread that is done is left alone, and the call returns -1. -/
def resumeThread (s : Cpu) (p : Nat) : Except Fault Cpu :=
  if (s.threads p).state = .done then .ok s
  else do
    let pold := s.current
    let s := s.setParent p pold
    assert "pold != p" (pold ≠ p)
    switchThread (s.setCurrent p) p pold false

/-- `yield_thread`. -/
def yieldThread (s : Cpu) : Except Fault Cpu := do
  let pold := s.current
  assert "p != pold" ((s.threads pold).parent ≠ some pold)
  match (s.threads pold).parent with
  | none => .error (.panic "no parent thread running\n")
  | some p => switchThread (s.setCurrent p) p pold true

/-! ## The set-up of a CPU -/

/-- Of a thread without a stack. `avail` says that `alloc_vm_stack` finds one. -/
def createThreadOncpu (s : Cpu) (p : Nat) (avail : Bool) : Nat × Cpu :=
  if avail then
    (0, s.set p { s.threads p with state := .ready, rsp := some p, mapped := true, inZone := true })
  else (12, s)

/-- The idle thread of a CPU is made. -/
def initIdleThread (s : Cpu) (idle : Nat) (avail : Bool) : Nat × Cpu :=
  createThreadOncpu
    (s.set idle
      { state := .init, suspend := false, parent := none, rsp := none, mapped := false
        inZone := false })
    idle avail

/-- The set-up itself runs on what becomes the stack of `kmain`. -/
def initKmainThread (s : Cpu) (idle kmain : Nat) (avail : Bool) : Except Fault (Nat × Cpu) :=
  let s := s.set kmain { s.threads kmain with suspend := false, parent := some idle }
  let (ret, s) := createThreadOncpu s kmain avail
  if ret ≠ 0 then .ok (ret, s)
  else do
    let s := { (s.setCurrent kmain).setState kmain ThreadState.run with stack := kmain }
    let s ← resumeThread s idle
    .ok (0, s)

/-- `init_thread_call`, with what `init_kmain_thread` returned. -/
def initThreadCall (s : Cpu) (idle kmain : Nat) (avail : Nat → Bool) : Except Fault (Nat × Cpu) :=
  initKmainThread (initIdleThread s idle (avail idle)).2 idle kmain (avail kmain)

/-! ## Runs -/

/-- What the running thread may call. -/
inductive ThreadCall
  | resume (p : Nat)
  | yield
  | suspend
  | wakeUp (p : Nat)
  | exit
deriving DecidableEq, Repr

/-- One call. -/
def threadCall (fuel : Nat) (s : Cpu) : ThreadCall → Except Fault Cpu
  | .resume p => resumeThread s p
  | .yield => yieldThread s
  | .suspend => suspendThread fuel s
  | .wakeUp p => wakeUpThread fuel s p
  | .exit => exitThread s

/-- Each call is made by the thread that runs after the calls before it. -/
def threadCalls (fuel : Nat) (s : Cpu) (cs : List ThreadCall) : Except Fault Cpu :=
  cs.foldlM (threadCall fuel) s

end Yaos
