import Yaos.Kthread
import Yaos.Virtio

set_option autoImplicit false

/-! # Reading a block (`module/blk/virtio_blk.c`)

`virtio_blk_read` puts a request into the queue and suspends its thread, and the callback of the queue
wakes the thread that the request names. There is one request record for all callers, `rq`, and what
`virtio_to_queue` returns is not looked at.

A completed request is drained by the interrupt handler, on top of whatever thread runs. It may come at any
moment, also between the two calls of `virtio_blk_read`, and the thread it wakes runs at once, before the
rest of the queue is drained. So the steps of a run are the two halves of `virtio_blk_read`, one round of
the loop in `virtio_read_queue`, the steps of the host, and the calls that other code makes. -/

namespace Yaos

/-- The call is `wake_up_thread`. -/
def ThreadCall.isWakeUp : ThreadCall → Bool
  | .wakeUp _ => true
  | _ => false

/-- `VIRTIO_BLK_T_IN`. -/
def virtioBlkTIn : Nat := 0

/-- `struct blk_req`, with its `hdr`. The host alone writes `status`. -/
structure BlkReq where
  type : Nat
  ioprio : Nat
  sector : Nat
  thread : Nat
deriving DecidableEq, Repr

/-- Where `rq` and `buf` are: the physical addresses, and the pointer that goes with the request. -/
structure BlkStatics where
  hdr : Nat
  buf : Nat
  status : Nat
  rq : Nat
  rq_ne : rq ≠ 0

/-- How far a thread is in `virtio_blk_read`. -/
inductive BlkPlace
  | outside
  /-- `virtio_to_queue` has returned, `suspend_thread` is not called yet. The request is the one with this
      number, counted from the first one of the queue; there is none if the queue had no room. -/
  | submitted (r : Option Nat)
  | asleep (r : Option Nat)
deriving DecidableEq, Repr

/-- The device, the static request, the threads and where each of them is in the driver. -/
structure BlkState where
  dev : VirtioDev
  rq : BlkReq
  cpu : Cpu
  place : Nat → BlkPlace

/-- The queue of the device, which has number 0. -/
def BlkState.queue (st : BlkState) : VirtioQueue := st.dev.queues 0

/-- A thread has come to another place. -/
def BlkState.setPlace (st : BlkState) (t : Nat) (p : BlkPlace) : BlkState :=
  { st with place := Function.update st.place t p }

/-- A thread that is no longer suspended, or runs, has come back from `suspend_thread`. -/
def BlkState.settle (st : BlkState) : BlkState :=
  { st with
    place := fun t => match st.place t with
      | .asleep r => if (st.cpu.threads t).suspend ∧ t ≠ st.cpu.current then .asleep r else .outside
      | p => p }

/-- `phys[3]`. -/
def BlkStatics.phys (a : BlkStatics) : List AddrSize :=
  [{ vpAddr := a.hdr, vpSize := 16, vpFlags := 0 }, { vpAddr := a.buf, vpSize := 512, vpFlags := 2 },
    { vpAddr := a.status, vpSize := 1, vpFlags := 2 }]

section Steps

variable (a : BlkStatics) (fuel : Nat)

/-- `virtio_blk_read` up to the return of `virtio_to_queue`. Should that find completed requests, then the
    callback is called for the thread that runs, and `wake_up_thread` leaves that one alone. -/
def BlkState.submit (st : BlkState) (sector : Nat) (steps : List (List HostStep)) :
    Except Fault BlkState := do
  let cur := st.cpu.current
  let rq := { type := virtioBlkTIn, ioprio := 0, sector := sector, thread := cur }
  let (ret, dev) ← st.dev.toQueue 0 a.phys a.rq steps
  let r := if ret = 0 then some st.queue.submitted.length else none
  .ok ({ st with dev := dev, rq := rq }.setPlace cur (.submitted r))

/-- The rest of `virtio_blk_read`, for the request `r`. -/
def BlkState.suspend (st : BlkState) (r : Option Nat) : Except Fault BlkState := do
  let cpu ← suspendThread fuel st.cpu
  .ok ({ st with cpu := cpu }.setPlace st.cpu.current (.asleep r)).settle

/-- `blk_queue_callback`. -/
def BlkState.callback (st : BlkState) (x : Nat × Nat) : Except Fault BlkState := do
  let cpu ← wakeUpThread fuel st.cpu st.rq.thread
  .ok { st with dev := st.dev.callback 0 x, cpu := cpu }.settle

/-- One round of the loop in `virtio_read_queue`. -/
def BlkState.drain (st : BlkState) : Except Fault BlkState := do
  let (found, dev) ← virtioFromQueue st.dev 0
  match found with
  | none => .ok { st with dev := dev }
  | some x => BlkState.callback fuel { st with dev := dev } x

/-- The steps of the threads, the drain and the host. -/
inductive BlkStep
  /-- The running thread calls `virtio_blk_read`; `steps` is what the host does meanwhile. -/
  | submit (sector : Nat) (steps : List (List HostStep))
  /-- The running thread goes on to `suspend_thread`. -/
  | suspend
  | drain
  | host (step : HostStep)
  /-- A call by other code: by a thread that is not in `virtio_blk_read`, or by an interrupt handler, which
      only wakes threads. -/
  | other (c : ThreadCall)

/-- A thread in state `THREAD_INIT` does not run. -/
def BlkState.step (st : BlkState) : BlkStep → Except Fault BlkState
  | .submit sector steps =>
      if st.place st.cpu.current = .outside ∧ (st.cpu.threads st.cpu.current).state ≠ .init then
        st.submit a sector steps
      else .ok st
  | .suspend =>
      match st.place st.cpu.current with
      | .submitted r => st.suspend fuel r
      | _ => .ok st
  | .drain => st.drain fuel
  | .host step => .ok { st with dev := st.dev.host 0 [step] }
  | .other c =>
      if st.place st.cpu.current = .outside ∨ c.isWakeUp then do
        let cpu ← threadCall fuel st.cpu c
        .ok { st with cpu := cpu }.settle
      else .ok st

end Steps

end Yaos
