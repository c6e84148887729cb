import Mathlib.Algebra.Group.Nat.Defs
import Mathlib.Logic.Function.Basic
import Yaos.Fault

set_option autoImplicit false

/-! # Virtqueues (`libs/libvirtio/virtio.c`)

A virtqueue is a table of `num` descriptors in memory shared with the host. The driver keeps the
descriptors it does not use on a list linked through their `next` fields, from `free_head` to
`free_tail`. `virtio_to_queue` cuts the descriptors of a request off the head of that list, or takes
one descriptor that refers to an indirect table; `virtio_from_queue` puts the chain of a completed
request back behind the tail.

The host is the other party. It reads the heads of requests from the `avail` ring, in the order of
the ring, and reports each of them through the `used` ring, at a time and in an order of its own.
The last fields of a queue are not the driver's: how far the host is with every request, and a record
of what was submitted, reported, collected and handed to the callback.

Messages, memory barriers and the notification of the host change nothing here. -/

namespace Yaos

/-- `VRING_DESC_F_NEXT`: the chain goes on at `next`. -/
def vringDescFNext : BitVec 16 := 1

/-- `VRING_DESC_F_WRITE`: the device writes to the buffer. -/
def vringDescFWrite : BitVec 16 := 2

/-- `VRING_DESC_F_INDIRECT`: the buffer is a table of descriptors. -/
def vringDescFIndirect : BitVec 16 := 4

/-- What a call returns that is to be made again. -/
def EAGAIN : Nat := 11

/-- `MAPVEC_NR`, from which the size of the indirect descriptor tables is computed. -/
def mapvecNr : Nat := 64

/-- `vring_desc`. -/
structure VringDesc where
  addr : Nat
  len : Nat
  flags : BitVec 16
  next : Nat
deriving DecidableEq

/-- `vd->flags & VRING_DESC_F_NEXT`. -/
def VringDesc.hasNext (vd : VringDesc) : Bool := vd.flags &&& vringDescFNext != 0

/-- `vd->flags & VRING_DESC_F_INDIRECT`. -/
def VringDesc.isIndirect (vd : VringDesc) : Bool := vd.flags &&& vringDescFIndirect != 0

/-- `vring_used_elem`: a request that is done, and how much was written. -/
structure VringUsedElem where
  id : Nat
  len : Nat

/-- `addr_size`: a buffer that a driver submits. -/
structure AddrSize where
  vpAddr : Nat
  vpSize : Nat
  vpFlags : BitVec 32
deriving DecidableEq

/-- `struct indirect_desc_table`; its `len` is never read. -/
structure IndirectDescTable where
  inUse : Bool
  descs : Nat → VringDesc
  paddr : Nat

/-- A request as the caller of `virtio_to_queue` made it, with the head it was published under. -/
structure Submission where
  head : Nat
  bufs : List AddrSize
  data : Nat
deriving DecidableEq

/-- `struct virtio_queue`, with the rings in shared memory and what the host knows. -/
structure VirtioQueue where
  num : Nat
  desc : Nat → VringDesc
  availFlags : Nat
  availIdx : Nat
  availRing : Nat → Nat
  usedIdx : Nat
  usedRing : Nat → VringUsedElem
  freeNum : Nat
  freeHead : Nat
  freeTail : Nat
  lastUsed : Nat
  lastUsedIdx : Nat
  usedEvent : Nat
  /-- What the caller gave with each request; 0 is `NULL`. -/
  data : Nat → Nat
  /-- The index of the slot of the `avail` ring that the host reads next. -/
  hostIdx : Nat
  /-- The requests whose slot the host has not read, oldest first. -/
  waiting : List Submission
  /-- The requests the host has read and not completed. -/
  held : List Submission
  /-- The requests the host has completed and the driver has not collected, oldest first, with the
      length reported. -/
  done : List (Submission × Nat)
  /-- Every request so far, oldest first. -/
  submitted : List Submission
  /-- Every completed request, in the order of completion, with the length reported. -/
  reported : List (Submission × Nat)
  /-- What `virtio_from_queue` has returned so far, oldest first. -/
  collected : List (Nat × Nat)
  /-- The calls of `callback` so far, oldest first. -/
  handed : List (Nat × Nat)

/-- `virtio_dev`. -/
structure VirtioDev where
  queues : Nat → VirtioQueue
  numQueues : Nat
  threads : Int
  indirect : List IndirectDescTable

/-- The device with the record of one queue replaced. -/
def VirtioDev.setQueue (dev : VirtioDev) (qidx : Nat) (q : VirtioQueue) : VirtioDev :=
  { dev with queues := Function.update dev.queues qidx q }

/-! ## Setting up -/

/-- A queue of `num` descriptors after its memory has been cleared. -/
def initPhysQueue (num : Nat) : VirtioQueue where
  num := num
  desc i := { addr := 0, len := 0, flags := vringDescFNext, next := (i + 1) &&& (num - 1) }
  availFlags := 0
  availIdx := 0
  availRing _ := 0
  usedIdx := 0
  usedRing _ := { id := 0, len := 0 }
  freeNum := num
  freeHead := 0
  freeTail := num - 1
  lastUsed := 0
  lastUsedIdx := 0
  usedEvent := 0
  data _ := 0
  hostIdx := 0
  waiting := []
  held := []
  done := []
  submitted := []
  reported := []
  collected := []
  handed := []

/-- The table whose `descs` the heap placed at the physical address `paddr`. -/
def initIndirectDescTable (paddr : Nat) : IndirectDescTable where
  inUse := false
  descs _ := { addr := 0, len := 0, flags := 0, next := 0 }
  paddr := paddr

/-- One queue for each size in `nums`, and one indirect table for each page in `paddrs`. The field
    `threads` is not set here. -/
def virtioSetupDevice (nums paddrs : List Nat) (threads : Int) : VirtioDev where
  queues qidx := initPhysQueue (nums.getD qidx 0)
  numQueues := nums.length
  threads := threads
  indirect := paddrs.map initIndirectDescTable

/-! ## Submitting a request -/

/-- `use_vring_desc`. -/
def useVringDesc (vd : VringDesc) (vp : AddrSize) : VringDesc :=
  { vd with
    addr := vp.vpAddr
    len := vp.vpSize
    flags := if vp.vpFlags &&& 2 ≠ 0 then vringDescFNext ||| vringDescFWrite else vringDescFNext }

/-- `vd->flags & ~VRING_DESC_F_NEXT`. -/
def VringDesc.unsetNext (vd : VringDesc) : VringDesc :=
  { vd with flags := vd.flags &&& ~~~vringDescFNext }

/-- The descriptors of an indirect table, filled from left to right. -/
def fillIndirect (descs : Nat → VringDesc) (bufs : List AddrSize) (i : Nat) : VringDesc :=
  match bufs[i]? with
  | none => descs i
  | some vp =>
      let ivd := { useVringDesc (descs i) vp with next := i + 1 }
      if i + 1 = bufs.length then ivd.unsetNext else ivd

/-- `set_indirect_descriptors`. -/
def setIndirectDescriptors (indirect : List IndirectDescTable) (q : VirtioQueue)
    (bufs : List AddrSize) : Except Fault (List IndirectDescTable × VirtioQueue) := do
  match indirect.findIdx? (!·.inUse) with
  | none => do
      assert "desc" (indirect ≠ [])
      .error (.panic "No indirect descriptor tables left")
  | some k => do
      assert "ivd" (bufs ≠ [])
      let vd := q.desc q.freeHead
      let indirect' := indirect.modify k fun t =>
        { t with inUse := true, descs := fillIndirect t.descs bufs }
      let paddr := (indirect[k]?.map (·.paddr)).getD 0
      .ok (indirect', { q with
        -- the flags are overwritten: in the ring the chain is this one descriptor
        desc := Function.update q.desc q.freeHead
          { vd with flags := vringDescFIndirect, addr := paddr, len := bufs.length * 16 % 2 ^ 32 }
        freeNum := q.freeNum - 1
        freeHead := vd.next })

/-- The loop of `set_direct_descriptors`: it stands at the descriptor `i`, and `vd` is the last one
    used. -/
def directLoop : List AddrSize → (Nat → VringDesc) → Nat → Option Nat →
    Except Fault ((Nat → VringDesc) × Nat × Option Nat)
  | [], desc, i, vd => .ok (desc, i, vd)
  | vp :: bufs, desc, i, _ => do
      assert "vd->flags & VRING_DESC_F_NEXT" ((desc i).hasNext = true)
      directLoop bufs (Function.update desc i (useVringDesc (desc i) vp)) (desc i).next (some i)

/-- `set_direct_descriptors`. -/
def setDirectDescriptors (q : VirtioQueue) (bufs : List AddrSize) : Except Fault VirtioQueue := do
  assert "num" (bufs ≠ [])
  let (desc, i, vd) ← directLoop bufs q.desc q.freeHead none
  match vd with
  | none => .error (.assertion "vd")
  | some vd => .ok { q with
      desc := Function.update desc vd (desc vd).unsetNext
      freeNum := q.freeNum - bufs.length
      freeHead := i }

/-- `avail->ring[avail->idx % num] = free_first; data[free_first] = data; avail->idx += 1;`: from
    here on the host may read the slot. -/
def VirtioQueue.publish (q : VirtioQueue) (head data : Nat) : VirtioQueue :=
  { q with
    availRing := Function.update q.availRing (q.availIdx % q.num) head
    data := Function.update q.data head data
    availIdx := (q.availIdx + 1) % 2 ^ 16 }

/-- `virtio_to_queue` after it has looked for completed requests. -/
def enqueue (dev : VirtioDev) (qidx : Nat) (bufs : List AddrSize) (data : Nat) :
    Except Fault (Nat × VirtioDev) := do
  let q := dev.queues qidx
  -- `left` is an `int`: it is negative where the descriptors do not suffice
  let left : Int := q.freeNum - bufs.length
  if left ≤ 0 then .ok (EAGAIN, dev)
  -- with few descriptors left the buffers go into an indirect table, which takes one of them
  else if 1 < bufs.length ∧ left < dev.threads then do
    let (indirect, q') ← setIndirectDescriptors dev.indirect q bufs
    assert "0 <= qidx && qidx < dev->num_queues" (qidx < dev.numQueues)
    .ok (0, { dev with indirect := indirect }.setQueue qidx (q'.publish q.freeHead data))
  else do
    let q' ← setDirectDescriptors q bufs
    assert "0 <= qidx && qidx < dev->num_queues" (qidx < dev.numQueues)
    .ok (0, dev.setQueue qidx (q'.publish q.freeHead data))

/-! ## Collecting a completed request -/

/-- Returns the tables and the descriptor `vd` afterwards. -/
def clearIndirectTable (indirect : List IndirectDescTable) (vd : VringDesc) :
    Except Fault (List IndirectDescTable × VringDesc) := do
  assert "vd->len > 0" (0 < vd.len)
  assert "vd->flags & VRING_DESC_F_INDIRECT" (vd.isIndirect = true)
  match indirect.findIdx? (·.paddr == vd.addr) with
  | none => .error (.panic "Could not clear indirect descriptor table ")
  | some k => do
      assert "desc->in_use" ((indirect[k]?.map (·.inUse)).getD false = true)
      .ok (indirect.modify k fun t => { t with inUse := false },
        { vd with flags := vd.flags &&& ~~~vringDescFIndirect, len := 0 })

/-- `if (vd->flags & VRING_DESC_F_INDIRECT) clear_indirect_table(dev, vd);` for the descriptor
    `idx`. -/
def clearIndirect (indirect : List IndirectDescTable) (desc : Nat → VringDesc) (idx : Nat) :
    Except Fault (List IndirectDescTable × (Nat → VringDesc)) :=
  if (desc idx).isIndirect then do
    let (indirect, vd) ← clearIndirectTable indirect (desc idx)
    .ok (indirect, Function.update desc idx vd)
  else .ok (indirect, desc)

/-- `while (vd->flags & VRING_DESC_F_NEXT)`: returns the index of the last descriptor and the number
    of those before it. The loop changes neither links nor NEXT flags, so one that makes more steps
    than there are descriptors never ends. -/
def lastOfChain : Nat → List IndirectDescTable → (Nat → VringDesc) → Nat → Nat →
    Except Fault (List IndirectDescTable × (Nat → VringDesc) × Nat × Nat)
  | 0, _, _, _, _ => .error .hang
  | fuel + 1, indirect, desc, idx, count =>
      if (desc idx).hasNext then do
        let (indirect, desc) ← clearIndirect indirect desc idx
        lastOfChain fuel indirect desc (desc idx).next (count + 1)
      else .ok (indirect, desc, idx, count)

/-- The end of `virtio_from_queue`: the chain ends in `idx` and makes the free list `freeNum` long.
    Interrupts are enabled before `avail->flags` is tested, so `used_event` is always written. -/
def VirtioQueue.giveBack (q : VirtioQueue) (desc : Nat → VringDesc) (idx freeNum : Nat) :
    VirtioQueue :=
  let uel := q.usedRing q.lastUsed
  { q with
    desc := Function.update desc idx { desc idx with next := q.freeHead, flags := vringDescFNext }
    availFlags := 0
    freeNum := freeNum
    freeTail := idx
    lastUsed := (q.lastUsed + 1) % q.num
    lastUsedIdx := (q.lastUsedIdx + 1) % 2 ^ 32
    usedEvent := (q.lastUsedIdx + 1) % 2 ^ 16
    data := Function.update q.data uel.id 0
    done := q.done.tail
    collected := q.collected ++ [(q.data uel.id, uel.len)] }

/-- Returns the caller's data and the length the host has reported; `none` is -1. -/
def virtioFromQueue (dev : VirtioDev) (qidx : Nat) :
    Except Fault (Option (Nat × Nat) × VirtioDev) := do
  assert "0 <= qidx && qidx < dev->num_queues" (qidx < dev.numQueues)
  let q := dev.queues qidx
  if q.lastUsed = q.usedIdx % q.num then .ok (none, dev)
  else do
    let uel := q.usedRing q.lastUsed
    let first := uel.id % q.num
    assert "q->data[idx] != NULL" (q.data first ≠ 0)
    assert "vring->desc[q->free_tail].flags & VRING_DESC_F_NEXT"
      ((q.desc q.freeTail).hasNext = true)
    -- the tail is linked to the chain before its end is known
    let desc := Function.update q.desc q.freeTail { q.desc q.freeTail with next := first }
    let (indirect, desc, idx, count) ← lastOfChain q.num dev.indirect desc first 0
    let (indirect, desc) ← clearIndirect indirect desc idx
    assert "!(vd->flags & VRING_DESC_F_NEXT)" ((desc idx).hasNext = false)
    let freeNum := (q.freeNum + (count + 1)) % 2 ^ 16
    assert "q->free_num <= q->num" (freeNum ≤ q.num)
    .ok (some (q.data uel.id, uel.len),
      { dev with indirect := indirect }.setQueue qidx (q.giveBack desc idx freeNum))

/-! ## The host, and calls while it works -/

/-- What the host does with a queue. -/
inductive HostStep
  /-- Read the next slot of the `avail` ring. -/
  | fetch
  /-- Report the request with head `h` and the length `len`. -/
  | complete (h len : Nat)

/-- The host reads a slot only if the index of the driver is past it, and reports only what it
    holds. -/
def VirtioQueue.host (q : VirtioQueue) : HostStep → VirtioQueue
  | .fetch =>
      if q.hostIdx = q.availIdx then q
      else match q.waiting with
      | [] => q
      | sub :: rest => { q with
          hostIdx := (q.hostIdx + 1) % 2 ^ 16
          waiting := rest
          held := q.held ++ [sub] }
  | .complete h len =>
      match q.held.find? (·.head == h) with
      | none => q
      | some sub => { q with
          usedRing := Function.update q.usedRing (q.usedIdx % q.num) { id := h, len := len }
          usedIdx := (q.usedIdx + 1) % 2 ^ 16
          held := q.held.eraseP (·.head == h)
          done := q.done ++ [(sub, len)]
          reported := q.reported ++ [(sub, len)] }

/-- What the host does on the queue `qidx` between two looks of the driver at the rings. -/
def VirtioDev.host (dev : VirtioDev) (qidx : Nat) (steps : List HostStep) : VirtioDev :=
  dev.setQueue qidx (steps.foldl VirtioQueue.host (dev.queues qidx))

/-- `(*q->callback)(data, len);`. -/
def VirtioDev.callback (dev : VirtioDev) (qidx : Nat) (x : Nat × Nat) : VirtioDev :=
  let q := dev.queues qidx
  dev.setQueue qidx { q with handed := q.handed ++ [x] }

/-- `while (virtio_from_queue(…) == 0) (*q->callback)(data, len);`: `steps` lists what the host does
    before each look at the ring. -/
def readLoop (qidx : Nat) : Nat → List (List HostStep) → VirtioDev → Except Fault VirtioDev
  | 0, _, _ => .error .hang
  | fuel + 1, steps, dev => do
      let (found, dev) ← virtioFromQueue (dev.host qidx (steps.headD [])) qidx
      match found with
      | none => .ok dev
      | some x => readLoop qidx fuel steps.tail (dev.callback qidx x)

/-- Once the host has stopped reporting, `last_used` meets the index of the host after less than
    `num` further requests. -/
def virtioReadQueue (dev : VirtioDev) (qidx : Nat) (steps : List (List HostStep)) :
    Except Fault VirtioDev := do
  assert "0 <= qidx && qidx < dev->num_queues" (qidx < dev.numQueues)
  readLoop qidx (steps.length + (dev.queues qidx).num) steps dev

/-- Returns 0 or an error; `steps` is what the host does while the driver looks for completed
    requests. -/
def virtioToQueue (dev : VirtioDev) (qidx : Nat) (bufs : List AddrSize) (data : Nat)
    (steps : List (List HostStep)) : Except Fault (Nat × VirtioDev) := do
  assert "0 <= qidx && qidx <= dev->num_queues" (qidx ≤ dev.numQueues)
  if data = 0 then .error (.panic "%s: NULL data received queue %d")
  else if (dev.queues qidx).freeNum + 4 < (dev.queues qidx).num then do
    let dev ← virtioReadQueue dev qidx steps
    enqueue dev qidx bufs data
  else enqueue dev qidx bufs data

/-! ## The record of the requests -/

/-- The head in the slot of the `avail` ring that was written last. -/
def VirtioQueue.newestHead (q : VirtioQueue) : Nat :=
  q.availRing ((q.availIdx + (2 ^ 16 - 1)) % 2 ^ 16 % q.num)

/-- A request in the record waits for the host. -/
def VirtioQueue.record (q : VirtioQueue) (sub : Submission) : VirtioQueue :=
  { q with
    waiting := q.waiting ++ [sub]
    submitted := q.submitted ++ [sub] }

/-- The record after a call of `virtio_to_queue` with these arguments and the result `r`: a request that
    was refused is not in it. -/
def VirtioDev.recorded (dev : VirtioDev) (qidx : Nat) (bufs : List AddrSize) (data r : Nat) : VirtioDev :=
  let q := dev.queues qidx
  if r = 0 then dev.setQueue qidx (q.record { head := q.newestHead, bufs := bufs, data := data }) else dev

/-- A call of `virtio_to_queue` as a step of a run. -/
def VirtioDev.toQueue (dev : VirtioDev) (qidx : Nat) (bufs : List AddrSize) (data : Nat)
    (steps : List (List HostStep)) : Except Fault (Nat × VirtioDev) := do
  let (r, dev) ← virtioToQueue dev qidx bufs data steps
  .ok (r, dev.recorded qidx bufs data r)

end Yaos
