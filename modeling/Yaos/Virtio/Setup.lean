import Yaos.Fault
import Yaos.Virtio

set_option autoImplicit false

/-! # Setting up the queues of a device (`libs/libvirtio/virtio.c`)

`virtio_alloc_queues` allocates the array of queues, and `init_phys_queues` sets up one queue after the
other: it asks the device for the size, allocates the ring and the table of request data, and hands the
ring to the device. -/

namespace Yaos

/-- The answers of the device and of the heap while queue `i` is set up; 0 is `NULL`. -/
structure QueueSource where
  /-- `VIRTIO_PCI_QUEUE_NUM`. -/
  num : Nat → Nat
  vaddr : Nat → Nat
  data : Nat → Nat
  v2p : Nat → Nat
  msix : Bool
  /-- `VIRTIO_MSI_QUEUE_VECTOR` reads back as it was written. -/
  vectorKept : Nat → Bool

/-- What `struct virtio_queue` has to do with memory, and the rings once they are set up. -/
structure PhysQueue where
  vaddr : Nat
  paddr : Nat
  num : Nat
  index : Nat
  data : Nat
  rings : Option VirtioQueue

/-- A device while its queues are set up. -/
structure QueueSetup where
  numQueues : Nat
  queues : Option (Nat → PhysQueue)
  /-- `VIRTIO_PCI_QUEUE_PFN` of each queue. -/
  pfn : Nat → Nat
  /-- The calls of `free_phys_queue`. -/
  freed : List Nat

/-- The memory is cleared. -/
def clearedQueue : PhysQueue where
  vaddr := 0
  paddr := 0
  num := 0
  index := 0
  data := 0
  rings := none

section Setup

variable (src : QueueSource)

/-- `alloc_phys_queue`, with its result. -/
def allocPhysQueue (q : PhysQueue) : Except Fault (Nat × PhysQueue) :=
  if src.vaddr q.index = 0 then .ok (ENOMEM, { q with vaddr := 0 })
  else do
    let q := { q with
      vaddr := src.vaddr q.index
      paddr := src.v2p (src.vaddr q.index)
      data := src.data q.index }
    assert "sizeof(q->data[0]) * q->num < PAGE_SIZE_4K" (8 * q.num < 0x1000)
    if q.data = 0 then .error (.panic "No memory")
    else .ok (OK, q)

/-- `free_phys_queue` of queue `i`. -/
def freePhysQueue (dev : QueueSetup) (queues : Nat → PhysQueue) (i : Nat) :
    Except Fault (QueueSetup × (Nat → PhysQueue)) := do
  assert "q->vaddr != NULL" ((queues i).vaddr ≠ 0)
  .ok ({ dev with freed := dev.freed ++ [i] },
    Function.update queues i { queues i with vaddr := 0, paddr := 0, num := 0, data := 0 })

/-- `setup_queue`. -/
def setupQueue (dev : QueueSetup) (q : PhysQueue) : Except Fault QueueSetup :=
  if src.msix = true ∧ src.vectorKept q.index = false then .error (.panic "Setting MSIx entry for queue failed.")
  else .ok { dev with pfn := Function.update dev.pfn q.index (q.paddr >>> 12) }

/-- `for (j = 0; j < i; j++) free_phys_queue(&dev->queues[i]);`, from `j` up, for `n` turns. -/
def freePhysQueues (i : Nat) : Nat → QueueSetup → (Nat → PhysQueue) →
    Except Fault (QueueSetup × (Nat → PhysQueue))
  | 0, dev, queues => .ok (dev, queues)
  | n + 1, dev, queues => do
      let r ← freePhysQueue dev queues i
      freePhysQueues i n r.1 r.2

/-- The loop of `init_phys_queues` from queue `i` on, for `n` more queues. -/
def initPhysQueuesFrom : Nat → Nat → QueueSetup → (Nat → PhysQueue) →
    Except Fault (Nat × QueueSetup × (Nat → PhysQueue))
  | 0, _, dev, queues => .ok (OK, dev, queues)
  | n + 1, i, dev, queues => do
      let q := { queues i with num := src.num i, index := i }
      if q.num &&& (q.num - 1) ≠ 0 then
        -- the error path counts with `j` but frees queue `i` each time
        let r ← freePhysQueues i i dev (Function.update queues i q)
        .ok (EINVAL, r)
      else
        let a ← allocPhysQueue src q
        if a.1 ≠ OK then
          let r ← freePhysQueues i i dev (Function.update queues i a.2)
          .ok (a.1, r)
        else
          let q := { a.2 with rings := some (initPhysQueue a.2.num) }
          let dev ← setupQueue src dev q
          initPhysQueuesFrom n (i + 1) dev (Function.update queues i q)

/-- `virtio_alloc_queues`, where `room` says whether `yaos_malloc` has memory for the array. -/
def virtioAllocQueues (room : Bool) (numQueues : Int) (dev : QueueSetup) :
    Except Fault (Nat × QueueSetup) :=
  if numQueues < 0 ∨ 256 < numQueues then .ok (EINVAL, dev)
  else
    let dev := { dev with numQueues := numQueues.toNat }
    if room = false then .ok (ENOMEM, { dev with queues := none })
    else do
      let r ← initPhysQueuesFrom src dev.numQueues 0 dev fun _ => clearedQueue
      -- `r` takes the value of the comparison
      let failed := if r.1 ≠ OK then 1 else 0
      if failed ≠ 0 then .ok (failed, { r.2.1 with queues := none })
      else .ok (failed, { r.2.1 with queues := some r.2.2 })

end Setup

/-! ## A queue that cannot be set up -/

/-- `num & (num - 1)` is zero. -/
def PowerOfTwo (num : Nat) : Prop := num &&& (num - 1) = 0

instance (num : Nat) : Decidable (PowerOfTwo num) := inferInstanceAs (Decidable (_ = _))

/-- What the device and the allocators answer for queue `i` lets it be set up. -/
structure QueueSource.SetsUp (src : QueueSource) (i : Nat) : Prop where
  num : PowerOfTwo (src.num i)
  vaddr : src.vaddr i ≠ 0
  fits : 8 * src.num i < 0x1000
  data : src.data i ≠ 0
  vector : src.msix = true → src.vectorKept i = true

/-- Queue `i` is the first one that is not set up, and `e` says why. -/
structure QueueSource.FailsAt (src : QueueSource) (i e : Nat) : Prop where
  before : ∀ j < i, src.SetsUp j
  fails : ¬ PowerOfTwo (src.num i) ∧ e = EINVAL ∨
    PowerOfTwo (src.num i) ∧ src.vaddr i = 0 ∧ e = ENOMEM

/-- The error is returned, the array is gone, and the queues before queue `i` have been given back. -/
def QueuesReleased (src : QueueSource) (numQueues : Int) (dev : QueueSetup) (i e : Nat) : Prop :=
  ∃ dev', virtioAllocQueues src true numQueues dev = .ok (e, dev') ∧ dev'.queues = none ∧
    dev'.freed.Perm (dev.freed ++ List.range i)

section Fails

variable {src : QueueSource} {i e : Nat}

theorem initPhysQueuesFrom_setsUp (n : Nat) (dev : QueueSetup) (queues : Nat → PhysQueue)
    (h : src.SetsUp i) : ∃ dev' q, initPhysQueuesFrom src (n + 1) i dev queues =
      initPhysQueuesFrom src n (i + 1) dev' (Function.update queues i q) := by
  have hnum : ¬ (src.num i &&& (src.num i - 1) ≠ 0) := not_not.2 h.num
  have hset : ¬ (src.msix = true ∧ src.vectorKept i = false) := by
    rintro ⟨hmsix, hlost⟩
    rw [h.vector hmsix] at hlost
    cases hlost
  rw [initPhysQueuesFrom]
  simp only [if_neg hnum, allocPhysQueue, if_neg h.vaddr, assert_bind h.fits, if_neg h.data, ok_bind,
    ne_eq, not_true_eq_false, if_false, setupQueue, if_neg hset]
  exact ⟨_, _, rfl⟩

/-- The loop that gives back the queues is called with a queue whose ring is not there. -/
theorem freePhysQueues_fails {n : Nat} {dev : QueueSetup} {queues : Nat → PhysQueue}
    (hv : (queues i).vaddr = 0) : freePhysQueues i n dev queues =
      if n = 0 then .ok (dev, queues) else .error (.assertion "q->vaddr != NULL") := by
  cases n with
  | zero => rfl
  | succ n =>
      rw [freePhysQueues, freePhysQueue, assert_neg (not_not.2 hv)]
      rfl

theorem initPhysQueuesFrom_failsAt (n : Nat) (dev : QueueSetup) {queues : Nat → PhysQueue}
    (h : src.FailsAt i e) (hclear : (queues i).vaddr = 0) :
    ∃ queues', initPhysQueuesFrom src (n + 1) i dev queues =
      if i = 0 then .ok (e, dev, queues') else .error (.assertion "q->vaddr != NULL") := by
  rw [initPhysQueuesFrom]
  rcases h.fails with ⟨hnum, rfl⟩ | ⟨hnum, hvaddr, rfl⟩
  · have hodd : src.num i &&& (src.num i - 1) ≠ 0 := hnum
    have hv : (Function.update queues i { queues i with num := src.num i, index := i } i).vaddr = 0 := by
      simpa using hclear
    simp only [if_pos hodd, freePhysQueues_fails hv]
    split
    · exact ⟨_, rfl⟩
    · exact ⟨queues, rfl⟩
  · have heven : ¬ (src.num i &&& (src.num i - 1) ≠ 0) := not_not.2 hnum
    have herr : ENOMEM ≠ OK := by decide
    simp only [if_neg heven, allocPhysQueue, if_pos hvaddr, ok_bind, if_pos herr]
    rw [freePhysQueues_fails (by simp)]
    split
    · exact ⟨_, rfl⟩
    · exact ⟨queues, rfl⟩

/-- The queues before the failing one are set up, one after the other. -/
theorem initPhysQueuesFrom_fails {n j : Nat} {dev : QueueSetup} {queues : Nat → PhysQueue}
    (h : src.FailsAt i e) (hj : j ≤ i) (hi : i < j + n) (hclear : ∀ k, j ≤ k → (queues k).vaddr = 0) :
    (i = 0 → ∃ queues', initPhysQueuesFrom src n j dev queues = .ok (e, dev, queues')) ∧
      (i ≠ 0 → initPhysQueuesFrom src n j dev queues = .error (.assertion "q->vaddr != NULL")) := by
  induction n generalizing j dev queues with
  | zero => omega
  | succ n ih =>
      by_cases hji : j = i
      · subst hji
        obtain ⟨queues', hq⟩ := initPhysQueuesFrom_failsAt n dev h (hclear j (Nat.le_refl j))
        rw [hq]
        exact ⟨fun h0 => ⟨queues', if_pos h0⟩, fun h0 => if_neg h0⟩
      · have hlt : j < i := Nat.lt_of_le_of_ne hj hji
        obtain ⟨dev', q, hstep⟩ := initPhysQueuesFrom_setsUp n dev queues (h.before j hlt)
        rw [hstep]
        refine ⟨fun h0 => by omega, (ih hlt (by omega) fun k hk => ?_).2⟩
        rw [Function.update_of_ne (Nat.ne_of_gt hk)]
        exact hclear k (Nat.le_of_succ_le hk)

/-- A set-up that fails never ends as it should: the result is 1 where the first queue fails, and
    everywhere else an assertion fails. -/
theorem queues_never_released {n : Int} (dev : QueueSetup) (hn : n ≤ 256) (hi : (i : Int) < n)
    (h : src.FailsAt i e) : ¬ QueuesReleased src n dev i e := by
  have hrange : ¬ (n < 0 ∨ 256 < n) := by omega
  have hfails := @initPhysQueuesFrom_fails src i e n.toNat 0 { dev with numQueues := n.toNat }
    (fun _ => clearedQueue) h (Nat.zero_le i) (by omega) (fun _ _ => rfl)
  have hcode : e = EINVAL ∨ e = ENOMEM := by
    rcases h.fails with ⟨-, rfl⟩ | ⟨-, -, rfl⟩
    · exact .inl rfl
    · exact .inr rfl
  have herr : e ≠ OK := by
    rcases hcode with rfl | rfl
    · decide
    · decide
  rintro ⟨dev', hrun, -⟩
  rw [virtioAllocQueues, if_neg hrange] at hrun
  dsimp only at hrun
  rw [if_neg (by decide)] at hrun
  by_cases h0 : i = 0
  · obtain ⟨queues', hq⟩ := hfails.1 h0
    rw [hq, ok_bind] at hrun
    dsimp only at hrun
    rw [if_pos herr, if_pos (by decide)] at hrun
    obtain ⟨hone, -⟩ := Prod.mk.inj (Except.ok.inj hrun)
    rcases hcode with rfl | rfl
    · exact absurd hone (by decide)
    · exact absurd hone (by decide)
  · rw [hfails.2 h0] at hrun
    cases hrun

end Fails

/-- The heap has memory for the ring of the first queue only. -/
def oneRing : QueueSource where
  num _ := 256
  vaddr i := if i = 0 then 0x100000 else 0
  data _ := 0x200000
  v2p := id
  msix := false
  vectorKept _ := true

/-- Before the first queue. -/
def noQueues : QueueSetup where
  numQueues := 0
  queues := none
  pfn _ := 0
  freed := []

/-- The size of the first queue is 3. -/
theorem odd_queue_not_released : ¬ QueuesReleased { oneRing with num := fun _ => 3 } 2 noQueues 0 EINVAL :=
  queues_never_released noQueues (by decide) (by decide)
    ⟨fun j hj => absurd hj (Nat.not_lt_zero j), .inl ⟨by decide, rfl⟩⟩

/-- The ring of the second queue cannot be allocated. -/
theorem second_queue_not_released : ¬ QueuesReleased oneRing 2 noQueues 1 ENOMEM := by
  rintro ⟨dev', hrun, -⟩
  have hfault : virtioAllocQueues oneRing true 2 noQueues = .error (.assertion "q->vaddr != NULL") := rfl
  rw [hfault] at hrun
  cases hrun

end Yaos
