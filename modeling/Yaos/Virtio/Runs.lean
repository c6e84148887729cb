import Yaos.Virtio.Invariant

set_option autoImplicit false

/-! # Runs of a virtqueue

A run is a list of calls of the driver's functions and of steps of the host, on any of the queues.
The driver and the host meet only in the rings, which the driver looks at in `virtio_from_queue`, so
the steps of the host between two looks are given with the call. -/

namespace Yaos

/-- The calls of a driver, and the steps of the host between them. -/
inductive VirtioCall
  | host (qidx : Nat) (step : HostStep)
  | fromQueue (qidx : Nat)
  | readQueue (qidx : Nat) (steps : List (List HostStep))
  | toQueue (qidx : Nat) (bufs : List AddrSize) (data : Nat) (steps : List (List HostStep))

/-- One call. -/
def VirtioDev.call (dev : VirtioDev) : VirtioCall → Except Fault VirtioDev
  | .host qidx step => .ok (dev.host qidx [step])
  | .fromQueue qidx => do
      let (_, dev) ← virtioFromQueue dev qidx
      .ok dev
  | .readQueue qidx steps => virtioReadQueue dev qidx steps
  | .toQueue qidx bufs data steps => do
      let (_, dev) ← dev.toQueue qidx bufs data steps
      .ok dev

/-- The calls a driver makes: on a queue of the device, with data, and with a number of buffers that
    an indirect table can list. -/
def VirtioCall.Allowed (numQueues : Nat) : VirtioCall → Prop
  | .host qidx _ => qidx < numQueues
  | .fromQueue qidx => qidx < numQueues
  | .readQueue qidx _ => qidx < numQueues
  | .toQueue qidx bufs data _ => qidx < numQueues ∧ bufs ≠ [] ∧
      bufs.length ≤ mapvecNr + mapvecNr / 2 ∧ data ≠ 0

instance (numQueues : Nat) : DecidablePred (VirtioCall.Allowed numQueues)
  | .host qidx _ => inferInstanceAs (Decidable (qidx < numQueues))
  | .fromQueue qidx => inferInstanceAs (Decidable (qidx < numQueues))
  | .readQueue qidx _ => inferInstanceAs (Decidable (qidx < numQueues))
  | .toQueue qidx bufs data _ => inferInstanceAs (Decidable (qidx < numQueues ∧ bufs ≠ [] ∧
      bufs.length ≤ mapvecNr + mapvecNr / 2 ∧ data ≠ 0))

/-- All that was collected has been handed to the callback. -/
def Synced (dev : VirtioDev) : Prop := ∀ k, (dev.queues k).handed = (dev.queues k).collected

/-! ## One step keeps the invariant -/

section Host

variable {indirect : List IndirectDescTable} {q : VirtioQueue} {free : List Nat} {reqs : List Entry}

/-- What no step of the host changes. -/
structure HostKeeps (q q' : VirtioQueue) : Prop where
  num : q'.num = q.num
  desc : q'.desc = q.desc
  collected : q'.collected = q.collected
  handed : q'.handed = q.handed

theorem hostKeeps (q : VirtioQueue) (s : HostStep) : HostKeeps q (q.host s) := by
  cases s with
  | fetch =>
      simp only [VirtioQueue.host]
      split_ifs
      · exact ⟨rfl, rfl, rfl, rfl⟩
      split <;> exact ⟨rfl, rfl, rfl, rfl⟩
  | complete n len =>
      simp only [VirtioQueue.host]
      split <;> exact ⟨rfl, rfl, rfl, rfl⟩

theorem QueueInv.hostSteps (h : QueueInv indirect q free reqs) (steps : List HostStep) :
    QueueInv indirect (steps.foldl VirtioQueue.host q) free reqs ∧
      HostKeeps q (steps.foldl VirtioQueue.host q) := by
  induction steps generalizing q with
  | nil => exact ⟨h, rfl, rfl, rfl, rfl⟩
  | cons s steps ih =>
      obtain ⟨hinv, hkeeps⟩ := ih (h.host s)
      have hs := hostKeeps q s
      exact ⟨hinv, hkeeps.num.trans hs.num, hkeeps.desc.trans hs.desc,
        hkeeps.collected.trans hs.collected, hkeeps.handed.trans hs.handed⟩

end Host

section Steps

variable {dev : VirtioDev} {qidx : Nat}

theorem Sound.host (h : Sound dev) (hq : qidx < dev.numQueues) (steps : List HostStep) :
    Sound (dev.host qidx steps) := by
  obtain ⟨free, reqs, h⟩ := h
  obtain ⟨hinv, hkeeps⟩ := (h.queues qidx hq).hostSteps steps
  refine ⟨_, _, h.step_queue hq hinv hkeeps.num fun i => .inl ?_⟩
  rw [hkeeps.desc]

theorem Synced.host (h : Synced dev) (steps : List HostStep) (hdev : Sound dev)
    (hq : qidx < dev.numQueues) : Synced (dev.host qidx steps) := by
  obtain ⟨free, reqs, hdev⟩ := hdev
  obtain ⟨-, hkeeps⟩ := (hdev.queues qidx hq).hostSteps steps
  intro k
  by_cases hk : k = qidx
  · subst hk
    rw [VirtioDev.host, setQueue_self, hkeeps.handed, hkeeps.collected]
    exact h k
  · rw [VirtioDev.host, setQueue_of_ne hk]
    exact h k

theorem Sound.callback (h : Sound dev) (hq : qidx < dev.numQueues) (x : Nat × Nat) :
    Sound (dev.callback qidx x) := by
  obtain ⟨free, reqs, h⟩ := h
  have hinv := h.queues qidx hq
  have hparts := hinv.parts
  have hcalled : QueueInv dev.indirect
      { dev.queues qidx with handed := (dev.queues qidx).handed ++ [x] } (free qidx) (reqs qidx) :=
    ⟨⟨hparts.linked, hparts.head, hparts.last, hparts.count, hparts.flags, hparts.heads,
      hparts.requests, hparts.all⟩, ⟨hinv.rings.size, hinv.rings.avail, hinv.rings.availRing,
      hinv.rings.lastUsed, hinv.rings.used, hinv.rings.usedRing⟩,
      ⟨hinv.logs.waiting, hinv.logs.submitted, hinv.logs.reported⟩, hinv.subs, hinv.data, hinv.owner⟩
  exact ⟨_, _, h.step_queue hq hcalled rfl fun i => .inl rfl⟩

/-- `virtio_from_queue` finds the oldest report, or finds that there is none. -/
theorem Sound.fromQueue (h : Sound dev) (hq : qidx < dev.numQueues) :
    ((dev.queues qidx).done = [] ∧ virtioFromQueue dev qidx = .ok (none, dev)) ∨
    ∃ x rest dev', (dev.queues qidx).done = x :: rest ∧
      virtioFromQueue dev qidx = .ok (some (token x), dev') ∧ Sound dev' ∧
      dev'.numQueues = dev.numQueues ∧ (dev'.queues qidx).num = (dev.queues qidx).num ∧
      (dev'.queues qidx).done = rest ∧ (Synced dev → Synced (dev'.callback qidx (token x))) := by
  obtain ⟨free, reqs, h⟩ := h
  have hinv := h.queues qidx hq
  cases hdone : (dev.queues qidx).done with
  | nil =>
      refine .inl ⟨rfl, ?_⟩
      rw [virtioFromQueue]
      refine (assert_bind hq).trans ?_
      dsimp only
      rw [if_pos (hinv.lastUsed_eq_iff.2 hdone)]
  | cons x rest =>
      obtain ⟨indirect, desc, last, n, hrun, hcollected, hsound⟩ := h.fromQueue hq hdone
      refine .inr ⟨x, rest, _, rfl, hrun, hsound, rfl, ?_, ?_, ?_⟩
      · rw [setQueue_self, VirtioQueue.giveBack]
      · rw [setQueue_self, VirtioQueue.giveBack, hdone, List.tail_cons]
      · intro hsync k
        rw [VirtioDev.callback]
        by_cases hk : k = qidx
        · subst hk
          rw [setQueue_self, setQueue_self]
          dsimp only
          rw [hcollected, ← hsync k]
          rfl
        · rw [setQueue_of_ne hk, setQueue_of_ne hk]
          exact hsync k

/-- The loop of `virtio_read_queue` ends: each look without news of the host collects one of the
    requests reported, of which there are less than `num`. -/
theorem Sound.readLoop {fuel : Nat} {steps : List (List HostStep)} (h : Sound dev)
    (hq : qidx < dev.numQueues)
    (hfuel : steps = [] ∧ (dev.queues qidx).done.length < fuel ∨
      steps.length + (dev.queues qidx).num ≤ fuel) :
    ∃ dev', readLoop qidx fuel steps dev = .ok dev' ∧ Sound dev' ∧
      dev'.numQueues = dev.numQueues ∧ (Synced dev → Synced dev') := by
  induction fuel generalizing steps dev with
  | zero =>
      obtain ⟨free, reqs, h⟩ := h
      have := (h.queues qidx hq).outstanding_lt
      omega
  | succ fuel ih =>
      have hsound := h.host hq (steps.headD [])
      have hq' : qidx < (dev.host qidx (steps.headD [])).numQueues := hq
      have hnum : ((dev.host qidx (steps.headD [])).queues qidx).num = (dev.queues qidx).num := by
        obtain ⟨free, reqs, h⟩ := h
        rw [VirtioDev.host, setQueue_self]
        exact ((h.queues qidx hq).hostSteps _).2.num
      rw [Yaos.readLoop]
      rcases hsound.fromQueue hq' with ⟨-, hrun⟩ | ⟨x, rest, dev₁, hdone, hrun, hs₁, hn₁, hnum₁, hd₁, hy₁⟩
      · rw [hrun]
        exact ⟨_, rfl, hsound, rfl, fun hsync => hsync.host _ h hq⟩
      · rw [hrun, ok_bind]
        dsimp only
        have hq₁ : qidx < dev₁.numQueues := by rw [hn₁]; exact hq
        have hnum' : ((dev₁.callback qidx (token x)).queues qidx).num = (dev.queues qidx).num := by
          rw [VirtioDev.callback, setQueue_self]
          exact hnum₁.trans hnum
        have hdone' : ((dev₁.callback qidx (token x)).queues qidx).done = rest := by
          rw [VirtioDev.callback, setQueue_self]
          exact hd₁
        have hless : (dev.queues qidx).done.length < (dev.queues qidx).num := by
          obtain ⟨free, reqs, h⟩ := h
          have := (h.queues qidx hq).outstanding_lt
          omega
        have hfuel' : steps.tail = [] ∧
            ((dev₁.callback qidx (token x)).queues qidx).done.length < fuel ∨
            steps.tail.length + ((dev₁.callback qidx (token x)).queues qidx).num ≤ fuel := by
          -- without news the list of what is reported gets shorter; with news, that of the news
          cases steps with
          | nil =>
              have hsame : (dev.queues qidx).done = x :: rest := by
                rw [VirtioDev.host, setQueue_self] at hdone
                exact hdone
              have hlen := congrArg List.length hsame
              rw [List.length_cons] at hlen
              refine .inl ⟨rfl, ?_⟩
              rw [hdone']
              simp only [List.length_nil] at hfuel
              omega
          | cons s ss =>
              refine .inr ?_
              rw [hnum', List.tail_cons]
              rcases hfuel with ⟨hnil, -⟩ | hfuel
              · cases hnil
              · rw [List.length_cons] at hfuel
                omega
        obtain ⟨dev', hloop, hs', hn', hy'⟩ := ih (hs₁.callback hq₁ (token x)) hq₁ hfuel'
        exact ⟨dev', hloop, hs', hn'.trans hn₁, fun hsync => hy' (hy₁ (hsync.host _ h hq))⟩

theorem Sound.readQueue (h : Sound dev) (hq : qidx < dev.numQueues) (steps : List (List HostStep)) :
    ∃ dev', virtioReadQueue dev qidx steps = .ok dev' ∧ Sound dev' ∧
      dev'.numQueues = dev.numQueues ∧ (Synced dev → Synced dev') := by
  obtain ⟨dev', hrun, hrest⟩ := h.readLoop hq (.inr (Nat.le_refl _))
  refine ⟨dev', ?_, hrest⟩
  rw [virtioReadQueue]
  exact (assert_bind hq).trans hrun

variable {bufs : List AddrSize} {data : Nat}

theorem Synced.recorded (h : Synced dev) {q : VirtioQueue} {indirect : List IndirectDescTable}
    (hq : q.handed = (dev.queues qidx).handed ∧ q.collected = (dev.queues qidx).collected) (head : Nat) :
    Synced (({ dev with indirect := indirect }.setQueue qidx (q.publish head data)).recorded qidx bufs
      data 0) := by
  intro k
  rw [VirtioDev.recorded, if_pos rfl]
  by_cases hk : k = qidx
  · subst hk
    rw [setQueue_self, setQueue_self]
    exact hq.1.trans ((h k).trans hq.2.symm)
  · rw [setQueue_of_ne hk, setQueue_of_ne hk]
    exact h k

theorem Sound.enqueue (h : Sound dev) (hq : qidx < dev.numQueues) (hbufs : bufs ≠ [])
    (hlen : bufs.length ≤ mapvecNr + mapvecNr / 2) (hdata : data ≠ 0) :
    (∃ r dev', enqueue dev qidx bufs data = .ok (r, dev') ∧ Sound (dev'.recorded qidx bufs data r) ∧
      dev'.numQueues = dev.numQueues ∧ (Synced dev → Synced (dev'.recorded qidx bufs data r))) ∨
    ∃ f, enqueue dev qidx bufs data = .error f ∧ OutOfTables f := by
  have hpos := List.length_pos_iff.2 hbufs
  obtain ⟨free, reqs, hinv⟩ := h
  rw [Yaos.enqueue]
  dsimp only
  by_cases hleft : ((dev.queues qidx).freeNum : Int) - bufs.length ≤ 0
  · rw [if_pos hleft]
    exact .inl ⟨_, _, rfl, ⟨free, reqs, hinv⟩, rfl, id⟩
  · rw [if_neg hleft]
    by_cases hmany : 1 < bufs.length ∧ ((dev.queues qidx).freeNum : Int) - bufs.length < dev.threads
    · rw [if_pos hmany]
      rcases hinv.enqueue_indirect hq hbufs hlen hdata (by omega) with
        ⟨indirect, q', hrun, hlogs, hsound⟩ | ⟨f, hrun, hf⟩
      · rw [hrun, ok_bind]
        dsimp only
        rw [assert_bind hq]
        exact .inl ⟨_, _, rfl, hsound, rfl, fun hsync => hsync.recorded hlogs _⟩
      · rw [hrun]
        exact .inr ⟨f, rfl, hf⟩
    · rw [if_neg hmany]
      obtain ⟨q', hrun, hlogs, hsound⟩ := hinv.enqueue_direct hq hbufs hdata (by omega)
      rw [hrun, ok_bind, assert_bind hq]
      exact .inl ⟨_, _, rfl, hsound, rfl, fun hsync => hsync.recorded hlogs _⟩

theorem recorded_numQueues (r : Nat) : (dev.recorded qidx bufs data r).numQueues = dev.numQueues := by
  rw [VirtioDev.recorded]
  split
  · rfl
  · rfl

theorem Sound.toQueue (h : Sound dev) (hq : qidx < dev.numQueues) (hbufs : bufs ≠ [])
    (hlen : bufs.length ≤ mapvecNr + mapvecNr / 2) (hdata : data ≠ 0)
    (steps : List (List HostStep)) :
    (∃ r dev', dev.toQueue qidx bufs data steps = .ok (r, dev') ∧ Sound dev' ∧
      dev'.numQueues = dev.numQueues ∧ (Synced dev → Synced dev')) ∨
    ∃ f, dev.toQueue qidx bufs data steps = .error f ∧ OutOfTables f := by
  rw [VirtioDev.toQueue, virtioToQueue, assert_bind (Nat.le_of_lt hq), if_neg hdata]
  split
  · obtain ⟨dev₁, hrun, hs₁, hn₁, hy₁⟩ := h.readQueue hq steps
    rw [hrun, ok_bind]
    rcases hs₁.enqueue (by rw [hn₁]; exact hq) hbufs hlen hdata with
      ⟨r, dev', hrun', hs', hn', hy'⟩ | ⟨f, hrun', hf⟩
    · rw [hrun']
      exact .inl ⟨r, _, rfl, hs', (recorded_numQueues r).trans (hn'.trans hn₁), fun hsync => hy' (hy₁ hsync)⟩
    · rw [hrun']
      exact .inr ⟨f, rfl, hf⟩
  · rcases h.enqueue hq hbufs hlen hdata with ⟨r, dev', hrun', hs', hn', hy'⟩ | ⟨f, hrun', hf⟩
    · rw [hrun']
      exact .inl ⟨r, _, rfl, hs', (recorded_numQueues r).trans hn', hy'⟩
    · rw [hrun']
      exact .inr ⟨f, rfl, hf⟩

/-- Every call keeps the invariant, or there is no table left for a request. -/
theorem Sound.call (h : Sound dev) {c : VirtioCall} (hc : c.Allowed dev.numQueues) :
    (∃ dev', dev.call c = .ok dev' ∧ Sound dev' ∧ dev'.numQueues = dev.numQueues ∧
      ((∀ qidx, c ≠ .fromQueue qidx) → Synced dev → Synced dev')) ∨
    ∃ f, dev.call c = .error f ∧ OutOfTables f := by
  cases c with
  | host qidx step =>
      exact .inl ⟨_, rfl, h.host hc [step], rfl, fun _ hsync => hsync.host [step] h hc⟩
  | fromQueue qidx =>
      left
      rw [VirtioDev.call]
      rcases h.fromQueue hc with ⟨-, hrun⟩ | ⟨x, rest, dev', -, hrun, hs, hn, -⟩
      · rw [hrun]
        exact ⟨_, rfl, h, rfl, fun hne => absurd rfl (hne qidx)⟩
      · rw [hrun]
        exact ⟨_, rfl, hs, hn, fun hne => absurd rfl (hne qidx)⟩
  | readQueue qidx steps =>
      obtain ⟨dev', hrun, hs, hn, hy⟩ := h.readQueue hc steps
      exact .inl ⟨dev', hrun, hs, hn, fun _ => hy⟩
  | toQueue qidx bufs data steps =>
      obtain ⟨hq, hbufs, hlen, hdata⟩ := hc
      rw [VirtioDev.call]
      rcases h.toQueue hq hbufs hlen hdata steps with ⟨r, dev', hrun, hs, hn, hy⟩ | ⟨f, hrun, hf⟩
      · rw [hrun]
        exact .inl ⟨_, rfl, hs, hn, fun _ => hy⟩
      · rw [hrun]
        exact .inr ⟨f, rfl, hf⟩

/-- The states of a run, and how a run can end. -/
theorem Sound.run {calls : List VirtioCall} (h : Sound dev)
    (hcalls : ∀ c ∈ calls, c.Allowed dev.numQueues) :
    (∃ dev', calls.foldlM VirtioDev.call dev = .ok dev' ∧ Sound dev' ∧
      dev'.numQueues = dev.numQueues ∧
      ((∀ c ∈ calls, ∀ qidx, c ≠ .fromQueue qidx) → Synced dev → Synced dev')) ∨
    ∃ f, calls.foldlM VirtioDev.call dev = .error f ∧ OutOfTables f := by
  induction calls generalizing dev with
  | nil => exact .inl ⟨dev, rfl, h, rfl, fun _ hsync => hsync⟩
  | cons c calls ih =>
      rw [List.foldlM_cons]
      rcases h.call (hcalls c (List.mem_cons_self ..)) with ⟨dev₁, hrun, hs₁, hn₁, hy₁⟩ | ⟨f, hrun, hf⟩
      · rw [hrun, ok_bind]
        have hcalls' : ∀ c ∈ calls, c.Allowed dev₁.numQueues := by
          intro c hc
          rw [hn₁]
          exact hcalls c (List.mem_cons_of_mem _ hc)
        rcases ih hs₁ hcalls' with ⟨dev', hrun', hs', hn', hy'⟩ | hfail
        · refine .inl ⟨dev', hrun', hs', hn'.trans hn₁, fun hne hsync => hy' ?_ (hy₁ ?_ hsync)⟩
          · exact fun c hc => hne c (List.mem_cons_of_mem _ hc)
          · exact hne c (List.mem_cons_self ..)
        · exact .inr hfail
      · rw [hrun]
        exact .inr ⟨f, rfl, hf⟩

end Steps

/-! ## The first state -/

theorem initPhysQueue_inv {indirect : List IndirectDescTable} {num m : Nat} (hm : m ≤ 15)
    (hnum : num = 2 ^ m) : QueueInv indirect (initPhysQueue num) (List.range num) [] := by
  have hpos : 0 < num := by
    rw [hnum]
    exact Nat.two_pow_pos m
  obtain ⟨n, rfl⟩ := Nat.exists_eq_succ_of_ne_zero hpos.ne'
  refine ⟨⟨?_, ?_, ?_, ?_, ?_, ?_, ?_, ?_⟩, ⟨⟨m, hm, hnum⟩, rfl, Ring.Holds.nil, hpos, rfl,
    Ring.Holds.nil⟩, ⟨List.suffix_refl _, List.Perm.refl _, rfl⟩, List.Perm.refl _, ?_, ?_⟩
  · refine (List.isChain_range_succ _ n).2 fun i hi => ?_
    show (i + 1) &&& (n + 1 - 1) = i + 1
    rw [Nat.succ_eq_add_one] at hnum
    rw [hnum, Nat.and_two_pow_sub_one_eq_mod, ← hnum]
    exact Nat.mod_eq_of_lt (by omega)
  · rw [List.range_succ_eq_map]
    rfl
  · rw [List.range_succ, List.getLast?_concat]
    rfl
  · exact List.length_range
  · intro i _
    constructor
    · show (vringDescFNext &&& vringDescFNext != 0) = true
      decide
    · show (vringDescFNext &&& vringDescFIndirect != 0) = false
      decide
  · intro e he
    cases he
  · intro e he
    cases he
  · simp [initPhysQueue]
  · intro e he
    cases he
  · intro h hne
    exact absurd rfl hne

/-- The sizes a 16-bit power of two can have. -/
def RingSize (num : Nat) : Prop := ∃ m, m ≤ 15 ∧ num = 2 ^ m

theorem virtioSetupDevice_sound {nums paddrs : List Nat} (threads : Int)
    (hnums : ∀ n ∈ nums, RingSize n) (hpaddrs : paddrs.Nodup) :
    Sound (virtioSetupDevice nums paddrs threads) := by
  refine ⟨fun k => List.range (nums.getD k 0), fun _ => [], fun k hk => ?_, ?_⟩
  · have hk' : k < nums.length := hk
    have hmem : nums.getD k 0 ∈ nums := by
      rw [List.getD_eq_getElem?_getD, List.getElem?_eq_getElem hk', Option.getD_some]
      exact List.getElem_mem hk'
    obtain ⟨m, hm, hnum⟩ := hnums _ hmem
    exact initPhysQueue_inv hm hnum
  · have hnone : ∀ k i a, ¬ Refs (virtioSetupDevice nums paddrs threads) k i a := by
      rintro k i a ⟨-, -, hindirect, -⟩
      have hflags : (vringDescFNext &&& vringDescFIndirect != 0) = true := hindirect
      exact absurd hflags (by decide)
    refine ⟨?_, fun k i a hr => absurd hr (hnone k i a), fun t ht => ?_,
      fun k k' i i' a hr => absurd hr (hnone k i a)⟩
    · show ((paddrs.map initIndirectDescTable).map (·.paddr)).Nodup
      rw [List.map_map]
      simpa [Function.comp_def, initIndirectDescTable] using hpaddrs
    · obtain ⟨a, -, rfl⟩ := List.mem_map.1 ht
      refine iff_of_false (by simp [initIndirectDescTable]) ?_
      rintro ⟨k, i, hr⟩
      exact hnone k i _ hr

theorem virtioSetupDevice_synced (nums paddrs : List Nat) (threads : Int) :
    Synced (virtioSetupDevice nums paddrs threads) := fun _ => rfl

/-! ## Ownership of the descriptors -/

/-- The requests that the driver has not collected. -/
def VirtioQueue.outstanding (q : VirtioQueue) : List Submission :=
  q.waiting ++ q.held ++ q.done.map Prod.fst

/-- The first `free_num` descriptors on the way along `next` from `free_head`. -/
def VirtioQueue.freeChain (q : VirtioQueue) : List Nat :=
  List.iterate (fun i => (q.desc i).next) q.freeHead q.freeNum

/-- The descriptors from `i` on, along `next` while the NEXT flag is set. -/
def chainFrom (desc : Nat → VringDesc) : Nat → Nat → List Nat
  | 0, _ => []
  | fuel + 1, i => i :: if (desc i).hasNext then chainFrom desc fuel (desc i).next else []

/-- The descriptors of a request. -/
def VirtioQueue.requestChain (q : VirtioQueue) (head : Nat) : List Nat :=
  chainFrom q.desc q.num head

/-- Each descriptor is free or belongs to one request. -/
structure VirtioQueue.Owned (q : VirtioQueue) : Prop where
  free_nodup : q.freeChain.Nodup
  free_last : q.freeChain.getLast? = some q.freeTail
  free_disjoint : ∀ sub ∈ q.outstanding, q.freeChain.Disjoint (q.requestChain sub.head)
  all : ∀ i, i < q.num ↔
    i ∈ q.freeChain ∨ ∃ sub ∈ q.outstanding, i ∈ q.requestChain sub.head
  data : ∀ h, q.data h ≠ 0 ↔ ∃ sub ∈ q.outstanding, sub.head = h

/-- Every descriptor of every queue is free or in the chain of an outstanding request, and a table is
    in use exactly when one of these descriptors refers to it. -/
structure VirtioDev.Owned (dev : VirtioDev) : Prop where
  queues : ∀ qidx, qidx < dev.numQueues → (dev.queues qidx).Owned
  tables : ∀ t ∈ dev.indirect, t.inUse = true ↔
    ∃ qidx, qidx < dev.numQueues ∧ ∃ sub ∈ (dev.queues qidx).outstanding,
      ∃ i ∈ (dev.queues qidx).requestChain sub.head,
        ((dev.queues qidx).desc i).isIndirect = true ∧ ((dev.queues qidx).desc i).addr = t.paddr

theorem iterate_eq_of_isChain {desc : Nat → VringDesc} {ids : List Nat} {head : Nat}
    (h : ids.IsChain (Links desc)) (hhead : ids = [] ∨ ids.head? = some head) :
    List.iterate (fun i => (desc i).next) head ids.length = ids := by
  induction ids generalizing head with
  | nil => rfl
  | cons i ids ih =>
      obtain rfl : i = head := by simpa using hhead
      rw [List.length_cons, List.iterate, ih h.tail]
      cases ids with
      | nil => exact .inl rfl
      | cons j ids => exact .inr (congrArg some (List.isChain_cons_cons.1 h).1.symm)

theorem DirectChain.chainFrom_eq {desc : Nat → VringDesc} {ids : List Nat} {bufs : List AddrSize}
    {fuel head : Nat} (h : DirectChain desc ids bufs) (hhead : ids.head? = some head)
    (hfuel : ids.length ≤ fuel) : chainFrom desc fuel head = ids := by
  induction h using DirectChain.induction_on generalizing fuel head with
  | last i vp h =>
      obtain rfl : i = head := by simpa using hhead
      cases fuel with
      | zero => simp at hfuel
      | succ fuel =>
          rw [chainFrom, h.1]
          rfl
  | next i j ids vp bufs h hrest ih =>
      obtain rfl : i = head := by simpa using hhead
      cases fuel with
      | zero => simp at hfuel
      | succ fuel =>
          obtain ⟨hnext, -, hlink, -⟩ := (directChain_next.1 h).1
          rw [chainFrom, hnext, if_pos rfl, hlink, ih rfl (by simpa using hfuel)]

theorem Request.chainFrom_eq {indirect : List IndirectDescTable} {desc : Nat → VringDesc}
    {ids : List Nat} {bufs : List AddrSize} {fuel head : Nat} (h : Request indirect desc ids bufs)
    (hhead : ids.head? = some head) (hfuel : ids.length ≤ fuel) : chainFrom desc fuel head = ids := by
  rcases h with hd | ⟨i, rfl, hi⟩
  · exact hd.chainFrom_eq hhead hfuel
  · obtain rfl : i = head := by simpa using hhead
    cases fuel with
    | zero => simp at hfuel
    | succ fuel =>
        rw [chainFrom, hi.hasNext]
        rfl

section Owned

variable {indirect : List IndirectDescTable} {q : VirtioQueue} {free : List Nat} {reqs : List Entry}

theorem VringParts.freeChain_eq (h : VringParts indirect q free reqs) : q.freeChain = free := by
  rw [VirtioQueue.freeChain, ← h.count]
  exact iterate_eq_of_isChain h.linked (.inr h.head)

theorem VringParts.requestChain_eq (h : VringParts indirect q free reqs) {e : Entry}
    (he : e ∈ reqs) : q.requestChain e.sub.head = e.ids := by
  refine (h.requests e he).chainFrom_eq (h.heads e he) ?_
  obtain ⟨r₁, r₂, rfl⟩ := List.append_of_mem he
  have hlen := h.all.length_eq
  rw [List.flatMap_append, List.flatMap_cons] at hlen
  simp only [List.length_append, List.length_range] at hlen
  omega

/-- The outstanding requests are those of the invariant. -/
theorem QueueInv.mem_outstanding (h : QueueInv indirect q free reqs) {sub : Submission} :
    sub ∈ q.outstanding ↔ ∃ e ∈ reqs, e.sub = sub := by
  rw [VirtioQueue.outstanding, ← h.subs.mem_iff, List.mem_map]

/-- A descriptor is in a chain of the invariant when it is in the chain of an outstanding request. -/
theorem QueueInv.mem_requestChain (h : QueueInv indirect q free reqs) {i : Nat} :
    (∃ sub ∈ q.outstanding, i ∈ q.requestChain sub.head) ↔ i ∈ reqs.flatMap Entry.ids := by
  rw [List.mem_flatMap]
  constructor
  · rintro ⟨sub, hsub, hi⟩
    obtain ⟨e, he, rfl⟩ := h.mem_outstanding.1 hsub
    rw [h.parts.requestChain_eq he] at hi
    exact ⟨e, he, hi⟩
  · rintro ⟨e, he, hi⟩
    refine ⟨e.sub, h.mem_outstanding.2 ⟨e, he, rfl⟩, ?_⟩
    rw [h.parts.requestChain_eq he]
    exact hi

theorem QueueInv.owned (h : QueueInv indirect q free reqs) : q.Owned := by
  constructor
  · rw [h.parts.freeChain_eq]
    exact (List.nodup_append.1 h.parts.nodup).1
  · rw [h.parts.freeChain_eq]
    exact h.parts.last
  · intro sub hsub i hfree hi
    obtain ⟨e, he, rfl⟩ := h.mem_outstanding.1 hsub
    rw [h.parts.freeChain_eq] at hfree
    rw [h.parts.requestChain_eq he] at hi
    exact h.parts.not_free he hi hfree
  · intro i
    rw [h.mem_requestChain, h.parts.freeChain_eq, ← List.mem_append, h.parts.all.mem_iff,
      List.mem_range]
  · intro n
    constructor
    · intro hn
      obtain ⟨e, he, hen⟩ := h.owner n hn
      exact ⟨e.sub, h.mem_outstanding.2 ⟨e, he, rfl⟩, hen⟩
    · rintro ⟨sub, hsub, rfl⟩
      obtain ⟨e, he, rfl⟩ := h.mem_outstanding.1 hsub
      rw [(h.data e he).1]
      exact (h.data e he).2

end Owned

theorem Sound.owned {dev : VirtioDev} (h : Sound dev) : dev.Owned := by
  obtain ⟨free, reqs, h⟩ := h
  refine ⟨fun qidx hq => (h.queues qidx hq).owned, fun t ht => ?_⟩
  rw [h.tables.inUse t ht]
  constructor
  · rintro ⟨k, i, hk, hi, hindirect, haddr⟩
    have hinv := h.queues k hk
    have hout : i ∈ (reqs k).flatMap Entry.ids := by
      have hall := hinv.parts.all.mem_iff.2 (List.mem_range.2 hi)
      rcases List.mem_append.1 hall with hfree | hout
      · rw [(hinv.parts.flags i hfree).2] at hindirect
        cases hindirect
      · exact hout
    obtain ⟨sub, hsub, hchain⟩ := hinv.mem_requestChain.2 hout
    exact ⟨k, hk, sub, hsub, i, hchain, hindirect, haddr⟩
  · rintro ⟨k, hk, sub, hsub, i, hchain, hindirect, haddr⟩
    have hinv := h.queues k hk
    have hout := hinv.mem_requestChain.1 ⟨sub, hsub, hchain⟩
    exact ⟨k, i, hk, hinv.parts.lt_num (.inr hout), hindirect, haddr⟩

/-- Descriptor ownership, in every state of every run. -/
theorem virtio_run_owned (nums paddrs : List Nat) (threads : Int) (calls : List VirtioCall)
    (hnums : ∀ n ∈ nums, RingSize n) (hpaddrs : paddrs.Nodup)
    (hcalls : ∀ c ∈ calls, c.Allowed nums.length) :
    (∃ dev, calls.foldlM VirtioDev.call (virtioSetupDevice nums paddrs threads) = .ok dev ∧
      dev.numQueues = nums.length ∧ dev.Owned) ∨
    ∃ f, calls.foldlM VirtioDev.call (virtioSetupDevice nums paddrs threads) = .error f ∧
      OutOfTables f := by
  rcases (virtioSetupDevice_sound threads hnums hpaddrs).run hcalls with
    ⟨dev, hrun, hsound, hn, -⟩ | hfail
  · exact .inl ⟨dev, hrun, hn, hsound.owned⟩
  · exact .inr hfail

/-- A direct request and an indirect one, reported in the other order, and a third one while the
    host works. -/
def reorderedCalls : List VirtioCall :=
  [.toQueue 0 [⟨0x100, 16, 0⟩] 7 [], .toQueue 0 [⟨0x200, 8, 2⟩, ⟨0x300, 4, 0⟩] 9 [],
    .host 0 .fetch, .host 0 .fetch, .host 0 (.complete 1 8), .readQueue 0 [[], [.complete 0 0]],
    .toQueue 0 [⟨0x400, 1, 2⟩] 5 []]

/-- What they submit. -/
def reorderedRequests : List Submission :=
  [⟨0, [⟨0x100, 16, 0⟩], 7⟩, ⟨1, [⟨0x200, 8, 2⟩, ⟨0x300, 4, 0⟩], 9⟩, ⟨2, [⟨0x400, 1, 2⟩], 5⟩]

theorem ringSize_four : ∀ n ∈ [4], RingSize n := by
  intro n hn
  rw [List.mem_singleton.1 hn]
  exact ⟨2, by decide, rfl⟩

theorem reorderedCalls_ok (f : Fault) :
    reorderedCalls.foldlM VirtioDev.call (virtioSetupDevice [4] [0x5000] 3) ≠ .error f := by
  intro hrun
  have hok : (reorderedCalls.foldlM VirtioDev.call
      (virtioSetupDevice [4] [0x5000] 3)).isOk = true := by rfl
  rw [hrun] at hok
  cases hok

theorem virtio_run_owned_reordered :
    (∀ c ∈ reorderedCalls, c.Allowed 1) ∧
    ∃ dev, reorderedCalls.foldlM VirtioDev.call (virtioSetupDevice [4] [0x5000] 3) = .ok dev ∧
      dev.Owned := by
  have hcalls : ∀ c ∈ reorderedCalls, c.Allowed 1 := by decide
  refine ⟨hcalls, ?_⟩
  rcases virtio_run_owned [4] [0x5000] 3 reorderedCalls ringSize_four (by decide) hcalls with
    ⟨dev, hrun, -, howned⟩ | ⟨f, hrun, -⟩
  · exact ⟨dev, hrun, howned⟩
  · exact absurd hrun (reorderedCalls_ok f)

/-! ## What the host sees -/

/-- A buffer as a descriptor describes it to the host. -/
def VringDesc.buffer (vd : VringDesc) : Nat × Nat × Bool := (vd.addr, vd.len, vd.isWrite)

/-- The buffer the caller meant. -/
def AddrSize.buffer (vp : AddrSize) : Nat × Nat × Bool := (vp.vpAddr, vp.vpSize, vp.isWrite)

/-- The buffers from descriptor `i` on, along `next` while the NEXT flag is set; `none` if the chain
    does not end within `fuel` descriptors. -/
def walkDescs (desc : Nat → VringDesc) : Nat → Nat → Option (List (Nat × Nat × Bool))
  | 0, _ => none
  | fuel + 1, i =>
      if (desc i).hasNext then (walkDescs desc fuel (desc i).next).map ((desc i).buffer :: ·)
      else some [(desc i).buffer]

/-- What the host finds from the head `h` on. A descriptor with the INDIRECT flag sends it to the
    table at its address, which has as many entries as its length allows. -/
def VirtioDev.hostWalk (dev : VirtioDev) (qidx h : Nat) : Option (List (Nat × Nat × Bool)) :=
  let q := dev.queues qidx
  if (q.desc h).isIndirect then
    match dev.indirect.find? (·.paddr == (q.desc h).addr) with
    | none => none
    | some t => walkDescs t.descs ((q.desc h).len / 16) 0
  else walkDescs q.desc q.num h

theorem VringDesc.Carries.buffer_eq {vd : VringDesc} {vp : AddrSize} (h : vd.Carries vp) :
    vd.buffer = vp.buffer := by
  rw [VringDesc.buffer, h.1, h.2.1, h.2.2]
  rfl

theorem DirectChain.walkDescs_eq {desc : Nat → VringDesc} {ids : List Nat} {bufs : List AddrSize}
    {fuel head : Nat} (h : DirectChain desc ids bufs) (hhead : ids.head? = some head)
    (hfuel : ids.length ≤ fuel) : walkDescs desc fuel head = some (bufs.map AddrSize.buffer) := by
  induction h using DirectChain.induction_on generalizing fuel head with
  | last i vp h =>
      obtain rfl : i = head := by simpa using hhead
      cases fuel with
      | zero => simp at hfuel
      | succ fuel =>
          rw [walkDescs, h.1, h.2.2.buffer_eq]
          rfl
  | next i j ids vp bufs h hrest ih =>
      obtain rfl : i = head := by simpa using hhead
      cases fuel with
      | zero => simp at hfuel
      | succ fuel =>
          obtain ⟨hnext, -, hlink, hcarries⟩ := (directChain_next.1 h).1
          rw [walkDescs, hnext, if_pos rfl, hlink, hcarries.buffer_eq, ih rfl (by simpa using hfuel)]
          rfl

/-- The walk through a table from its entry `k` on. -/
theorem IndirectDescTable.Lists.walkDescs_eq {t : IndirectDescTable} {bufs : List AddrSize}
    (h : t.Lists bufs) {fuel k : Nat} (hfuel : k + fuel = bufs.length) (hpos : 0 < fuel) :
    walkDescs t.descs fuel k = some ((bufs.drop k).map AddrSize.buffer) := by
  induction fuel generalizing k with
  | zero => omega
  | succ fuel ih =>
      have hk : k < bufs.length := by omega
      obtain ⟨hcarries, hnext, hmore⟩ := h k hk
      rw [walkDescs, hcarries.buffer_eq, hnext, List.drop_eq_getElem_cons hk, List.map_cons]
      cases fuel with
      | zero =>
          have hlast : (t.descs k).hasNext = false := by
            rw [Bool.eq_false_iff, Ne, hmore]
            omega
          have hnil : bufs.drop (k + 1) = [] := List.drop_eq_nil_of_le (by omega)
          rw [hlast, hnil]
          rfl
      | succ fuel =>
          have hnot : (t.descs k).hasNext = true := hmore.2 (by omega)
          rw [hnot, if_pos rfl, ih (by omega) (by omega)]
          rfl

/-- The table at an address is the only one. -/
theorem TablesInv.find?_eq {indirect : List IndirectDescTable} {refs : Nat → Nat → Nat → Prop}
    (h : TablesInv indirect refs) {t : IndirectDescTable} (ht : t ∈ indirect) :
    indirect.find? (·.paddr == t.paddr) = some t := by
  obtain ⟨l₁, l₂, rfl⟩ := List.append_of_mem ht
  refine List.find?_eq_some_iff_append.2 ⟨by simp, l₁, l₂, rfl, fun u hu => ?_⟩
  simpa using h.paddr_ne (.inl hu)

/-- The host walks to exactly the buffers that were submitted. -/
theorem DevInv.hostWalk_eq {dev : VirtioDev} {free : Nat → List Nat} {reqs : Nat → List Entry}
    {qidx : Nat} (h : DevInv dev free reqs) (hq : qidx < dev.numQueues) {e : Entry}
    (he : e ∈ reqs qidx) :
    dev.hostWalk qidx e.sub.head = some (e.sub.bufs.map AddrSize.buffer) := by
  have hparts := (h.queues qidx hq).parts
  rw [VirtioDev.hostWalk]
  rcases hparts.requests e he with hdirect | ⟨i, hids, hind⟩
  · rw [hdirect.not_indirect _ (hparts.head_mem he)]
    refine hdirect.walkDescs_eq (hparts.heads e he) ?_
    obtain ⟨r₁, r₂, hsplit⟩ := List.append_of_mem he
    have hlen := hparts.all.length_eq
    rw [hsplit, List.flatMap_append, List.flatMap_cons] at hlen
    simp only [List.length_append, List.length_range] at hlen
    omega
  · obtain rfl : e.sub.head = i := by
      have hhead := hparts.heads e he
      rw [hids] at hhead
      exact (Option.some.inj hhead).symm
    rw [hind.isIndirect, if_pos rfl]
    obtain ⟨t, ht, haddr, hlists⟩ := hind.table
    rw [← haddr, h.tables.find?_eq ht]
    dsimp only
    rw [hind.len, Nat.mul_div_cancel _ (by decide)]
    have hpos := List.length_pos_iff.2 hind.nonempty
    exact hlists.walkDescs_eq (Nat.zero_add _) hpos

/-- The requests the host has not completed read as they were submitted, and the slots of the `avail`
    ring it has not read hold the heads of the latest submissions, in their order. -/
structure VirtioDev.Faithful (dev : VirtioDev) (qidx : Nat) : Prop where
  walk : ∀ sub ∈ (dev.queues qidx).waiting ++ (dev.queues qidx).held,
    dev.hostWalk qidx sub.head = some (sub.bufs.map AddrSize.buffer)
  order : (dev.queues qidx).waiting <:+ (dev.queues qidx).submitted
  avail : (dev.queues qidx).availIdx =
    ((dev.queues qidx).hostIdx + (dev.queues qidx).waiting.length) % 2 ^ 16
  slots : ∀ (k : Nat) (hk : k < (dev.queues qidx).waiting.length),
    (dev.queues qidx).availRing (((dev.queues qidx).hostIdx + k) % 2 ^ 16 % (dev.queues qidx).num) =
      ((dev.queues qidx).waiting.get ⟨k, hk⟩).head

theorem Sound.faithful {dev : VirtioDev} (h : Sound dev) {qidx : Nat} (hq : qidx < dev.numQueues) :
    dev.Faithful qidx := by
  obtain ⟨free, reqs, h⟩ := h
  have hinv := h.queues qidx hq
  refine ⟨?_, hinv.logs.waiting, hinv.rings.avail, ?_⟩
  · intro sub hsub
    obtain ⟨e, he, rfl⟩ := hinv.mem_outstanding.1 (List.mem_append_left _ hsub)
    exact h.hostWalk_eq hq he
  · intro k hk
    have hslot := hinv.rings.availRing k (by simpa using hk)
    have hwrap : ((dev.queues qidx).hostIdx + k) % 2 ^ 16 % (dev.queues qidx).num =
        ((dev.queues qidx).hostIdx + k) % (dev.queues qidx).num := hinv.rings.wrap _
    rw [hwrap, hslot]
    simp

/-- What the host sees, in every state of every run: what the record says was submitted. -/
theorem virtio_run_faithful (nums paddrs : List Nat) (threads : Int) (calls : List VirtioCall)
    (hnums : ∀ n ∈ nums, RingSize n) (hpaddrs : paddrs.Nodup)
    (hcalls : ∀ c ∈ calls, c.Allowed nums.length) :
    (∃ dev, calls.foldlM VirtioDev.call (virtioSetupDevice nums paddrs threads) = .ok dev ∧
      ∀ qidx, qidx < nums.length → dev.Faithful qidx) ∨
    ∃ f, calls.foldlM VirtioDev.call (virtioSetupDevice nums paddrs threads) = .error f ∧
      OutOfTables f := by
  rcases (virtioSetupDevice_sound threads hnums hpaddrs).run hcalls with
    ⟨dev, hrun, hsound, hn, -⟩ | hfail
  · refine .inl ⟨dev, hrun, fun qidx hq => hsound.faithful ?_⟩
    rw [hn]
    exact hq
  · exact .inr hfail

theorem virtio_run_faithful_reordered :
    (∀ c ∈ reorderedCalls, c.Allowed 1) ∧
    ∃ dev, reorderedCalls.foldlM VirtioDev.call (virtioSetupDevice [4] [0x5000] 3) = .ok dev ∧
      (dev.queues 0).submitted = reorderedRequests ∧ (dev.queues 0).waiting = [⟨2, [⟨0x400, 1, 2⟩], 5⟩] ∧
      dev.Faithful 0 := by
  have hcalls : ∀ c ∈ reorderedCalls, c.Allowed 1 := by decide
  have hend : (reorderedCalls.foldlM VirtioDev.call (virtioSetupDevice [4] [0x5000] 3)).map
      (fun dev => ((dev.queues 0).submitted, (dev.queues 0).waiting)) =
        .ok (reorderedRequests, [⟨2, [⟨0x400, 1, 2⟩], 5⟩]) := by decide +kernel
  refine ⟨hcalls, ?_⟩
  rcases virtio_run_faithful [4] [0x5000] 3 reorderedCalls ringSize_four (by decide) hcalls with
    ⟨dev, hrun, hall⟩ | ⟨f, hrun, -⟩
  · have hrecords := of_map_eq_ok hend hrun
    obtain ⟨hsub, hwait⟩ := Prod.mk.inj hrecords
    exact ⟨dev, hrun, hsub, hwait, hall 0 (by decide)⟩
  · exact absurd hrun (reorderedCalls_ok f)

end Yaos
