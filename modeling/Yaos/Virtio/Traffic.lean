import Yaos.Virtio.Runs

set_option autoImplicit false

/-! # What a driver sees of its virtqueue

A driver that submits requests and gets them back through its callback sees only the data it gave with
each of them. What was submitted is what is outstanding and what the callback was called with. -/

namespace Yaos

/-- What a call that looks for completed requests of the queue `qidx` does not change. -/
structure Looked (qidx : Nat) (dev dev' : VirtioDev) : Prop where
  others : ∀ k, k ≠ qidx → dev'.queues k = dev.queues k
  submitted : (dev'.queues qidx).submitted = (dev.queues qidx).submitted
  handed : (dev.queues qidx).handed <+: (dev'.queues qidx).handed
  outstanding : (dev'.queues qidx).outstanding ⊆ (dev.queues qidx).outstanding
  num : (dev'.queues qidx).num = (dev.queues qidx).num
  numQueues : dev'.numQueues = dev.numQueues

section Looked

variable {qidx : Nat} {dev dev' : VirtioDev}

theorem Looked.refl (qidx : Nat) (dev : VirtioDev) : Looked qidx dev dev :=
  ⟨fun _ _ => rfl, rfl, List.prefix_rfl, fun _ h => h, rfl, rfl⟩

theorem Looked.trans {dev₁ : VirtioDev} (h : Looked qidx dev dev₁) (h' : Looked qidx dev₁ dev') :
    Looked qidx dev dev' :=
  ⟨fun k hk => (h'.others k hk).trans (h.others k hk), h'.submitted.trans h.submitted,
    h.handed.trans h'.handed, fun _ hsub => h.outstanding (h'.outstanding hsub), h'.num.trans h.num,
    h'.numQueues.trans h.numQueues⟩

theorem Looked.setQueue {q : VirtioQueue} (indirect : List IndirectDescTable)
    (hsub : q.submitted = (dev.queues qidx).submitted) (hhanded : (dev.queues qidx).handed <+: q.handed)
    (hout : q.outstanding ⊆ (dev.queues qidx).outstanding) (hnum : q.num = (dev.queues qidx).num) :
    Looked qidx dev ({ dev with indirect := indirect }.setQueue qidx q) := by
  refine ⟨fun k hk => setQueue_of_ne hk, ?_, ?_, ?_, ?_, rfl⟩
  · rw [setQueue_self]
    exact hsub
  · rw [setQueue_self]
    exact hhanded
  · rw [setQueue_self]
    exact hout
  · rw [setQueue_self]
    exact hnum

theorem host_outstanding (q : VirtioQueue) (s : HostStep) : (q.host s).outstanding ⊆ q.outstanding := by
  cases s with
  | fetch =>
      rw [VirtioQueue.host]
      split_ifs
      · exact fun _ h => h
      split
      · exact fun _ h => h
      case h_2 sub rest hwaiting =>
          intro x hx
          simp only [VirtioQueue.outstanding, hwaiting, List.mem_append, List.mem_cons, List.not_mem_nil,
            or_false] at hx ⊢
          tauto
  | complete h len =>
      rw [VirtioQueue.host]
      split
      · exact fun _ h => h
      case h_2 sub hfind =>
          have hheld := List.mem_of_find?_eq_some hfind
          intro x hx
          simp only [VirtioQueue.outstanding, List.map_append, List.map_cons, List.map_nil, List.mem_append,
            List.mem_cons, List.not_mem_nil, or_false] at hx ⊢
          rcases hx with (hx | hx) | hx | rfl
          · exact .inl (.inl hx)
          · exact .inl (.inr (List.mem_of_mem_eraseP hx))
          · exact .inr hx
          · exact .inl (.inr hheld)

theorem hostSteps_same (steps : List HostStep) (q : VirtioQueue) :
    (steps.foldl VirtioQueue.host q).submitted = q.submitted ∧
      (steps.foldl VirtioQueue.host q).handed = q.handed ∧
      (steps.foldl VirtioQueue.host q).outstanding ⊆ q.outstanding ∧
      (steps.foldl VirtioQueue.host q).num = q.num := by
  induction steps generalizing q with
  | nil => exact ⟨rfl, rfl, fun _ h => h, rfl⟩
  | cons s steps ih =>
      obtain ⟨hsub, hhanded, hout, hnum⟩ := ih (q.host s)
      have hone : (q.host s).submitted = q.submitted := by
        cases s with
        | fetch =>
            rw [VirtioQueue.host]
            split_ifs
            · rfl
            split <;> rfl
        | complete h len =>
            rw [VirtioQueue.host]
            split <;> rfl
      have hkeeps := hostKeeps q s
      exact ⟨hsub.trans hone, hhanded.trans hkeeps.handed, fun _ h => host_outstanding q s (hout h),
        hnum.trans hkeeps.num⟩

theorem Looked.host (steps : List HostStep) : Looked qidx dev (dev.host qidx steps) := by
  obtain ⟨hsub, hhanded, hout, hnum⟩ := hostSteps_same steps (dev.queues qidx)
  exact .setQueue dev.indirect hsub (hhanded ▸ List.prefix_rfl) hout hnum

theorem Looked.fromQueue {found : Option (Nat × Nat)}
    (h : virtioFromQueue dev qidx = .ok (found, dev')) : Looked qidx dev dev' := by
  rw [virtioFromQueue, assert_bind_eq_ok] at h
  obtain ⟨-, h⟩ := h
  dsimp only at h
  split at h
  · obtain ⟨-, rfl⟩ := Prod.mk.inj (Except.ok.inj h)
    exact .refl qidx dev
  · obtain ⟨-, h⟩ := assert_bind_eq_ok.1 h
    obtain ⟨-, h⟩ := assert_bind_eq_ok.1 h
    obtain ⟨⟨indirect₁, desc₁, idx, count⟩, -, h⟩ := bind_eq_ok.1 h
    obtain ⟨⟨indirect, desc⟩, -, h⟩ := bind_eq_ok.1 h
    obtain ⟨-, h⟩ := assert_bind_eq_ok.1 h
    obtain ⟨-, h⟩ := assert_bind_eq_ok.1 h
    obtain ⟨-, rfl⟩ := Prod.mk.inj (Except.ok.inj h)
    refine .setQueue indirect rfl List.prefix_rfl (fun x hx => ?_) rfl
    simp only [VirtioQueue.outstanding, VirtioQueue.giveBack, List.map_tail, List.mem_append] at hx ⊢
    exact hx.imp_right List.mem_of_mem_tail

theorem Looked.callback (x : Nat × Nat) : Looked qidx dev (dev.callback qidx x) :=
  .setQueue dev.indirect rfl (List.prefix_append _ _) (fun _ h => h) rfl

theorem Looked.readLoop {fuel : Nat} {steps : List (List HostStep)}
    (h : readLoop qidx fuel steps dev = .ok dev') : Looked qidx dev dev' := by
  induction fuel generalizing steps dev with
  | zero => cases h
  | succ fuel ih =>
      rw [Yaos.readLoop] at h
      obtain ⟨⟨found, dev₁⟩, hfrom, h⟩ := bind_eq_ok.1 h
      have hlook : Looked qidx dev dev₁ := (Looked.host (steps.headD [])).trans (.fromQueue hfrom)
      cases found with
      | none =>
          obtain rfl := Except.ok.inj h
          exact hlook
      | some x => exact hlook.trans ((Looked.callback x).trans (ih h))

theorem Looked.readQueue {steps : List (List HostStep)} (h : virtioReadQueue dev qidx steps = .ok dev') :
    Looked qidx dev dev' := by
  rw [virtioReadQueue, assert_bind_eq_ok] at h
  exact .readLoop h.2

end Looked

/-! ## Submitting -/

/-- The beginning of `virtio_to_queue`: `if (q->free_num + 4 < q->num) virtio_read_queue(dev, qidx);`. -/
def VirtioDev.collect (dev : VirtioDev) (qidx : Nat) (steps : List (List HostStep)) :
    Except Fault VirtioDev :=
  if (dev.queues qidx).freeNum + 4 < (dev.queues qidx).num then virtioReadQueue dev qidx steps
  else .ok dev

section Submitting

variable {qidx : Nat} {dev dev' : VirtioDev} {bufs : List AddrSize} {data r : Nat}
  {steps : List (List HostStep)}

theorem toQueue_eq_ok (h : dev.toQueue qidx bufs data steps = .ok (r, dev')) :
    data ≠ 0 ∧ ∃ dev₁ dev₂, dev.collect qidx steps = .ok dev₁ ∧
      enqueue dev₁ qidx bufs data = .ok (r, dev₂) ∧ dev' = dev₂.recorded qidx bufs data r := by
  obtain ⟨⟨r', dev₂⟩, hrun, h⟩ := bind_eq_ok.1 h
  obtain ⟨rfl, rfl⟩ := Prod.mk.inj (Except.ok.inj h)
  rw [virtioToQueue, assert_bind_eq_ok] at hrun
  obtain ⟨-, hrun⟩ := hrun
  rw [VirtioDev.collect]
  split at hrun
  · cases hrun
  case isFalse hdata =>
      refine ⟨hdata, ?_⟩
      split at hrun
      case isTrue hread =>
          rw [if_pos hread]
          obtain ⟨dev₁, hcollect, hrun⟩ := bind_eq_ok.1 hrun
          exact ⟨dev₁, dev₂, hcollect, hrun, rfl⟩
      case isFalse hread =>
          rw [if_neg hread]
          exact ⟨dev, dev₂, rfl, hrun, rfl⟩

theorem toQueue_eq (hq : qidx ≤ dev.numQueues) (hdata : data ≠ 0) :
    dev.toQueue qidx bufs data steps = dev.collect qidx steps >>= fun dev =>
      enqueue dev qidx bufs data >>= fun x => .ok (x.1, x.2.recorded qidx bufs data x.1) := by
  rw [VirtioDev.toQueue, virtioToQueue, assert_bind hq, if_neg hdata, VirtioDev.collect]
  split
  · cases virtioReadQueue dev qidx steps with
    | error f => rfl
    | ok dev => rfl
  · rfl

theorem Looked.collect (h : dev.collect qidx steps = .ok dev') : Looked qidx dev dev' := by
  rw [VirtioDev.collect] at h
  split at h
  · exact .readQueue h
  · obtain rfl := Except.ok.inj h
    exact .refl qidx dev

theorem Sound.collect (hsound : Sound dev) (hq : qidx < dev.numQueues)
    (h : dev.collect qidx steps = .ok dev') : Sound dev' ∧ (Synced dev → Synced dev') := by
  rw [VirtioDev.collect] at h
  split at h
  · obtain ⟨dev₁, hrun, hs, -, hy⟩ := hsound.readQueue hq steps
    obtain rfl := Except.ok.inj (hrun.symm.trans h)
    exact ⟨hs, hy⟩
  · obtain rfl := Except.ok.inj h
    exact ⟨hsound, id⟩

/-- What a request that is accepted adds to the queue `qidx`. -/
structure Enqueued (qidx : Nat) (dev dev' : VirtioDev) (bufs : List AddrSize) (data : Nat) : Prop where
  others : ∀ k, k ≠ qidx → dev'.queues k = dev.queues k
  submitted : (dev'.queues qidx).submitted = (dev.queues qidx).submitted ++
    [{ head := (dev'.queues qidx).newestHead, bufs := bufs, data := data }]
  handed : (dev'.queues qidx).handed = (dev.queues qidx).handed
  waiting : (dev'.queues qidx).waiting = (dev.queues qidx).waiting ++
    [{ head := (dev'.queues qidx).newestHead, bufs := bufs, data := data }]
  held : (dev'.queues qidx).held = (dev.queues qidx).held
  done : (dev'.queues qidx).done = (dev.queues qidx).done
  num : (dev'.queues qidx).num = (dev.queues qidx).num
  numQueues : dev'.numQueues = dev.numQueues

theorem Enqueued.outstanding (h : Enqueued qidx dev dev' bufs data) : (dev'.queues qidx).outstanding ⊆
    { head := (dev'.queues qidx).newestHead, bufs := bufs, data := data } :: (dev.queues qidx).outstanding := by
  intro x hx
  simp only [VirtioQueue.outstanding, h.waiting, h.held, h.done, List.mem_append, List.mem_cons,
    List.not_mem_nil, or_false] at hx ⊢
  tauto

theorem newestHead_record (q : VirtioQueue) (sub : Submission) : (q.record sub).newestHead = q.newestHead :=
  rfl

theorem Enqueued.publish {q : VirtioQueue} {indirect : List IndirectDescTable} {threads : Int} {head : Nat}
    (hlogs : q.submitted = (dev.queues qidx).submitted ∧ q.handed = (dev.queues qidx).handed)
    (hout : q.waiting = (dev.queues qidx).waiting ∧ q.held = (dev.queues qidx).held ∧
      q.done = (dev.queues qidx).done) (hnum : q.num = (dev.queues qidx).num) :
    Enqueued qidx dev (({ dev with indirect := indirect, threads := threads }.setQueue qidx
      (q.publish head data)).recorded qidx bufs data 0) bufs data := by
  rw [VirtioDev.recorded, if_pos rfl, setQueue_self, setQueue_setQueue]
  refine ⟨fun k hk => setQueue_of_ne hk, ?_, ?_, ?_, ?_, ?_, ?_, rfl⟩
  · rw [setQueue_self, newestHead_record, ← hlogs.1]
    rfl
  · rw [setQueue_self]
    exact hlogs.2
  · rw [setQueue_self, newestHead_record, ← hout.1]
    rfl
  · rw [setQueue_self]
    exact hout.2.1
  · rw [setQueue_self]
    exact hout.2.2
  · rw [setQueue_self]
    exact hnum

/-- A request is refused, and nothing changes, exactly when it would leave no descriptor free. -/
theorem enqueue_eq_ok (h : enqueue dev qidx bufs data = .ok (r, dev')) :
    (dev.queues qidx).freeNum ≤ bufs.length ∧ r = EAGAIN ∧ dev' = dev ∨
    bufs.length < (dev.queues qidx).freeNum ∧ r = 0 ∧
      Enqueued qidx dev (dev'.recorded qidx bufs data 0) bufs data := by
  rw [enqueue] at h
  dsimp only at h
  split at h
  case isTrue hleft =>
      obtain ⟨rfl, rfl⟩ := Prod.mk.inj (Except.ok.inj h)
      exact .inl ⟨by omega, rfl, rfl⟩
  case isFalse hleft =>
      refine .inr ⟨by omega, ?_⟩
      split at h
      · obtain ⟨⟨indirect, q'⟩, hset, h⟩ := bind_eq_ok.1 h
        obtain ⟨-, h⟩ := assert_bind_eq_ok.1 h
        obtain ⟨rfl, rfl⟩ := Prod.mk.inj (Except.ok.inj h)
        rw [setIndirectDescriptors] at hset
        split at hset
        · rw [assert_bind_eq_ok] at hset
          cases hset.2
        · rw [assert_bind_eq_ok] at hset
          obtain ⟨rfl, rfl⟩ := Prod.mk.inj (Except.ok.inj hset.2)
          exact ⟨rfl, .publish ⟨rfl, rfl⟩ ⟨rfl, rfl, rfl⟩ rfl⟩
      · obtain ⟨q', hset, h⟩ := bind_eq_ok.1 h
        obtain ⟨-, h⟩ := assert_bind_eq_ok.1 h
        obtain ⟨rfl, rfl⟩ := Prod.mk.inj (Except.ok.inj h)
        rw [setDirectDescriptors, assert_bind_eq_ok] at hset
        obtain ⟨-, hset⟩ := hset
        obtain ⟨⟨desc, i, vd⟩, -, hset⟩ := bind_eq_ok.1 hset
        dsimp only at hset
        split at hset
        · cases hset
        · obtain rfl := Except.ok.inj hset
          exact ⟨rfl, .publish ⟨rfl, rfl⟩ ⟨rfl, rfl, rfl⟩ rfl⟩

end Submitting

/-- The free descriptors that a request finds when completed requests have been collected. -/
def VirtioDev.freeAfter (dev : VirtioDev) (qidx : Nat) (steps : List (List HostStep)) : Nat :=
  match dev.collect qidx steps with
  | .ok dev => (dev.queues qidx).freeNum
  | .error _ => 0

/-- A request is refused exactly when it finds too few free descriptors. -/
theorem toQueue_cases {qidx : Nat} {dev dev' : VirtioDev} {bufs : List AddrSize} {data r : Nat}
    {steps : List (List HostStep)} (h : dev.toQueue qidx bufs data steps = .ok (r, dev')) :
    ∃ dev₁, dev.collect qidx steps = .ok dev₁ ∧
      (dev.freeAfter qidx steps ≤ bufs.length ∧ r = EAGAIN ∧ dev' = dev₁ ∨
      bufs.length < dev.freeAfter qidx steps ∧ r = 0 ∧ Enqueued qidx dev₁ dev' bufs data) := by
  obtain ⟨-, dev₁, dev₂, hcollect, hrun, rfl⟩ := toQueue_eq_ok h
  refine ⟨dev₁, hcollect, ?_⟩
  rw [VirtioDev.freeAfter, hcollect]
  rcases enqueue_eq_ok hrun with ⟨hfull, rfl, rfl⟩ | ⟨hroom, rfl, hqueued⟩
  · exact .inl ⟨hfull, rfl, rfl⟩
  · exact .inr ⟨hroom, rfl, hqueued⟩

/-! ## Other calls -/

/-- The queue that the call is about. -/
def VirtioCall.qidx : VirtioCall → Nat
  | .host qidx _ => qidx
  | .fromQueue qidx => qidx
  | .readQueue qidx _ => qidx
  | .toQueue qidx _ _ _ => qidx

/-- A call on one queue does not touch the others. -/
theorem call_others {dev dev' : VirtioDev} {c : VirtioCall} (h : dev.call c = .ok dev') {k : Nat}
    (hk : k ≠ c.qidx) : dev'.queues k = dev.queues k ∧ dev'.numQueues = dev.numQueues := by
  cases c with
  | host qidx step =>
      obtain rfl := Except.ok.inj h
      exact ⟨setQueue_of_ne hk, rfl⟩
  | fromQueue qidx =>
      obtain ⟨⟨found, dev₁⟩, hrun, h⟩ := bind_eq_ok.1 h
      obtain rfl := Except.ok.inj h
      have hlook := Looked.fromQueue hrun
      exact ⟨hlook.others k hk, hlook.numQueues⟩
  | readQueue qidx steps =>
      have hlook := Looked.readQueue h
      exact ⟨hlook.others k hk, hlook.numQueues⟩
  | toQueue qidx bufs data steps =>
      obtain ⟨⟨r, dev₁⟩, hrun, h⟩ := bind_eq_ok.1 h
      obtain rfl := Except.ok.inj h
      obtain ⟨dev₂, hcollect, hcase⟩ := toQueue_cases hrun
      have hlook := Looked.collect hcollect
      rcases hcase with ⟨-, -, rfl⟩ | ⟨-, -, hqueued⟩
      · exact ⟨hlook.others k hk, hlook.numQueues⟩
      · exact ⟨(hqueued.others k hk).trans (hlook.others k hk), hqueued.numQueues.trans hlook.numQueues⟩

/-- The calls that the rest of the driver makes. -/
def VirtioCall.Other (dev : VirtioDev) (qidx : Nat) (c : VirtioCall) : Prop :=
  c.Allowed dev.numQueues ∧ c.qidx ≠ qidx ∧ ∀ k, c ≠ .fromQueue k

instance (dev : VirtioDev) (qidx : Nat) (c : VirtioCall) : Decidable (c.Other dev qidx) :=
  match c with
  | .fromQueue k => isFalse fun h => h.2.2 k rfl
  | .host k step => decidable_of_iff
      (VirtioCall.Allowed dev.numQueues (.host k step) ∧ VirtioCall.qidx (.host k step) ≠ qidx)
      (by simp [VirtioCall.Other])
  | .readQueue k steps => decidable_of_iff
      (VirtioCall.Allowed dev.numQueues (.readQueue k steps) ∧ VirtioCall.qidx (.readQueue k steps) ≠ qidx)
      (by simp [VirtioCall.Other])
  | .toQueue k bufs data steps => decidable_of_iff
      (VirtioCall.Allowed dev.numQueues (.toQueue k bufs data steps) ∧
        VirtioCall.qidx (.toQueue k bufs data steps) ≠ qidx) (by simp [VirtioCall.Other])

/-- A call by the rest of the driver that returns. -/
theorem Sound.other {dev dev' : VirtioDev} {qidx : Nat} {c : VirtioCall} (h : Sound dev)
    (hother : c.Other dev qidx) (hcall : dev.call c = .ok dev') :
    Sound dev' ∧ (Synced dev → Synced dev') ∧ dev'.queues qidx = dev.queues qidx ∧
      dev'.numQueues = dev.numQueues := by
  obtain ⟨hallowed, hne, hfrom⟩ := hother
  rcases h.call hallowed with ⟨dev₁, hcall₁, hs', -, hy'⟩ | ⟨f, hfails, -⟩
  · obtain rfl := Except.ok.inj (hcall₁.symm.trans hcall)
    exact ⟨hs', hy' hfrom, call_others hcall hne.symm⟩
  · rw [hcall] at hfails
    cases hfails

/-- `virtio_queue_enable_intr`. -/
def VirtioDev.enableIntr (dev : VirtioDev) (qidx : Nat) : VirtioDev :=
  dev.setQueue qidx { dev.queues qidx with availFlags := 0 }

theorem Sound.enableIntr {dev : VirtioDev} {qidx : Nat} (h : Sound dev) (hq : qidx < dev.numQueues) :
    Sound (dev.enableIntr qidx) := by
  obtain ⟨free, reqs, h⟩ := h
  have hinv := h.queues qidx hq
  have hparts := hinv.parts
  have hflags : QueueInv dev.indirect { dev.queues qidx with availFlags := 0 } (free qidx) (reqs qidx) :=
    ⟨⟨hparts.linked, hparts.head, hparts.last, hparts.count, hparts.flags, hparts.heads,
      hparts.requests, hparts.all⟩, ⟨hinv.rings.size, hinv.rings.avail, hinv.rings.availRing,
      hinv.rings.lastUsed, hinv.rings.used, hinv.rings.usedRing⟩,
      ⟨hinv.logs.waiting, hinv.logs.submitted, hinv.logs.reported⟩, hinv.subs, hinv.data, hinv.owner⟩
  exact ⟨_, _, h.step_queue hq hflags rfl fun i => .inl rfl⟩

theorem Synced.enableIntr {dev : VirtioDev} {qidx : Nat} (h : Synced dev) :
    Synced (dev.enableIntr qidx) := by
  intro k
  by_cases hk : k = qidx
  · subst hk
    rw [VirtioDev.enableIntr, setQueue_self]
    exact h k
  · rw [VirtioDev.enableIntr, setQueue_of_ne hk]
    exact h k

/-! ## What comes back -/

/-- The data of the requests that the driver has not got back. -/
def VirtioDev.outstandingData (dev : VirtioDev) (qidx : Nat) : List Nat :=
  (dev.queues qidx).outstanding.map Submission.data

/-- The data that the callback was called with. -/
def VirtioDev.handedData (dev : VirtioDev) (qidx : Nat) : List Nat :=
  (dev.queues qidx).handed.map Prod.fst

theorem Sound.reported_length {dev : VirtioDev} {qidx : Nat} (h : Sound dev) (hq : qidx < dev.numQueues) :
    (dev.queues qidx).reported.length =
      (dev.queues qidx).collected.length + (dev.queues qidx).done.length := by
  obtain ⟨free, reqs, hinv⟩ := h
  have hlen := congrArg List.length (hinv.queues qidx hq).logs.reported
  simpa using hlen

/-- What was submitted is outstanding or has come back. -/
theorem Sound.traffic {dev : VirtioDev} {qidx : Nat} (h : Sound dev) (hq : qidx < dev.numQueues)
    (hsync : Synced dev) :
    ((dev.queues qidx).submitted.map Submission.data).Perm
      (dev.outstandingData qidx ++ dev.handedData qidx) := by
  obtain ⟨free, reqs, hinv⟩ := h
  have hlogs := (hinv.queues qidx hq).logs
  have htokens := congrArg (List.map Prod.fst) hlogs.reported
  simp only [List.map_map, List.map_append] at htokens
  have hfst : ∀ l : List (Submission × Nat),
      l.map (Prod.fst ∘ token) = (l.map Prod.fst).map Submission.data := fun l => by
    rw [List.map_map]
    rfl
  rw [hfst, hfst] at htokens
  refine (hlogs.submitted.map Submission.data).trans ?_
  rw [VirtioDev.outstandingData, VirtioQueue.outstanding, VirtioDev.handedData, hsync qidx]
  simp only [List.map_append, htokens, List.append_assoc]
  exact (List.perm_append_comm.append_left _).append_left _

/-- A look for completed requests gives the driver back what is no longer outstanding. -/
theorem Looked.back {qidx : Nat} {dev dev' : VirtioDev} (h : Looked qidx dev dev') (hsound : Sound dev)
    (hsound' : Sound dev') (hq : qidx < dev.numQueues) (hsync : Synced dev) (hsync' : Synced dev') :
    ∃ new, (dev'.queues qidx).handed = (dev.queues qidx).handed ++ new ∧
      (dev.outstandingData qidx).Perm (dev'.outstandingData qidx ++ new.map Prod.fst) := by
  obtain ⟨new, hnew⟩ := h.handed
  refine ⟨new, hnew.symm, ?_⟩
  have hbefore := hsound.traffic hq hsync
  have hafter := hsound'.traffic (h.numQueues ▸ hq) hsync'
  rw [h.submitted] at hafter
  have hboth := hbefore.symm.trans hafter
  rw [VirtioDev.handedData, VirtioDev.handedData, ← hnew, List.map_append] at hboth
  refine (List.perm_append_right_iff ((dev.queues qidx).handed.map Prod.fst)).1 (hboth.trans ?_)
  rw [List.append_assoc]
  exact List.perm_append_comm.append_left _

/-! ## Requests of one buffer -/

theorem Request.length_one {indirect : List IndirectDescTable} {desc : Nat → VringDesc} {ids : List Nat}
    {bufs : List AddrSize} (h : Request indirect desc ids bufs) (hbufs : bufs.length = 1) :
    ids.length = 1 := by
  rcases h with hdirect | ⟨i, rfl, -⟩
  · rw [hdirect.length_eq, hbufs]
  · rfl

theorem Sound.outstanding_lt {dev : VirtioDev} {qidx : Nat} (h : Sound dev) (hq : qidx < dev.numQueues) :
    (dev.queues qidx).outstanding.length < (dev.queues qidx).num := by
  obtain ⟨free, reqs, hinv⟩ := h
  have hlt := (hinv.queues qidx hq).outstanding_lt
  rw [VirtioQueue.outstanding]
  simpa [Nat.add_assoc] using hlt

/-- Where every request has one buffer, each takes one descriptor. -/
theorem Sound.freeNum_eq {dev : VirtioDev} {qidx : Nat} (h : Sound dev) (hq : qidx < dev.numQueues)
    (hone : ∀ sub ∈ (dev.queues qidx).outstanding, sub.bufs.length = 1) :
    (dev.queues qidx).freeNum + (dev.queues qidx).outstanding.length = (dev.queues qidx).num := by
  obtain ⟨free, reqs, hinv⟩ := h
  have hqueue := hinv.queues qidx hq
  have hparts := hqueue.parts
  have hids : ∀ e ∈ reqs qidx, e.ids.length = 1 := by
    intro e he
    exact (hparts.requests e he).length_one (hone e.sub (hqueue.subs.subset (List.mem_map_of_mem he)))
  have hcount : ((reqs qidx).flatMap Entry.ids).length = (reqs qidx).length := by
    rw [List.length_flatMap, List.map_congr_left hids]
    simp
  have hlen := hparts.all.length_eq
  have hsubs := hqueue.subs.length_eq
  rw [List.length_append, List.length_range, hcount, hparts.count] at hlen
  rw [VirtioQueue.outstanding]
  rw [List.length_map] at hsubs
  omega

/-- A request of one buffer needs no table. -/
theorem Sound.enqueue_one {dev : VirtioDev} {qidx data : Nat} (h : Sound dev) (hq : qidx < dev.numQueues)
    (vp : AddrSize) (hdata : data ≠ 0) :
    ∃ r dev', Yaos.enqueue dev qidx [vp] data = .ok (r, dev') ∧ Sound (dev'.recorded qidx [vp] data r) := by
  obtain ⟨free, reqs, hinv⟩ := h
  rw [Yaos.enqueue]
  dsimp only
  by_cases hleft : ((dev.queues qidx).freeNum : Int) - [vp].length ≤ 0
  · rw [if_pos hleft]
    exact ⟨_, _, rfl, free, reqs, hinv⟩
  · rw [if_neg hleft, if_neg (by simp)]
    obtain ⟨q', hrun, -, hsound⟩ := hinv.enqueue_direct hq (List.cons_ne_nil vp []) hdata (by omega)
    rw [hrun, ok_bind, assert_bind hq]
    exact ⟨_, _, rfl, hsound⟩

/-- As long as the host has completed nothing, there is nothing to collect. -/
theorem Sound.collect_quiet {dev : VirtioDev} {qidx : Nat} (h : Sound dev) (hq : qidx < dev.numQueues)
    (hdone : (dev.queues qidx).done = []) : dev.collect qidx [] = .ok dev := by
  have hhost : dev.host qidx [] = dev := by
    rw [VirtioDev.host, List.foldl_nil, VirtioDev.setQueue, Function.update_eq_self]
  rw [VirtioDev.collect]
  split
  · have hnum : 0 < (dev.queues qidx).num := Nat.lt_of_le_of_lt (Nat.zero_le _) (h.outstanding_lt hq)
    obtain ⟨k, hk⟩ := Nat.exists_eq_add_of_lt hnum
    rcases h.fromQueue hq with ⟨-, hfrom⟩ | ⟨x, rest, dev', hsome, -⟩
    · rw [virtioReadQueue, assert_bind hq, List.length_nil, hk, Nat.zero_add, Nat.zero_add, Yaos.readLoop,
        List.headD_nil, hhost, hfrom]
      rfl
    · rw [hdone] at hsome
      cases hsome
  · rfl

/-! ## Completions -/

/-- The requests handed to the callback are the completed ones, in the order of completion, up to
    those not read yet; every completed request was submitted, each one once; and the index of the ring
    is past all the requests that wait. -/
structure VirtioQueue.Delivered (q : VirtioQueue) : Prop where
  handed : q.handed <+: q.reported.map token
  all_read : q.collected.length = q.reported.length → q.handed = q.reported.map token
  submitted : q.submitted.Perm (q.waiting ++ q.held ++ q.reported.map Prod.fst)
  published : q.availIdx = (q.hostIdx + q.waiting.length) % 2 ^ 16

theorem QueueInv.delivered {indirect : List IndirectDescTable} {q : VirtioQueue} {free : List Nat}
    {reqs : List Entry} (h : QueueInv indirect q free reqs) (hsync : q.handed = q.collected) :
    q.Delivered := by
  refine ⟨?_, ?_, h.logs.submitted, h.rings.avail⟩
  · rw [h.logs.reported, hsync]
    exact List.prefix_append _ _
  · intro hread
    rw [h.logs.reported, hsync]
    have hlen := congrArg List.length h.logs.reported
    simp only [List.length_map, List.length_append] at hlen
    have hdone : q.done = [] := List.length_eq_zero_iff.1 (by omega)
    simp [hdone]

/-- `virtio_from_queue` returns -1 exactly when all reports have been collected, `virtio_read_queue`
    hands every completed request to the callback once, and `virtio_to_queue` returns 0 exactly when it
    finds more free descriptors than buffers, in every state of every run. -/
theorem virtio_run_delivered (nums paddrs : List Nat) (threads : Int) (calls : List VirtioCall)
    (hnums : ∀ n ∈ nums, RingSize n) (hpaddrs : paddrs.Nodup)
    (hcalls : ∀ c ∈ calls, c.Allowed nums.length ∧ ∀ qidx, c ≠ .fromQueue qidx) :
    (∃ dev, calls.foldlM VirtioDev.call (virtioSetupDevice nums paddrs threads) = .ok dev ∧
      ∀ qidx, qidx < nums.length →
        (virtioFromQueue dev qidx = .ok (none, dev) ↔
          (dev.queues qidx).collected.length = (dev.queues qidx).reported.length) ∧
        (dev.queues qidx).Delivered ∧
        ∀ bufs data steps r dev', virtioToQueue dev qidx bufs data steps = .ok (r, dev') →
          r = if bufs.length < dev.freeAfter qidx steps then 0 else EAGAIN) ∨
    ∃ f, calls.foldlM VirtioDev.call (virtioSetupDevice nums paddrs threads) = .error f ∧
      OutOfTables f := by
  rcases (virtioSetupDevice_sound threads hnums hpaddrs).run fun c hc => (hcalls c hc).1 with
    ⟨dev, hrun, hsound, hn, hsync⟩ | hfail
  · refine .inl ⟨dev, hrun, fun qidx hqidx => ?_⟩
    have hq : qidx < dev.numQueues := by
      rw [hn]
      exact hqidx
    have hdelivered : (dev.queues qidx).Delivered := by
      obtain ⟨free, reqs, hinv⟩ := hsound
      exact (hinv.queues qidx hq).delivered
        (hsync (fun c hc => (hcalls c hc).2) (virtioSetupDevice_synced nums paddrs threads) qidx)
    refine ⟨?_, hdelivered, fun bufs data steps r dev' hto => ?_⟩
    · have hlen := hsound.reported_length hq
      rcases hsound.fromQueue hq with ⟨hdone, hfrom⟩ | ⟨x, rest, dev', hdone, hfrom, -⟩
      · rw [hdone, List.length_nil] at hlen
        exact iff_of_true hfrom (by omega)
      · rw [hdone, List.length_cons] at hlen
        refine iff_of_false ?_ (by omega)
        rw [hfrom]
        simp
    · have hstep : dev.toQueue qidx bufs data steps = .ok (r, dev'.recorded qidx bufs data r) := by
        rw [VirtioDev.toQueue, hto]
        rfl
      obtain ⟨dev₁, -, ⟨hfull, hr, -⟩ | ⟨hroom, hr, -⟩⟩ := toQueue_cases hstep
      · rw [if_neg (Nat.not_lt.2 hfull), hr]
      · rw [if_pos hroom, hr]
  · exact .inr hfail

theorem virtio_run_delivered_reordered :
    (∀ c ∈ reorderedCalls, c.Allowed 1 ∧ ∀ qidx, c ≠ .fromQueue qidx) ∧
    ∃ dev, reorderedCalls.foldlM VirtioDev.call (virtioSetupDevice [4] [0x5000] 3) = .ok dev ∧
      (dev.queues 0).submitted = reorderedRequests ∧ (dev.queues 0).handed = [(9, 8), (7, 0)] ∧
      (dev.queues 0).Delivered := by
  have hcalls : ∀ c ∈ reorderedCalls, c.Allowed 1 ∧ ∀ qidx, c ≠ .fromQueue qidx := by
    intro c hc
    refine ⟨(by decide : ∀ c ∈ reorderedCalls, c.Allowed 1) c hc, ?_⟩
    rintro qidx rfl
    simp [reorderedCalls] at hc
  have hend : (reorderedCalls.foldlM VirtioDev.call (virtioSetupDevice [4] [0x5000] 3)).map
      (fun dev => ((dev.queues 0).submitted, (dev.queues 0).handed)) =
        .ok (reorderedRequests, [(9, 8), (7, 0)]) := by decide +kernel
  refine ⟨hcalls, ?_⟩
  rcases virtio_run_delivered [4] [0x5000] 3 reorderedCalls ringSize_four (by decide) hcalls with
    ⟨dev, hrun, hall⟩ | ⟨f, hrun, -⟩
  · have hrecords := of_map_eq_ok hend hrun
    obtain ⟨hsub, hhanded⟩ := Prod.mk.inj hrecords
    exact ⟨dev, hrun, hsub, hhanded, (hall 0 (by decide)).2.1⟩
  · exact absurd hrun (reorderedCalls_ok f)

end Yaos
