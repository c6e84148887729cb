import Yaos.Blk
import Yaos.Kthread.Current
import Yaos.Lib.Run
import Yaos.Virtio.Traffic

set_option autoImplicit false

/-! # Waking the readers

A thread in `virtio_blk_read` is woken by the callback of its request, if all goes well: when no other
thread is in there, so that `rq` goes on naming it, when the queue has room for the request, and when the
request is drained no sooner than the thread is suspended. Under these conditions no thread is ever left
behind. -/

namespace Yaos

/-- The request with number `k` has not been drained: it is outstanding, and no later request has its head. -/
def VirtioQueue.InFlight (q : VirtioQueue) (k : Nat) : Prop :=
  ∃ sub, q.submitted[k]? = some sub ∧ sub ∈ q.outstanding ∧
    ∀ j sub', k < j → q.submitted[j]? = some sub' → sub'.head ≠ sub.head

/-- Every thread asleep in `virtio_blk_read` has a request that was queued and is not drained. -/
def BlkState.NoneLost (st : BlkState) : Prop :=
  ∀ t r, st.place t = .asleep r → ∃ k, r = some k ∧ st.queue.InFlight k

/-- A thread enters `virtio_blk_read` when no thread is in there, and finds more than three free descriptors.
    A request is drained when its thread is not between the two calls of `virtio_blk_read`. -/
def BlkStep.Orderly (st : BlkState) : BlkStep → Prop
  | .submit _ steps => (∀ t, st.place t = .outside) ∧ 3 < st.dev.freeAfter 0 steps
  | .drain => ∀ x ∈ st.queue.done.head?, ∀ t k, st.place t = .submitted (some k) →
      st.queue.submitted[k]? ≠ some x.1
  | _ => True

/-- The only thread that can be in `virtio_blk_read` is the one that `rq` names, and its request is in
    flight. -/
structure BlkState.Waits (st : BlkState) : Prop where
  sound : Sound st.dev
  hasQueue : 0 < st.dev.numQueues
  reader : ∀ t r, st.place t = .submitted r ∨ st.place t = .asleep r →
    t = st.rq.thread ∧ (st.cpu.threads t).state ≠ .init ∧ ∃ k, r = some k ∧ st.queue.InFlight k
  asleep : ∀ t r, st.place t = .asleep r → (st.cpu.threads t).suspend = true ∧ t ≠ st.cpu.current

theorem BlkState.Waits.noneLost {st : BlkState} (h : st.Waits) : st.NoneLost :=
  fun t r ht => (h.reader t r (.inr ht)).2.2

/-! ## Threads -/

section Threads

variable {s s' : Cpu} {p old t fuel : Nat} {mark : Bool}

theorem Switched.not_init (h : Switched s s' p old mark) (ht : (s.threads t).state ≠ .init) :
    (s'.threads t).state ≠ .init := by
  by_cases hp : t = p
  · subst hp
    rcases h.target with ⟨-, hrun⟩ | ⟨-, hsame⟩
    · simp [hrun]
    · rwa [hsame]
  · rwa [h.state t hp]

theorem suspendThread_cases (h : suspendThread fuel s = .ok s') :
    ∃ p, Switched ((s.setSuspend s.current true).setCurrent p) s' p s.current true := by
  obtain ⟨-, h⟩ := assert_bind_eq_ok.1 h
  obtain ⟨r, -, h⟩ := bind_eq_ok.1 h
  cases r with
  | none => cases h
  | some p =>
      obtain ⟨-, h⟩ := assert_bind_eq_ok.1 h
      exact ⟨p, switchThread_switched h⟩

/-- A thread that ran once is not in state `THREAD_INIT` again. -/
theorem threadCall_not_init {c : ThreadCall} (h : threadCall fuel s c = .ok s')
    (ht : (s.threads t).state ≠ .init) : (s'.threads t).state ≠ .init := by
  cases c with
  | resume p =>
      rw [threadCall, resumeThread] at h
      split at h
      · obtain rfl := Except.ok.inj h
        exact ht
      · obtain ⟨-, h⟩ := assert_bind_eq_ok.1 h
        exact (switchThread_switched h).not_init (by simpa [Cpu.setCurrent] using ht)
  | yield =>
      rw [threadCall, yieldThread] at h
      obtain ⟨-, h⟩ := assert_bind_eq_ok.1 h
      split at h
      · cases h
      · exact (switchThread_switched h).not_init (by simpa [Cpu.setCurrent] using ht)
  | suspend =>
      obtain ⟨p, hsw⟩ := suspendThread_cases h
      exact hsw.not_init (by simpa [Cpu.setCurrent] using ht)
  | wakeUp p =>
      rw [threadCall, wakeUpThread] at h
      split at h
      · obtain rfl := Except.ok.inj h
        exact ht
      split at h
      · obtain rfl := Except.ok.inj h
        exact ht
      split at h
      · obtain ⟨found, -, h⟩ := bind_eq_ok.1 h
        obtain ⟨-, h⟩ := assert_bind_eq_ok.1 h
        obtain rfl := Except.ok.inj h
        exact ht
      · exact (switchThread_switched h).not_init (by simpa [Cpu.setCurrent] using ht)
  | exit =>
      rw [threadCall, exitThread] at h
      split at h
      · cases h
      · refine (switchThread_switched h).not_init ?_
        by_cases hcur : t = s.current
        · simp [Cpu.setState, Cpu.set, hcur]
        · simpa [Cpu.setState, Cpu.set, Function.update_of_ne hcur] using ht

/-- A suspended thread that is not `current` gets woken. -/
theorem wakeUpThread_wakes (h : wakeUpThread fuel s p = .ok s') (hcur : p ≠ s.current)
    (hinit : (s.threads p).state ≠ .init) (hasleep : (s.threads p).suspend = true) :
    (s'.threads p).suspend = false := by
  rw [wakeUpThread] at h
  rw [if_neg hcur, if_neg hinit, if_neg (by simp [hasleep])] at h
  rw [(switchThread_switched h).suspend, setParent_suspend]
  simp [Cpu.setCurrent, Cpu.setSuspend, Cpu.set]

end Threads

/-! ## Requests in flight -/

section Queue

variable {dev dev' : VirtioDev} {k : Nat}

/-- The host moves requests on and drops none. -/
theorem Sound.host_perm (h : Sound dev) (hq : 0 < dev.numQueues) (steps : List HostStep) :
    ((dev.host 0 steps).queues 0).outstanding.Perm (dev.queues 0).outstanding := by
  obtain ⟨free, reqs, hinv⟩ := h
  have hbefore := (hinv.queues 0 hq).subs
  have hafter := ((hinv.queues 0 hq).hostSteps steps).1.subs
  rw [VirtioDev.host, setQueue_self]
  exact hafter.symm.trans hbefore

theorem VirtioQueue.InFlight.congr {q q' : VirtioQueue} (h : q.InFlight k)
    (hsub : q'.submitted = q.submitted)
    (hout : ∀ sub ∈ q.outstanding, q.submitted[k]? = some sub → sub ∈ q'.outstanding) : q'.InFlight k := by
  obtain ⟨sub, hk, hmem, hlater⟩ := h
  exact ⟨sub, hsub ▸ hk, hout sub hmem hk, fun j sub' hj hsub' => hlater j sub' hj (hsub ▸ hsub')⟩

/-- The newest request. -/
theorem Enqueued.inFlight {bufs : List AddrSize} {data : Nat} (h : Enqueued 0 dev dev' bufs data) :
    (dev'.queues 0).InFlight (dev.queues 0).submitted.length := by
  refine ⟨{ head := (dev'.queues 0).newestHead, bufs := bufs, data := data }, ?_, ?_, fun j sub' hj hsub' => ?_⟩
  · rw [h.submitted]
    simp
  · rw [VirtioQueue.outstanding, h.waiting]
    simp
  · rw [h.submitted] at hsub'
    have hlt := (List.getElem?_eq_some_iff.1 hsub').1
    rw [List.length_append, List.length_singleton] at hlt
    omega

/-- Draining takes the oldest report and no other request. -/
theorem Sound.drained {x : Submission × Nat} {rest : List (Submission × Nat)} (h : Sound dev)
    (hq : 0 < dev.numQueues) (hdone : (dev.queues 0).done = x :: rest) :
    ∃ dev', virtioFromQueue dev 0 = .ok (some (token x), dev') ∧ Sound (dev'.callback 0 (token x)) ∧
      dev'.numQueues = dev.numQueues ∧ (dev'.queues 0).submitted = (dev.queues 0).submitted ∧
      ∀ sub ∈ (dev.queues 0).outstanding, sub ≠ x.1 → sub ∈ (dev'.queues 0).outstanding := by
  obtain ⟨free, reqs, hinv⟩ := h
  obtain ⟨indirect, desc, last, n, hrun, -, hsound⟩ := hinv.fromQueue hq hdone
  refine ⟨_, hrun, hsound.callback hq _, rfl, ?_, fun sub hsub hne => ?_⟩
  · rw [setQueue_self]
    rfl
  · rw [setQueue_self]
    simp only [VirtioQueue.outstanding, VirtioQueue.giveBack, hdone, List.map_cons, List.tail_cons,
      List.mem_append, List.mem_cons] at hsub ⊢
    tauto

end Queue

/-! ## The steps -/

section Steps

variable {a : BlkStatics} {fuel : Nat} {st st' : BlkState}

theorem settle_submitted {t : Nat} {r : Option Nat} :
    st.settle.place t = .submitted r ↔ st.place t = .submitted r := by
  rw [BlkState.settle]
  dsimp only
  cases hp : st.place t with
  | outside => simp
  | submitted r' => simp
  | asleep r' =>
      dsimp only
      split_ifs <;> simp

theorem settle_asleep {t : Nat} {r : Option Nat} :
    st.settle.place t = .asleep r ↔
      st.place t = .asleep r ∧ (st.cpu.threads t).suspend = true ∧ t ≠ st.cpu.current := by
  rw [BlkState.settle]
  dsimp only
  cases hp : st.place t with
  | outside => simp
  | submitted r' => simp
  | asleep r' =>
      dsimp only
      split_ifs with hc
      · simp [hc]
      · simp only [BlkPlace.asleep.injEq, false_iff]
        exact fun h => hc h.2

/-- Who is still asleep after a switch is suspended and does not run. -/
theorem waits_settle (hsound : Sound st.dev) (hq : 0 < st.dev.numQueues)
    (hreader : ∀ t r, st.place t = .submitted r ∨
      st.place t = .asleep r ∧ (st.cpu.threads t).suspend = true ∧ t ≠ st.cpu.current →
      t = st.rq.thread ∧ (st.cpu.threads t).state ≠ .init ∧ ∃ k, r = some k ∧ st.queue.InFlight k) :
    st.settle.Waits where
  sound := hsound
  hasQueue := hq
  reader t r ht := hreader t r (ht.imp settle_submitted.1 settle_asleep.1)
  asleep _ _ ht := (settle_asleep.1 ht).2

theorem BlkState.Waits.submit (h : st.Waits) {sector : Nat} {steps : List (List HostStep)}
    (hstate : (st.cpu.threads st.cpu.current).state ≠ .init) (hnone : ∀ t, st.place t = .outside)
    (hroom : 3 < st.dev.freeAfter 0 steps) (hok : st.submit a sector steps = .ok st') : st'.Waits := by
  obtain ⟨⟨ret, dev⟩, hrun, hok⟩ := bind_eq_ok.1 hok
  obtain rfl := Except.ok.inj hok
  obtain ⟨dev₁, hcollect, hcase⟩ := toQueue_cases hrun
  have hlook := Looked.collect hcollect
  have hq : 0 < dev₁.numQueues := hlook.numQueues ▸ h.hasQueue
  have hlen : a.phys.length ≤ mapvecNr + mapvecNr / 2 := by simp [BlkStatics.phys, mapvecNr]
  rcases hcase with ⟨hfull, -⟩ | ⟨-, rfl, hqueued⟩
  · exact absurd hfull (Nat.not_le.2 hroom)
  have hflight := hqueued.inFlight
  rw [hlook.submitted] at hflight
  refine ⟨?_, hqueued.numQueues ▸ hq, fun t r ht => ?_, fun t r ht => ?_⟩
  · rcases h.sound.toQueue h.hasQueue (List.cons_ne_nil _ _) hlen a.rq_ne steps with
      ⟨r, dev', hrun', hsound', -⟩ | ⟨f, hrun', -⟩
    · obtain ⟨-, rfl⟩ := Prod.mk.inj (Except.ok.inj (hrun.symm.trans hrun'))
      exact hsound'
    · cases hrun.symm.trans hrun'
  · by_cases hcur : t = st.cpu.current
    · subst hcur
      simp only [BlkState.setPlace, Function.update_self, BlkPlace.submitted.injEq, reduceCtorEq,
        or_false, if_true] at ht
      exact ⟨rfl, hstate, _, ht.symm, hflight⟩
    · simp only [BlkState.setPlace, Function.update_of_ne hcur, hnone t, reduceCtorEq, or_false] at ht
  · by_cases hcur : t = st.cpu.current
    · subst hcur
      simp only [BlkState.setPlace, Function.update_self, reduceCtorEq] at ht
    · simp only [BlkState.setPlace, Function.update_of_ne hcur, hnone t, reduceCtorEq] at ht

theorem BlkState.Waits.suspend (h : st.Waits) {r : Option Nat}
    (hplace : st.place st.cpu.current = .submitted r) (hok : st.suspend fuel r = .ok st') : st'.Waits := by
  obtain ⟨cpu, hcall, hok⟩ := bind_eq_ok.1 hok
  obtain rfl := Except.ok.inj hok
  refine waits_settle h.sound h.hasQueue fun t r' ht => ?_
  have hold : st.place t = .submitted r' ∨ st.place t = .asleep r' := by
    by_cases hcur : t = st.cpu.current
    · subst hcur
      simp only [BlkState.setPlace, Function.update_self, reduceCtorEq, BlkPlace.asleep.injEq,
        false_or] at ht
      exact .inl (ht.1 ▸ hplace)
    · simp only [BlkState.setPlace, Function.update_of_ne hcur] at ht
      exact ht.imp_right And.left
  obtain ⟨hthread, hinit, hflight⟩ := h.reader t r' hold
  exact ⟨hthread, threadCall_not_init (c := .suspend) hcall hinit, hflight⟩

theorem BlkState.Waits.host (h : st.Waits) (step : HostStep) :
    BlkState.Waits { st with dev := st.dev.host 0 [step] } where
  sound := h.sound.host h.hasQueue [step]
  hasQueue := h.hasQueue
  reader t r ht := by
    obtain ⟨hthread, hinit, k, hr, hflight⟩ := h.reader t r ht
    have hperm := h.sound.host_perm h.hasQueue [step]
    refine ⟨hthread, hinit, k, hr, hflight.congr ?_ fun sub hsub _ => hperm.mem_iff.2 hsub⟩
    exact (Looked.host [step]).submitted
  asleep := h.asleep

/-- The drained request is not that of a thread that is yet to be suspended, and the callback wakes every
    thread that is asleep. -/
theorem BlkState.Waits.drain (h : st.Waits) (horderly : BlkStep.Orderly st .drain)
    (hok : st.drain fuel = .ok st') : st'.Waits := by
  obtain ⟨⟨found, dev⟩, hfrom, hok⟩ := bind_eq_ok.1 hok
  cases hdone : st.queue.done with
  | nil =>
      rcases h.sound.fromQueue h.hasQueue with ⟨-, hnone⟩ | ⟨x, rest, dev', hsome, -⟩
      · obtain ⟨rfl, rfl⟩ := Prod.mk.inj (Except.ok.inj (hfrom.symm.trans hnone))
        obtain rfl := Except.ok.inj hok
        exact h
      · cases hdone.symm.trans hsome
  | cons x rest =>
      obtain ⟨dev', hrun, hsound, hnum, hsub, hout⟩ := h.sound.drained h.hasQueue hdone
      obtain ⟨rfl, hdev⟩ := Prod.mk.inj (Except.ok.inj (hfrom.symm.trans hrun))
      rw [← hdev] at hsound hnum hsub hout
      obtain ⟨cpu, hwake, hok⟩ := bind_eq_ok.1 hok
      obtain rfl := Except.ok.inj hok
      refine waits_settle hsound (hnum ▸ h.hasQueue) fun t r ht => ?_
      rcases ht with ht | ⟨ht, hasleep, -⟩
      · obtain ⟨hthread, hinit, k, rfl, hflight⟩ := h.reader t r (.inl ht)
        refine ⟨hthread, threadCall_not_init (c := .wakeUp st.rq.thread) hwake hinit, k, rfl, ?_⟩
        have hother : st.queue.submitted[k]? ≠ some x.1 := horderly x (by rw [hdone]; rfl) t k ht
        have hkept : (dev.queues 0).InFlight k := hflight.congr hsub fun sub hmem hk => by
          refine hout sub hmem ?_
          rintro rfl
          exact hother hk
        rw [BlkState.queue, VirtioDev.callback, setQueue_self]
        exact hkept
      · obtain ⟨rfl, hinit, -⟩ := h.reader t r (.inr ht)
        obtain ⟨hsusp, hcur⟩ := h.asleep _ r ht
        cases hasleep.symm.trans (wakeUpThread_wakes hwake hcur hinit hsusp)

/-- Once the thread in `virtio_blk_read` is suspended, its request can be drained. -/
theorem BlkState.Waits.orderly_drain (h : st.Waits) (hplace : ∀ r, st.place st.rq.thread ≠ .submitted r) :
    BlkStep.Orderly st .drain := by
  intro x _ t k ht
  obtain ⟨rfl, -⟩ := h.reader t _ (.inl ht)
  exact absurd ht (hplace _)

theorem BlkState.Waits.other (h : st.Waits) {c : ThreadCall} {cpu : Cpu}
    (hcall : threadCall fuel st.cpu c = .ok cpu) :
    BlkState.Waits ({ st with cpu := cpu } : BlkState).settle := by
  refine waits_settle h.sound h.hasQueue fun t r ht => ?_
  obtain ⟨hthread, hinit, hflight⟩ := h.reader t r (ht.imp_right And.left)
  exact ⟨hthread, threadCall_not_init hcall hinit, hflight⟩

theorem BlkState.Waits.step (h : st.Waits) {c : BlkStep} (hc : c.Orderly st)
    (hok : st.step a fuel c = .ok st') : st'.Waits := by
  cases c with
  | submit sector steps =>
      rw [BlkState.step] at hok
      split at hok
      case isTrue hguard => exact h.submit hguard.2 hc.1 hc.2 hok
      case isFalse hguard =>
          obtain rfl := Except.ok.inj hok
          exact h
  | suspend =>
      rw [BlkState.step] at hok
      split at hok
      case h_1 r hplace => exact h.suspend hplace hok
      case h_2 hplace =>
          obtain rfl := Except.ok.inj hok
          exact h
  | drain => exact h.drain hc hok
  | host step =>
      obtain rfl := Except.ok.inj hok
      exact h.host step
  | other c =>
      rw [BlkState.step] at hok
      split at hok
      case isTrue hguard =>
          obtain ⟨cpu, hcall, hok⟩ := bind_eq_ok.1 hok
          obtain rfl := Except.ok.inj hok
          exact h.other hcall
      case isFalse hguard =>
          obtain rfl := Except.ok.inj hok
          exact h

end Steps

/-! ## Runs -/

/-- A device just set up, and no thread in `virtio_blk_read`. -/
def blkSetup (nums paddrs : List Nat) (threads : Int) (rq : BlkReq) (cpu : Cpu) : BlkState where
  dev := virtioSetupDevice nums paddrs threads
  rq := rq
  cpu := cpu
  place _ := .outside

theorem blkSetup_waits {nums paddrs : List Nat} (threads : Int) (rq : BlkReq) (cpu : Cpu)
    (hnums : ∀ n ∈ nums, RingSize n) (hlength : 0 < nums.length) (hpaddrs : paddrs.Nodup) :
    (blkSetup nums paddrs threads rq cpu).Waits where
  sound := virtioSetupDevice_sound threads hnums hpaddrs
  hasQueue := hlength
  reader t r ht := by rcases ht with ht | ht <;> cases ht
  asleep t r ht := by cases ht

/-- As long as all steps are orderly, a thread sleeps for a request only while that is in flight. -/
theorem blk_none_lost {a : BlkStatics} {fuel : Nat} {nums paddrs : List Nat} {threads : Int} {rq : BlkReq}
    {cpu : Cpu} {steps : List BlkStep} (hnums : ∀ n ∈ nums, RingSize n) (hlength : 0 < nums.length)
    (hpaddrs : paddrs.Nodup)
    (horderly : Run.AllSafe (BlkState.step a fuel) (fun st c => c.Orderly st)
      (blkSetup nums paddrs threads rq cpu) steps) :
    ∀ pre, pre <+: steps → ∀ st,
      pre.foldlM (BlkState.step a fuel) (blkSetup nums paddrs threads rq cpu) = .ok st → st.NoneLost := by
  rintro pre ⟨rest, rfl⟩ st hrun
  have hsetup := blkSetup_waits threads rq cpu hnums hlength hpaddrs
  exact (Run.AllSafe.keeps (fun c st st' h hok hc => BlkState.Waits.step h hc hok)
    (horderly.append hrun).1 hsetup hrun).noneLost

/-- The statics at some addresses. -/
def blkStatics : BlkStatics where
  hdr := 0x1000
  buf := 0x2000
  status := 0x1018
  rq := 0x1000
  rq_ne := by decide

/-- `idle` runs on a CPU just set up, and the queue has eight descriptors. -/
def blkStart : BlkState := blkSetup [8] [] 0 { type := 0, ioprio := 0, sector := 0, thread := 0 } bootCpu

/-- `kmain` reads a block, and is suspended before the host completes the request. -/
def slowRead : List BlkStep :=
  [.other .yield, .submit 2 [], .host .fetch, .suspend, .host (.complete 0 512)]

/-- The interrupt handler drains the request and wakes `kmain`. -/
def wokenRead : List BlkStep := slowRead ++ [.drain]

theorem blk_none_lost_slow :
    (∀ pre, pre <+: wokenRead → ∀ st,
      pre.foldlM (BlkState.step blkStatics 3) blkStart = .ok st → st.NoneLost) ∧
    (slowRead.foldlM (BlkState.step blkStatics 3) blkStart).map
      (fun st => (st.place 1, st.queue.outstanding.length)) = .ok (.asleep (some 0), 1) ∧
    (wokenRead.foldlM (BlkState.step blkStatics 3) blkStart).map
      (fun st => (st.place 1, st.cpu.current, st.queue.outstanding.length)) = .ok (.outside, 1, 0) := by
  have hnums : ∀ n ∈ [8], RingSize n := fun n hn => ⟨3, by decide, by simpa using hn⟩
  have hsafe : Run.AllSafe (BlkState.step blkStatics 3) (fun st c => c.Orderly st) blkStart slowRead := by
    refine fun st₁ h₁ => ⟨trivial, fun st₂ _ => ⟨?_, fun st₃ _ => ?_⟩⟩
    · obtain rfl := Except.ok.inj h₁
      exact ⟨fun t => rfl, by decide⟩
    · exact ⟨trivial, fun st₄ _ => ⟨trivial, fun st₅ _ => ⟨trivial, trivial⟩⟩⟩
  have hasleep : (slowRead.foldlM (BlkState.step blkStatics 3) blkStart).map
      (fun st => st.place st.rq.thread) = .ok (.asleep (some 0)) := by decide +kernel
  refine ⟨@blk_none_lost blkStatics 3 [8] [] 0 { type := 0, ioprio := 0, sector := 0, thread := 0 } bootCpu
    wokenRead hnums (by decide) (by decide) (hsafe.concat fun st hrun => ?_),
    by decide +kernel, by decide +kernel⟩
  have hwaits : st.Waits := Run.AllSafe.keeps (fun c st st' h hok hc => BlkState.Waits.step h hc hok) hsafe
    (blkSetup_waits 0 _ bootCpu hnums (by decide) (by decide)) hrun
  have hplace := of_map_eq_ok hasleep hrun
  refine hwaits.orderly_drain fun r hr => ?_
  rw [hr] at hplace
  cases hplace

/-- The host completes the request of `kmain`, and the interrupt handler drains it, before `kmain` is
    suspended. -/
def fastRead : List BlkStep :=
  [.other .yield, .submit 2 [], .host .fetch, .host (.complete 0 512), .drain, .suspend]

/-- `kmain` is not woken up. -/
theorem blk_lost_fast : ¬ ∀ st, fastRead.foldlM (BlkState.step blkStatics 3) blkStart = .ok st →
    st.NoneLost := by
  intro hall
  have hend : (fastRead.foldlM (BlkState.step blkStatics 3) blkStart).map
      (fun st => (st.place 1, st.queue.outstanding.length)) = .ok (.asleep (some 0), 0) := by
    decide +kernel
  obtain ⟨st, hrun, hend⟩ := map_eq_ok.1 hend
  obtain ⟨hplace, hout⟩ := Prod.mk.inj hend
  obtain ⟨k, -, sub, -, hmem, -⟩ := hall st hrun 1 _ hplace
  rw [List.length_eq_zero_iff.1 hout] at hmem
  cases hmem

end Yaos
