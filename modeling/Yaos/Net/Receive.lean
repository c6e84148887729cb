import Yaos.Lib.Run
import Yaos.Net.Transmit

set_option autoImplicit false

/-! # Receiving packets (`module/net/virtio/virtio_net.c`)

The driver has `BUF_PACKETS` packets. `virtio_net_refill_rx_queue` gives free ones to the host, up to half
of them; `rx_queue_callback` puts one that has come back on `recv_list`, and `poll_callback` delivers the
packets on that list and frees them. A packet that the queue refuses is counted as given to the host and
is on no list any more. -/

namespace Yaos

/-- `BUF_PACKETS`. -/
def bufPackets : Nat := 64

/-- `MAX_PACK_SIZE`. -/
def maxPackSize : Nat := 1514

/-- The receive side of the driver: its device, and where the packets are. -/
structure Rx where
  dev : VirtioDev
  freeList : List Nat
  recvList : List Nat
  /-- `poll_list`: the packets that `poll_callback` has still to deliver. -/
  batch : List Nat
  inRx : Int

/-- `rx_queue_callback`. -/
def Rx.rxQueueCallback (s : Rx) (x : Nat × Nat) : Rx :=
  { s with recvList := s.recvList ++ [x.1], inRx := s.inRx - 1 }

/-- The device after a call, which has passed to the callback what it was called with since. -/
def Rx.called (s : Rx) (dev : VirtioDev) : Rx :=
  ((dev.queues rxQ).handed.drop (s.dev.queues rxQ).handed.length).foldl Rx.rxQueueCallback
    { s with dev := dev }

section Driver

-- The addresses of the packets as the host sees them.
variable (pdata : Nat → Nat)

/-- The second loop of `virtio_net_refill_rx_queue`, which does not look at what `virtio_to_queue`
    returns; `steps` lists what the host does during each call. -/
def refillLoop : List Nat → List (List (List HostStep)) → Rx → Except Fault Rx
  | [], _, s => .ok s
  | p :: arr, steps, s => do
      let phys : AddrSize := { vpAddr := pdata p, vpSize := maxPackSize, vpFlags := 2 }
      let (_, dev) ← s.dev.toQueue rxQ [phys] p (steps.headD [])
      let s := s.called dev
      refillLoop arr steps.tail { s with inRx := s.inRx + 1 }

/-- `virtio_net_refill_rx_queue`. The packets that the queue does not take are in no list. -/
def virtioNetRefillRxQueue (s : Rx) (steps : List (List (List HostStep))) : Except Fault Rx :=
  let max := (bufPackets / 2 - s.inRx).toNat
  refillLoop pdata (s.freeList.take max) steps { s with freeList := s.freeList.drop max }

/-- The steps of the driver. -/
inductive RxStep
  | refill (steps : List (List (List HostStep)))
  /-- `rx_poll_callback`. -/
  | rxPoll (steps : List (List HostStep))
  /-- `poll_callback` takes the received packets. -/
  | take
  /-- It delivers one of them. -/
  | give
  | host (step : HostStep)
  /-- A call on another queue of the device. -/
  | other (c : VirtioCall)

/-- One step. -/
def Rx.step (s : Rx) : RxStep → Except Fault Rx
  | .refill steps => virtioNetRefillRxQueue pdata s steps
  | .rxPoll steps => do
      let dev ← virtioReadQueue s.dev rxQ steps
      .ok (s.called dev)
  | .take => if s.batch = [] then .ok { s with batch := s.recvList, recvList := [] } else .ok s
  | .give =>
      match s.batch with
      | [] => .ok s
      | p :: rest => .ok { s with batch := rest, freeList := s.freeList ++ [p] }
  | .host step => .ok { s with dev := s.dev.host rxQ [step] }
  | .other c =>
      if c.Other s.dev rxQ then do
        let dev ← s.dev.call c
        .ok { s with dev := dev }
      else .ok s

end Driver

/-- The packets, named by their addresses in the order in which `virtio_net_init_queues` frees them. -/
def packets : List Nat := ((List.range bufPackets).map (· + 1)).reverse

/-- The device is set up, and all packets are free. -/
def Rx.setup (nums paddrs : List Nat) (threads : Int) : Rx where
  dev := virtioSetupDevice nums paddrs threads
  freeList := packets
  recvList := []
  batch := []
  inRx := 0

/-- Every packet is in one place, and `in_rx` counts those that the host has. -/
structure Rx.Conserved (s : Rx) : Prop where
  places : (s.freeList ++ s.recvList ++ s.batch ++ s.dev.outstandingData rxQ).Perm packets
  count : s.inRx = (s.dev.queues rxQ).outstanding.length

/-! ## Large queues -/

/-- The invariant for a queue that has room for half of the packets; `arr` are packets on their way
    into the queue. -/
structure Rx.Flowing (s : Rx) (arr : List Nat) : Prop where
  sound : Sound s.dev
  exists_rx : rxQ < s.dev.numQueues
  synced : Synced s.dev
  places : (s.freeList ++ s.recvList ++ s.batch ++ s.dev.outstandingData rxQ ++ arr).Perm packets
  count : s.inRx = (s.dev.queues rxQ).outstanding.length
  half : (s.dev.queues rxQ).outstanding.length + arr.length ≤ bufPackets / 2
  single : ∀ sub ∈ (s.dev.queues rxQ).outstanding, sub.bufs.length = 1
  room : bufPackets ≤ (s.dev.queues rxQ).num

section Large

variable {pdata : Nat → Nat} {s s' : Rx} {arr : List Nat}

theorem foldl_rxQueueCallback (new : List (Nat × Nat)) (s : Rx) :
    new.foldl Rx.rxQueueCallback s =
      { s with recvList := s.recvList ++ new.map Prod.fst, inRx := s.inRx - new.length } := by
  induction new generalizing s with
  | nil => simp
  | cons x new ih =>
      rw [List.foldl_cons, ih, Rx.rxQueueCallback]
      simp only [List.append_assoc, List.cons_append, List.nil_append, List.map_cons, List.length_cons,
        Rx.mk.injEq, true_and]
      omega

theorem packets_ne_zero : ∀ p ∈ packets, p ≠ 0 := by
  intro p hp
  simp only [packets, List.mem_reverse, List.mem_map] at hp
  obtain ⟨i, -, rfl⟩ := hp
  exact Nat.succ_ne_zero i

/-- The callback has put what came back on `recv_list`. -/
theorem Rx.Flowing.called {dev : VirtioDev} (h : s.Flowing arr) (hsound : Sound dev) (hsync : Synced dev)
    (hlook : Looked rxQ s.dev dev) : (s.called dev).Flowing arr := by
  obtain ⟨new, hnew, hperm⟩ := hlook.back h.sound hsound h.exists_rx h.synced hsync
  have hlen := hperm.length_eq
  simp only [VirtioDev.outstandingData, List.length_append, List.length_map] at hlen
  have hhalf := h.half
  rw [Rx.called, hnew, List.drop_left, foldl_rxQueueCallback]
  refine ⟨hsound, hlook.numQueues ▸ h.exists_rx, hsync, ?_, ?_, ?_, fun sub hsub =>
    h.single sub (hlook.outstanding hsub), hlook.num ▸ h.room⟩
  · refine List.Perm.trans (List.perm_iff_count.2 fun p => ?_) h.places
    have hcount := List.perm_iff_count.1 hperm p
    simp only [List.count_append] at hcount ⊢
    omega
  · show s.inRx - new.length = ((dev.queues rxQ).outstanding.length : Int)
    rw [h.count]
    omega
  · show (dev.queues rxQ).outstanding.length + arr.length ≤ _
    omega

/-- There is room for every packet that the driver gives to the host. -/
theorem Rx.Flowing.freeAfter {p : Nat} {steps : List (List HostStep)} {dev : VirtioDev}
    (h : s.Flowing (p :: arr)) (hcollect : s.dev.collect rxQ steps = .ok dev) :
    1 < s.dev.freeAfter rxQ steps := by
  have hlook := Looked.collect hcollect
  obtain ⟨hsound, hsync⟩ := h.sound.collect h.exists_rx hcollect
  have hflow := h.called hsound (hsync h.synced) hlook
  have hdev : (s.called dev).dev = dev := by
    rw [Rx.called, foldl_rxQueueCallback]
  have hfree := hflow.sound.freeNum_eq hflow.exists_rx hflow.single
  have hhalf := hflow.half
  have hroom := hflow.room
  rw [hdev] at hfree hhalf hroom
  rw [VirtioDev.freeAfter, hcollect]
  show 1 < (dev.queues rxQ).freeNum
  simp only [bufPackets, List.length_cons] at hhalf hroom
  omega

/-- A packet is given to the host. -/
theorem Rx.Flowing.submit {p : Nat} {steps : List (List HostStep)} {vp : AddrSize} {r : Nat}
    {dev : VirtioDev} (h : s.Flowing (p :: arr)) (hto : s.dev.toQueue rxQ [vp] p steps = .ok (r, dev)) :
    Rx.Flowing { s.called dev with inRx := (s.called dev).inRx + 1 } arr := by
  obtain ⟨hp, -⟩ := toQueue_eq_ok hto
  obtain ⟨dev₁, hcollect, hcase⟩ := toQueue_cases hto
  have hroom := h.freeAfter hcollect
  have hlook := Looked.collect hcollect
  obtain ⟨hsound₁, hsync₁⟩ := h.sound.collect h.exists_rx hcollect
  have hflow := h.called hsound₁ (hsync₁ h.synced) hlook
  rcases hcase with ⟨hfull, -⟩ | ⟨-, -, hqueued⟩
  · simp only [List.length_singleton] at hfull
    omega
  · have hone : [vp].length ≤ mapvecNr + mapvecNr / 2 := by simp [mapvecNr]
    rcases h.sound.toQueue h.exists_rx (List.cons_ne_nil vp []) hone hp steps with
      ⟨r', dev', hrun', hs', hn', hy'⟩ | ⟨f, hf, -⟩
    · obtain ⟨-, rfl⟩ := Prod.mk.inj (Except.ok.inj (hrun'.symm.trans hto))
      -- The request was published after the callback had been called.
      have hcalled : s.called dev' = { s.called dev₁ with dev := dev' } := by
        rw [Rx.called, Rx.called, hqueued.handed, foldl_rxQueueCallback, foldl_rxQueueCallback]
      have hdev : (s.called dev₁).dev = dev₁ := by
        rw [Rx.called, foldl_rxQueueCallback]
      have hdata := hs'.traffic (hn' ▸ h.exists_rx) (hy' h.synced)
      have hdata₁ := hsound₁.traffic (hlook.numQueues ▸ h.exists_rx) (hsync₁ h.synced)
      rw [hqueued.submitted, List.map_append, VirtioDev.handedData, hqueued.handed] at hdata
      have hperm : (dev₁.outstandingData rxQ ++ [p]).Perm (dev'.outstandingData rxQ) := by
        refine List.perm_iff_count.2 fun x => ?_
        have hx := List.perm_iff_count.1 hdata x
        have hx₁ := List.perm_iff_count.1 hdata₁ x
        simp only [List.count_append, VirtioDev.handedData, List.map_cons, List.map_nil] at hx hx₁ ⊢
        omega
      have hlen := hperm.length_eq
      simp only [VirtioDev.outstandingData, List.length_append, List.length_map, List.length_singleton] at hlen
      have hhalf := hflow.half
      have hplaces := hflow.places
      have hcount := hflow.count
      have hsingle := hflow.single
      rw [hdev] at hhalf hplaces hcount hsingle
      rw [hcalled]
      refine ⟨hs', hn' ▸ h.exists_rx, hy' h.synced, ?_, ?_, ?_, fun sub hsub => ?_, ?_⟩
      · refine List.Perm.trans (List.perm_iff_count.2 fun x => ?_) hplaces
        have hx := List.perm_iff_count.1 hperm x
        simp only [List.count_append, List.count_cons, List.count_nil] at hx ⊢
        omega
      · show (s.called dev₁).inRx + 1 = ((dev'.queues rxQ).outstanding.length : Int)
        omega
      · show (dev'.queues rxQ).outstanding.length + arr.length ≤ _
        rw [List.length_cons] at hhalf
        omega
      · rcases List.mem_cons.1 (hqueued.outstanding hsub) with rfl | hsub
        · rfl
        · exact hsingle sub hsub
      · show bufPackets ≤ (dev'.queues rxQ).num
        rw [hqueued.num, hlook.num]
        exact h.room
    · rw [hf] at hto
      cases hto

theorem Rx.Flowing.refillLoop {steps : List (List (List HostStep))} (h : s.Flowing arr)
    (hrun : refillLoop pdata arr steps s = .ok s') : s'.Flowing [] := by
  induction arr generalizing s steps with
  | nil =>
      obtain rfl := Except.ok.inj hrun
      exact h
  | cons p arr ih =>
      rw [Yaos.refillLoop] at hrun
      obtain ⟨⟨r, dev⟩, hto, hrun⟩ := bind_eq_ok.1 hrun
      exact ih (h.submit hto) hrun

theorem Rx.Flowing.refill {steps : List (List (List HostStep))} (h : s.Flowing [])
    (hrun : virtioNetRefillRxQueue pdata s steps = .ok s') : s'.Flowing [] := by
  rw [virtioNetRefillRxQueue] at hrun
  generalize hmax : (bufPackets / 2 - s.inRx).toNat = max at hrun
  have hcount := h.count
  have hhalf := h.half
  have hflow : Rx.Flowing { s with freeList := s.freeList.drop max } (s.freeList.take max) := by
    refine ⟨h.sound, h.exists_rx, h.synced, ?_, hcount, ?_, h.single, h.room⟩
    · refine List.Perm.trans (List.perm_iff_count.2 fun x => ?_) h.places
      have hx := congrArg (List.count x) (List.take_append_drop max s.freeList)
      simp only [List.count_append, List.count_nil] at hx ⊢
      omega
    · show (s.dev.queues rxQ).outstanding.length + (s.freeList.take max).length ≤ bufPackets / 2
      have hle : (s.freeList.take max).length ≤ max := List.length_take_le max s.freeList
      simp only [bufPackets, List.length_nil] at hmax hhalf ⊢
      omega
  exact hflow.refillLoop hrun

theorem Rx.Flowing.step {c : RxStep} (h : s.Flowing []) (hrun : s.step pdata c = .ok s') :
    s'.Flowing [] := by
  cases c with
  | refill steps => exact h.refill hrun
  | rxPoll steps =>
      obtain ⟨dev, hread, hrun⟩ := bind_eq_ok.1 hrun
      obtain rfl := Except.ok.inj hrun
      obtain ⟨dev', hread', hs', -, hy'⟩ := h.sound.readQueue h.exists_rx steps
      obtain rfl := Except.ok.inj (hread'.symm.trans hread)
      exact h.called hs' (hy' h.synced) (.readQueue hread)
  | take =>
      rw [Rx.step] at hrun
      split at hrun
      case isTrue hempty =>
          obtain rfl := Except.ok.inj hrun
          refine ⟨h.sound, h.exists_rx, h.synced, ?_, h.count, h.half, h.single, h.room⟩
          refine List.Perm.trans (List.perm_iff_count.2 fun x => ?_) h.places
          simp only [List.count_append, hempty, List.count_nil]
          omega
      case isFalse =>
          obtain rfl := Except.ok.inj hrun
          exact h
  | give =>
      rw [Rx.step] at hrun
      split at hrun
      case h_1 =>
          obtain rfl := Except.ok.inj hrun
          exact h
      case h_2 p rest hbatch =>
          obtain rfl := Except.ok.inj hrun
          refine ⟨h.sound, h.exists_rx, h.synced, ?_, h.count, h.half, h.single, h.room⟩
          refine List.Perm.trans (List.perm_iff_count.2 fun x => ?_) h.places
          simp only [List.count_append, hbatch, List.count_cons, List.count_nil]
          omega
  | host step =>
      obtain rfl := Except.ok.inj hrun
      have hlook : Looked rxQ s.dev (s.dev.host rxQ [step]) := .host [step]
      have hflow := h.called (h.sound.host h.exists_rx [step]) (h.synced.host [step] h.sound h.exists_rx) hlook
      -- a step of the host hands nothing to the driver, so no callback runs
      have hhanded : ((s.dev.host rxQ [step]).queues rxQ).handed = (s.dev.queues rxQ).handed := by
        rw [VirtioDev.host, setQueue_self]
        exact (hostSteps_same [step] _).2.1
      rw [Rx.called, hhanded, List.drop_length] at hflow
      exact hflow
  | other c =>
      rw [Rx.step] at hrun
      split at hrun
      case isTrue hother =>
          obtain ⟨dev, hcall, hrun⟩ := bind_eq_ok.1 hrun
          obtain rfl := Except.ok.inj hrun
          obtain ⟨hs', hy', hsame, hnum⟩ := h.sound.other hother hcall
          have hdata : dev.outstandingData rxQ = s.dev.outstandingData rxQ := by
            rw [VirtioDev.outstandingData, VirtioDev.outstandingData, hsame]
          refine ⟨hs', hnum ▸ h.exists_rx, hy' h.synced, ?_, ?_, ?_, ?_, ?_⟩
          · exact hdata.symm ▸ h.places
          · exact hsame.symm ▸ h.count
          · exact hsame.symm ▸ h.half
          · exact hsame.symm ▸ h.single
          · exact hsame.symm ▸ h.room
      case isFalse =>
          obtain rfl := Except.ok.inj hrun
          exact h

end Large

/-! ## Small queues -/

section Small

variable {pdata : Nat → Nat} {s : Rx} {arr : List Nat}

/-- What holds while the host has completed nothing; `in_rx` counts every packet that was offered. -/
structure Rx.Idle (s : Rx) (offered num : Nat) : Prop where
  sound : Sound s.dev
  exists_rx : rxQ < s.dev.numQueues
  done : (s.dev.queues rxQ).done = []
  count : s.inRx = offered
  num : (s.dev.queues rxQ).num = num

/-- A request of one buffer is refused or queued. -/
theorem Sound.toQueue_one {dev : VirtioDev} {p : Nat} (h : Sound dev) (vp : AddrSize)
    (hq : rxQ < dev.numQueues) (hdone : (dev.queues rxQ).done = []) (hp : p ≠ 0) :
    ∃ r dev', dev.toQueue rxQ [vp] p [] = .ok (r, dev') ∧ Sound dev' ∧
      dev'.numQueues = dev.numQueues ∧ (dev'.queues rxQ).done = [] ∧
      (dev'.queues rxQ).handed = (dev.queues rxQ).handed ∧
      (dev'.queues rxQ).num = (dev.queues rxQ).num := by
  obtain ⟨r, dev', hrun, hs⟩ := h.enqueue_one hq vp hp
  refine ⟨r, _, ?_, hs, ?_⟩
  · rw [toQueue_eq (Nat.le_of_lt hq) hp, h.collect_quiet hq hdone, ok_bind, hrun, ok_bind]
  · rcases enqueue_eq_ok hrun with ⟨-, rfl, rfl⟩ | ⟨-, rfl, hqueued⟩
    · exact ⟨rfl, hdone, rfl, rfl⟩
    · exact ⟨hqueued.numQueues, hqueued.done.trans hdone, hqueued.handed, hqueued.num⟩

theorem Rx.Idle.refillLoop {offered num : Nat} (h : s.Idle offered num) (harr : ∀ p ∈ arr, p ≠ 0) :
    ∃ s', refillLoop pdata arr [] s = .ok s' ∧ s'.Idle (offered + arr.length) num := by
  induction arr generalizing s offered with
  | nil => exact ⟨s, rfl, h⟩
  | cons p arr ih =>
      obtain ⟨r, dev, hto, hs, hn, hdone, hhanded, hnum⟩ := h.sound.toQueue_one
        { vpAddr := pdata p, vpSize := maxPackSize, vpFlags := 2 } h.exists_rx h.done
        (harr p List.mem_cons_self)
      have hcalled : s.called dev = { s with dev := dev } := by
        rw [Rx.called, hhanded, List.drop_length, List.foldl_nil]
      have hidle : Rx.Idle { s.called dev with inRx := (s.called dev).inRx + 1 } (offered + 1) num := by
        rw [hcalled]
        refine ⟨hs, hn ▸ h.exists_rx, hdone, ?_, hnum.trans h.num⟩
        show s.inRx + 1 = ((offered + 1 : Nat) : Int)
        rw [h.count]
        rfl
      obtain ⟨s', hrun, hidle'⟩ := ih hidle fun q hq => harr q (List.mem_cons_of_mem p hq)
      refine ⟨s', ?_, ?_⟩
      · rw [Yaos.refillLoop, List.headD_nil, hto]
        exact hrun
      · rw [List.length_cons, Nat.add_comm arr.length, ← Nat.add_assoc]
        exact hidle'

end Small

/-! ## Runs -/

/-- The driver offers half of the packets to a new queue. -/
theorem refill_idle (pdata : Nat → Nat) {nums paddrs : List Nat} (threads : Int)
    (hnums : ∀ n ∈ nums, RingSize n) (hlength : rxQ < nums.length) (hpaddrs : paddrs.Nodup) :
    ∃ s', (Rx.setup nums paddrs threads).step pdata (.refill []) = .ok s' ∧
      s'.Idle (bufPackets / 2) (nums.getD rxQ 0) := by
  have hidle : Rx.Idle { Rx.setup nums paddrs threads with freeList := packets.drop 32 } 0
      (nums.getD rxQ 0) :=
    ⟨virtioSetupDevice_sound threads hnums hpaddrs, hlength, rfl, rfl, rfl⟩
  exact hidle.refillLoop fun p hp => packets_ne_zero p (List.mem_of_mem_take hp)

/-- The packets are conserved in every run if and only if the receive queue has at least as many
    descriptors as there are packets. -/
theorem rx_conserved_iff {pdata : Nat → Nat} {nums paddrs : List Nat} {threads : Int}
    (hnums : ∀ n ∈ nums, RingSize n) (hlength : rxQ < nums.length) (hpaddrs : paddrs.Nodup) :
    (∀ (cs : List RxStep) (s : Rx),
      cs.foldlM (Rx.step pdata) (Rx.setup nums paddrs threads) = .ok s → s.Conserved) ↔
      bufPackets ≤ nums.getD rxQ 0 := by
  have hsound := virtioSetupDevice_sound threads hnums hpaddrs
  constructor
  · intro hall
    by_contra hsmall
    obtain ⟨s', hrun, hidle⟩ := refill_idle pdata threads hnums hlength hpaddrs
    have hcount := (hall [.refill []] s' (Run.cons_eq_ok.2 ⟨s', hrun, rfl⟩)).count
    have hlt := hidle.sound.outstanding_lt hidle.exists_rx
    have hmem : nums.getD rxQ 0 ∈ nums := by
      rw [List.getD_eq_getElem?_getD, List.getElem?_eq_getElem hlength, Option.getD_some]
      exact List.getElem_mem hlength
    obtain ⟨m, -, hm⟩ := hnums _ hmem
    have hbound : 2 ^ m < 2 ^ 6 := by
      rw [← hm]
      exact Nat.not_le.1 hsmall
    have hle : 2 ^ m ≤ 2 ^ 5 :=
      Nat.pow_le_pow_right (by decide) (Nat.le_of_lt_succ ((Nat.pow_lt_pow_iff_right (by decide)).1 hbound))
    -- `in_rx` counts a packet that the queue has no descriptor for.
    rw [hidle.num, hm] at hlt
    rw [hidle.count] at hcount
    simp only [bufPackets] at hcount
    omega
  · intro hlarge cs s hrun
    have hstart : (Rx.setup nums paddrs threads).Flowing [] := by
      refine ⟨hsound, hlength, virtioSetupDevice_synced nums paddrs threads, ?_, rfl, Nat.zero_le _, ?_, hlarge⟩
      · show (packets ++ [] ++ [] ++ [] ++ []).Perm packets
        simp
      · exact fun sub hsub => absurd hsub List.not_mem_nil
    have hend := Run.keeps (fun c s s' h hstep => Rx.Flowing.step h hstep) hstart hrun
    exact ⟨by simpa using hend.places, hend.count⟩

theorem ringSizes_pow {m : Nat} (hm : m ≤ 15) : ∀ n ∈ [2 ^ m, 2 ^ m], RingSize n := by
  intro n hn
  simp only [List.mem_cons, List.not_mem_nil, or_false, or_self] at hn
  exact ⟨m, hm, hn⟩

/-- Queues of 256 descriptors, filled for the first time. -/
theorem rx_conserved_large :
    ∃ s, [RxStep.refill []].foldlM (Rx.step id) (Rx.setup [256, 256] [] 0) = .ok s ∧ s.Conserved := by
  have hall := (@rx_conserved_iff id [256, 256] [] 0 (ringSizes_pow (m := 8) (by decide)) (by decide)
    (by decide)).2 (by decide)
  have hend : ([RxStep.refill []].foldlM (Rx.step id) (Rx.setup [256, 256] [] 0)).map Rx.inRx = .ok 32 := by
    decide +kernel
  obtain ⟨s, hrun, -⟩ := map_eq_ok.1 hend
  exact ⟨s, hrun, hall _ s hrun⟩

/-- A queue of 32 descriptors refuses the last of the first 32 packets. -/
theorem rx_small_not_conserved : ¬ ∀ (nums paddrs : List Nat) (threads : Int) (cs : List RxStep) (s : Rx),
    (∀ n ∈ nums, RingSize n) → rxQ < nums.length → paddrs.Nodup →
      cs.foldlM (Rx.step id) (Rx.setup nums paddrs threads) = .ok s → s.Conserved := by
  intro hall
  have hend : ([RxStep.refill []].foldlM (Rx.step id) (Rx.setup [32, 32] [] 0)).map
      (fun s => (s.inRx, (s.dev.queues rxQ).outstanding.length)) = .ok (32, 31) := by decide +kernel
  obtain ⟨s, hrun, hend⟩ := map_eq_ok.1 hend
  obtain ⟨hin, hout⟩ := Prod.mk.inj hend
  have hcount := (hall [32, 32] [] 0 _ s (ringSizes_pow (m := 5) (by decide)) (by decide) (by decide)
    hrun).count
  rw [hin, hout] at hcount
  cases hcount

end Yaos
