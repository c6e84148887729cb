import Yaos.Lib.Run
import Yaos.Virtio.Traffic

set_option autoImplicit false

/-! # Sending packets (`module/net/virtio/main.c`, `module/net/virtio/virtio_net.c`)

lwIP hands a chain of buffers to `lwip_tx_func`, which takes a reference to it and queues its parts for
the host. When the host has sent them, `tx_queue_callback` gives the reference back through
`lwip_tx_done`. A chain that finds the queue full is not sent, and its reference is not given back. -/

namespace Yaos

/-- `RX_Q`. -/
def rxQ : Nat := 0

/-- `TX_Q`. -/
def txQ : Nat := 1

/-- `ERR_OK`. -/
def errOk : Nat := 0

/-- `MAX_VECS`. -/
def maxVecs : Nat := 10

/-- A `struct pbuf` of a chain. -/
structure Pbuf where
  payload : Nat
  len : Nat
deriving DecidableEq

/-- `a & ~0xfff`. -/
def pageStart (a : Nat) : Nat := a / 4096 * 4096

/-- A write past the end of `vecs`. -/
def writeVec (i : Nat) : Except Fault Unit :=
  if i < maxVecs then .ok () else .error (.panic "vecs overrun")

/-- The loop of `lwip_tx_func`; `vecs` are the vectors so far. -/
def txVecs : List Pbuf → List (Nat × Nat) → Except Fault (List (Nat × Nat))
  | [], vecs => .ok vecs
  | q :: chain, vecs =>
      let pageend := pageStart (q.payload + q.len)
      if pageStart q.payload = pageend then do
        writeVec vecs.length
        assert "nr_vec<MAX_VECS" (vecs.length + 1 < maxVecs)
        txVecs chain (vecs ++ [(q.payload, q.len)])
      else do
        -- There is no assertion here.
        writeVec (vecs.length + 1)
        txVecs chain (vecs ++ [(q.payload, pageend - q.payload), (pageend, (q.payload + q.len) % 4096)])

/-- The number of vectors for a buffer: one more if it crosses the end of a page. -/
def Pbuf.parts (q : Pbuf) : Nat := if pageStart q.payload = pageStart (q.payload + q.len) then 1 else 2

/-- The result of a call of `lwip_tx_func`, and whether its packet was queued. -/
structure TxCall where
  queued : Bool
  result : Nat

/-- The transmit side of the driver: its device, and what it has done with pbufs. -/
structure Tx where
  dev : VirtioDev
  /-- The arguments of the calls of `pbuf_ref`, oldest first. -/
  reffed : List Nat
  calls : List TxCall

/-- The arguments of the calls of `pbuf_free`: `tx_queue_callback` passes what it is called with to
    `lwip_tx_done`. -/
def Tx.freed (s : Tx) : List Nat := s.dev.handedData txQ

section Driver

-- Addresses as the host sees them, and `_hdr_size`.
variable (v2p : Nat → Nat) (hdrSize : Nat)

/-- The buffers of a packet: `mhdr` stands on the stack of the caller. -/
def txBufs (mhdr : Nat) (vecs : List (Nat × Nat)) : List AddrSize :=
  { vpAddr := v2p mhdr, vpSize := hdrSize, vpFlags := 0 } ::
    vecs.map fun v => { vpAddr := v2p v.1, vpSize := v.2, vpFlags := 0 }

/-- It is the receive queue whose interrupts are enabled. -/
def virtioNetSendPackets (dev : VirtioDev) (mhdr : Nat) (vecs : List (Nat × Nat)) (data : Nat)
    (steps : List (List HostStep)) : Except Fault (Nat × VirtioDev) :=
  (dev.enableIntr rxQ).toQueue txQ (txBufs v2p hdrSize mhdr vecs) data steps

/-- `return (nr_vec && virtio_net_send_packets(vecs, nr_vec, p)) || ERR_OK;`. -/
def lwipTxFunc (s : Tx) (p : Nat) (chain : List Pbuf) (mhdr : Nat) (steps : List (List HostStep)) :
    Except Fault Tx := do
  let s := { s with reffed := s.reffed ++ [p] }
  let vecs ← txVecs chain []
  if vecs = [] then .ok { s with calls := s.calls ++ [{ queued := false, result := errOk }] }
  else do
    let (ret, dev) ← virtioNetSendPackets v2p hdrSize s.dev mhdr vecs p steps
    let call : TxCall := { queued := ret = 0, result := if ret ≠ 0 then 1 else errOk }
    .ok { s with dev := dev, calls := s.calls ++ [call] }

/-- The steps of the driver, the host and the other users of the device. -/
inductive TxStep
  /-- `lwip_tx_func` for the chain at `p`. -/
  | send (p : Nat) (chain : List Pbuf) (mhdr : Nat) (steps : List (List HostStep))
  /-- `tx_poll_callback`. -/
  | poll (steps : List (List HostStep))
  | host (step : HostStep)
  /-- A call on another queue of the device. -/
  | other (c : VirtioCall)

/-- A chain has at least one buffer. -/
def Tx.step (s : Tx) : TxStep → Except Fault Tx
  | .send p chain mhdr steps =>
      if p ≠ 0 ∧ chain ≠ [] then lwipTxFunc v2p hdrSize s p chain mhdr steps else .ok s
  | .poll steps => do
      let dev ← virtioReadQueue s.dev txQ steps
      .ok { s with dev := dev }
  | .host step => .ok { s with dev := s.dev.host txQ [step] }
  | .other c =>
      if c.Other s.dev txQ then do
        let dev ← s.dev.call c
        .ok { s with dev := dev }
      else .ok s

end Driver

/-! ## References -/

/-- Every reference was given back once, after the host had sent the packet, or the packet is queued; and
    a call has told its caller whether it was. -/
structure Tx.Released (s : Tx) : Prop where
  refs : s.reffed.Perm (s.dev.outstandingData txQ ++ s.freed)
  sent : (s.dev.queues txQ).handed <+: (s.dev.queues txQ).reported.map token
  results : ∀ c ∈ s.calls, c.result = errOk ↔ c.queued = true

/-- The queue has room for the packet. -/
def TxStep.Fits (s : Tx) : TxStep → Prop
  | .send p chain _ steps => p ≠ 0 ∧ chain ≠ [] →
      (chain.map Pbuf.parts).sum + 1 < (s.dev.enableIntr rxQ).freeAfter txQ steps
  | _ => True

instance (s : Tx) : (c : TxStep) → Decidable (c.Fits s)
  | .send p chain _ steps => inferInstanceAs (Decidable (p ≠ 0 ∧ chain ≠ [] →
      (chain.map Pbuf.parts).sum + 1 < (s.dev.enableIntr rxQ).freeAfter txQ steps))
  | .poll _ => inferInstanceAs (Decidable True)
  | .host _ => inferInstanceAs (Decidable True)
  | .other _ => inferInstanceAs (Decidable True)

/-- The invariant as long as every packet was queued. -/
structure Tx.Sending (s : Tx) : Prop where
  sound : Sound s.dev
  exists_tx : txQ < s.dev.numQueues
  synced : Synced s.dev
  reffed : s.reffed = (s.dev.queues txQ).submitted.map Submission.data
  results : ∀ c ∈ s.calls, c.result = errOk ↔ c.queued = true

section Proofs

variable {v2p : Nat → Nat} {hdrSize : Nat} {s s' : Tx}

theorem txVecs_length {chain : List Pbuf} {vecs vecs' : List (Nat × Nat)}
    (hle : vecs.length ≤ maxVecs) (h : txVecs chain vecs = .ok vecs') :
    vecs'.length = vecs.length + (chain.map Pbuf.parts).sum ∧ vecs'.length ≤ maxVecs := by
  induction chain generalizing vecs with
  | nil =>
      obtain rfl := Except.ok.inj h
      exact ⟨rfl, hle⟩
  | cons q chain ih =>
      rw [List.map_cons, List.sum_cons, Pbuf.parts]
      rw [txVecs] at h
      split at h
      case isTrue hsame =>
          obtain ⟨-, -, h⟩ := bind_eq_ok.1 h
          obtain ⟨hlt, h⟩ := assert_bind_eq_ok.1 h
          obtain ⟨hlength, hmax⟩ := ih (by simpa using Nat.le_of_lt hlt) h
          rw [if_pos hsame]
          simp only [List.length_append, List.length_singleton] at hlength
          exact ⟨by omega, hmax⟩
      case isFalse hcross =>
          obtain ⟨_, hwrite, h⟩ := bind_eq_ok.1 h
          have hlt : vecs.length + 1 < maxVecs := by
            by_contra hnot
            rw [writeVec, if_neg hnot] at hwrite
            cases hwrite
          obtain ⟨hlength, hmax⟩ := ih (by
            rw [List.length_append]
            exact hlt) h
          rw [if_neg hcross]
          simp only [List.length_append, List.length_cons, List.length_nil] at hlength
          exact ⟨by omega, hmax⟩

theorem Pbuf.parts_pos (q : Pbuf) : 0 < q.parts := by
  rw [Pbuf.parts]
  split <;> omega

/-- What a call of `lwip_tx_func` that comes back has done. -/
theorem lwipTxFunc_cases {p mhdr : Nat} {chain : List Pbuf} {steps : List (List HostStep)}
    (hchain : chain ≠ []) (h : lwipTxFunc v2p hdrSize s p chain mhdr steps = .ok s') :
    ∃ dev₁ bufs, (s.dev.enableIntr rxQ).collect txQ steps = .ok dev₁ ∧
      bufs.length = (chain.map Pbuf.parts).sum + 1 ∧ bufs.length ≤ maxVecs + 1 ∧
      (s.dev.enableIntr rxQ).toQueue txQ bufs p steps = .ok (if bufs.length <
        (s.dev.enableIntr rxQ).freeAfter txQ steps then 0 else EAGAIN, s'.dev) ∧
      s'.reffed = s.reffed ++ [p] ∧
      (if bufs.length < (s.dev.enableIntr rxQ).freeAfter txQ steps then
        Enqueued txQ dev₁ s'.dev bufs p ∧ s'.calls = s.calls ++ [{ queued := true, result := errOk }]
      else s'.dev = dev₁ ∧ s'.calls = s.calls ++ [{ queued := false, result := 1 }]) := by
  rw [lwipTxFunc] at h
  obtain ⟨vecs, hvecs, h⟩ := bind_eq_ok.1 h
  obtain ⟨hlength, hmax⟩ := txVecs_length (by simp) hvecs
  have hpos : 0 < (chain.map Pbuf.parts).sum := by
    cases chain with
    | nil => exact absurd rfl hchain
    | cons q chain =>
        have := q.parts_pos
        rw [List.map_cons, List.sum_cons]
        omega
  have hne : vecs ≠ [] := by
    rintro rfl
    simp only [List.length_nil] at hlength
    omega
  rw [if_neg hne] at h
  obtain ⟨⟨ret, dev⟩, hsend, h⟩ := bind_eq_ok.1 h
  obtain rfl := Except.ok.inj h
  have hbufs : (txBufs v2p hdrSize mhdr vecs).length = (chain.map Pbuf.parts).sum + 1 := by
    rw [txBufs, List.length_cons, List.length_map, hlength]
    simp
  obtain ⟨dev₁, hcollect, hcase⟩ := toQueue_cases hsend
  refine ⟨dev₁, txBufs v2p hdrSize mhdr vecs, hcollect, hbufs, ?_, ?_, rfl, ?_⟩
  · rw [txBufs, List.length_cons, List.length_map]
    omega
  · rcases hcase with ⟨hfull, rfl, -⟩ | ⟨hroom, rfl, -⟩
    · rw [if_neg (Nat.not_lt.2 hfull)]
      exact hsend
    · rw [if_pos hroom]
      exact hsend
  · rcases hcase with ⟨hfull, rfl, rfl⟩ | ⟨hroom, rfl, hqueued⟩
    · rw [if_neg (Nat.not_lt.2 hfull)]
      exact ⟨rfl, rfl⟩
    · rw [if_pos hroom]
      exact ⟨hqueued, rfl⟩

/-- The device after a call on its queues, of which the transmit queue has the same requests. -/
theorem Tx.Sending.device {dev : VirtioDev} (h : s.Sending) (hsound : Sound dev) (hsync : Synced dev)
    (hnum : dev.numQueues = s.dev.numQueues)
    (hsub : (dev.queues txQ).submitted = (s.dev.queues txQ).submitted) :
    Tx.Sending { s with dev := dev } :=
  ⟨hsound, hnum ▸ h.exists_tx, hsync, hsub ▸ h.reffed, h.results⟩

theorem Tx.Sending.rx_lt (h : s.Sending) : rxQ < s.dev.numQueues :=
  Nat.lt_of_lt_of_le (Nat.zero_lt_succ 0) (Nat.le_of_lt h.exists_tx)

theorem enableIntr_tx (dev : VirtioDev) : (dev.enableIntr rxQ).queues txQ = dev.queues txQ :=
  setQueue_of_ne (by decide)

/-- A packet that finds room is queued, and any other leaves its reference behind. -/
theorem Tx.Sending.send {p mhdr : Nat} {chain : List Pbuf} {steps : List (List HostStep)} (h : s.Sending)
    (hp : p ≠ 0) (hchain : chain ≠ []) (hrun : lwipTxFunc v2p hdrSize s p chain mhdr steps = .ok s') :
    if (chain.map Pbuf.parts).sum + 1 < (s.dev.enableIntr rxQ).freeAfter txQ steps then s'.Sending
    else ¬ s'.Released := by
  obtain ⟨dev₁, bufs, hcollect, hlength, hmax, hto, hreffed, hcase⟩ := lwipTxFunc_cases hchain hrun
  have hsound := h.sound.enableIntr h.rx_lt
  have hsync : Synced (s.dev.enableIntr rxQ) := h.synced.enableIntr
  have hlook := Looked.collect hcollect
  have hsub : (dev₁.queues txQ).submitted = (s.dev.queues txQ).submitted := by
    rw [hlook.submitted, enableIntr_tx]
  obtain ⟨hsound₁, hsync₁⟩ := hsound.collect h.exists_tx hcollect
  rw [hlength] at hcase
  split at hcase
  case isTrue hroom =>
      rw [if_pos hroom]
      obtain ⟨hqueued, hcalls⟩ := hcase
      have hbufs : bufs ≠ [] := by
        rintro rfl
        simp at hlength
      rcases hsound.toQueue h.exists_tx hbufs (Nat.le_trans hmax (by decide)) hp steps with
        ⟨r, dev', hrun', hs', hn', hy'⟩ | ⟨f, hf, -⟩
      · obtain ⟨-, rfl⟩ := Prod.mk.inj (Except.ok.inj (hrun'.symm.trans hto))
        refine ⟨hs', hn' ▸ h.exists_tx, hy' hsync, ?_, ?_⟩
        · rw [hreffed, hqueued.submitted, hsub, h.reffed, List.map_append]
          rfl
        · rw [hcalls]
          intro c hc
          rcases List.mem_append.1 hc with hc | hc
          · exact h.results c hc
          · rw [List.mem_singleton.1 hc]
            exact ⟨fun _ => rfl, fun _ => rfl⟩
      · rw [hf] at hto
        cases hto
  case isFalse hfull =>
      rw [if_neg hfull]
      obtain ⟨hdev, -⟩ := hcase
      intro hrel
      have hbalance := hrel.refs.length_eq
      rw [Tx.freed, hdev, hreffed] at hbalance
      have hlen := (hsound₁.traffic (hlook.numQueues ▸ h.exists_tx) (hsync₁ hsync)).length_eq
      rw [hsub] at hlen
      rw [h.reffed] at hbalance
      simp only [List.length_append, List.length_map, List.length_singleton] at hbalance hlen
      omega

theorem Tx.Sending.step {c : TxStep} (h : s.Sending) (hrun : s.step v2p hdrSize c = .ok s') :
    (c.Fits s → s'.Sending) ∧ (s'.Released → c.Fits s) := by
  cases c with
  | send p chain mhdr steps =>
      rw [Tx.step] at hrun
      split at hrun
      case isTrue hguard =>
          have hsend := h.send hguard.1 hguard.2 hrun
          constructor
          · intro hfits
            rw [if_pos (hfits hguard)] at hsend
            exact hsend
          · intro hrel _
            by_contra hfull
            rw [if_neg hfull] at hsend
            exact hsend hrel
      case isFalse hguard =>
          obtain rfl := Except.ok.inj hrun
          exact ⟨fun _ => h, fun _ hc => absurd hc hguard⟩
  | poll steps =>
      refine ⟨fun _ => ?_, fun _ => trivial⟩
      obtain ⟨dev, hread, hrun⟩ := bind_eq_ok.1 hrun
      obtain rfl := Except.ok.inj hrun
      have hlook := Looked.readQueue hread
      obtain ⟨dev', hread', hs', -, hy'⟩ := h.sound.readQueue h.exists_tx steps
      obtain rfl := Except.ok.inj (hread'.symm.trans hread)
      exact h.device hs' (hy' h.synced) hlook.numQueues hlook.submitted
  | host step =>
      refine ⟨fun _ => ?_, fun _ => trivial⟩
      obtain rfl := Except.ok.inj hrun
      have hlook : Looked txQ s.dev (s.dev.host txQ [step]) := .host [step]
      exact h.device (h.sound.host h.exists_tx [step]) (h.synced.host [step] h.sound h.exists_tx) rfl
        hlook.submitted
  | other c =>
      refine ⟨fun _ => ?_, fun _ => trivial⟩
      rw [Tx.step] at hrun
      split at hrun
      case isTrue hother =>
          obtain ⟨dev, hcall, hrun⟩ := bind_eq_ok.1 hrun
          obtain rfl := Except.ok.inj hrun
          obtain ⟨hs', hy', hsame, hnum⟩ := h.sound.other hother hcall
          exact h.device hs' (hy' h.synced) hnum (by rw [hsame])
      case isFalse =>
          obtain rfl := Except.ok.inj hrun
          exact h

end Proofs

/-! ## Runs -/

/-- The driver after its device was set up. -/
def Tx.setup (nums paddrs : List Nat) (threads : Int) : Tx where
  dev := virtioSetupDevice nums paddrs threads
  reffed := []
  calls := []

theorem Tx.Sending.setup {nums paddrs : List Nat} (threads : Int) (hnums : ∀ n ∈ nums, RingSize n)
    (hlength : txQ < nums.length) (hpaddrs : paddrs.Nodup) : (Tx.setup nums paddrs threads).Sending :=
  ⟨virtioSetupDevice_sound threads hnums hpaddrs, hlength, virtioSetupDevice_synced nums paddrs threads, rfl,
    fun _ hc => absurd hc List.not_mem_nil⟩

end Yaos
