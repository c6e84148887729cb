import Mathlib.Algebra.Order.BigOperators.Group.List
import Yaos.Virtio.Proofs

set_option autoImplicit false

/-! # The invariant of a virtqueue

`QueueInv` is the invariant of one queue and `DevInv` that of a device, whose queues share the
indirect tables. One lemma for each step of the driver and of the host shows that it is kept. -/

namespace Yaos

/-- A request that has not been collected, with the descriptors of its chain. -/
structure Entry where
  sub : Submission
  ids : List Nat

/-- The descriptors: `free` are those of the free list, in the order of the links. -/
structure VringParts (indirect : List IndirectDescTable) (q : VirtioQueue) (free : List Nat)
    (reqs : List Entry) : Prop where
  linked : free.IsChain (Links q.desc)
  head : free.head? = some q.freeHead
  last : free.getLast? = some q.freeTail
  count : free.length = q.freeNum
  flags : ∀ i ∈ free, (q.desc i).hasNext = true ∧ (q.desc i).isIndirect = false
  heads : ∀ e ∈ reqs, e.ids.head? = some e.sub.head
  requests : ∀ e ∈ reqs, Request indirect q.desc e.ids e.sub.bufs
  all : (free ++ reqs.flatMap Entry.ids).Perm (List.range q.num)

/-- The rings: each holds what the other party has not read. -/
structure Rings (q : VirtioQueue) : Prop where
  size : ∃ k, k ≤ 15 ∧ q.num = 2 ^ k
  avail : q.availIdx = (q.hostIdx + q.waiting.length) % 2 ^ 16
  availRing : Ring.Holds q.availRing q.num q.hostIdx (q.waiting.map (·.head))
  lastUsed : q.lastUsed < q.num
  used : q.usedIdx ≡ q.lastUsed + q.done.length [MOD q.num]
  usedRing : Ring.Holds q.usedRing q.num q.lastUsed
    (q.done.map fun x => { id := x.1.head, len := x.2 })

/-- The caller's data of a request, with the length the host reported. -/
def token (x : Submission × Nat) : Nat × Nat := (x.1.data, x.2)

/-- Every request is waiting, held or reported, and every report is collected or still in the
    ring. -/
structure Logs (q : VirtioQueue) : Prop where
  waiting : q.waiting <:+ q.submitted
  submitted : q.submitted.Perm (q.waiting ++ q.held ++ q.reported.map Prod.fst)
  reported : q.reported.map token = q.collected ++ q.done.map token

/-- The invariant of a queue: its descriptors, its rings and its logs fit the requests `reqs`. -/
structure QueueInv (indirect : List IndirectDescTable) (q : VirtioQueue) (free : List Nat)
    (reqs : List Entry) : Prop where
  parts : VringParts indirect q free reqs
  rings : Rings q
  logs : Logs q
  subs : (reqs.map Entry.sub).Perm (q.waiting ++ q.held ++ q.done.map Prod.fst)
  data : ∀ e ∈ reqs, q.data e.sub.head = e.sub.data ∧ e.sub.data ≠ 0
  owner : ∀ h, q.data h ≠ 0 → ∃ e ∈ reqs, e.sub.head = h

/-! ## Sizes -/

theorem Rings.num_dvd {q : VirtioQueue} (h : Rings q) : q.num ∣ 2 ^ 16 := by
  obtain ⟨k, hk, hnum⟩ := h.size
  rw [hnum]
  exact Nat.pow_dvd_pow 2 (by omega)

theorem Rings.num_le {q : VirtioQueue} (h : Rings q) : q.num ≤ 2 ^ 15 := by
  obtain ⟨k, hk, hnum⟩ := h.size
  rw [hnum]
  exact Nat.pow_le_pow_right (by decide) hk

/-- A 16-bit index has the residue of the full count. -/
theorem Rings.wrap {q : VirtioQueue} (h : Rings q) (n : Nat) : n % 2 ^ 16 ≡ n [MOD q.num] :=
  (Nat.mod_modEq n (2 ^ 16)).of_dvd h.num_dvd

theorem Request.ne_nil {indirect : List IndirectDescTable} {desc : Nat → VringDesc}
    {ids : List Nat} {bufs : List AddrSize} (h : Request indirect desc ids bufs) : ids ≠ [] := by
  rintro rfl
  rcases h with hd | ⟨i, hnil, -⟩
  · exact hd
  · cases hnil

/-- Each request has a descriptor of its own, and the free list is never empty. -/
theorem VringParts.length_lt {indirect : List IndirectDescTable} {q : VirtioQueue} {free : List Nat}
    {reqs : List Entry} (h : VringParts indirect q free reqs) : reqs.length < q.num := by
  have hlen := h.all.length_eq
  rw [List.length_append, List.length_range, List.length_flatMap] at hlen
  have hfree : 0 < free.length := by
    rw [List.length_pos_iff]
    rintro rfl
    cases h.head
  have hreqs : reqs.length ≤ (reqs.map fun e => e.ids.length).sum := by
    have hpos : ∀ n ∈ reqs.map (fun e : Entry => e.ids.length), 1 ≤ n := by
      intro n hn
      obtain ⟨e, he, rfl⟩ := List.mem_map.1 hn
      exact List.length_pos_iff.2 (h.requests e he).ne_nil
    simpa using List.length_le_sum_of_one_le _ hpos
  omega

theorem QueueInv.outstanding_lt {indirect : List IndirectDescTable} {q : VirtioQueue}
    {free : List Nat} {reqs : List Entry} (h : QueueInv indirect q free reqs) :
    q.waiting.length + q.held.length + q.done.length < q.num := by
  have hlen := h.subs.length_eq
  simp only [List.length_map, List.length_append] at hlen
  have := h.parts.length_lt
  omega

/-! ## The host -/

/-- The host reads the slot of the oldest waiting request. -/
theorem perm_fetch {α : Type} (sub : α) (rest held tail : List α) :
    (sub :: rest ++ held ++ tail).Perm (rest ++ (held ++ [sub]) ++ tail) := by
  have hmoved : rest ++ (held ++ [sub]) ++ tail = (rest ++ held) ++ sub :: tail := by simp
  rw [hmoved]
  exact List.perm_middle.symm

/-- The host moves one of the requests it holds to the end. -/
theorem perm_complete {α : Type} (sub : α) (waiting l₁ l₂ tail : List α) :
    (waiting ++ (l₁ ++ sub :: l₂) ++ tail).Perm (waiting ++ (l₁ ++ l₂) ++ (tail ++ [sub])) := by
  have hleft : waiting ++ (l₁ ++ sub :: l₂) ++ tail =
      (waiting ++ l₁) ++ sub :: (l₂ ++ tail) := by simp
  have hright : waiting ++ (l₁ ++ l₂) ++ (tail ++ [sub]) =
      ((waiting ++ l₁) ++ (l₂ ++ tail)) ++ [sub] := by simp
  rw [hleft, hright]
  exact List.perm_middle.trans (List.perm_append_singleton _ _).symm

theorem perm_publish {α : Type} {sub : α} {subs waiting tail : List α}
    (h : subs.Perm (waiting ++ tail)) : (sub :: subs).Perm (waiting ++ [sub] ++ tail) := by
  rw [List.append_assoc, List.singleton_append]
  exact (h.cons sub).trans List.perm_middle.symm

/-- No step of the host concerns the descriptors. -/
theorem VringParts.host {indirect : List IndirectDescTable} {q : VirtioQueue} {free : List Nat}
    {reqs : List Entry} (h : VringParts indirect q free reqs) (s : HostStep) :
    VringParts indirect (q.host s) free reqs := by
  cases s with
  | fetch =>
      simp only [VirtioQueue.host]
      split_ifs
      · exact h
      split
      · exact h
      · exact ⟨h.linked, h.head, h.last, h.count, h.flags, h.heads, h.requests, h.all⟩
  | complete n len =>
      simp only [VirtioQueue.host]
      split
      · exact h
      · exact ⟨h.linked, h.head, h.last, h.count, h.flags, h.heads, h.requests, h.all⟩

theorem QueueInv.host {indirect : List IndirectDescTable} {q : VirtioQueue} {free : List Nat}
    {reqs : List Entry} (h : QueueInv indirect q free reqs) (s : HostStep) :
    QueueInv indirect (q.host s) free reqs := by
  have hparts := h.parts.host s
  cases s with
  | fetch =>
      by_cases hidx : q.hostIdx = q.availIdx
      · rw [VirtioQueue.host, if_pos hidx]
        exact h
      cases hw : q.waiting with
      | nil =>
          have hq : q.host .fetch = q := by simp [VirtioQueue.host, hw]
          rw [hq]
          exact h
      | cons sub rest =>
          simp only [VirtioQueue.host, if_neg hidx, hw] at hparts ⊢
          have hring := h.rings.availRing
          rw [hw, List.map_cons] at hring
          refine ⟨hparts, ⟨h.rings.size, ?_, ?_, h.rings.lastUsed, h.rings.used, h.rings.usedRing⟩,
            ⟨?_, ?_, h.logs.reported⟩, ?_, h.data, h.owner⟩
          · have havail := h.rings.avail
            rw [hw, List.length_cons] at havail
            rw [havail]
            simp only []
            omega
          · exact hring.pop.2.congr (h.rings.wrap _)
          · have hwaiting := h.logs.waiting
            rw [hw] at hwaiting
            exact (List.suffix_cons sub rest).trans hwaiting
          · have hlog := h.logs.submitted
            rw [hw] at hlog
            exact hlog.trans (perm_fetch ..)
          · have hsubs := h.subs
            rw [hw] at hsubs
            exact hsubs.trans (perm_fetch ..)
  | complete n len =>
      cases hfind : q.held.find? (·.head == n) with
      | none =>
          have hq : q.host (.complete n len) = q := by simp [VirtioQueue.host, hfind]
          rw [hq]
          exact h
      | some sub =>
          simp only [VirtioQueue.host, hfind] at hparts ⊢
          obtain ⟨hn, l₁, l₂, hheld, hl₁⟩ := List.find?_eq_some_iff_append.1 hfind
          have hhead : sub.head = n := by simpa using hn
          -- `find?` and `eraseP` meet at the same request, the first with this head
          have herase : q.held.eraseP (·.head == n) = l₁ ++ l₂ := by
            rw [hheld, List.eraseP_append_right _ (by simpa using hl₁),
              List.eraseP_cons_of_pos (p := fun x : Submission => x.head == n) hn]
          have hroom : q.done.length < q.num := by
            have := h.outstanding_lt
            omega
          refine ⟨hparts, ⟨h.rings.size, h.rings.avail, h.rings.availRing, h.rings.lastUsed, ?_, ?_⟩,
            ⟨h.logs.waiting, ?_, ?_⟩, ?_, h.data, h.owner⟩
          · rw [List.length_append, List.length_singleton, ← Nat.add_assoc]
            exact (h.rings.wrap _).trans (h.rings.used.add_right 1)
          · have hslot : q.usedIdx % q.num = (q.lastUsed + q.done.length) % q.num := h.rings.used
            rw [hslot, List.map_append, List.map_singleton, hhead]
            simpa using h.rings.usedRing.push (by simpa using hroom)
          · have hlog := h.logs.submitted
            rw [hheld] at hlog
            rw [herase, List.map_append]
            exact hlog.trans (perm_complete ..)
          · simp [h.logs.reported]
          · have hsubs := h.subs
            rw [hheld] at hsubs
            rw [herase, List.map_append]
            exact hsubs.trans (perm_complete ..)

/-! ## Submitting -/

section Disjoint

variable {indirect : List IndirectDescTable} {q : VirtioQueue} {free : List Nat}
  {reqs : List Entry} {e : Entry}

theorem VringParts.nodup (h : VringParts indirect q free reqs) :
    (free ++ reqs.flatMap Entry.ids).Nodup := h.all.nodup_iff.2 List.nodup_range

theorem VringParts.mem_ids (he : e ∈ reqs) {i : Nat} (hi : i ∈ e.ids) : i ∈ reqs.flatMap Entry.ids :=
  List.mem_flatMap.2 ⟨e, he, hi⟩

theorem VringParts.not_free (h : VringParts indirect q free reqs) (he : e ∈ reqs) {i : Nat}
    (hi : i ∈ e.ids) : i ∉ free :=
  fun hfree => (List.nodup_append.1 h.nodup).2.2 i hfree i (VringParts.mem_ids he hi) rfl

theorem VringParts.lt_num (h : VringParts indirect q free reqs) {i : Nat}
    (hi : i ∈ free ∨ i ∈ reqs.flatMap Entry.ids) : i < q.num :=
  List.mem_range.1 (h.all.mem_iff.1 (List.mem_append.2 hi))

end Disjoint

/-- The descriptors `pre` at the front of the free list become the chain of a new request. -/
theorem VringParts.take {indirect indirect' : List IndirectDescTable} {q : VirtioQueue}
    {pre post : List Nat} {reqs : List Entry} {desc : Nat → VringDesc} {head : Nat}
    (h : VringParts indirect q (pre ++ post) reqs) (sub : Submission) (hpre : pre ≠ [])
    (hhead : post.head? = some head) (hsub : sub.head = q.freeHead)
    (hkept : ∀ i, i ∉ pre → desc i = q.desc i) (hreq : Request indirect' desc pre sub.bufs)
    (htables : ∀ e ∈ reqs, Request indirect' q.desc e.ids e.sub.bufs) :
    VringParts indirect' { q with desc := desc, freeNum := q.freeNum - pre.length, freeHead := head }
      post ({ sub := sub, ids := pre } :: reqs) := by
  have hdisj : ∀ i ∈ post, i ∉ pre := by
    intro i hi hi'
    exact (List.nodup_append.1 (List.nodup_append.1 h.nodup).1).2.2 i hi' i hi rfl
  have hpost : post ≠ [] := by
    rintro rfl
    cases hhead
  constructor
  · refine h.linked.right_of_append.imp_of_mem_imp ?_
    intro i j hi _ hij
    show (desc i).next = j
    rw [hkept i (hdisj i hi)]
    exact hij
  · exact hhead
  · have hlast := h.last
    rw [List.getLast?_append_of_ne_nil _ hpost] at hlast
    exact hlast
  · have hcount := h.count
    rw [List.length_append] at hcount
    show post.length = q.freeNum - pre.length
    omega
  · intro i hi
    show (desc i).hasNext = true ∧ (desc i).isIndirect = false
    rw [hkept i (hdisj i hi)]
    exact h.flags i (List.mem_append_right _ hi)
  · rintro e he
    rcases List.mem_cons.1 he with rfl | he
    · have hfirst := h.head
      rw [List.head?_append_of_ne_nil _ hpre] at hfirst
      rw [hsub]
      exact hfirst
    · exact h.heads e he
  · rintro e he
    rcases List.mem_cons.1 he with rfl | he
    · exact hreq
    · refine (htables e he).congr fun i hi => hkept i fun hi' => ?_
      exact h.not_free he hi (List.mem_append_left _ hi')
  · have hall := h.all
    rw [List.append_assoc] at hall
    rw [List.flatMap_cons]
    exact (List.perm_append_comm_assoc _ _ _).trans hall

/-- How a free list is cut behind its first `n` descriptors. -/
theorem VringParts.cut {indirect : List IndirectDescTable} {q : VirtioQueue} {free : List Nat}
    {reqs : List Entry} (h : VringParts indirect q free reqs) {n : Nat} (hn : 0 < n)
    (hlt : n < q.freeNum) :
    ∃ pre j post, free = pre ++ j :: post ∧ pre ≠ [] ∧ pre.length = n := by
  rw [← h.count] at hlt
  refine ⟨free.take n, free[n], free.drop (n + 1), ?_, ?_, ?_⟩
  · rw [List.getElem_cons_drop hlt, List.take_append_drop]
  · intro hnil
    have hlen := congrArg List.length hnil
    rw [List.length_take, List.length_nil] at hlen
    omega
  · rw [List.length_take]
    omega

theorem setDirectDescriptors_spec {indirect : List IndirectDescTable} {q : VirtioQueue}
    {pre post : List Nat} {j : Nat} {reqs : List Entry} {bufs : List AddrSize}
    (h : VringParts indirect q (pre ++ j :: post) reqs) (hpre : pre ≠ [])
    (hlen : pre.length = bufs.length) :
    ∃ desc, setDirectDescriptors q bufs = .ok { q with
        desc := desc, freeNum := q.freeNum - pre.length, freeHead := j } ∧
      DirectChain desc pre bufs ∧ ∀ i, i ∉ pre → desc i = q.desc i := by
  have hnodup : pre.Nodup := (List.nodup_append.1 (List.nodup_append.1 h.nodup).1).1
  have hlink : (pre ++ [j]).IsChain (Links q.desc) := by
    refine h.linked.prefix ⟨post, ?_⟩
    simp
  have hhead : (pre ++ [j]).headD 0 = q.freeHead := by
    have hfirst := h.head
    cases pre with
    | nil => exact absurd rfl hpre
    | cons i pre => simpa using hfirst
  obtain ⟨desc, hrun, hused, hother⟩ := directLoop_spec (v := none) hlen hnodup hlink
    fun i hi => (h.flags i (List.mem_append_left _ hi)).1
  obtain ⟨last, hlast⟩ := Option.isSome_iff_exists.1 (List.getLast?_isSome.2 hpre)
  have hbufs : bufs ≠ [] := by
    rintro rfl
    exact hpre (List.length_eq_zero_iff.1 hlen)
  rw [hhead, hlast, Option.some_or] at hrun
  refine ⟨Function.update desc last (desc last).unsetNext, ?_,
    directChain_of_used hused hnodup hlink.left_of_append hlast, ?_⟩
  · rw [setDirectDescriptors]
    refine (assert_bind hbufs).trans ?_
    rw [hrun, ok_bind, hlen]
  · intro i hi
    have hne : i ≠ last := fun heq => hi (heq ▸ List.mem_of_getLast? hlast)
    rw [Function.update_of_ne hne]
    exact hother i hi

/-- What the filled table lists. -/
theorem fillIndirect_lists (t : IndirectDescTable) (bufs : List AddrSize) :
    { t with inUse := true, descs := fillIndirect t.descs bufs }.Lists bufs := by
  intro k hk
  have hget : bufs[k]? = some (bufs.get ⟨k, hk⟩) := by simp
  simp only [fillIndirect, hget]
  by_cases hlast : k + 1 = bufs.length
  · rw [if_pos hlast]
    refine ⟨VringDesc.Carries.unsetNext ?_, rfl, ?_⟩
    · exact useVringDesc_carries (t.descs k) _
    · rw [unsetNext_hasNext]
      exact iff_of_false (by simp) (by omega)
  · rw [if_neg hlast]
    refine ⟨useVringDesc_carries (t.descs k) _, rfl, iff_of_true ?_ (by omega)⟩
    exact useVringDesc_hasNext (t.descs k) _

/-- The descriptor `set_indirect_descriptors` writes. -/
def indirectDesc (vd : VringDesc) (paddr : Nat) (bufs : List AddrSize) : VringDesc :=
  { vd with flags := vringDescFIndirect, addr := paddr, len := bufs.length * 16 % 2 ^ 32 }

/-- `set_indirect_descriptors` takes the first table that is not in use, and ends in a panic if
    there is none. -/
theorem setIndirectDescriptors_cases (indirect : List IndirectDescTable) (q : VirtioQueue)
    {bufs : List AddrSize} (hbufs : bufs ≠ []) :
    (∃ l₁ t l₂, indirect = l₁ ++ t :: l₂ ∧ t.inUse = false ∧
      setIndirectDescriptors indirect q bufs = .ok
        (l₁ ++ { t with inUse := true, descs := fillIndirect t.descs bufs } :: l₂, { q with
          desc := Function.update q.desc q.freeHead
            (indirectDesc (q.desc q.freeHead) t.paddr bufs)
          freeNum := q.freeNum - 1
          freeHead := (q.desc q.freeHead).next })) ∨
    (∀ t ∈ indirect, t.inUse = true) ∧
      setIndirectDescriptors indirect q bufs =
        .error (if indirect = [] then .assertion "desc"
          else .panic "No indirect descriptor tables left") := by
  cases hfind : indirect.findIdx? (!·.inUse) with
  | none =>
      right
      refine ⟨fun t ht => by simpa using List.findIdx?_eq_none_iff.1 hfind t ht, ?_⟩
      rw [setIndirectDescriptors, hfind]
      by_cases hnil : indirect = []
      · subst hnil
        rfl
      · rw [if_neg hnil]
        exact assert_bind hnil
  | some k =>
      left
      obtain ⟨l₁, t, l₂, rfl, ht, rfl⟩ := findIdx?_split hfind
      refine ⟨l₁, t, l₂, rfl, by simpa using ht, ?_⟩
      rw [setIndirectDescriptors, hfind]
      refine (assert_bind hbufs).trans ?_
      simp [indirectDesc, List.modify_eq_take_drop]

theorem VringParts.freeHead_mem {indirect : List IndirectDescTable} {q : VirtioQueue} {free : List Nat}
    {reqs : List Entry} (h : VringParts indirect q free reqs) : q.freeHead ∈ free :=
  List.mem_of_mem_head? h.head

theorem VringParts.head_mem {indirect : List IndirectDescTable} {q : VirtioQueue} {free : List Nat}
    {reqs : List Entry} {e : Entry} (h : VringParts indirect q free reqs) (he : e ∈ reqs) :
    e.sub.head ∈ e.ids := List.mem_of_mem_head? (h.heads e he)

/-- The queue after a request was published and recorded. -/
def VirtioQueue.published (q : VirtioQueue) (sub : Submission) : VirtioQueue :=
  (q.publish sub.head sub.data).record sub

/-- Publishing the request that has just been given its descriptors. -/
theorem QueueInv.published {indirect indirect' : List IndirectDescTable} {q : VirtioQueue}
    {free free' pre : List Nat} {reqs : List Entry} {desc : Nat → VringDesc} {freeNum freeHead : Nat}
    {sub : Submission} (h : QueueInv indirect q free reqs)
    (hparts : VringParts indirect' { q with desc := desc, freeNum := freeNum, freeHead := freeHead } free'
      ({ sub := sub, ids := pre } :: reqs))
    (hhead : sub.head = q.freeHead) (hdata : sub.data ≠ 0) :
    QueueInv indirect' (VirtioQueue.published
      { q with desc := desc, freeNum := freeNum, freeHead := freeHead } sub) free'
      ({ sub := sub, ids := pre } :: reqs) := by
  -- the new head was free, so it is the head of no request in flight
  have hne : ∀ e ∈ reqs, e.sub.head ≠ sub.head := by
    intro e he heq
    refine h.parts.not_free he (h.parts.head_mem he) ?_
    rw [heq, hhead]
    exact h.parts.freeHead_mem
  have hroom : q.waiting.length < q.num := by
    have := h.outstanding_lt
    omega
  refine ⟨⟨hparts.linked, hparts.head, hparts.last, hparts.count, hparts.flags, hparts.heads,
    hparts.requests, hparts.all⟩, ⟨h.rings.size, ?_, ?_, h.rings.lastUsed, h.rings.used,
    h.rings.usedRing⟩, ⟨?_, ?_, h.logs.reported⟩, ?_, ?_, ?_⟩
  · simp only [VirtioQueue.published, VirtioQueue.record, VirtioQueue.publish, h.rings.avail,
      List.length_append, List.length_singleton]
    omega
  · have hslot : q.availIdx % q.num = (q.hostIdx + q.waiting.length) % q.num := by
      rw [h.rings.avail]
      exact h.rings.wrap _
    simp only [VirtioQueue.published, VirtioQueue.record, VirtioQueue.publish, hslot,
      List.map_append, List.map_singleton]
    simpa using h.rings.availRing.push (by simpa using hroom)
  · obtain ⟨older, holder⟩ := h.logs.waiting
    refine ⟨older, ?_⟩
    simp only [VirtioQueue.published, VirtioQueue.record, VirtioQueue.publish]
    rw [← List.append_assoc, holder]
  · have hlog := h.logs.submitted
    rw [List.append_assoc] at hlog
    simp only [VirtioQueue.published, VirtioQueue.record, VirtioQueue.publish]
    rw [List.append_assoc]
    exact (List.perm_append_singleton _ _).trans (perm_publish hlog)
  · have hsubs := h.subs
    rw [List.append_assoc] at hsubs
    simp only [VirtioQueue.published, VirtioQueue.record, VirtioQueue.publish, List.map_cons]
    rw [List.append_assoc]
    exact perm_publish hsubs
  · intro e he
    simp only [VirtioQueue.published, VirtioQueue.record, VirtioQueue.publish]
    rcases List.mem_cons.1 he with rfl | he
    · exact ⟨Function.update_self _ _ _, hdata⟩
    · rw [Function.update_of_ne (hne e he)]
      exact h.data e he
  · intro n hn
    simp only [VirtioQueue.published, VirtioQueue.record, VirtioQueue.publish] at hn
    by_cases heq : n = sub.head
    · exact ⟨_, List.mem_cons_self .., heq.symm⟩
    · rw [Function.update_of_ne heq] at hn
      obtain ⟨e, he, hen⟩ := h.owner n hn
      exact ⟨e, List.mem_cons_of_mem _ he, hen⟩

/-! ## The device -/

/-- Descriptor `i` of queue `k` refers to the table at `a`. -/
def Refs (dev : VirtioDev) (k i a : Nat) : Prop :=
  k < dev.numQueues ∧ i < (dev.queues k).num ∧ ((dev.queues k).desc i).isIndirect = true ∧
    ((dev.queues k).desc i).addr = a

/-- The invariant of a device. Its queues share the indirect tables. -/
structure DevInv (dev : VirtioDev) (free : Nat → List Nat) (reqs : Nat → List Entry) : Prop where
  queues : ∀ k, k < dev.numQueues → QueueInv dev.indirect (dev.queues k) (free k) (reqs k)
  tables : TablesInv dev.indirect (Refs dev)

/-- Another table may be filled behind a request's back. -/
theorem Request.replace {l₁ l₂ : List IndirectDescTable} {t t' : IndirectDescTable}
    {desc : Nat → VringDesc} {ids : List Nat} {bufs : List AddrSize}
    (h : Request (l₁ ++ t :: l₂) desc ids bufs)
    (hne : ∀ i ∈ ids, (desc i).isIndirect = true → (desc i).addr ≠ t.paddr) :
    Request (l₁ ++ t' :: l₂) desc ids bufs := by
  rcases h with hd | ⟨i, rfl, hi⟩
  · exact .inl hd
  · obtain ⟨u, hu, haddr, hlists⟩ := hi.table
    have hut : u ≠ t := by
      rintro rfl
      exact hne i (List.mem_singleton_self i) hi.isIndirect haddr.symm
    refine .inr ⟨i, rfl, hi.hasNext, hi.isIndirect, hi.nonempty, hi.len, u, ?_, haddr, hlists⟩
    simp only [List.mem_append, List.mem_cons] at hu ⊢
    tauto

/-- A table keeps its entries when it is given up. -/
theorem Request.release {l₁ l₂ : List IndirectDescTable} {t t' : IndirectDescTable}
    {desc : Nat → VringDesc} {ids : List Nat} {bufs : List AddrSize}
    (h : Request (l₁ ++ t :: l₂) desc ids bufs) (hpaddr : t'.paddr = t.paddr)
    (hdescs : t'.descs = t.descs) : Request (l₁ ++ t' :: l₂) desc ids bufs := by
  rcases h with hd | ⟨i, rfl, hi⟩
  · exact .inl hd
  · obtain ⟨u, hu, haddr, hlists⟩ := hi.table
    refine .inr ⟨i, rfl, hi.hasNext, hi.isIndirect, hi.nonempty, hi.len, ?_⟩
    simp only [List.mem_append, List.mem_cons] at hu
    rcases hu with hu | rfl | hu
    · exact ⟨u, by simp [hu], haddr, hlists⟩
    · refine ⟨t', by simp, hpaddr.trans haddr, ?_⟩
      rw [IndirectDescTable.Lists, hdescs]
      exact hlists
    · exact ⟨u, by simp [hu], haddr, hlists⟩

/-- The invariant of a queue under other tables that keep its requests. -/
theorem QueueInv.tables {indirect indirect' : List IndirectDescTable} {q : VirtioQueue}
    {free : List Nat} {reqs : List Entry} (h : QueueInv indirect q free reqs)
    (hreq : ∀ e ∈ reqs, Request indirect' q.desc e.ids e.sub.bufs) :
    QueueInv indirect' q free reqs :=
  ⟨⟨h.parts.linked, h.parts.head, h.parts.last, h.parts.count, h.parts.flags, h.parts.heads, hreq,
    h.parts.all⟩, h.rings, h.logs, h.subs, h.data, h.owner⟩

section SetQueue

variable {dev : VirtioDev} {qidx : Nat} {q : VirtioQueue}

@[simp] theorem setQueue_self : (dev.setQueue qidx q).queues qidx = q := Function.update_self _ _ _

theorem setQueue_of_ne {k : Nat} (hk : k ≠ qidx) : (dev.setQueue qidx q).queues k = dev.queues k :=
  Function.update_of_ne hk _ _

theorem setQueue_setQueue (q' : VirtioQueue) : (dev.setQueue qidx q).setQueue qidx q' = dev.setQueue qidx q' := by
  rw [VirtioDev.setQueue, VirtioDev.setQueue, VirtioDev.setQueue, Function.update_idem]

@[simp] theorem setQueue_numQueues : (dev.setQueue qidx q).numQueues = dev.numQueues := rfl

@[simp] theorem setQueue_indirect : (dev.setQueue qidx q).indirect = dev.indirect := rfl

end SetQueue

/-- One queue and the tables have changed: what is left to show. -/
theorem DevInv.step {dev : VirtioDev} {free : Nat → List Nat} {reqs : Nat → List Entry}
    {indirect : List IndirectDescTable} {qidx : Nat} {q : VirtioQueue} {free' : List Nat}
    {reqs' : List Entry} (h : DevInv dev free reqs)
    (hqueue : QueueInv indirect q free' reqs')
    (hothers : ∀ k, k < dev.numQueues → k ≠ qidx → ∀ e ∈ reqs k,
      Request indirect (dev.queues k).desc e.ids e.sub.bufs)
    (htables : TablesInv indirect
      (Refs ({ dev with indirect := indirect }.setQueue qidx q))) :
    DevInv ({ dev with indirect := indirect }.setQueue qidx q) (Function.update free qidx free')
      (Function.update reqs qidx reqs') := by
  refine ⟨fun k hk => ?_, htables⟩
  by_cases hkq : k = qidx
  · subst hkq
    rw [setQueue_self, Function.update_self, Function.update_self]
    exact hqueue
  · rw [setQueue_of_ne hkq, Function.update_of_ne hkq, Function.update_of_ne hkq]
    exact (h.queues k hk).tables (hothers k hk hkq)

/-- The descriptors of a queue that refer to a table decide what the whole device refers to. -/
theorem refs_setQueue {dev : VirtioDev} {indirect : List IndirectDescTable} {qidx : Nat}
    {q : VirtioQueue} (hq : qidx < dev.numQueues) (hnum : q.num = (dev.queues qidx).num) (k i a : Nat) :
    Refs ({ dev with indirect := indirect }.setQueue qidx q) k i a ↔
      if k = qidx then i < (dev.queues qidx).num ∧ (q.desc i).isIndirect = true ∧ (q.desc i).addr = a
      else Refs dev k i a := by
  by_cases hk : k = qidx
  · subst hk
    rw [if_pos rfl, Refs, setQueue_self, setQueue_numQueues, hnum]
    exact and_iff_right hq
  · rw [if_neg hk, Refs, setQueue_of_ne hk, setQueue_numQueues, Refs]

theorem TablesInv.congr {indirect : List IndirectDescTable} {refs refs' : Nat → Nat → Nat → Prop}
    (h : TablesInv indirect refs) (hrefs : ∀ k i a, refs' k i a ↔ refs k i a) :
    TablesInv indirect refs' := by
  obtain rfl : refs' = refs := funext fun k => funext fun i => funext fun a => propext (hrefs k i a)
  exact h

/-- A change of one queue that concerns no descriptor referring to a table. -/
theorem DevInv.step_queue {dev : VirtioDev} {free : Nat → List Nat} {reqs : Nat → List Entry}
    {qidx : Nat} {q : VirtioQueue} {free' : List Nat} {reqs' : List Entry} (h : DevInv dev free reqs)
    (hq : qidx < dev.numQueues) (hqueue : QueueInv dev.indirect q free' reqs')
    (hnum : q.num = (dev.queues qidx).num)
    (hdesc : ∀ i, q.desc i = (dev.queues qidx).desc i ∨
      (q.desc i).isIndirect = false ∧ ((dev.queues qidx).desc i).isIndirect = false) :
    DevInv (dev.setQueue qidx q) (Function.update free qidx free')
      (Function.update reqs qidx reqs') := by
  refine h.step hqueue (fun k hk _ => (h.queues k hk).parts.requests) ?_
  refine h.tables.congr fun k i a => (refs_setQueue hq hnum k i a).trans ?_
  by_cases hk : k = qidx
  · subst hk
    rw [if_pos rfl, Refs, and_iff_right hq]
    rcases hdesc i with heq | ⟨hnew, hold⟩
    · rw [heq]
    · simp [hnew, hold]
  · rw [if_neg hk]

/-- The only ways a request ends the driver: there is no indirect table, or all are in use. -/
def OutOfTables (f : Fault) : Prop :=
  f = .assertion "desc" ∨ f = .panic "No indirect descriptor tables left"

/-- The invariant, whatever the free list and the requests are. -/
def Sound (dev : VirtioDev) : Prop := ∃ free reqs, DevInv dev free reqs

theorem Rings.availIdx_lt {q : VirtioQueue} (h : Rings q) : q.availIdx < 2 ^ 16 := by
  rw [h.avail]
  exact Nat.mod_lt _ (by decide)

/-- The newest slot of the ring is the one that `publish` has written. -/
theorem newestHead_publish {q : VirtioQueue} (h : q.availIdx < 2 ^ 16) (head data : Nat) :
    (q.publish head data).newestHead = head := by
  have hslot : ((q.availIdx + 1) % 2 ^ 16 + (2 ^ 16 - 1)) % 2 ^ 16 = q.availIdx := by omega
  rw [VirtioQueue.newestHead, VirtioQueue.publish]
  dsimp only
  rw [hslot, Function.update_self]

theorem recorded_publish {dev : VirtioDev} {qidx : Nat} {q : VirtioQueue} (h : q.availIdx < 2 ^ 16)
    (head : Nat) (bufs : List AddrSize) (data : Nat) :
    (dev.setQueue qidx (q.publish head data)).recorded qidx bufs data 0 =
      dev.setQueue qidx (q.published { head := head, bufs := bufs, data := data }) := by
  rw [VirtioDev.recorded, setQueue_self, newestHead_publish h]
  exact setQueue_setQueue _

/-- A request with direct descriptors. -/
theorem DevInv.enqueue_direct {dev : VirtioDev} {free : Nat → List Nat} {reqs : Nat → List Entry}
    {qidx : Nat} {bufs : List AddrSize} {data : Nat} (h : DevInv dev free reqs)
    (hq : qidx < dev.numQueues) (hbufs : bufs ≠ []) (hdata : data ≠ 0)
    (hlt : bufs.length < (dev.queues qidx).freeNum) :
    ∃ q', setDirectDescriptors (dev.queues qidx) bufs = .ok q' ∧
      (q'.handed = (dev.queues qidx).handed ∧ q'.collected = (dev.queues qidx).collected) ∧
      Sound ((dev.setQueue qidx (q'.publish (dev.queues qidx).freeHead data)).recorded qidx bufs
        data 0) := by
  have hinv := h.queues qidx hq
  obtain ⟨pre, j, post, hfree, hpre, hlen⟩ := hinv.parts.cut (List.length_pos_iff.2 hbufs) hlt
  have hparts := hinv.parts
  rw [hfree] at hparts
  obtain ⟨desc, hrun, hchain, hkept⟩ := setDirectDescriptors_spec hparts hpre hlen
  have htaken := hparts.take { head := (dev.queues qidx).freeHead, bufs := bufs, data := data } hpre
    rfl rfl hkept (.inl hchain) hinv.parts.requests
  refine ⟨_, hrun, ⟨rfl, rfl⟩, ?_⟩
  rw [recorded_publish]
  case h => exact hinv.rings.availIdx_lt
  refine ⟨_, _, h.step_queue hq (hinv.published htaken rfl hdata) rfl ?_⟩
  intro i
  by_cases hi : i ∈ pre
  · exact .inr ⟨hchain.not_indirect i hi, (hparts.flags i (List.mem_append_left _ hi)).2⟩
  · exact .inl (hkept i hi)

theorem indirectDesc_spec {l₁ l₂ : List IndirectDescTable} (t : IndirectDescTable) (vd : VringDesc)
    {bufs : List AddrSize} (hbufs : bufs ≠ []) (hlen : bufs.length ≤ mapvecNr + mapvecNr / 2) :
    IndirectDesc (l₁ ++ { t with inUse := true, descs := fillIndirect t.descs bufs } :: l₂)
      (indirectDesc vd t.paddr bufs) bufs := by
  refine ⟨?_, ?_, hbufs, ?_, ?_⟩
  · show (vringDescFIndirect &&& vringDescFNext != 0) = false
    decide
  · show (vringDescFIndirect &&& vringDescFIndirect != 0) = true
    decide
  · have hsmall : bufs.length ≤ 96 := hlen
    exact Nat.mod_eq_of_lt (by omega)
  · refine ⟨{ t with inUse := true, descs := fillIndirect t.descs bufs }, by simp, rfl, ?_⟩
    exact fillIndirect_lists t bufs

/-- The first free descriptor comes to refer to a table. -/
theorem refs_indirectDesc {dev : VirtioDev} {free : Nat → List Nat} {reqs : Nat → List Entry}
    {indirect : List IndirectDescTable} {qidx : Nat} {q : VirtioQueue} {bufs : List AddrSize}
    (h : DevInv dev free reqs) (hq : qidx < dev.numQueues) (paddr : Nat)
    (hnum : q.num = (dev.queues qidx).num)
    (hdesc : q.desc = Function.update (dev.queues qidx).desc (dev.queues qidx).freeHead
      (indirectDesc ((dev.queues qidx).desc (dev.queues qidx).freeHead) paddr bufs)) (k i a : Nat) :
    Refs ({ dev with indirect := indirect }.setQueue qidx q) k i a ↔
      Refs dev k i a ∨ k = qidx ∧ i = (dev.queues qidx).freeHead ∧ a = paddr := by
  refine (refs_setQueue hq hnum k i a).trans ?_
  by_cases hk : k = qidx
  · subst hk
    rw [if_pos rfl, hdesc]
    have hparts := (h.queues k hq).parts
    by_cases hi : i = (dev.queues k).freeHead
    · subst hi
      have hold := (hparts.flags _ hparts.freeHead_mem).2
      have hnew : ∀ vd : VringDesc, (indirectDesc vd paddr bufs).isIndirect = true := fun vd => by
        show (vringDescFIndirect &&& vringDescFIndirect != 0) = true
        decide
      rw [Function.update_self, Refs, hold, hnew]
      have hlt := hparts.lt_num (.inl hparts.freeHead_mem)
      simp [indirectDesc, hlt, eq_comm]
    · rw [Function.update_of_ne hi, Refs, and_iff_right hq]
      simp [hi]
  · simp [hk]

/-- A request through an indirect table. -/
theorem DevInv.enqueue_indirect {dev : VirtioDev} {free : Nat → List Nat} {reqs : Nat → List Entry}
    {qidx : Nat} {bufs : List AddrSize} {data : Nat} (h : DevInv dev free reqs)
    (hq : qidx < dev.numQueues) (hbufs : bufs ≠ []) (hlen : bufs.length ≤ mapvecNr + mapvecNr / 2)
    (hdata : data ≠ 0) (hlt : 1 < (dev.queues qidx).freeNum) :
    (∃ indirect q', setIndirectDescriptors dev.indirect (dev.queues qidx) bufs = .ok (indirect, q') ∧
      (q'.handed = (dev.queues qidx).handed ∧ q'.collected = (dev.queues qidx).collected) ∧
      Sound (({ dev with indirect := indirect }.setQueue qidx
        (q'.publish (dev.queues qidx).freeHead data)).recorded qidx bufs data 0)) ∨
    ∃ f, setIndirectDescriptors dev.indirect (dev.queues qidx) bufs = .error f ∧ OutOfTables f := by
  have hinv := h.queues qidx hq
  rcases setIndirectDescriptors_cases dev.indirect (dev.queues qidx) hbufs with
    ⟨l₁, t, l₂, hindirect, hunused, hrun⟩ | ⟨-, hrun⟩
  · left
    refine ⟨_, _, hrun, ⟨rfl, rfl⟩, ?_⟩
    obtain ⟨pre, j, post, hfree, hpre, hone⟩ := hinv.parts.cut Nat.one_pos hlt
    have hparts := hinv.parts
    rw [hfree] at hparts
    obtain ⟨i, rfl⟩ := List.length_eq_one_iff.1 hone
    obtain rfl : i = (dev.queues qidx).freeHead := by simpa using hparts.head
    obtain rfl : ((dev.queues qidx).desc (dev.queues qidx).freeHead).next = j :=
      (List.isChain_cons_cons.1 hparts.linked).1
    -- a table that is not in use is referred to by no queue, so it can be filled
    have hnone : ∀ k i, ¬ Refs dev k i t.paddr := by
      intro k i hr
      have hused := (h.tables.inUse t (by simp [hindirect])).2 ⟨k, i, hr⟩
      rw [hunused] at hused
      cases hused
    have hkeep : ∀ k, k < dev.numQueues → ∀ e ∈ reqs k,
        Request (l₁ ++ { t with inUse := true, descs := fillIndirect t.descs bufs } :: l₂)
          (dev.queues k).desc e.ids e.sub.bufs := by
      intro k hk e he
      have hreq := (h.queues k hk).parts.requests e he
      rw [hindirect] at hreq
      refine hreq.replace fun i hi hind haddr => hnone k i ⟨hk, ?_, hind, haddr⟩
      exact (h.queues k hk).parts.lt_num (.inr (VringParts.mem_ids he hi))
    have hkept : ∀ i, i ∉ [(dev.queues qidx).freeHead] →
        Function.update (dev.queues qidx).desc (dev.queues qidx).freeHead
          (indirectDesc ((dev.queues qidx).desc (dev.queues qidx).freeHead) t.paddr bufs) i =
        (dev.queues qidx).desc i := by
      intro i hi
      exact Function.update_of_ne (by simpa using hi) _ _
    have hreq : Request (l₁ ++ { t with inUse := true, descs := fillIndirect t.descs bufs } :: l₂)
        (Function.update (dev.queues qidx).desc (dev.queues qidx).freeHead
          (indirectDesc ((dev.queues qidx).desc (dev.queues qidx).freeHead) t.paddr bufs))
        [(dev.queues qidx).freeHead] bufs := by
      refine .inr ⟨_, rfl, ?_⟩
      rw [Function.update_self]
      exact indirectDesc_spec t _ hbufs hlen
    have htaken := hparts.take { head := (dev.queues qidx).freeHead, bufs := bufs, data := data }
      hpre rfl rfl hkept hreq (hkeep qidx hq)
    rw [recorded_publish]
    case h => exact hinv.rings.availIdx_lt
    refine ⟨_, _, h.step (hinv.published htaken rfl hdata) (fun k hk _ => hkeep k hk) ?_⟩
    have htables := h.tables
    rw [hindirect] at htables
    refine htables.take hunused rfl rfl (refs_indirectDesc h hq t.paddr rfl rfl)
  · right
    refine ⟨_, hrun, ?_⟩
    split
    · exact .inl rfl
    · exact .inr rfl

/-! ## Collecting -/

/-- Two requests have no descriptor in common. -/
theorem VringParts.ids_disjoint {indirect : List IndirectDescTable} {q : VirtioQueue}
    {free : List Nat} {r₁ r₂ : List Entry} {e e' : Entry}
    (h : VringParts indirect q free (r₁ ++ e :: r₂)) (he' : e' ∈ r₁ ++ r₂) {i : Nat}
    (hi : i ∈ e.ids) : i ∉ e'.ids := by
  intro hi'
  have hnodup := (List.nodup_append.1 h.nodup).2.1
  rw [List.flatMap_append, List.flatMap_cons] at hnodup
  obtain ⟨-, hright, hcross⟩ := List.nodup_append.1 hnodup
  rcases List.mem_append.1 he' with he' | he'
  · exact hcross i (mem_ids he' hi') i (List.mem_append_left _ hi) rfl
  · exact (List.nodup_append.1 hright).2.2 i hi i (mem_ids he' hi') rfl

/-- The chain of a completed request goes behind the tail of the free list. -/
theorem VringParts.giveBack {indirect indirect' : List IndirectDescTable} {q q' : VirtioQueue}
    {free : List Nat} {r₁ r₂ : List Entry} {e : Entry} {last : Nat}
    (h : VringParts indirect q free (r₁ ++ e :: r₂)) (hwalked : Walked q.desc e.ids last)
    (hnum : q'.num = q.num) (hhead : q'.freeHead = q.freeHead) (htail : q'.freeTail = last)
    (hcount : q'.freeNum = q.freeNum + e.ids.length)
    (hjoin : q'.desc q.freeTail = { q.desc q.freeTail with next := e.sub.head })
    (hlast : (q'.desc last).hasNext = true ∧ (q'.desc last).isIndirect = false)
    (hother : ∀ i, i ≠ q.freeTail → i ≠ last → q'.desc i = q.desc i)
    (htables : ∀ e' ∈ r₁ ++ r₂, Request indirect' q.desc e'.ids e'.sub.bufs) :
    VringParts indirect' q' (free ++ e.ids) (r₁ ++ r₂) := by
  have he : e ∈ r₁ ++ e :: r₂ := by simp
  have hsub : ∀ e' ∈ r₁ ++ r₂, e' ∈ r₁ ++ e :: r₂ := by
    intro e' he'
    simp only [List.mem_append, List.mem_cons] at he' ⊢
    tauto
  have hmem : last ∈ e.ids := List.mem_of_getLast? hwalked.getLast
  have htailmem : q.freeTail ∈ free := List.mem_of_getLast? h.last
  obtain ⟨hfreenodup, hidsnodup, -⟩ := List.nodup_append.1 h.nodup
  have henodup : e.ids.Nodup := by
    rw [List.flatMap_append, List.flatMap_cons] at hidsnodup
    exact (List.nodup_append.1 (List.nodup_append.1 hidsnodup).2.1).1
  have hidstail : ∀ i ∈ e.ids, i ≠ q.freeTail := by
    rintro i hi rfl
    exact h.not_free he hi htailmem
  have hfreelast : ∀ i ∈ free, i ≠ last := by
    rintro i hi rfl
    exact h.not_free he hmem hi
  constructor
  -- the two lists keep their links; the old tail now links to the head of the chain
  · refine List.isChain_append.2 ⟨?_, ?_, ?_⟩
    · refine isChain_imp_dropLast h.linked fun i hi j hij => ?_
      have hne := ne_getLast_of_mem_dropLast hfreenodup h.last hi
      rw [Links, hother i hne (hfreelast i (List.dropLast_subset _ hi))]
      exact hij
    · refine isChain_imp_dropLast hwalked.linked fun i hi j hij => ?_
      have hne := ne_getLast_of_mem_dropLast henodup hwalked.getLast hi
      rw [Links, hother i (hidstail i (List.dropLast_subset _ hi)) hne]
      exact hij
    · intro i hi j hj
      rw [h.last, Option.mem_some_iff] at hi
      rw [h.heads e he, Option.mem_some_iff] at hj
      subst hi hj
      rw [Links, hjoin]
  · rw [List.head?_append_of_ne_nil _ (by rintro rfl; cases htailmem), hhead]
    exact h.head
  · rw [List.getLast?_append_of_ne_nil _ (by intro hnil; rw [hnil] at hmem; cases hmem), htail]
    exact hwalked.getLast
  · rw [List.length_append, hcount, h.count]
  · intro i hi
    by_cases hil : i = last
    · subst hil
      exact hlast
    · rcases List.mem_append.1 hi with hi | hi
      · by_cases hit : i = q.freeTail
        · subst hit
          rw [hjoin]
          exact h.flags _ hi
        · rw [hother i hit hil]
          exact h.flags i hi
      · rw [hother i (hidstail i hi) hil]
        refine hwalked.inner i ?_
        obtain ⟨init, hinit⟩ := List.getLast?_eq_some_iff.1 hwalked.getLast
        rw [hinit] at hi ⊢
        rw [List.dropLast_concat]
        rcases List.mem_append.1 hi with hi | hi
        · exact hi
        · exact absurd (List.mem_singleton.1 hi) hil
  · intro e' he'
    exact h.heads e' (hsub e' he')
  · intro e' he'
    refine (htables e' he').congr fun i hi => hother i ?_ ?_
    · rintro rfl
      exact h.not_free (hsub e' he') hi htailmem
    · rintro rfl
      exact h.ids_disjoint he' hmem hi
  · have hall := h.all
    rw [hnum]
    refine List.Perm.trans ?_ hall
    rw [List.flatMap_append, List.flatMap_append, List.flatMap_cons, List.append_assoc]
    refine List.Perm.append_left free ?_
    exact List.perm_append_comm_assoc _ _ _

/-- The request at the front of the used ring is collected. -/
theorem QueueInv.giveBack {indirect indirect' : List IndirectDescTable} {q : VirtioQueue}
    {free : List Nat} {r₁ r₂ : List Entry} {e : Entry} {x : Submission × Nat}
    {rest : List (Submission × Nat)} {desc : Nat → VringDesc} {last freeNum : Nat}
    (h : QueueInv indirect q free (r₁ ++ e :: r₂)) (hdone : q.done = x :: rest) (he : e.sub = x.1)
    (hparts : VringParts indirect' (q.giveBack desc last freeNum) (free ++ e.ids) (r₁ ++ r₂)) :
    (q.usedRing q.lastUsed).id = x.1.head ∧ (q.usedRing q.lastUsed).len = x.2 ∧
    QueueInv indirect' (q.giveBack desc last freeNum) (free ++ e.ids) (r₁ ++ r₂) := by
  have hmem : e ∈ r₁ ++ e :: r₂ := by simp
  have hring := h.rings.usedRing
  rw [hdone, List.map_cons] at hring
  obtain ⟨hslot, hrest⟩ := hring.pop
  rw [Nat.mod_eq_of_lt h.rings.lastUsed] at hslot
  have hid : (q.usedRing q.lastUsed).id = x.1.head := by rw [hslot]
  have hlen : (q.usedRing q.lastUsed).len = x.2 := by rw [hslot]
  have hdata : q.data x.1.head = x.1.data := by
    rw [← he]
    exact (h.data e hmem).1
  have hnum : 0 < q.num := Nat.lt_of_le_of_lt (Nat.zero_le _) h.rings.lastUsed
  have hsub : ∀ e' ∈ r₁ ++ r₂, e' ∈ r₁ ++ e :: r₂ := by
    intro e' he'
    simp only [List.mem_append, List.mem_cons] at he' ⊢
    tauto
  -- the data of a request stands at its head, and no other request has this head
  have hne : ∀ e' ∈ r₁ ++ r₂, e'.sub.head ≠ x.1.head := by
    intro e' he' heq
    refine h.parts.ids_disjoint he' (h.parts.head_mem hmem) ?_
    rw [he, ← heq]
    exact h.parts.head_mem (hsub e' he')
  refine ⟨hid, hlen, hparts, ⟨h.rings.size, h.rings.avail, h.rings.availRing, ?_, ?_, ?_⟩,
    ⟨h.logs.waiting, h.logs.submitted, ?_⟩, ?_, ?_, ?_⟩
  · exact Nat.mod_lt _ hnum
  · have hused := h.rings.used
    rw [hdone, List.length_cons] at hused
    simp only [VirtioQueue.giveBack, hdone, List.tail_cons]
    refine hused.trans ?_
    have hwrap : (q.lastUsed + 1) % q.num ≡ q.lastUsed + 1 [MOD q.num] := Nat.mod_modEq _ _
    have hsum := (hwrap.add_right rest.length).symm
    rwa [Nat.add_assoc, Nat.add_comm 1] at hsum
  · simp only [VirtioQueue.giveBack, hdone, List.tail_cons]
    exact hrest.congr (Nat.mod_modEq _ _)
  · have hlog := h.logs.reported
    rw [hdone] at hlog
    simp only [VirtioQueue.giveBack, hdone, List.tail_cons, hid, hlen, hdata]
    rw [hlog]
    simp [token]
  · have hsubs := h.subs
    rw [hdone, List.map_append, List.map_cons, List.map_cons, he] at hsubs
    simp only [VirtioQueue.giveBack, hdone, List.tail_cons]
    rw [List.map_append]
    exact (List.perm_cons x.1).1 ((List.perm_middle.symm.trans hsubs).trans List.perm_middle)
  · intro e' he'
    simp only [VirtioQueue.giveBack, hid]
    rw [Function.update_of_ne (hne e' he')]
    exact h.data e' (hsub e' he')
  · intro n hn
    simp only [VirtioQueue.giveBack, hid] at hn
    by_cases hnx : n = x.1.head
    · rw [hnx, Function.update_self] at hn
      exact absurd rfl hn
    · rw [Function.update_of_ne hnx] at hn
      obtain ⟨e', he', hen⟩ := h.owner n hn
      refine ⟨e', ?_, hen⟩
      have hee : e' ≠ e := by
        rintro rfl
        rw [he] at hen
        exact hnx hen.symm
      simp only [List.mem_append, List.mem_cons] at he' ⊢
      tauto

/-- `virtio_from_queue` while the used ring is empty, and otherwise. -/
theorem QueueInv.lastUsed_eq_iff {indirect : List IndirectDescTable} {q : VirtioQueue}
    {free : List Nat} {reqs : List Entry} (h : QueueInv indirect q free reqs) :
    q.lastUsed = q.usedIdx % q.num ↔ q.done = [] := by
  have hlt : q.done.length < q.num := by
    have := h.outstanding_lt
    omega
  have hslot : q.usedIdx % q.num = (q.lastUsed + q.done.length) % q.num := h.rings.used
  rw [hslot, Ring.start_eq_iff h.rings.lastUsed hlt, List.length_eq_zero_iff]

/-- The steps of `virtio_from_queue` on a chain whose last descriptor is `last`. -/
theorem virtioFromQueue_run {dev : VirtioDev} {qidx : Nat} {q : VirtioQueue} (hqueue : dev.queues qidx = q)
    {first last count : Nat} {indirect : List IndirectDescTable} {desc desc' : Nat → VringDesc}
    (hq : qidx < dev.numQueues) (hpending : q.lastUsed ≠ q.usedIdx % q.num)
    (hfirst : (q.usedRing q.lastUsed).id % q.num = first) (hdata : q.data first ≠ 0)
    (htail : (q.desc q.freeTail).hasNext = true)
    (hdesc : desc = Function.update q.desc q.freeTail { q.desc q.freeTail with next := first })
    (hwalk : lastOfChain q.num dev.indirect desc first 0 = .ok (dev.indirect, desc, last, count))
    (hclear : clearIndirect dev.indirect desc last = .ok (indirect, desc'))
    (hlast : (desc' last).hasNext = false) (hsmall : q.num < 2 ^ 16)
    (hcount : q.freeNum + (count + 1) ≤ q.num) :
    virtioFromQueue dev qidx = .ok
      (some (q.data (q.usedRing q.lastUsed).id, (q.usedRing q.lastUsed).len),
        { dev with indirect := indirect }.setQueue qidx
          (q.giveBack desc' last (q.freeNum + (count + 1)))) := by
  have hnum : (q.freeNum + (count + 1)) % 2 ^ 16 = q.freeNum + (count + 1) :=
    Nat.mod_eq_of_lt (by omega)
  rw [virtioFromQueue]
  refine (assert_bind hq).trans ?_
  dsimp only
  rw [hqueue, if_neg hpending, hfirst]
  refine (assert_bind hdata).trans ?_
  refine (assert_bind htail).trans ?_
  rw [← hdesc, hwalk, ok_bind]
  dsimp only
  rw [hclear, ok_bind]
  dsimp only
  refine (assert_bind hlast).trans ?_
  rw [hnum]
  exact assert_bind hcount

theorem Walked.congr {desc desc' : Nat → VringDesc} {ids : List Nat} {last : Nat}
    (h : Walked desc ids last) (heq : ∀ i ∈ ids, desc' i = desc i) : Walked desc' ids last := by
  refine ⟨h.getLast, ?_, ?_, ?_⟩
  · refine h.linked.imp_of_mem_imp fun i j hi _ hij => ?_
    rw [Links, heq i hi]
    exact hij
  · intro i hi
    rw [heq i (List.dropLast_subset _ hi)]
    exact h.inner i hi
  · rw [heq last (List.mem_of_getLast? h.getLast)]
    exact h.hasNext

/-- What `clear_indirect_table` leaves of the last descriptor of a chain: the tables and the
    descriptors afterwards, and what the device then refers to. -/
theorem DevInv.clear {dev : VirtioDev} {free : Nat → List Nat} {reqs : Nat → List Entry} {qidx : Nat}
    (h : DevInv dev free reqs) (hq : qidx < dev.numQueues) {e : Entry} (he : e ∈ reqs qidx)
    {last : Nat} (hwalked : Walked (dev.queues qidx).desc e.ids last) {desc : Nat → VringDesc}
    (hdesc : ∀ i ∈ e.ids, desc i = (dev.queues qidx).desc i) :
    ∃ indirect desc', clearIndirect dev.indirect desc last = .ok (indirect, desc') ∧
      (∀ i, i ≠ last → desc' i = desc i) ∧ (desc' last).hasNext = false ∧
      (∀ k, k < dev.numQueues → ∀ e ∈ reqs k,
        Request indirect (dev.queues k).desc e.ids e.sub.bufs) ∧
      ∀ refs : Nat → Nat → Nat → Prop,
        (∀ k i a, refs k i a ↔ Refs dev k i a ∧ ¬ (k = qidx ∧ i = last)) →
        TablesInv indirect refs := by
  have hmem : last ∈ e.ids := List.mem_of_getLast? hwalked.getLast
  have hlast : desc last = (dev.queues qidx).desc last := hdesc last hmem
  have hlt : last < (dev.queues qidx).num :=
    (h.queues qidx hq).parts.lt_num (.inr (VringParts.mem_ids he hmem))
  rcases (h.queues qidx hq).parts.requests e he with hdirect | ⟨i, hids, hindirect⟩
  · have hnot := hdirect.not_indirect last hmem
    refine ⟨dev.indirect, desc, clearIndirect_direct (by rw [hlast]; exact hnot), fun _ _ => rfl, ?_,
      fun k hk => (h.queues k hk).parts.requests, fun refs hrefs => h.tables.congr fun k i a => ?_⟩
    · rw [hlast]
      exact hwalked.hasNext
    · rw [hrefs, and_iff_left_iff_imp]
      rintro href ⟨rfl, rfl⟩
      rw [Refs, hnot] at href
      exact absurd href.2.2.1 (by simp)
  · obtain rfl : i = last := by
      rw [hids] at hmem
      exact (List.mem_singleton.1 hmem).symm
    have href : Refs dev qidx i (desc i).addr := by
      rw [hlast]
      exact ⟨hq, hlt, hindirect.isIndirect, rfl⟩
    obtain ⟨l₁, t, l₂, hsplit, hpaddr, hclear⟩ :=
      clearIndirect_indirect desc h.tables (by rw [hlast]; exact hindirect) href
    have htables := h.tables
    rw [hsplit] at htables
    refine ⟨_, _, hclear, fun k hk => Function.update_of_ne hk _ _, ?_, ?_, ?_⟩
    · rw [Function.update_self, unsetIndirect_hasNext, hlast]
      exact hwalked.hasNext
    · intro k hk e' he'
      have hreq := (h.queues k hk).parts.requests e' he'
      rw [hsplit] at hreq
      exact hreq.release rfl rfl
    · intro refs hrefs
      refine htables.release (hpaddr ▸ href) ?_ rfl rfl hrefs
      intro a ha
      rw [hpaddr, hlast]
      exact ha.2.2.2.symm

/-- `virtio_from_queue` collects the oldest report. -/
theorem DevInv.fromQueue {dev : VirtioDev} {free : Nat → List Nat} {reqs : Nat → List Entry}
    {qidx : Nat} {x : Submission × Nat} {rest : List (Submission × Nat)} (h : DevInv dev free reqs)
    (hq : qidx < dev.numQueues) (hdone : (dev.queues qidx).done = x :: rest) :
    ∃ indirect desc last n, virtioFromQueue dev qidx = .ok (some (token x),
        { dev with indirect := indirect }.setQueue qidx ((dev.queues qidx).giveBack desc last n)) ∧
      ((dev.queues qidx).giveBack desc last n).collected =
        (dev.queues qidx).collected ++ [token x] ∧
      Sound ({ dev with indirect := indirect }.setQueue qidx
        ((dev.queues qidx).giveBack desc last n)) := by
  have hinv := h.queues qidx hq
  -- the request that the used ring reports next
  have hx : x.1 ∈ (reqs qidx).map Entry.sub := by
    rw [hinv.subs.mem_iff, hdone]
    simp
  obtain ⟨e, he, hex⟩ := List.mem_map.1 hx
  obtain ⟨r₁, r₂, hsplit⟩ := List.append_of_mem he
  have hparts := hinv.parts
  set q := dev.queues qidx with hqdef
  have htailmem : q.freeTail ∈ free qidx := List.mem_of_getLast? hparts.last
  have hfirst := hparts.heads e he
  rw [hex] at hfirst
  have hheadlt : x.1.head < q.num := by
    rw [← hex]
    exact hparts.lt_num (.inr (VringParts.mem_ids he (hparts.head_mem he)))
  have hidslen : e.ids.length + q.freeNum ≤ q.num := by
    have hlen := hparts.all.length_eq
    rw [hsplit, List.flatMap_append, List.flatMap_cons] at hlen
    simp only [List.length_append, List.length_range, hparts.count] at hlen
    omega
  -- the free list is first joined to the chain, then the chain is walked to its end
  set desc := Function.update q.desc q.freeTail { q.desc q.freeTail with next := x.1.head } with hdesc
  have hkept : ∀ i ∈ e.ids, desc i = q.desc i := by
    intro i hi
    refine Function.update_of_ne ?_ _ _
    rintro rfl
    exact hparts.not_free he hi htailmem
  obtain ⟨last, hwalk, hwalked'⟩ := lastOfChain_request q.num 0
    ((hparts.requests e he).congr hkept) hfirst (by omega)
  have hwalked : Walked q.desc e.ids last := hwalked'.congr fun i hi => (hkept i hi).symm
  have hmem : last ∈ e.ids := List.mem_of_getLast? hwalked.getLast
  have hlasttail : last ≠ q.freeTail := by
    rintro rfl
    exact hparts.not_free he hmem htailmem
  obtain ⟨indirect, desc', hclear, hother, hnext, hreqs, htables⟩ := h.clear hq he hwalked hkept
  have hidspos : 0 < e.ids.length := List.length_pos_iff.2 (hparts.requests e he).ne_nil
  set n := q.freeNum + (0 + (e.ids.length - 1) + 1) with hn
  have hjoin : (q.giveBack desc' last n).desc q.freeTail =
      { q.desc q.freeTail with next := x.1.head } := by
    simp only [VirtioQueue.giveBack]
    rw [Function.update_of_ne hlasttail.symm, hother _ hlasttail.symm, hdesc, Function.update_self]
  have hrest : ∀ i, i ≠ q.freeTail → i ≠ last → (q.giveBack desc' last n).desc i = q.desc i := by
    intro i hit hil
    simp only [VirtioQueue.giveBack]
    rw [Function.update_of_ne hil, hother i hil, hdesc, Function.update_of_ne hit]
  have hlast : ((q.giveBack desc' last n).desc last).hasNext = true ∧
      ((q.giveBack desc' last n).desc last).isIndirect = false := by
    simp only [VirtioQueue.giveBack, Function.update_self]
    constructor
    · show (vringDescFNext &&& vringDescFNext != 0) = true
      decide
    · show (vringDescFNext &&& vringDescFIndirect != 0) = false
      decide
  -- the chain goes behind the free list, and the request is no longer among those in flight
  have hgiven : VringParts indirect (q.giveBack desc' last n) (free qidx ++ e.ids) (r₁ ++ r₂) := by
    have hold := hparts
    rw [hsplit] at hold
    refine hold.giveBack hwalked rfl rfl rfl ?_ (by rw [hex]; exact hjoin) hlast hrest ?_
    · show n = q.freeNum + e.ids.length
      omega
    · intro e' he'
      refine hreqs qidx hq e' ?_
      rw [hsplit]
      simp only [List.mem_append, List.mem_cons] at he' ⊢
      tauto
  have hinv' := hinv
  rw [hsplit] at hinv'
  obtain ⟨hid, hlen, hqueue⟩ := hinv'.giveBack hdone hex hgiven
  have hdata : q.data x.1.head = x.1.data ∧ x.1.data ≠ 0 := by
    rw [← hex]
    exact hinv.data e he
  have htoken : (q.data (q.usedRing q.lastUsed).id, (q.usedRing q.lastUsed).len) = token x := by
    rw [hid, hlen, hdata.1]
    rfl
  refine ⟨indirect, desc', last, n, ?_, ?_, _, _, h.step hqueue (fun k hk _ => hreqs k hk) ?_⟩
  · have hpending : q.lastUsed ≠ q.usedIdx % q.num := by
      rw [Ne, hinv.lastUsed_eq_iff, hdone]
      simp
    have hsmall : q.num < 2 ^ 16 := Nat.lt_of_le_of_lt hinv.rings.num_le (by decide)
    have hrun := virtioFromQueue_run hqdef.symm hq hpending
      (by rw [hid]; exact Nat.mod_eq_of_lt hheadlt) (by rw [hdata.1]; exact hdata.2)
      (hparts.flags _ htailmem).1 hdesc hwalk hclear hnext hsmall (by omega)
    rw [hrun, htoken]
  · rw [VirtioQueue.giveBack, htoken]
  · refine htables _ fun k i a => ?_
    have hnum : (q.giveBack desc' last n).num = (dev.queues qidx).num := rfl
    rw [refs_setQueue hq hnum]
    -- the indirect tables that are referred to: the last descriptor of the chain no longer does
    by_cases hk : k = qidx
    · subst hk
      rw [if_pos rfl, Refs, and_iff_right hq]
      by_cases hil : i = last
      · subst hil
        simp [hlast.2]
      · by_cases hit : i = q.freeTail
        · subst hit
          rw [hjoin, and_iff_left (fun hlt => hil hlt.2)]
          exact Iff.rfl
        · rw [hrest i hit hil, and_iff_left (fun hlt => hil hlt.2)]
    · simp [hk]

end Yaos
