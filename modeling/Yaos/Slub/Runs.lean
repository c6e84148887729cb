import Mathlib.Order.CompletePartialOrder
import Yaos.Slub.Proofs
import Mathlib.Logic.Relation
import Mathlib.Data.Set.Lattice
import Mathlib.Order.Interval.Set.Basic

set_option autoImplicit false

/-! # Runs of the slub allocator

The invariant has two halves. `PagesInv` is about the blocks obtained from the page heap and their
marks: a block is either one page carved for a cache, whose mark is the index of that cache, or a
live large block. `ListsInv` is about objects: the free lists and the live pointers are distinct
slots of carved pages.

Marks are never cleared, so the pages outside all blocks may carry any mark. That is harmless for
objects, but the scan that finds the length of a large block may run into such pages. -/

namespace Yaos

open Chains Word

/-! ## Blocks and slots -/

/-- A block of whole pages of the direct map. -/
structure PageBlock (b : Nat × Nat) : Prop where
  aligned : b.1 % 0x1000 = 0
  pages : b.2 % 0x1000 = 0
  pos : 0 < b.2
  low : physVirtStart < b.1
  high : b.1 + b.2 ≤ physVirtEnd + 1

/-- The marks of a large block. -/
def LargeMarked (s : Slub) (b : Nat × Nat) : Prop :=
  s.mark (pageOf b.1) = largeIdx ∧
    ∀ k, 0 < k → k * 0x1000 < b.2 → s.mark (pageOf b.1 + k) = largeNext

/-- `p` is an object of a page carved for the cache `i`. -/
def Slot (s : Slub) (i p : Nat) : Prop :=
  ∃ a k, (a, 0x1000) ∈ heapBlocks s.calls ∧ s.mark (pageOf a) = i ∧
    p = a + k * classSize i ∧ (k + 1) * classSize i ≤ 0x1000

/-- The pages that the heap has given lie apart, and each has the mark of what it is used for. -/
structure PagesInv (s : Slub) (live : List LivePtr) : Prop where
  static : s.Static
  shape : ∀ b ∈ heapBlocks s.calls, PageBlock b
  apart : (heapBlocks s.calls).Pairwise fun b c => overlaps b.1 b.2 c.1 c.2 = false
  marked : ∀ b ∈ heapBlocks s.calls,
    b.2 = 0x1000 ∧ s.mark (pageOf b.1) ∈ slabClasses ∨ LargeMarked s b
  large : ∀ x ∈ live, 0x1000 < x.size →
    (x.ptr, heapSize x.size) ∈ heapBlocks s.calls ∧ LargeMarked s (x.ptr, heapSize x.size)

/-- Each class has its free list, and no object on it is live. -/
structure ListsInv (s : Slub) (live : List LivePtr) (free : Nat → List Nat) : Prop where
  lists : ∀ i ∈ slabClasses, s.FreeList i (free i)
  idle : ∀ i, i ∉ slabClasses → (s.caches i).freehead = 0
  slots : ∀ i ∈ slabClasses, ∀ p ∈ free i, Slot s i p
  small : ∀ x ∈ live, x.size ≤ 0x1000 → ∃ i ∈ slabClasses, kmallocSlab x.size = .cache i ∧
    x.size ≤ classSize i ∧ Slot s i x.ptr
  taken : ∀ x ∈ live, ∀ i ∈ slabClasses, x.ptr ∉ free i
  ptrs : (live.map LivePtr.ptr).Nodup

/-- The invariant of the runs. -/
def SlubInv (st : SlubRun) : Prop :=
  PagesInv st.slub st.live ∧ ∃ free, ListsInv st.slub st.live free

theorem overlaps_eq_false {a n b m : Nat} :
    overlaps a n b m = false ↔ b + m ≤ a ∨ a + n ≤ b := by
  simp only [overlaps, Bool.and_eq_false_iff, decide_eq_false_iff_not, Nat.not_lt]

/-- Pages of the direct map by their number. -/
theorem PageBlock.eq_pageOf {b : Nat × Nat} (h : PageBlock b) :
    b.1 = physVirtStart + pageOf b.1 * 0x1000 := by
  have hstart : physVirtStart = 0xffff820000000000 := rfl
  have hlow := h.low
  have hal := h.aligned
  unfold pageOf
  omega

/-- Different blocks share no address. -/
theorem PagesInv.disjoint {s : Slub} {live : List LivePtr} (h : PagesInv s live) {b c : Nat × Nat}
    (hb : b ∈ heapBlocks s.calls) (hc : c ∈ heapBlocks s.calls) (hne : b ≠ c) :
    c.1 + c.2 ≤ b.1 ∨ b.1 + b.2 ≤ c.1 := by
  have hlater : (heapBlocks s.calls).Pairwise fun b c => b ≠ c →
      c.1 + c.2 ≤ b.1 ∨ b.1 + b.2 ≤ c.1 := h.apart.imp fun hbc => fun _ =>
    overlaps_eq_false.1 hbc
  have hearlier : (heapBlocks s.calls).Pairwise (flip fun b c => b ≠ c →
      c.1 + c.2 ≤ b.1 ∨ b.1 + b.2 ≤ c.1) := h.apart.imp fun hbc => fun _ =>
    (overlaps_eq_false.1 hbc).symm
  exact List.Pairwise.forall_of_forall_of_flip (fun x _ hx => absurd rfl hx) hlater hearlier hb hc
    hne

/-- Where a slot lies. -/
structure InPage (s : Slub) (i p a : Nat) : Prop where
  mem : (a, 0x1000) ∈ heapBlocks s.calls
  mark : s.mark (pageOf p) = i
  low : a ≤ p
  high : p + classSize i ≤ a + 0x1000
  aligned : a % 0x1000 = 0
  window : InWindow p

theorem Slot.inPage {s : Slub} {live : List LivePtr} (h : PagesInv s live) {i p : Nat}
    (hi : i ∈ slabClasses) (hs : Slot s i p) : ∃ a, InPage s i p a := by
  obtain ⟨a, k, hmem, hmark, rfl, hk⟩ := hs
  have hb := h.shape _ hmem
  have heq := hb.eq_pageOf
  have hlow := hb.low
  have hhigh := hb.high
  have hsz := (classSize_bounds hi).1
  simp only at heq hlow hhigh
  have hend : k * classSize i + classSize i ≤ 0x1000 := by
    rwa [Nat.add_mul, Nat.one_mul] at hk
  have hpage : pageOf (a + k * classSize i) = pageOf a := by
    unfold pageOf at heq ⊢
    omega
  refine ⟨a, hmem, by rw [hpage]; exact hmark, by omega, by omega, hb.aligned, ?_⟩
  unfold InWindow
  omega

/-- Different slots share no address. -/
theorem Slot.disjoint {s : Slub} {live : List LivePtr} (h : PagesInv s live) {i j p q : Nat}
    (hs : Slot s i p) (hs' : Slot s j q) (hne : p ≠ q) :
    p + classSize i ≤ q ∨ q + classSize j ≤ p := by
  obtain ⟨a, k, hmem, hmark, rfl, hk⟩ := hs
  obtain ⟨b, l, hmem', hmark', rfl, hl⟩ := hs'
  by_cases hab : a = b
  · -- one page, so one class: the slots are different multiples of its size
    subst hab
    rw [hmark] at hmark'
    subst hmark'
    rcases Nat.lt_trichotomy k l with hkl | hkl | hkl
    · have := Nat.mul_le_mul_right (classSize i) (Nat.succ_le_of_lt hkl)
      rw [Nat.succ_mul] at this
      omega
    · subst hkl; exact absurd rfl hne
    · have := Nat.mul_le_mul_right (classSize i) (Nat.succ_le_of_lt hkl)
      rw [Nat.succ_mul] at this
      omega
  · have hd := h.disjoint hmem hmem' (by simp [hab])
    rw [Nat.add_mul, Nat.one_mul] at hk hl
    simp only at hd
    omega

/-! ## Steps that leave the blocks alone -/

/-- Same blocks, same marks, same classes. -/
structure SameBlocks (s s' : Slub) : Prop where
  blocks : heapBlocks s'.calls = heapBlocks s.calls
  pageBits : s'.pageBits = s.pageBits
  caches : ∀ i, (s'.caches i).idx = (s.caches i).idx ∧ (s'.caches i).size = (s.caches i).size

theorem SameBlocks.mark {s s' : Slub} (h : SameBlocks s s') (o : Nat) : s'.mark o = s.mark o := by
  unfold Slub.mark
  rw [h.pageBits]

theorem SameBlocks.slot {s s' : Slub} (h : SameBlocks s s') {i p : Nat} (hs : Slot s i p) :
    Slot s' i p := by
  obtain ⟨a, k, hmem, hmark, hp, hk⟩ := hs
  exact ⟨a, k, by rw [h.blocks]; exact hmem, by rw [h.mark]; exact hmark, hp, hk⟩

theorem SameBlocks.pages {s s' : Slub} {live live' : List LivePtr} (h : SameBlocks s s')
    (hp : PagesInv s live) (hlive : ∀ x ∈ live', 0x1000 < x.size → x ∈ live) :
    PagesInv s' live' := by
  have hlarge : ∀ b, LargeMarked s b → LargeMarked s' b := fun b hb =>
    ⟨by rw [h.mark]; exact hb.1, fun k h0 hk => by rw [h.mark]; exact hb.2 k h0 hk⟩
  refine ⟨fun i => ?_, ?_, ?_, ?_, ?_⟩
  · rw [(h.caches i).1, (h.caches i).2]; exact hp.static i
  · rw [h.blocks]; exact hp.shape
  · rw [h.blocks]; exact hp.apart
  · rw [h.blocks]
    intro b hb
    rw [h.mark]
    exact (hp.marked b hb).imp_right (hlarge b)
  · intro x hx hsz
    rw [h.blocks]
    have := hp.large x (hlive x hx hsz) hsz
    exact ⟨this.1, hlarge _ this.2⟩

theorem sameBlocks_setFreehead (s : Slub) (i p : Nat) : SameBlocks s (s.setFreehead i p) := by
  refine ⟨rfl, rfl, fun j => ?_⟩
  by_cases hj : j = i
  · subst hj; simp [Slub.setFreehead]
  · simp [Slub.setFreehead, hj]

@[simp] theorem setFreehead_freehead_self (s : Slub) (i p : Nat) :
    ((s.setFreehead i p).caches i).freehead = p := by simp [Slub.setFreehead]

theorem setFreehead_freehead_ne (s : Slub) {i j : Nat} (p : Nat) (h : j ≠ i) :
    ((s.setFreehead i p).caches j).freehead = (s.caches j).freehead := by
  simp [Slub.setFreehead, h]

@[simp] theorem link_zero : link 0 = none := rfl

theorem link_of_ne_zero {p : Nat} (h : p ≠ 0) : link p = some p := if_neg h

theorem link_eq_some {p q : Nat} (h : link p = some q) : p = q ∧ p ≠ 0 := by
  unfold link at h
  split at h
  · cases h
  · exact ⟨Option.some.inj h, by assumption⟩

/-- Taking the first object of a non-empty list passes all the assertions. -/
theorem kmallocTake_eq {s : Slub} {live : List LivePtr} {free : Nat → List Nat}
    (hp : PagesInv s live) (hl : ListsInv s live free) {i p : Nat} {rest : List Nat}
    (hi : i ∈ slabClasses) (hfree : free i = p :: rest) :
    kmallocTake s i = .ok (p, s.setFreehead i (s.mem p)) := by
  have hchain := hl.lists i hi
  rw [hfree] at hchain
  obtain ⟨hhead, hne⟩ := link_eq_some hchain.1
  obtain ⟨a, hin⟩ := (hl.slots i hi p (by simp [hfree])).inPage hp hi
  have hnext : s.mem p = 0 ∨ InWindow (s.mem p) := by
    by_cases h0 : s.mem p = 0
    · exact .inl h0
    · right
      cases rest with
      | nil =>
          have hnone : link (s.mem p) = none := hchain.2
          rw [link_of_ne_zero h0] at hnone
          cases hnone
      | cons q rest =>
          have hq : link (s.mem p) = some q := hchain.2.1
          rw [(link_eq_some hq).1]
          obtain ⟨b, hinq⟩ := (hl.slots i hi q (by simp [hfree])).inPage hp hi
          exact hinq.window
  have hsize : ((s.setFreehead i (s.mem p)).caches i).size = classSize i :=
    ((sameBlocks_setFreehead s i _).caches i).2.trans (hp.static.class hi).2
  have hlow := hin.low
  have hhigh := hin.high
  have hal := hin.aligned
  have hsz := (classSize_bounds hi).1
  simp only [kmallocTake, hhead, setFreehead_freehead_self, hsize]
  rw [assert_pos (hhead ▸ hne), assert_pos hin.window, assert_pos hnext, assert_pos (by omega)]
  rfl

/-- A slot belongs to one class. -/
theorem Slot.class_eq {s : Slub} {live : List LivePtr} (h : PagesInv s live) {i j p : Nat}
    (hi : i ∈ slabClasses) (hj : j ∈ slabClasses) (hs : Slot s i p) (hs' : Slot s j p) : i = j := by
  obtain ⟨a, hin⟩ := hs.inPage h hi
  obtain ⟨b, hin'⟩ := hs'.inPage h hj
  exact hin.mark.symm.trans hin'.mark

theorem kmallocTake_inv {s : Slub} {live : List LivePtr} {free : Nat → List Nat}
    (hp : PagesInv s live) (hl : ListsInv s live free) {i p n : Nat} {rest : List Nat}
    (hi : i ∈ slabClasses) (hfree : free i = p :: rest) (hn : n ≤ 0x1000)
    (hslab : kmallocSlab n = .cache i) (hfit : n ≤ classSize i) :
    SlubInv ⟨s.setFreehead i (s.mem p), ⟨p, n⟩ :: live⟩ := by
  have hsame := sameBlocks_setFreehead s i (s.mem p)
  have hchain := hl.lists i hi
  rw [hfree] at hchain
  have hpmem : p ∈ free i := by simp [hfree]
  have hslot := hl.slots i hi p hpmem
  refine ⟨hsame.pages hp ?_, Function.update free i rest, ⟨?_, ?_, ?_, ?_, ?_, ?_⟩⟩
  · intro x hx hsz
    rcases List.mem_cons.1 hx with rfl | hx
    · exact absurd hn (Nat.not_le.2 hsz)
    · exact hx
  · intro j hj
    by_cases hji : j = i
    · subst hji
      rw [Function.update_self, Slub.FreeList, setFreehead_freehead_self]
      exact hchain.2
    · rw [Function.update_of_ne hji, Slub.FreeList, setFreehead_freehead_ne s _ hji]
      exact hl.lists j hj
  · intro j hj
    have hji : j ≠ i := fun he => hj (he ▸ hi)
    rw [setFreehead_freehead_ne s _ hji]
    exact hl.idle j hj
  · intro j hj q hq
    refine hsame.slot (hl.slots j hj q ?_)
    by_cases hji : j = i
    · subst hji
      rw [Function.update_self] at hq
      rw [hfree]
      exact List.mem_cons_of_mem p hq
    · rwa [Function.update_of_ne hji] at hq
  · intro x hx hsz
    rcases List.mem_cons.1 hx with rfl | hx
    · exact ⟨i, hi, hslab, hfit, hsame.slot hslot⟩
    · obtain ⟨j, hj, hslabj, hfitj, hslotj⟩ := hl.small x hx hsz
      exact ⟨j, hj, hslabj, hfitj, hsame.slot hslotj⟩
  · intro x hx j hj hq
    -- the object came off the head of a list without repetition, and a slot has one class
    by_cases hji : j = i
    · subst hji
      rw [Function.update_self] at hq
      rcases List.mem_cons.1 hx with rfl | hx
      · exact (List.nodup_cons.1 hchain.nodup).1 hq
      · exact hl.taken x hx j hj (by rw [hfree]; exact List.mem_cons_of_mem p hq)
    · rw [Function.update_of_ne hji] at hq
      rcases List.mem_cons.1 hx with rfl | hx
      · exact hji (Slot.class_eq hp hj hi (hl.slots j hj _ hq) hslot)
      · exact hl.taken x hx j hj hq
  · rw [List.map_cons, List.nodup_cons]
    refine ⟨fun hmem => ?_, hl.ptrs⟩
    obtain ⟨x, hx, hxp⟩ := List.mem_map.1 hmem
    exact hl.taken x hx i hi (hxp ▸ hpmem)

/-! ## Freeing an object -/

/-- The allocator after an object went back to its cache. -/
def pushObject (s : Slub) (i p : Nat) : Slub := (s.store p (s.caches i).freehead).setFreehead i p

/-- Only the alignment check can fail on a live object. -/
theorem kmfree_small {s : Slub} {live : List LivePtr} (hp : PagesInv s live) {i p : Nat}
    (hi : i ∈ slabClasses) (hslot : Slot s i p) :
    kmfree s p = (assert "((ulong)p&(s->size-1))==0" (p &&& wsub (classSize i) 1 = 0) >>=
      fun _ => .ok (pushObject s i p)) := by
  obtain ⟨a, hin⟩ := hslot.inPage hp hi
  obtain ⟨hlow, hhigh⟩ := id hin.window
  have hz : p ≠ zeroSizePtr := by
    intro he
    rw [he] at hlow
    exact absurd hlow (by decide)
  obtain ⟨hidx, hsize⟩ := hp.static.class hi
  have hnl : (s.caches i).idx ≠ largeIdx := by
    rw [hidx]
    intro he
    have := lt_of_mem_slabClasses hi
    rw [he] at this
    exact absurd this (by decide)
  rw [kmfree, if_neg hz, assert_pos hin.window, getIdxFromAddr_eq s ⟨by omega, by omega⟩, hin.mark]
  simp only [bind, Except.bind, hnl, if_false, hsize, pushObject]
  by_cases hmask : p &&& wsub (classSize i) 1 = 0
  · rw [assert_pos hmask, assert_pos (Or.inr hin.window)]
  · rw [assert_neg hmask]

/-- Live pointers are told apart by their address. -/
theorem ListsInv.mem_erase {s : Slub} {live : List LivePtr} {free : Nat → List Nat}
    (hl : ListsInv s live free) {x y : LivePtr} (hx : x ∈ live) (hy : y ∈ live.erase x) :
    y ∈ live ∧ y.ptr ≠ x.ptr := by
  have hnd : live.Nodup := List.Nodup.of_map _ hl.ptrs
  obtain ⟨hyx, hmem⟩ := hnd.mem_erase_iff.1 hy
  exact ⟨hmem, fun he => hyx (List.inj_on_of_nodup_map hl.ptrs hmem hx he)⟩

theorem pushObject_inv {s : Slub} {live : List LivePtr} {free : Nat → List Nat}
    (hp : PagesInv s live) (hl : ListsInv s live free) {i : Nat} {x : LivePtr}
    (hi : i ∈ slabClasses) (hx : x ∈ live) (hslot : Slot s i x.ptr) :
    SlubInv ⟨pushObject s i x.ptr, live.erase x⟩ := by
  have hsame : SameBlocks s (pushObject s i x.ptr) := by
    have := sameBlocks_setFreehead (s.store x.ptr (s.caches i).freehead) i x.ptr
    exact ⟨this.blocks, this.pageBits, this.caches⟩
  obtain ⟨a, hin⟩ := hslot.inPage hp hi
  have hne0 : x.ptr ≠ 0 := by
    intro he
    have := hin.window.1
    rw [he] at this
    exact absurd this (by decide)
  have hnext : ∀ q, q ≠ x.ptr → (pushObject s i x.ptr).next q = s.next q := by
    intro q hq
    simp [Slub.next, pushObject, Slub.setFreehead, Slub.store, hq]
  have hnextp : (pushObject s i x.ptr).next x.ptr = link (s.caches i).freehead := by
    simp [Slub.next, pushObject, Slub.setFreehead, Slub.store]
  -- the object is live, so it is on no free list and the links of these stay
  have hkeep : ∀ j ∈ slabClasses, ∀ q ∈ free j, q ≠ x.ptr := fun j hj q hq he =>
    hl.taken x hx j hj (he ▸ hq)
  have hother : ∀ y ∈ live.erase x, y ∈ live ∧ y.ptr ≠ x.ptr := fun y hy => hl.mem_erase hx hy
  refine ⟨hsame.pages hp fun y hy _ => (hother y hy).1,
    Function.update free i (x.ptr :: free i), ⟨?_, ?_, ?_, ?_, ?_, ?_⟩⟩
  · intro j hj
    by_cases hji : j = i
    · subst hji
      rw [Function.update_self, Slub.FreeList, pushObject, setFreehead_freehead_self]
      refine ⟨link_of_ne_zero hne0, ?_⟩
      have hold := hl.lists j hj
      rw [Slub.FreeList, ← hnextp] at hold
      exact hold.congr fun q hq => hnext q (hkeep j hj q hq)
    · rw [Function.update_of_ne hji, Slub.FreeList, pushObject, setFreehead_freehead_ne _ _ hji]
      exact (hl.lists j hj).congr fun q hq => hnext q (hkeep j hj q hq)
  · intro j hj
    have hji : j ≠ i := fun he => hj (he ▸ hi)
    rw [pushObject, setFreehead_freehead_ne _ _ hji]
    exact hl.idle j hj
  · intro j hj q hq
    by_cases hji : j = i
    · subst hji
      rw [Function.update_self] at hq
      rcases List.mem_cons.1 hq with rfl | hq
      · exact hsame.slot hslot
      · exact hsame.slot (hl.slots j hj q hq)
    · rw [Function.update_of_ne hji] at hq
      exact hsame.slot (hl.slots j hj q hq)
  · intro y hy hsz
    obtain ⟨j, hj, hslabj, hfitj, hslotj⟩ := hl.small y (hother y hy).1 hsz
    exact ⟨j, hj, hslabj, hfitj, hsame.slot hslotj⟩
  · intro y hy j hj hq
    obtain ⟨hmem, hne⟩ := hother y hy
    by_cases hji : j = i
    · subst hji
      rw [Function.update_self] at hq
      rcases List.mem_cons.1 hq with he | hq
      · exact hne he
      · exact hl.taken y hmem j hj hq
    · rw [Function.update_of_ne hji] at hq
      exact hl.taken y hmem j hj hq
  · exact hl.ptrs.sublist ((List.erase_sublist).map _)

/-- Writes to memory that is not free. -/
theorem client_inv {s : Slub} {live : List LivePtr} {free : Nat → List Nat}
    (hp : PagesInv s live) (hl : ListsInv s live free) {mem : Nat → Nat}
    (hmem : ∀ i ps, s.FreeList i ps → ∀ p ∈ ps, mem p = s.mem p) :
    SlubInv ⟨{ s with mem := mem }, live⟩ := by
  have hsame : SameBlocks s { s with mem := mem } := ⟨rfl, rfl, fun _ => ⟨rfl, rfl⟩⟩
  refine ⟨hsame.pages hp fun _ hx _ => hx, free, ⟨?_, hl.idle, ?_, ?_, hl.taken, hl.ptrs⟩⟩
  · intro i hi
    refine (hl.lists i hi).congr fun q hq => ?_
    simp only [Slub.next, hmem i _ (hl.lists i hi) q hq]
  · exact fun i hi q hq => hsame.slot (hl.slots i hi q hq)
  · intro x hx hsz
    obtain ⟨i, hi, hslab, hfit, hslot⟩ := hl.small x hx hsz
    exact ⟨i, hi, hslab, hfit, hsame.slot hslot⟩

/-! ## New blocks -/

/-- The page heap handed out a new block, and only marks of its pages were changed. -/
structure Extended (s s' : Slub) (addr size : Nat) : Prop where
  calls : s'.calls = .alloc size addr :: s.calls
  caches : ∀ i, (s'.caches i).idx = (s.caches i).idx ∧ (s'.caches i).size = (s.caches i).size
  marks : ∀ o, (∀ k, k * 0x1000 < size → o ≠ pageOf addr + k) → s'.mark o = s.mark o
  block : PageBlock (addr, size)
  fresh : ∀ b ∈ heapBlocks s.calls, b.1 + b.2 ≤ addr ∨ addr + size ≤ b.1

theorem Extended.blocks {s s' : Slub} {addr size : Nat} (h : Extended s s' addr size) :
    heapBlocks s'.calls = (addr, size) :: heapBlocks s.calls := by
  have hlow := h.block.low
  rw [h.calls, heapBlocks, if_neg (by simp only at hlow; omega)]

/-- The marks of the older blocks stay. -/
theorem Extended.mark_old {s s' : Slub} {live : List LivePtr} {addr size : Nat}
    (h : Extended s s' addr size) (hp : PagesInv s live) {b : Nat × Nat}
    (hb : b ∈ heapBlocks s.calls) {k : Nat} (hk : k * 0x1000 < b.2) :
    s'.mark (pageOf b.1 + k) = s.mark (pageOf b.1 + k) := by
  refine h.marks _ fun l hl he => ?_
  have h1 := (hp.shape b hb).eq_pageOf
  have h2 := h.block.eq_pageOf
  have h3 := h.fresh b hb
  have h4 := (hp.shape b hb).pages
  have h5 := h.block.pages
  simp only at h2 h5
  omega

theorem Extended.largeMarked {s s' : Slub} {live : List LivePtr} {addr size : Nat}
    (h : Extended s s' addr size) (hp : PagesInv s live) {b : Nat × Nat}
    (hb : b ∈ heapBlocks s.calls) (hm : LargeMarked s b) : LargeMarked s' b := by
  have hpos := (hp.shape b hb).pos
  refine ⟨?_, fun k h0 hk => ?_⟩
  · have := h.mark_old hp hb (k := 0) (by omega)
    rw [Nat.add_zero] at this
    rw [this]
    exact hm.1
  · rw [h.mark_old hp hb hk]
    exact hm.2 k h0 hk

theorem Extended.slot {s s' : Slub} {live : List LivePtr} {addr size : Nat}
    (h : Extended s s' addr size) (hp : PagesInv s live) {i p : Nat} (hs : Slot s i p) :
    Slot s' i p := by
  obtain ⟨a, k, hmem, hmark, hp', hk⟩ := hs
  refine ⟨a, k, ?_, ?_, hp', hk⟩
  · rw [h.blocks]
    exact List.mem_cons_of_mem _ hmem
  · have := h.mark_old hp hmem (k := 0) (by simp)
    rw [Nat.add_zero] at this
    rw [this]
    exact hmark

theorem Extended.pages {s s' : Slub} {live live' : List LivePtr} {addr size : Nat}
    (h : Extended s s' addr size) (hp : PagesInv s live)
    (hnew : size = 0x1000 ∧ s'.mark (pageOf addr) ∈ slabClasses ∨ LargeMarked s' (addr, size))
    (hlive : ∀ x ∈ live', 0x1000 < x.size →
      x ∈ live ∨ (x.ptr, heapSize x.size) = (addr, size) ∧ LargeMarked s' (addr, size)) :
    PagesInv s' live' := by
  refine ⟨fun i => ?_, ?_, ?_, ?_, ?_⟩
  · rw [(h.caches i).1, (h.caches i).2]; exact hp.static i
  · rw [h.blocks]
    intro b hb
    rcases List.mem_cons.1 hb with rfl | hb
    · exact h.block
    · exact hp.shape b hb
  · rw [h.blocks, List.pairwise_cons]
    exact ⟨fun b hb => overlaps_eq_false.2 (h.fresh b hb), hp.apart⟩
  · rw [h.blocks]
    intro b hb
    rcases List.mem_cons.1 hb with rfl | hb
    · exact hnew
    · have hpos := (hp.shape b hb).pos
      have hmark := h.mark_old hp hb (k := 0) (by omega)
      rw [Nat.add_zero] at hmark
      rw [hmark]
      exact (hp.marked b hb).imp_right (h.largeMarked hp hb)
  · intro x hx hsz
    rw [h.blocks]
    rcases hlive x hx hsz with hx | ⟨heq, hm⟩
    · have := hp.large x hx hsz
      exact ⟨List.mem_cons_of_mem _ this.1, h.largeMarked hp this.1 this.2⟩
    · rw [heq]
      exact ⟨List.mem_cons_self .., hm⟩

/-- A page heap answer that is not 0. -/
theorem FreshBlock.block {s : Slub} {addr size : Nat} (h : FreshBlock s addr size) (h0 : addr ≠ 0)
    (hpos : 0 < size) (hal : size % 0x1000 = 0) :
    PageBlock (addr, size) ∧ ∀ b ∈ heapBlocks s.calls, b.1 + b.2 ≤ addr ∨ addr + size ≤ b.1 := by
  obtain ⟨haddr, hlow, hhigh, hfresh⟩ := h.resolve_left h0
  exact ⟨⟨haddr, hal, hpos, hlow, hhigh⟩, fun b hb => overlaps_eq_false.1 (hfresh b hb)⟩

/-- Objects at equal distances that link to each other in order. -/
theorem chain_range' {next : Nat → Option Nat} {size m p : Nat}
    (hlinks : ∀ k, k < m → next (p + k * size) = some (p + (k + 1) * size))
    (hlast : next (p + m * size) = none) :
    Chain next (some p) (List.range' p (m + 1) size) := by
  induction m generalizing p with
  | zero =>
      rw [Nat.zero_mul, Nat.add_zero] at hlast
      exact ⟨rfl, hlast⟩
  | succ m ih =>
      have hstep : ∀ k, p + size + k * size = p + (k + 1) * size := by
        intro k
        rw [Nat.add_mul, Nat.one_mul]
        omega
      rw [List.range'_succ]
      refine ⟨rfl, ?_⟩
      have hfirst := hlinks 0 (by omega)
      rw [Nat.zero_mul, Nat.add_zero, Nat.zero_add, Nat.one_mul] at hfirst
      rw [hfirst]
      refine ih (fun k hk => ?_) ?_
      · rw [hstep, hstep]
        exact hlinks (k + 1) (by omega)
      · rw [hstep]
        exact hlast

/-- What `slub_add_page` leaves when the cache had no free object. -/
structure PageAdded (s s' : Slub) (i addr : Nat) : Prop where
  ext : Extended s s' addr 0x1000
  mark : s'.mark (pageOf addr) = i
  head : (s'.caches i).freehead = addr
  others : ∀ j, j ≠ i → (s'.caches j).freehead = (s.caches j).freehead
  chain : Chain s'.next (some addr) (List.range' addr (0x1000 / classSize i) (classSize i))
  mem : ∀ a, a < addr ∨ addr + 0x1000 ≤ a → s'.mem a = s.mem a

theorem slubAddPage_spec {s : Slub} {live : List LivePtr} (hp : PagesInv s live) {i addr : Nat}
    (hi : i ∈ slabClasses) (hempty : (s.caches i).freehead = 0)
    (hfresh : FreshBlock s addr 0x1000) (h0 : addr ≠ 0) :
    ∃ s', slubAddPage s i addr = .ok (true, s') ∧ PageAdded s s' i addr := by
  obtain ⟨hblock, hfree⟩ := hfresh.block h0 (by decide) (by decide)
  obtain ⟨hidx, hsize⟩ := hp.static.class hi
  obtain ⟨hs16, hs4k⟩ := classSize_bounds hi
  have hlow := hblock.low
  have hhigh := hblock.high
  have hend : physVirtEnd + 1 < 2 ^ 64 := by decide
  simp only at hlow hhigh
  -- `q` objects fit in the page
  set q := 0x1000 / classSize i with hq
  have hqle : q * classSize i ≤ 0x1000 := Nat.div_mul_le_self _ _
  have hqlt : 0x1000 < (q + 1) * classSize i := by
    have := Nat.lt_div_mul_add (a := 0x1000) (b := classSize i) (by omega)
    rw [Nat.add_mul, Nat.one_mul]
    exact this
  have hqpos : 0 < q := Nat.div_pos hs4k (by omega)
  have hqmax : q ≤ 0x100 := by
    have := Nat.div_le_div_left hs16 (by decide) (a := 0x1000)
    simpa using this
  have hsum : (q - 1) * classSize i + classSize i = q * classSize i := by
    rw [← Nat.succ_mul]
    congr 1
    omega
  have hsum' : (q + 1) * classSize i = q * classSize i + classSize i := Nat.succ_mul _ _
  have hpend : wsub (wadd addr 0x1000) (classSize i) = addr + 0x1000 - classSize i := by
    rw [wadd_eq (by omega), wsub_eq (by omega) (by omega)]
  obtain ⟨mem', hcarve, hlinks, hframe⟩ := @carve_eq (classSize i)
    (addr + 0x1000 - classSize i) 0x1000 (q - 1) addr (by omega)
    (by omega) (by omega) (by rw [show q - 1 + 1 = q by omega]; omega)
    (by rw [show q - 1 + 1 = q by omega]; omega) s.mem
  have hwin : InWindow addr := ⟨hlow, by omega⟩
  set last := addr + (q - 1) * classSize i with hlast
  set s1 : Slub := (({ s.logCall (.alloc 0x1000 addr) with mem := mem' }).store last 0).setFreehead i
    addr with hs1
  refine ⟨s1.setMark (pageOf addr) i, ?_, ⟨⟨rfl, ?_, ?_, hblock, hfree⟩, ?_, ?_, ?_, ?_, ?_⟩⟩
  · have hci : ((s.logCall (.alloc 0x1000 addr)).caches i) = s.caches i := rfl
    have hidx1 : (s1.caches i).idx = i := by
      simp [hs1, Slub.setFreehead, Slub.store, Slub.logCall, hidx]
    rw [slubAddPage]
    simp only [hci, hsize, hpend]
    rw [assert_pos hwin, if_neg h0]
    have hmem : (s.logCall (.alloc 0x1000 addr)).mem = s.mem := rfl
    rw [hmem, hcarve]
    simp only [bind, Except.bind, hempty]
    rw [← hs1, hidx1, assert_pos (Or.inr hwin),
      assert_pos (lt_trans (lt_of_mem_slabClasses hi) (by decide))]
    simp only
    rw [setIdxFromAddr_eq s1 ⟨by omega, by omega⟩]
  · intro j
    by_cases hji : j = i
    · subst hji; simp [Slub.setMark, hs1, Slub.setFreehead, Slub.store, Slub.logCall]
    · simp [Slub.setMark, hs1, Slub.setFreehead, Slub.store, Slub.logCall, hji]
  · intro o ho
    have hne : o ≠ pageOf addr := by simpa using ho 0 (by decide)
    rw [mark_setMark_ne s1 (lt_trans (lt_of_mem_slabClasses hi) (by decide)) hne]
    rfl
  · exact mark_setMark_self s1 (lt_trans (lt_of_mem_slabClasses hi) (by decide))
  · simp [Slub.setMark, hs1, Slub.setFreehead]
  · intro j hji
    simp [Slub.setMark, hs1, Slub.setFreehead, Slub.store, Slub.logCall, hji]
  · have hnext : ∀ a, (s1.setMark (pageOf addr) i).next a
        = link (Function.update mem' last 0 a) := fun a => rfl
    have hq1 : q - 1 + 1 = q := by omega
    have := @chain_range' (s1.setMark (pageOf addr) i).next (classSize i) (q - 1) addr ?_ ?_
    · rwa [hq1] at this
    · intro k hk
      have hlt : k * classSize i < (q - 1) * classSize i := Nat.mul_lt_mul_of_pos_right hk (by omega)
      rw [hnext, Function.update_of_ne (by omega), hlinks k hk, link_of_ne_zero (by omega)]
    · rw [hnext, ← hlast, Function.update_self, link_zero]
  · intro a ha
    have hbound : ∀ k, k ≤ q - 1 → addr + k * classSize i < addr + 0x1000 := by
      intro k hk
      have := Nat.mul_le_mul_right (classSize i) hk
      omega
    show Function.update mem' last 0 a = s.mem a
    have hne : a ≠ last := by
      have := hbound (q - 1) le_rfl
      omega
    rw [Function.update_of_ne hne, hframe a fun k hk => ?_]
    have := hbound k (by omega)
    omega

/-- Slots of older pages lie outside the new block. -/
theorem Extended.slot_apart {s s' : Slub} {live : List LivePtr} {addr size : Nat}
    (h : Extended s s' addr size) (hp : PagesInv s live) {i p : Nat} (hi : i ∈ slabClasses)
    (hs : Slot s i p) : p < addr ∨ addr + size ≤ p := by
  obtain ⟨a, hin⟩ := hs.inPage hp hi
  have hd := h.fresh _ hin.mem
  have hsz := (classSize_bounds hi).1
  have hlow := hin.low
  have hhigh := hin.high
  simp only at hd
  omega

/-- Older live pointers lie outside the new block. -/
theorem Extended.live_apart {s s' : Slub} {live : List LivePtr} {free : Nat → List Nat}
    {addr size : Nat} (h : Extended s s' addr size) (hp : PagesInv s live)
    (hl : ListsInv s live free) {x : LivePtr} (hx : x ∈ live) :
    x.ptr < addr ∨ addr + size ≤ x.ptr := by
  by_cases hsz : x.size ≤ 0x1000
  · obtain ⟨i, hi, -, -, hslot⟩ := hl.small x hx hsz
    exact h.slot_apart hp hi hslot
  · have hmem := (hp.large x hx (by omega)).1
    have hpos := (hp.shape _ hmem).pos
    have hd := h.fresh _ hmem
    simp only at hd hpos
    omega

theorem PageAdded.lists {s s' : Slub} {live : List LivePtr} {free : Nat → List Nat} {i addr : Nat}
    (h : PageAdded s s' i addr) (hp : PagesInv s live) (hl : ListsInv s live free)
    (hi : i ∈ slabClasses) :
    ListsInv s' live (Function.update free i
      (List.range' addr (0x1000 / classSize i) (classSize i))) := by
  set q := 0x1000 / classSize i with hq
  have hqle : q * classSize i ≤ 0x1000 := Nat.div_mul_le_self _ _
  have hobj : ∀ p, p ∈ List.range' addr q (classSize i) → ∃ k, k < q ∧
      p = addr + k * classSize i ∧ (k + 1) * classSize i ≤ 0x1000 := by
    intro p hpm
    obtain ⟨k, hk, rfl⟩ := List.mem_range'.1 hpm
    refine ⟨k, hk, by rw [Nat.mul_comm], ?_⟩
    exact le_trans (Nat.mul_le_mul_right _ hk) hqle
  have hnewSlot : ∀ p, p ∈ List.range' addr q (classSize i) → Slot s' i p := by
    intro p hpm
    obtain ⟨k, -, rfl, hk⟩ := hobj p hpm
    exact ⟨addr, k, by rw [h.ext.blocks]; exact List.mem_cons_self .., h.mark, rfl, hk⟩
  refine ⟨?_, ?_, ?_, ?_, ?_, hl.ptrs⟩
  · intro j hj
    by_cases hji : j = i
    · subst hji
      have hlow := h.ext.block.low
      rw [Function.update_self, Slub.FreeList, h.head, link_of_ne_zero (by simp only at hlow; omega)]
      exact h.chain
    · rw [Function.update_of_ne hji, Slub.FreeList, h.others j hji]
      refine (hl.lists j hj).congr fun p hpm => ?_
      rw [Slub.next, Slub.next, h.mem p (h.ext.slot_apart hp hj (hl.slots j hj p hpm))]
  · intro j hj
    have hji : j ≠ i := fun he => hj (he ▸ hi)
    rw [h.others j hji]
    exact hl.idle j hj
  · intro j hj p hpm
    by_cases hji : j = i
    · subst hji
      rw [Function.update_self] at hpm
      exact hnewSlot p hpm
    · rw [Function.update_of_ne hji] at hpm
      exact h.ext.slot hp (hl.slots j hj p hpm)
  · intro x hx hsz
    obtain ⟨j, hj, hslab, hfit, hslot⟩ := hl.small x hx hsz
    exact ⟨j, hj, hslab, hfit, h.ext.slot hp hslot⟩
  · intro x hx j hj hpm
    by_cases hji : j = i
    · subst hji
      rw [Function.update_self] at hpm
      obtain ⟨k, -, he, hk⟩ := hobj _ hpm
      rw [Nat.add_mul, Nat.one_mul] at hk
      have hsz := (classSize_bounds hj).1
      rcases h.ext.live_apart hp hl hx with hd | hd <;> omega
    · rw [Function.update_of_ne hji] at hpm
      exact hl.taken x hx j hj hpm

theorem heapSize_of_large {n : Nat} (h : 0x1000 < n) :
    heapSize n = (n + 0xfff) / 0x1000 * 0x1000 := if_pos h

theorem kmallocLarge_spec {s : Slub} {n heap : Nat} (hn : 0x1000 < n)
    (hb : n + 0xfff < 2 ^ 64) (hfresh : FreshBlock s heap (heapSize n)) (h0 : heap ≠ 0) :
    ∃ s', kmallocLarge s n heap = .ok (heap, s') ∧ Extended s s' heap (heapSize n) ∧
      LargeMarked s' (heap, heapSize n) ∧ s'.mem = s.mem ∧ s'.caches = s.caches := by
  have hround : alignDown 0x1000 (wadd n 0xfff) = heapSize n := by
    rw [heapSize_of_large hn, wadd_eq hb]
    unfold alignDown
    omega
  have hsz := heapSize_of_large hn
  obtain ⟨hblock, hfree⟩ := hfresh.block h0 (by omega) (by omega)
  have hlow := hblock.low
  have hhigh := hblock.high
  have hal := hblock.aligned
  have hend : physVirtEnd + 1 < 2 ^ 64 := by decide
  have hstart : physVirtStart = 0xffff820000000000 := rfl
  simp only at hlow hhigh hal
  set size := heapSize n with hsize
  set s1 := (s.logCall (.alloc size heap)).setMark (pageOf heap) largeIdx with hs1
  have hpage : pageOf (heap + 0x1000) = pageOf heap + 1 := by unfold pageOf; omega
  obtain ⟨s', hok, hsame, hmarks, hframe⟩ := @markLarge_eq (heap + size) (2 ^ 52)
    (size / 0x1000 - 1) (heap + 0x1000) s1 (by omega) (by omega) (by omega)
    (by omega) (by omega)
  have hfirst : s'.mark (pageOf heap) = largeIdx := by
    rw [hframe _ fun k _ => by omega]
    exact mark_setMark_self _ (by decide)
  refine ⟨s', ?_, ⟨hsame.calls, fun i => ?_, ?_, hblock, hfree⟩, ⟨hfirst, ?_⟩, hsame.mem,
    hsame.caches⟩
  · simp only [kmallocLarge, hround]
    rw [if_neg h0, setIdxFromAddr_eq _ ⟨by omega, by omega⟩, wadd_eq (by omega), wadd_eq (by omega)]
    simp only [bind, Except.bind]
    rw [← hs1, hok]
  · rw [hsame.caches]
    exact ⟨rfl, rfl⟩
  · intro o ho
    have hne : o ≠ pageOf heap := by simpa using ho 0 (by omega)
    rw [hframe o fun k hk => ?_, mark_setMark_ne _ (by decide) hne]
    · rfl
    · have := ho (k + 1) (by omega)
      omega
  · intro k hk hlt
    simp only at hlt
    have := hmarks (k - 1) (by omega)
    rwa [hpage, show pageOf heap + 1 + (k - 1) = pageOf heap + k by omega] at this

theorem kmallocLarge_inv {s s' : Slub} {live : List LivePtr} {free : Nat → List Nat}
    (hp : PagesInv s live) (hl : ListsInv s live free) {n heap : Nat} (hn : 0x1000 < n)
    (hext : Extended s s' heap (heapSize n)) (hmark : LargeMarked s' (heap, heapSize n))
    (hmem : s'.mem = s.mem) (hcaches : s'.caches = s.caches) :
    SlubInv ⟨s', ⟨heap, n⟩ :: live⟩ := by
  have hpos := hext.block.pos
  simp only at hpos
  refine ⟨hext.pages hp (.inr hmark) ?_, free, ⟨?_, ?_, ?_, ?_, ?_, ?_⟩⟩
  · intro x hx _
    rcases List.mem_cons.1 hx with rfl | hx
    · exact .inr ⟨rfl, hmark⟩
    · exact .inl hx
  · intro i hi
    rw [Slub.FreeList, hcaches]
    refine (hl.lists i hi).congr fun p _ => ?_
    rw [Slub.next, Slub.next, hmem]
  · rw [hcaches]; exact hl.idle
  · exact fun i hi p hpm => hext.slot hp (hl.slots i hi p hpm)
  · intro x hx hsz
    rcases List.mem_cons.1 hx with rfl | hx
    · exact absurd hsz (Nat.not_le.2 hn)
    · obtain ⟨i, hi, hslab, hfit, hslot⟩ := hl.small x hx hsz
      exact ⟨i, hi, hslab, hfit, hext.slot hp hslot⟩
  · intro x hx i hi hpm
    rcases List.mem_cons.1 hx with rfl | hx
    · have hd := hext.slot_apart hp hi (hl.slots i hi _ hpm)
      simp only at hd
      omega
    · exact hl.taken x hx i hi hpm
  · rw [List.map_cons, List.nodup_cons]
    refine ⟨fun hm => ?_, hl.ptrs⟩
    obtain ⟨x, hx, he⟩ := List.mem_map.1 hm
    have hd := hext.live_apart hp hl hx
    simp only at he
    omega

/-! ## Freeing a large block -/

theorem kmfree_large {s : Slub} {live : List LivePtr} (hp : PagesInv s live) {x : LivePtr}
    (hx : x ∈ live) (hsz : 0x1000 < x.size) :
    kmfree s x.ptr = (scanLarge s (2 ^ 52) (pageOf x.ptr) 0 >>=
      fun size => .ok (s.logCall (.free x.ptr size))) := by
  obtain ⟨hmem, hmark⟩ := hp.large x hx hsz
  have hblock := hp.shape _ hmem
  have hlow := hblock.low
  have hhigh := hblock.high
  have hpos := hblock.pos
  have hpages := hblock.pages
  simp only at hlow hhigh hpos hpages
  have hz : x.ptr ≠ zeroSizePtr := by
    intro he
    rw [he] at hlow
    exact absurd hlow (by decide)
  have hin : physVirtStart ≤ x.ptr ∧ x.ptr ≤ physVirtEnd := ⟨by omega, by omega⟩
  have hfirst : s.mark (pageOf x.ptr) = largeIdx := hmark.1
  rw [kmfree, if_neg hz, assert_pos ⟨hlow, by omega⟩, getIdxFromAddr_eq s hin, hfirst, ok_bind,
    ok_bind, if_pos hp.static.large, kmfreeLarge, V2P_eq hin, ok_bind, pageOf]

/-- A scan from a live large block covers no page of any other block. -/
theorem scanLarge_apart {s : Slub} {live : List LivePtr} (hp : PagesInv s live) {b c : Nat × Nat}
    (hb : b ∈ heapBlocks s.calls) (hc : c ∈ heapBlocks s.calls) (hne : c ≠ b) {fuel r : Nat}
    (hscan : scanLarge s fuel (pageOf b.1) 0 = .ok r) : overlaps b.1 r c.1 c.2 = false := by
  obtain ⟨m, -, -, hr, hmarks, -⟩ := scanLarge_ok hscan
  have hrle : r ≤ m * 0x1000 := by
    rw [hr, Nat.zero_add]
    exact Nat.mod_le _ _
  rw [overlaps_eq_false]
  by_contra hcon
  rw [not_or, Nat.not_le, Nat.not_le] at hcon
  have hpos := (hp.shape b hb).pos
  have hbeq := (hp.shape b hb).eq_pageOf
  have hceq := (hp.shape c hc).eq_pageOf
  -- `c` starts inside the scan, behind the first page, so its first page is marked `LARGE_NEXT`
  have hd := hp.disjoint hb hc hne.symm
  have hmark := hmarks (pageOf c.1 - pageOf b.1) (by omega) (by omega)
  rw [show pageOf b.1 + (pageOf c.1 - pageOf b.1) = pageOf c.1 by omega] at hmark
  rcases hp.marked c hc with ⟨-, hclass⟩ | hlarge
  · rw [hmark] at hclass
    exact absurd hclass (by decide)
  · have := hlarge.1.symm.trans hmark
    exact absurd this (by decide)

theorem freeLarge_inv {s : Slub} {live : List LivePtr} {free : Nat → List Nat}
    (hp : PagesInv s live) (hl : ListsInv s live free) {x : LivePtr} (hx : x ∈ live)
    (hsz : 0x1000 < x.size) {fuel r : Nat} (hscan : scanLarge s fuel (pageOf x.ptr) 0 = .ok r) :
    SlubInv ⟨s.logCall (.free x.ptr r), live.erase x⟩ := by
  obtain ⟨hxmem, hxmark⟩ := hp.large x hx hsz
  have hblocks : heapBlocks (s.logCall (.free x.ptr r)).calls
      = (heapBlocks s.calls).filter fun b => !overlaps x.ptr r b.1 b.2 := rfl
  have hkeep : ∀ c ∈ heapBlocks s.calls, c ≠ (x.ptr, heapSize x.size) →
      c ∈ heapBlocks (s.logCall (.free x.ptr r)).calls := by
    intro c hc hne
    rw [hblocks, List.mem_filter]
    refine ⟨hc, ?_⟩
    rw [scanLarge_apart hp hxmem hc hne hscan]
    rfl
  have hsub : ∀ c ∈ heapBlocks (s.logCall (.free x.ptr r)).calls, c ∈ heapBlocks s.calls := by
    intro c hc
    rw [hblocks] at hc
    exact (List.mem_filter.1 hc).1
  have hslot : ∀ i ∈ slabClasses, ∀ p, Slot s i p → Slot (s.logCall (.free x.ptr r)) i p := by
    intro i hi p hs
    obtain ⟨a, k, hmem, hmark, hp', hk⟩ := hs
    refine ⟨a, k, hkeep _ hmem fun he => ?_, hmark, hp', hk⟩
    have ha : a = x.ptr := congrArg Prod.fst he
    have hlt := lt_of_mem_slabClasses hi
    rw [← hmark, ha, hxmark.1] at hlt
    exact absurd hlt (by decide)
  have hother : ∀ y ∈ live.erase x, y ∈ live ∧ y.ptr ≠ x.ptr := fun y hy => hl.mem_erase hx hy
  refine ⟨⟨hp.static, fun b hb => hp.shape b (hsub b hb), ?_, fun b hb => hp.marked b (hsub b hb),
    ?_⟩, free, ⟨hl.lists, hl.idle, ?_, ?_, ?_, ?_⟩⟩
  · exact hp.apart.sublist List.filter_sublist
  · intro y hy hys
    obtain ⟨hmem, hne⟩ := hother y hy
    have := hp.large y hmem hys
    exact ⟨hkeep _ this.1 fun he => hne (congrArg Prod.fst he), this.2⟩
  · exact fun i hi p hpm => hslot i hi p (hl.slots i hi p hpm)
  · intro y hy hys
    obtain ⟨i, hi, hslab, hfit, hs⟩ := hl.small y (hother y hy).1 hys
    exact ⟨i, hi, hslab, hfit, hslot i hi _ hs⟩
  · exact fun y hy => hl.taken y (hother y hy).1
  · exact hl.ptrs.sublist ((List.erase_sublist).map _)

/-! ## Whole runs -/

/-- One call of a run that returns. -/
def SlubStep (st st' : SlubRun) : Prop := ∃ op, st.legal op ∧ st.exec op = .ok st'

theorem initSlub_inv (mem : Nat → Nat) : SlubInv ⟨initSlub mem, []⟩ := by
  have hempty : ∀ i, (createKmallocCaches i).freehead = 0 := by
    have hfold : ∀ (l : List Nat) (c : Nat → KmemCache), (∀ i, (c i).freehead = 0) →
        ∀ i, (l.foldl newKmallocCache c i).freehead = 0 := by
      intro l
      induction l with
      | nil => exact fun c hc => hc
      | cons j l ih =>
          intro c hc
          refine ih _ fun i => ?_
          by_cases hij : i = j
          · subst hij; simp [newKmallocCache]
          · simp [newKmallocCache, hij, hc i]
    exact hfold _ _ fun _ => rfl
  refine ⟨⟨fun i => ⟨rfl, rfl⟩, by simp [initSlub, heapBlocks], by simp [initSlub, heapBlocks],
    by simp [initSlub, heapBlocks], by simp⟩, fun _ => [], ⟨fun i _ => ?_, fun i _ => hempty i,
    by simp, by simp, by simp, by simp⟩⟩
  rw [Slub.FreeList, show ((initSlub mem).caches i).freehead = 0 from hempty i]
  rfl

theorem kmalloc_inv {s s' : Slub} {live : List LivePtr} {free : Nat → List Nat}
    (hp : PagesInv s live) (hl : ListsInv s live free) {n heap p : Nat} (hpos : 0 < n)
    (hn : n ≤ 0x1000) (hfresh : FreshBlock s heap 0x1000) (hok : kmalloc s n heap = .ok (p, s')) :
    p ≠ 0 ∧ SlubInv ⟨s', ⟨p, n⟩ :: live⟩ := by
  obtain ⟨i, hi, hslab, hfit⟩ := kmallocSlab_small hpos hn
  -- once the list has an object, taking it cannot fail
  have htake : ∀ (t : Slub) (fr : Nat → List Nat) (q : Nat) (rest : List Nat), PagesInv t live →
      ListsInv t live fr → fr i = q :: rest → kmallocTake t i = .ok (p, s') →
      p ≠ 0 ∧ SlubInv ⟨s', ⟨p, n⟩ :: live⟩ := by
    intro t fr q rest htp htl hfr hres
    rw [kmallocTake_eq htp htl hi hfr] at hres
    simp only [Except.ok.injEq, Prod.mk.injEq] at hres
    obtain ⟨rfl, rfl⟩ := hres
    obtain ⟨a, hin⟩ := (htl.slots i hi q (by simp [hfr])).inPage htp hi
    refine ⟨fun h0 => ?_, kmallocTake_inv htp htl hi hfr hn hslab hfit⟩
    have := hin.window.1
    rw [h0] at this
    exact absurd this (by decide)
  rw [kmalloc, hslab] at hok
  simp only at hok
  by_cases hhead : (s.caches i).freehead = 0
  · rw [if_pos hhead] at hok
    obtain ⟨⟨added, s1⟩, hadd, hok⟩ := bind_eq_ok.1 hok
    by_cases h0 : heap = 0
    · obtain ⟨hwin, -⟩ := assert_bind_eq_ok.1 hadd
      rw [h0] at hwin
      exact absurd hwin (by decide)
    · obtain ⟨s2, hadd', hpage⟩ := slubAddPage_spec hp hi hhead hfresh h0
      rw [hadd] at hadd'
      simp only [Except.ok.injEq, Prod.mk.injEq] at hadd'
      obtain ⟨rfl, rfl⟩ := hadd'
      simp only [if_true] at hok
      have hpages : PagesInv s1 live := hpage.ext.pages hp
        (.inl ⟨rfl, by rw [hpage.mark]; exact hi⟩) fun x hx _ => .inl hx
      have hq : 0x1000 / classSize i ≠ 0 := by
        obtain ⟨h16, h4k⟩ := classSize_bounds hi
        have := Nat.div_pos h4k (by omega)
        omega
      obtain ⟨m, hm⟩ := Nat.exists_eq_succ_of_ne_zero hq
      have hfirst : Function.update free i (List.range' heap (0x1000 / classSize i) (classSize i)) i
          = heap :: List.range' (heap + classSize i) m (classSize i) := by
        rw [Function.update_self, hm, List.range'_succ]
      exact htake s1 _ heap _ hpages (hpage.lists hp hl hi) hfirst hok
  · rw [if_neg hhead] at hok
    cases hfree : free i with
    | nil =>
        have hchain := hl.lists i hi
        rw [hfree, Slub.FreeList, link_of_ne_zero hhead] at hchain
        cases hchain
    | cons q rest => exact htake s free q rest hp hl hfree hok

theorem slubMalloc_inv {st st' : SlubRun} (h : SlubInv st) {n heap : Nat}
    (hlegal : st.legal (.malloc n heap)) (hok : st.exec (.malloc n heap) = .ok st') :
    SlubInv st' := by
  obtain ⟨s, live⟩ := st
  obtain ⟨hp, free, hl⟩ := h
  obtain ⟨hb, hfresh⟩ := hlegal
  obtain ⟨⟨p, s'⟩, hres, hst⟩ := bind_eq_ok.1 hok
  simp only [Except.ok.injEq] at hst
  subst hst
  simp only at hp hl hfresh hres ⊢
  rw [slubMalloc] at hres
  by_cases hbig : n > 0x1000
  · rw [if_pos hbig] at hres
    by_cases h0 : heap = 0
    · -- no memory: only the call is logged
      rw [kmallocLarge, if_pos h0] at hres
      simp only [Except.ok.injEq, Prod.mk.injEq] at hres
      obtain ⟨rfl, rfl⟩ := hres
      rw [if_pos (Or.inl rfl), h0]
      have hsame : SameBlocks s (s.logCall (.alloc (alignDown 0x1000 (wadd n 0xfff)) 0)) :=
        ⟨by simp [Slub.logCall, heapBlocks], rfl, fun _ => ⟨rfl, rfl⟩⟩
      refine ⟨hsame.pages hp fun x hx _ => hx, free, ⟨hl.lists, hl.idle,
        fun i hi q hq => hsame.slot (hl.slots i hi q hq), fun x hx hsz => ?_, hl.taken, hl.ptrs⟩⟩
      obtain ⟨i, hi, hslab, hfit, hslot⟩ := hl.small x hx hsz
      exact ⟨i, hi, hslab, hfit, hsame.slot hslot⟩
    · obtain ⟨s1, hok1, hext, hmark, hmem, hcaches⟩ := kmallocLarge_spec hbig hb hfresh h0
      rw [hok1] at hres
      simp only [Except.ok.injEq, Prod.mk.injEq] at hres
      obtain ⟨rfl, rfl⟩ := hres
      rw [if_neg (by omega)]
      exact kmallocLarge_inv hp hl hbig hext hmark hmem hcaches
  · rw [if_neg hbig] at hres
    rw [heapSize, if_neg hbig] at hfresh
    by_cases hz : n = 0
    · subst hz
      have hzero : kmalloc s 0 heap = .ok (zeroSizePtr, s) := rfl
      rw [hzero] at hres
      simp only [Except.ok.injEq, Prod.mk.injEq] at hres
      obtain ⟨-, rfl⟩ := hres
      rw [if_pos (Or.inr rfl)]
      exact ⟨hp, free, hl⟩
    · obtain ⟨hne, hinv⟩ := kmalloc_inv hp hl (by omega) (by omega) hfresh hres
      rw [if_neg (by omega)]
      exact hinv

theorem slubMfree_inv {st st' : SlubRun} (h : SlubInv st) {x : LivePtr} (hx : x ∈ st.live)
    (hok : st.exec (.mfree x) = .ok st') : SlubInv st' := by
  obtain ⟨s, live⟩ := st
  obtain ⟨hp, free, hl⟩ := h
  obtain ⟨s', hres, hst⟩ := bind_eq_ok.1 hok
  simp only [Except.ok.injEq] at hst
  subst hst
  by_cases hsz : x.size ≤ 0x1000
  · obtain ⟨i, hi, -, -, hslot⟩ := hl.small x hx hsz
    rw [kmfree_small hp hi hslot] at hres
    obtain ⟨-, hres⟩ := assert_bind_eq_ok.1 hres
    rw [← Except.ok.inj hres]
    exact pushObject_inv hp hl hi hx hslot
  · have hbig : 0x1000 < x.size := by omega
    rw [kmfree_large hp hx hbig] at hres
    obtain ⟨r, hscan, hres⟩ := bind_eq_ok.1 hres
    rw [← Except.ok.inj hres]
    exact freeLarge_inv hp hl hx hbig hscan

theorem SlubStep.preserves {st st' : SlubRun} (step : SlubStep st st') (h : SlubInv st) :
    SlubInv st' := by
  obtain ⟨op, hlegal, hok⟩ := step
  cases op with
  | malloc n heap => exact slubMalloc_inv h hlegal hok
  | mfree x => exact slubMfree_inv h hlegal hok
  | mfreeZero =>
      have hsame : st = st' := Except.ok.inj hok
      rwa [← hsame]
  | client mem =>
      obtain ⟨hp, free, hl⟩ := h
      rw [← Except.ok.inj hok]
      exact client_inv hp hl hlegal

theorem slub_run_inv {mem : Nat → Nat} {st : SlubRun}
    (run : Relation.ReflTransGen SlubStep ⟨initSlub mem, []⟩ st) : SlubInv st := by
  induction run with
  | refl => exact initSlub_inv mem
  | tail _ step ih => exact step.preserves ih

end Yaos
