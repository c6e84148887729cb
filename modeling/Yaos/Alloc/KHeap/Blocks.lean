import Yaos.Lib.Intervals
import Yaos.Alloc.FrameStore
import Yaos.Alloc.HolePool.Parted

set_option autoImplicit false

/-! # Blocks of the boot heap

`kalloc` serves small requests from one list and the others from a second one. The first is refilled from the
second, and that with pages of `alloc_phy_page`. An address that is free is on one of the lists, and a block given
out is on none. -/

namespace Yaos

open Chains Word HolePool

/-- The direct-map addresses of a page. -/
def pageRange (page : Nat) : Nat × Nat := (P2V page, P2V page + 0x200000)

/-- The addresses of the pages that a call obtained. -/
def pageSet (pages : List Nat) : Set Nat := Intervals.cover (pages.map pageRange)

/-- A page that `alloc_phy_page` may answer where `taken` is in use. -/
structure Unused (taken : Set Nat) (page : Nat) : Prop where
  ne : page ≠ 0
  aligned : page % 0x200000 = 0
  bound : P2V page + 0x200000 < 2 ^ 64
  fresh : Disjoint (Set.Ico (P2V page) (P2V page + 0x200000)) taken

/-- What a call does: `S` was free, `added` came to it and `S'` is left. A null pointer is no block. -/
structure Yields (S added S' : Set Nat) (ret size : Nat) : Prop where
  subset : S' ⊆ S ∪ added
  block : ret ≠ 0 → Set.Ico ret (ret + size) ⊆ S ∪ added
  gone : ret ≠ 0 → Disjoint (Set.Ico ret (ret + size)) S'

namespace KHeap

/-- What is free on either list. -/
def freeSet (h : KHeap) : Set Nat := h.pool4k.freeSet ∪ h.poolSmall.freeSet

/-- Both lists are in order, and no address is on both. -/
structure Fair (h : KHeap) : Prop where
  pool4k : Parted kheap4kHoles h.pool4k
  poolSmall : Parted kheapSmallHoles h.poolSmall
  apart : Disjoint h.pool4k.freeSet h.poolSmall.freeSet

end KHeap

section Sets

variable {S added S' : Set Nat} {page ret size n : Nat} {pages : List Nat}

theorem Unused.mono (h : Unused S page) (hsub : S' ⊆ S) : Unused S' page :=
  ⟨h.ne, h.aligned, h.bound, h.fresh.mono_right hsub⟩

theorem pageSet_singleton (page : Nat) : pageSet [page] = Set.Ico (P2V page) (P2V page + 0x200000) := by
  ext a
  simp [pageSet, Intervals.cover, pageRange]

/-- The pages that a call obtained are new to a set that all the pages offered are new to. -/
theorem pageSet_disjoint {rest used : List Nat} (hpages : ∀ page ∈ pages, Unused S page)
    (hused : pages = used ++ rest) : Disjoint (pageSet used) S := by
  rw [Set.disjoint_left]
  rintro a ⟨q, hq, ha⟩
  obtain ⟨page, hpage, rfl⟩ := List.mem_map.1 hq
  have hmem : page ∈ pages := by
    rw [hused]
    exact List.mem_append_left _ hpage
  exact Set.disjoint_left.1 (hpages page hmem).fresh ha

theorem Yields.mono (h : Yields S added S' ret n) (hle : size ≤ n) : Yields S added S' ret size := by
  have hsub : Set.Ico ret (ret + size) ⊆ Set.Ico ret (ret + n) := fun a ha => ⟨ha.1, by have := ha.2; omega⟩
  exact ⟨h.subset, fun hne => hsub.trans (h.block hne), fun hne => (h.gone hne).mono_left hsub⟩

end Sets

/-! ## The list in units of 4 KiB -/

section Pool4k

variable {s s' t : HolePool} {pages rest : List Nat} {n size ret : Nat}

/-- A search for at most a page comes to a hole with room, or to none. -/
theorem search4k_parted {r : Option Nat} (h : Parted kheap4kHoles s) (hne : pages ≠ [])
    (hpages : ∀ page ∈ pages, Unused s.freeSet page) (hmax : n ≤ 0x200000)
    (hok : FrameStore.kheap4k.search s pages n = .ok (r, t, rest)) :
    ∃ used, pages = used ++ rest ∧ Parted kheap4kHoles t ∧ t.freeSet ⊆ s.freeSet ∪ pageSet used ∧
      ∀ p, r = some p → t.IsHole p ∧ n ≤ (t.nodes p).size := by
  rcases h.firstFit_cases n with ⟨-, hfit⟩ | ⟨p, hfit, hp, hle⟩
  · obtain ⟨page, more, rfl⟩ := List.exists_cons_of_ne_nil hne
    obtain ⟨again, hturn⟩ := FrameStore.refill_turn .kheap4k s (page :: more) n
    have hsearch : FrameStore.kheap4k.search s (page :: more) n
        = FrameStore.kheap4k.turn page n s more again := by
      rw [FrameStore.search, show firstFit FrameStore.kheap4k.config s n = some none from hfit]
      exact hturn
    rw [hsearch, FrameStore.turn] at hok
    refine ⟨[page], ?_⟩
    split at hok
    · obtain ⟨rfl, rfl, rfl⟩ := hok
      exact ⟨rfl, h.congr (.unlock s), Set.subset_union_left, fun q hq => by cases hq⟩
    · -- the page is free now, so some hole has room
      obtain ⟨s₁, hfree, hok⟩ := bind_eq_ok.1 hok
      have hpage := hpages page List.mem_cons_self
      have hadded : Added kheap4kHoles s.spinUnlock s₁ (P2V page) 0x200000 :=
        (h.congr (.unlock s)).freed hpage.bound hpage.fresh (assert_bind_eq_ok.1 hfree).2
      obtain ⟨i, hi, hle⟩ := hadded.room
      have hroom : s₁.spinLock.HasRoom n := ⟨i, hi, hmax.trans hle⟩
      obtain ⟨p, hfit, hp, hle⟩ := (hadded.parted.congr (.lock s₁)).firstFitOrLast_room hroom
      rw [show firstFitOrLast FrameStore.kheap4k.config s₁.spinLock n = some (some p) from hfit] at hok
      obtain ⟨rfl, rfl, rfl⟩ := hok
      refine ⟨rfl, hadded.parted.congr (.lock s₁), ?_, fun q hq => ?_⟩
      · rw [pageSet_singleton]
        exact hadded.freeSet_eq.subset
      · obtain rfl := Option.some.inj hq
        exact ⟨hp, hle⟩
  · rw [FrameStore.search, show firstFit FrameStore.kheap4k.config s n = some (some p) from hfit] at hok
    obtain ⟨rfl, rfl, rfl⟩ := hok
    refine ⟨[], rfl, h, Set.subset_union_left, fun q hq => ?_⟩
    obtain rfl := Option.some.inj hq
    exact ⟨hp, hle⟩

/-- A block taken from a hole that was free, or that the pages of the call were added to. -/
theorem Removed.yields {c : HoleConfig} {S added : Set Nat} {p : Nat} (h : Removed c t s' p n)
    (hsub : t.freeSet ⊆ S ∪ added) : Yields S added s'.freeSet (t.nodes p).addr n where
  subset := (h.freeSet_subset.trans Set.sdiff_subset).trans hsub
  block := fun _ => h.subset.trans hsub
  gone := fun _ => Set.disjoint_left.2 fun _ ha hfree => (h.freeSet_subset hfree).2 ha

theorem allocKheap4k_yields (h : Parted kheap4kHoles s) (hne : pages ≠ [])
    (hpages : ∀ page ∈ pages, Unused s.freeSet page) (hmax : size ≤ 0x200000)
    (hok : allocKheap4k s pages size = .ok (ret, s', rest)) :
    ∃ used, pages = used ++ rest ∧ Parted kheap4kHoles s' ∧
      Yields s.freeSet (pageSet used) s'.freeSet ret size ∧ ret + size < 2 ^ 64 := by
  have hround : size ≤ roundUp 0x1000 size ∧ roundUp 0x1000 size ≤ 0x200000 := by
    rw [roundUp_4K (by omega)]
    omega
  have halloc : FrameStore.kheap4k.alloc s pages size = .ok (ret, s', rest) := hok
  rw [FrameStore.alloc_eq] at halloc
  obtain ⟨⟨r, t, rest'⟩, hsearch, htake⟩ := bind_eq_ok.1 halloc
  obtain ⟨used, hused, hparted, hsub, hhole⟩ :=
    search4k_parted (h.congr (.lock s)) hne hpages hround.2 hsearch
  cases r with
  | none =>
      obtain ⟨rfl, rfl, rfl⟩ := htake
      exact ⟨used, hused, hparted, ⟨hsub, fun h => absurd rfl h, fun h => absurd rfl h⟩, by omega⟩
  | some p =>
      obtain ⟨hp, hle⟩ := hhole p rfl
      obtain ⟨s₁, hcarve, hremoved⟩ := hparted.carved 0 hp hle
      rw [FrameStore.take, show carveHole FrameStore.kheap4k.config 0 t p _ = _ from hcarve] at htake
      obtain ⟨rfl, rfl, rfl⟩ := htake
      have hb := hremoved.bound
      exact ⟨used, hused, hremoved.parted.congr (.unlock s₁), (hremoved.yields hsub).mono hround.1, by omega⟩

end Pool4k

/-! ## The small list -/

/-- The hole that `alloc_kheap_small` takes its block from, with the lists at that moment. -/
def searchSmall (h : KHeap) (pages : List Nat) (size : Nat) : Except Fault (Option Nat × KHeap × List Nat) :=
  match firstFit kheapSmallHoles h.poolSmall size with
  | none => .error .hang
  | some (some p) => .ok (some p, h, pages)
  | some none => refillKheapSmall size (kheapSmallHoles.capacity + 1) h pages

/-- What `alloc_kheap_small` does with the hole. -/
def takeSmall (size : Nat) : Option Nat × KHeap × List Nat → Except Fault (Nat × KHeap × List Nat)
  | (none, h, pages) => .ok (0, h, pages)
  | (some p, h, pages) => do
      let r ← carveHole kheapSmallHoles 16 h.poolSmall p size
      .ok (r.1, { h with poolSmall := r.2.spinUnlock }, pages)

section Small

variable {s s' : HolePool} {h h' : KHeap} {pages rest : List Nat} {addr size ret : Nat}

theorem freeKheapSmall_added (hs : Parted kheapSmallHoles s) (hb : addr + size < 2 ^ 64)
    (hd : Disjoint (Set.Ico addr (addr + size)) s.freeSet) (hok : freeKheapSmall s addr size = .ok s') :
    Added kheapSmallHoles s s' addr size := by
  obtain ⟨free, holes, hrep, hperm, hbound, hapart⟩ := hs
  rw [hrep.freeSet_eq] at hd
  obtain ⟨-, hok⟩ := assert_bind_eq_ok.1 hok
  cases free with
  | nil =>
      have hnone : s.spinLock.pfree = none := hrep.pfree
      simp only [hnone] at hok
      cases hok
  | cons p free =>
      obtain ⟨hpfree, hchain⟩ := hrep.pfree
      have hsome : s.spinLock.pfree = some p := hpfree
      simp only [hsome] at hok
      have hp : p ∉ holes := hrep.disj p List.mem_cons_self
      have hpfree' : p ∉ free := (List.nodup_cons.1 hrep.pfree.nodup).1
      set s₁ : HolePool := ({ s.spinLock with pfree := s.spinLock.next p } : HolePool).modify p
        fun n => { n with addr := addr, size := size } with hs₁
      have hnodes : ∀ i, i ≠ p → s'.nodes i = s.nodes i := by
        intro i hi
        rw [← Except.ok.inj hok]
        simp [HolePool.pushHead, hs₁, hi]
      have hself : (s'.nodes p).addr = addr ∧ (s'.nodes p).size = size := by
        rw [← Except.ok.inj hok]
        simp [HolePool.pushHead, hs₁]
      have hhead : Chain s₁.next s₁.phead holes := hrep.phead.congr fun i hi => by
        have hip : i ≠ p := fun he => hp (he ▸ hi)
        simp [HolePool.next, hs₁, hip]
      -- the block becomes the first hole, in the first unused node
      have hrep' : s'.Rep free (p :: holes) := by
        refine ⟨?_, ?_, fun i hi hmem => ?_⟩
        · have hpf : s'.pfree = s.next p := by
            rw [← Except.ok.inj hok]
            rfl
          rw [hpf]
          refine hchain.congr fun i hi => ?_
          rw [HolePool.next, HolePool.next, hnodes i fun he => hpfree' (he ▸ hi)]
        · rw [← Except.ok.inj hok]
          exact pushHead_chain hhead hp
        · rcases List.mem_cons.1 hmem with rfl | hmem
          · exact hpfree' hi
          · exact hrep.disj i (List.mem_cons_of_mem _ hi) hmem
      have hrange : s'.range p = Set.Ico addr (addr + size) := by rw [range, hself.1, hself.2]
      have hother : ∀ i ∈ holes, s'.nodes i = s.nodes i := fun i hi => hnodes i fun he => hp (he ▸ hi)
      refine ⟨⟨free, _, hrep', ?_, fun i hi => ?_, ?_⟩, ?_, ?_⟩
      · exact List.perm_middle.trans hperm
      · rcases List.mem_cons.1 hi with rfl | hi
        · rw [hself.1, hself.2]
          exact hb
        · rw [hother i hi]
          exact hbound i hi
      · exact apart_cons hapart hrange (fun i hi => by rw [range, range, hother i hi]) hd
      · rw [hrep.freeSet_eq, hrep'.freeSet_eq]
        ext a
        simp only [cover, Set.mem_ofPred_eq, Set.mem_union, List.mem_cons, exists_eq_or_imp, hrange]
        rw [or_comm]
        refine or_congr_left (exists_congr fun i => and_congr_right fun hi => ?_)
        rw [range, range, hother i hi]
      · exact (hrep'.hasRoom_iff size).2 ⟨p, List.mem_cons_self, Nat.le_of_eq hself.2.symm⟩

/-- A refill takes a frame from the other list, so that the first search finds room afterwards. -/
theorem refillKheapSmall_fair {turns : Nat} {r : Option Nat} (hf : h.Fair) (hne : pages ≠ [])
    (hpages : ∀ page ∈ pages, Unused h.freeSet page) (hsize : size ≤ 0x1000)
    (hok : refillKheapSmall size turns h pages = .ok (r, h', rest)) :
    ∃ used, pages = used ++ rest ∧ h'.Fair ∧ h'.freeSet ⊆ h.freeSet ∪ pageSet used ∧
      ∀ p, r = some p → h'.poolSmall.IsHole p ∧ size ≤ (h'.poolSmall.nodes p).size := by
  cases turns with
  | zero => cases hok
  | succ turns =>
      unfold refillKheapSmall at hok
      obtain ⟨⟨newaddr, pool4k, pages₁⟩, halloc, hok⟩ := bind_eq_ok.1 hok
      dsimp only at hok
      obtain ⟨used, hused, hparted, hyields, hb⟩ := allocKheap4k_yields hf.pool4k hne
        (fun page hp => (hpages page hp).mono Set.subset_union_left) (by decide) halloc
      have hnew := pageSet_disjoint (fun page hp => (hpages page hp).mono Set.subset_union_right) hused
      have hapart : Disjoint (h.pool4k.freeSet ∪ pageSet used) h.poolSmall.freeSet :=
        Set.disjoint_union_left.2 ⟨hf.apart, hnew⟩
      split at hok
      · obtain ⟨rfl, rfl, rfl⟩ := hok
        refine ⟨used, hused, ⟨hparted, hf.poolSmall.congr (.unlock _), ?_⟩, ?_, nofun⟩
        · exact hapart.mono_left hyields.subset
        · refine Set.union_subset (hyields.subset.trans ?_) (Set.subset_union_right.trans Set.subset_union_left)
          exact Set.union_subset_union_left _ Set.subset_union_left
      · rename_i hnull
        obtain ⟨s₁, hfree, hok⟩ := bind_eq_ok.1 hok
        have hd : Disjoint (Set.Ico newaddr (newaddr + 0x1000)) h.poolSmall.freeSet :=
          hapart.mono_left (hyields.block hnull)
        have hadded : Added kheapSmallHoles h.poolSmall.spinUnlock s₁ newaddr 0x1000 :=
          freeKheapSmall_added (hf.poolSmall.congr (.unlock _)) hb hd hfree
        have hset : s₁.freeSet = h.poolSmall.freeSet ∪ Set.Ico newaddr (newaddr + 0x1000) := hadded.freeSet_eq
        obtain ⟨i, hi, hle⟩ := hadded.room
        have hroom : s₁.spinLock.HasRoom size := ⟨i, hi, hsize.trans hle⟩
        rcases (hadded.parted.congr (.lock s₁)).firstFit_cases size with ⟨hnone, -⟩ | ⟨p, hfit, hp, hple⟩
        · exact absurd hroom hnone
        rw [hfit] at hok
        obtain ⟨rfl, rfl, rfl⟩ := hok
        refine ⟨used, hused, ⟨hparted, hadded.parted.congr (.lock s₁), ?_⟩, ?_, fun q hq => ?_⟩
        · show Disjoint pool4k.freeSet s₁.freeSet
          rw [hset, Set.disjoint_union_right]
          exact ⟨hapart.mono_left hyields.subset, (hyields.gone hnull).symm⟩
        · show pool4k.freeSet ∪ s₁.freeSet ⊆ _
          rw [hset]
          have hfour : h.pool4k.freeSet ∪ pageSet used ⊆ h.freeSet ∪ pageSet used :=
            Set.union_subset_union_left _ Set.subset_union_left
          refine Set.union_subset (hyields.subset.trans hfour) (Set.union_subset ?_ ?_)
          · exact Set.subset_union_right.trans Set.subset_union_left
          · exact (hyields.block hnull).trans hfour
        · obtain rfl := Option.some.inj hq
          exact ⟨hp, hple⟩

theorem allocKheapSmall_eq (hsize : size < 0x1000) : allocKheapSmall h pages size =
    searchSmall { h with poolSmall := h.poolSmall.spinLock } pages size >>= takeSmall size := by
  rw [allocKheapSmall, assert_bind hsize]
  unfold searchSmall
  dsimp only
  rcases firstFit kheapSmallHoles h.poolSmall.spinLock size with _ | _ | p
  · rfl
  · refine congrArg (refillKheapSmall size _ _ pages >>= ·) ?_
    funext r
    rcases r with ⟨_ | p, t, rest⟩
    · rfl
    · rfl
  · rfl

theorem searchSmall_fair {r : Option Nat} (hf : h.Fair) (hne : pages ≠ [])
    (hpages : ∀ page ∈ pages, Unused h.freeSet page) (hsize : size ≤ 0x1000)
    (hok : searchSmall h pages size = .ok (r, h', rest)) :
    ∃ used, pages = used ++ rest ∧ h'.Fair ∧ h'.freeSet ⊆ h.freeSet ∪ pageSet used ∧
      ∀ p, r = some p → h'.poolSmall.IsHole p ∧ size ≤ (h'.poolSmall.nodes p).size := by
  unfold searchSmall at hok
  rcases hf.poolSmall.firstFit_cases size with ⟨-, hfit⟩ | ⟨p, hfit, hp, hle⟩
  · rw [hfit] at hok
    exact refillKheapSmall_fair hf hne hpages hsize hok
  · rw [hfit] at hok
    obtain ⟨rfl, rfl, rfl⟩ := hok
    refine ⟨[], rfl, hf, Set.subset_union_left, fun q hq => ?_⟩
    obtain rfl := Option.some.inj hq
    exact ⟨hp, hle⟩

theorem allocKheapSmall_yields (hf : h.Fair) (hne : pages ≠ [])
    (hpages : ∀ page ∈ pages, Unused h.freeSet page)
    (hok : allocKheapSmall h pages size = .ok (ret, h', rest)) :
    ∃ used, pages = used ++ rest ∧ h'.Fair ∧ Yields h.freeSet (pageSet used) h'.freeSet ret size := by
  have hsize : size < 0x1000 := (assert_bind_eq_ok.1 hok).1
  have hlocked : KHeap.Fair { h with poolSmall := h.poolSmall.spinLock } :=
    ⟨hf.pool4k, hf.poolSmall.congr (.lock _), hf.apart⟩
  rw [allocKheapSmall_eq hsize] at hok
  obtain ⟨⟨r, h₁, rest₁⟩, hsearch, htake⟩ := bind_eq_ok.1 hok
  obtain ⟨used, hused, hfair, hsub, hhole⟩ := searchSmall_fair hlocked hne hpages (Nat.le_of_lt hsize) hsearch
  cases r with
  | none =>
      obtain ⟨rfl, rfl, rfl⟩ := htake
      exact ⟨used, hused, hfair, hsub, fun hn => absurd rfl hn, fun hn => absurd rfl hn⟩
  | some p =>
      obtain ⟨hp, hle⟩ := hhole p rfl
      obtain ⟨s₁, hcarve, hremoved⟩ := hfair.poolSmall.carved 16 hp hle
      rw [takeSmall, hcarve] at htake
      obtain ⟨rfl, rfl, rfl⟩ := htake
      have hless : s₁.freeSet ⊆ h₁.poolSmall.freeSet := hremoved.freeSet_subset.trans Set.sdiff_subset
      refine ⟨used, hused, ⟨hfair.pool4k, hremoved.parted.congr (.unlock s₁), hfair.apart.mono_right hless⟩,
        ?_, fun _ => ?_, fun _ => ?_⟩
      · exact (Set.union_subset_union_right _ hless).trans hsub
      · exact (hremoved.subset.trans Set.subset_union_right).trans hsub
      · refine Set.disjoint_union_right.2 ⟨hfair.apart.symm.mono_left hremoved.subset, ?_⟩
        exact Set.disjoint_left.2 fun _ ha hfree => (hremoved.freeSet_subset hfree).2 ha

theorem kalloc_yields (hf : h.Fair) (hne : pages ≠ []) (hpages : ∀ page ∈ pages, Unused h.freeSet page)
    (hmax : size ≤ 0x200000) (hok : kalloc h pages size = .ok (ret, h', rest)) :
    ∃ used, pages = used ++ rest ∧ h'.Fair ∧ Yields h.freeSet (pageSet used) h'.freeSet ret size := by
  unfold kalloc at hok
  split at hok
  · exact allocKheapSmall_yields hf hne hpages hok
  · obtain ⟨⟨pret, pool4k, rest₁⟩, halloc, hok⟩ := bind_eq_ok.1 hok
    obtain ⟨rfl, rfl, rfl⟩ := hok
    obtain ⟨used, hused, hparted, hyields, -⟩ := allocKheap4k_yields hf.pool4k hne
      (fun page hp => (hpages page hp).mono Set.subset_union_left) hmax halloc
    have hnew := pageSet_disjoint (fun page hp => (hpages page hp).mono Set.subset_union_right) hused
    have hapart : Disjoint (h.pool4k.freeSet ∪ pageSet used) h.poolSmall.freeSet :=
      Set.disjoint_union_left.2 ⟨hf.apart, hnew⟩
    have hfour : h.pool4k.freeSet ∪ pageSet used ⊆ h.freeSet ∪ pageSet used :=
      Set.union_subset_union_left _ Set.subset_union_left
    refine ⟨used, hused, ⟨hparted, hf.poolSmall, hapart.mono_left hyields.subset⟩, ?_, fun hn => ?_,
      fun hn => ?_⟩
    · exact Set.union_subset (hyields.subset.trans hfour) (Set.subset_union_right.trans Set.subset_union_left)
    · exact (hyields.block hn).trans hfour
    · exact Set.disjoint_union_right.2 ⟨hyields.gone hn, hapart.mono_left (hyields.block hn)⟩

end Small

/-! ## Runs -/

/-- The heap with the ranges it was given (donations and pages) and the blocks it gave out. -/
structure HeapRun where
  heap : KHeap
  given : List (Nat × Nat)
  blocks : List (Nat × Nat)

/-- Before the first call. -/
def initHeapRun : HeapRun := ⟨initKheap, [], []⟩

/-- The block of a call; a null pointer is none. -/
def blockOf (ret size : Nat) : List (Nat × Nat) := if ret = 0 then [] else [(ret, ret + size)]

/-- One call that returns. A range or a page is new to all that the heap was given before. -/
inductive HeapStep : HeapRun → HeapRun → Prop
  | freeSmall {st : HeapRun} {s' : HolePool} {addr size : Nat} (hbound : addr + size < 2 ^ 64)
      (hfresh : Disjoint (Set.Ico addr (addr + size)) (Intervals.cover st.given))
      (hok : freeKheapSmall st.heap.poolSmall addr size = .ok s') :
      HeapStep st ⟨{ st.heap with poolSmall := s' }, (addr, addr + size) :: st.given, st.blocks⟩
  | free4k {st : HeapRun} {s' : HolePool} {addr size : Nat} (hbound : addr + size < 2 ^ 64)
      (hfresh : Disjoint (Set.Ico addr (addr + size)) (Intervals.cover st.given))
      (hok : freeKheap4k st.heap.pool4k addr size = .ok s') :
      HeapStep st ⟨{ st.heap with pool4k := s' }, (addr, addr + size) :: st.given, st.blocks⟩
  | kalloc {st : HeapRun} {h' : KHeap} {used rest : List Nat} {size ret : Nat} (hmax : size ≤ 0x200000)
      (hne : used ++ rest ≠ []) (hfresh : ∀ page ∈ used ++ rest, Unused (Intervals.cover st.given) page)
      (hok : kalloc st.heap (used ++ rest) size = .ok (ret, h', rest)) :
      HeapStep st ⟨h', used.map pageRange ++ st.given, blockOf ret size ++ st.blocks⟩

/-- What is free and what was given out lies in what was given, each address once. -/
structure HeapRun.Sorted (st : HeapRun) : Prop where
  fair : st.heap.Fair
  free : st.heap.freeSet ⊆ Intervals.cover st.given
  inside : ∀ b ∈ st.blocks, Set.Ico b.1 b.2 ⊆ Intervals.cover st.given
  busy : ∀ b ∈ st.blocks, Disjoint (Set.Ico b.1 b.2) st.heap.freeSet
  apart : st.blocks.Pairwise fun b b' => Disjoint (Set.Ico b.1 b.2) (Set.Ico b'.1 b'.2)

section Runs

variable {st st' : HeapRun} {l l' : List (Nat × Nat)} {addr size : Nat}

theorem cover_cons (r : Nat × Nat) (l : List (Nat × Nat)) :
    Intervals.cover (r :: l) = Set.Ico r.1 r.2 ∪ Intervals.cover l := by
  ext a
  simp [Intervals.cover]

theorem cover_append (l l' : List (Nat × Nat)) :
    Intervals.cover (l ++ l') = Intervals.cover l ∪ Intervals.cover l' := by
  ext a
  simp only [Intervals.cover, List.mem_append, Set.mem_union, Set.mem_ofPred_eq, or_and_right, exists_or]

/-- A range that is new goes on one of the lists. -/
theorem HeapRun.Sorted.donated (h : st.Sorted) {heap' : KHeap} (hfair : heap'.Fair)
    (hset : heap'.freeSet = st.heap.freeSet ∪ Set.Ico addr (addr + size))
    (hfresh : Disjoint (Set.Ico addr (addr + size)) (Intervals.cover st.given)) :
    HeapRun.Sorted ⟨heap', (addr, addr + size) :: st.given, st.blocks⟩ where
  fair := hfair
  free := by
    rw [cover_cons, hset, Set.union_comm]
    exact Set.union_subset_union_right _ h.free
  inside := fun b hb => by
    rw [cover_cons]
    exact (h.inside b hb).trans Set.subset_union_right
  busy := fun b hb => by
    rw [hset]
    exact Set.disjoint_union_right.2 ⟨h.busy b hb, (hfresh.mono_right (h.inside b hb)).symm⟩
  apart := h.apart

theorem HeapStep.preserves (step : HeapStep st st') (h : st.Sorted) : st'.Sorted := by
  cases step with
  | freeSmall hbound hfresh hok =>
      have hadded := freeKheapSmall_added h.fair.poolSmall hbound
        (hfresh.mono_right (Set.subset_union_right.trans h.free)) hok
      refine h.donated ⟨h.fair.pool4k, hadded.parted, ?_⟩ ?_ hfresh
      · rw [hadded.freeSet_eq, Set.disjoint_union_right]
        exact ⟨h.fair.apart, (hfresh.mono_right (Set.subset_union_left.trans h.free)).symm⟩
      · rw [KHeap.freeSet, hadded.freeSet_eq, ← Set.union_assoc]
        rfl
  | free4k hbound hfresh hok =>
      have hadded := h.fair.pool4k.freed hbound (hfresh.mono_right (Set.subset_union_left.trans h.free))
        (assert_bind_eq_ok.1 hok).2
      refine h.donated ⟨hadded.parted, h.fair.poolSmall, ?_⟩ ?_ hfresh
      · rw [hadded.freeSet_eq, Set.disjoint_union_left]
        exact ⟨h.fair.apart, hfresh.mono_right (Set.subset_union_right.trans h.free)⟩
      · rw [KHeap.freeSet, hadded.freeSet_eq, Set.union_right_comm]
        rfl
  | @kalloc h' used rest size ret hmax hne hfresh hok =>
      obtain ⟨used', hused, hfair, hyields⟩ :=
        kalloc_yields h.fair hne (fun page hp => (hfresh page hp).mono h.free) hmax hok
      obtain rfl := List.append_cancel_right hused
      have hpages := pageSet_disjoint hfresh rfl
      have hgiven : Intervals.cover (used.map pageRange ++ st.given) = Intervals.cover st.given ∪ pageSet used := by
        rw [cover_append, Set.union_comm]
        rfl
      have hin : st.heap.freeSet ∪ pageSet used ⊆ Intervals.cover (used.map pageRange ++ st.given) := by
        rw [hgiven]
        exact Set.union_subset_union_left _ h.free
      -- an old block shares nothing with what was free, nor with the new pages
      have hold : ∀ b ∈ st.blocks, Disjoint (Set.Ico b.1 b.2) (st.heap.freeSet ∪ pageSet used) := fun b hb =>
        Set.disjoint_union_right.2 ⟨h.busy b hb, (hpages.mono_right (h.inside b hb)).symm⟩
      have hinside : ∀ b ∈ st.blocks, Set.Ico b.1 b.2 ⊆ Intervals.cover (used.map pageRange ++ st.given) := by
        intro b hb
        rw [hgiven]
        exact (h.inside b hb).trans Set.subset_union_left
      have hbusy : ∀ b ∈ st.blocks, Disjoint (Set.Ico b.1 b.2) h'.freeSet := fun b hb =>
        (hold b hb).mono_right hyields.subset
      by_cases hnull : ret = 0
      · rw [blockOf, if_pos hnull]
        exact ⟨hfair, hyields.subset.trans hin, hinside, hbusy, h.apart⟩
      · rw [blockOf, if_neg hnull]
        refine ⟨hfair, hyields.subset.trans hin, fun b hb => ?_, fun b hb => ?_, List.pairwise_cons.2 ⟨?_, h.apart⟩⟩
        · rcases List.mem_cons.1 hb with rfl | hb
          · exact (hyields.block hnull).trans hin
          · exact hinside b hb
        · rcases List.mem_cons.1 hb with rfl | hb
          · exact hyields.gone hnull
          · exact hbusy b hb
        · exact fun b hb => (hold b hb).symm.mono_left (hyields.block hnull)

theorem initHeapRun_sorted : initHeapRun.Sorted where
  fair := by
    refine ⟨initHoles_parted kheap4kHoles, initHoles_parted kheapSmallHoles, ?_⟩
    rw [show initHeapRun.heap.pool4k.freeSet = ∅ from FrameStore.init_freeSet .kheap4k]
    exact Set.empty_disjoint _
  free := by
    have hsmall : initKheap.poolSmall.freeSet = ∅ := by
      rw [(initHoles_rep kheapSmallHoles.capacity).freeSet_eq (s := initKheap.poolSmall)]
      simp [cover]
    show initKheap.pool4k.freeSet ∪ initKheap.poolSmall.freeSet ⊆ _
    rw [hsmall, show initKheap.pool4k.freeSet = ∅ from FrameStore.init_freeSet .kheap4k, Set.empty_union]
    exact Set.empty_subset _
  inside := by simp [initHeapRun]
  busy := by simp [initHeapRun]
  apart := .nil

/-- **The blocks of the boot heap.** In every run the blocks that `kalloc` gave out share no address with each
    other, and they lie in the ranges that were donated and the pages that were obtained. -/
theorem kalloc_blocks_disjoint (run : Relation.ReflTransGen HeapStep initHeapRun st) :
    st.blocks.Pairwise (fun b b' => Disjoint (Set.Ico b.1 b.2) (Set.Ico b'.1 b'.2)) ∧
      ∀ b ∈ st.blocks, Set.Ico b.1 b.2 ⊆ Intervals.cover st.given := by
  have h : st.Sorted := by
    induction run with
    | refl => exact initHeapRun_sorted
    | tail _ step ih => exact step.preserves ih
  exact ⟨h.apart, h.inside⟩

/-- A small request and one for two frames, served from one page. -/
theorem kalloc_blocks_disjoint_page : ∃ st, Relation.ReflTransGen HeapStep initHeapRun st ∧
    st.blocks = [(P2V 0x401000, P2V 0x402800), (P2V 0x400000, P2V 0x400018)] ∧
    st.blocks.Pairwise (fun b b' => Disjoint (Set.Ico b.1 b.2) (Set.Ico b'.1 b'.2)) ∧
    ∀ b ∈ st.blocks, Set.Ico b.1 b.2 ⊆ Intervals.cover st.given := by
  obtain ⟨h, hok, h', hok'⟩ : ∃ h, kalloc initHeapRun.heap ([0x400000] ++ []) 24 = .ok (P2V 0x400000, h, []) ∧
      ∃ h', kalloc h ([] ++ [0x600000]) 0x1800 = .ok (P2V 0x401000, h', [0x600000]) := ⟨_, rfl, _, rfl⟩
  have hnew : ∀ page ∈ [0x400000] ++ [], Unused (Intervals.cover initHeapRun.given) page := by
    intro page hp
    obtain rfl := List.mem_singleton.1 hp
    exact ⟨by decide, by decide, by decide, by simp [initHeapRun, Intervals.cover]⟩
  have hnew' : ∀ page ∈ [] ++ [0x600000], Unused (Intervals.cover [pageRange 0x400000]) page := by
    intro page hp
    obtain rfl := List.mem_singleton.1 hp
    refine ⟨by decide, by decide, by decide, Set.disjoint_left.2 fun a ha hin => ?_⟩
    obtain ⟨r, hr, hlow, hhigh⟩ := hin
    obtain rfl := List.mem_singleton.1 hr
    have hle : (pageRange 0x400000).2 ≤ P2V 0x600000 := by decide
    exact absurd (hle.trans ha.1) (Nat.not_le.2 hhigh)
  have first := HeapStep.kalloc (show 24 ≤ 0x200000 by decide) (by decide) hnew hok
  have second : HeapStep ⟨h, [pageRange 0x400000], [(P2V 0x400000, P2V 0x400018)]⟩ _ :=
    .kalloc (show 0x1800 ≤ 0x200000 by decide) (by decide) hnew' hok'
  have run := (Relation.ReflTransGen.single first).tail second
  exact ⟨_, run, rfl, kalloc_blocks_disjoint run⟩

end Runs

end Yaos
