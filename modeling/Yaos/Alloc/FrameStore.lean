import Yaos.Alloc.HolePool.Pool
import Yaos.Alloc.KHeap
import Mathlib.Logic.Relation

set_option autoImplicit false

/-! # The choice of a hole (`alloc_phy_page_small`, `alloc_kheap_4k`)

Both allocators search their list, and where no hole has room they put a 2 MiB page on it and search again.
The second search ends at the last hole whatever its size, so the hole it comes to may be smaller than the
request: `NoUnderflow` says that it is not, `Serves` when. -/

namespace Yaos

open Chains Word HolePool

/-- The two allocators of 4 KiB frames. -/
inductive FrameStore
  | phyPage
  | kheap4k
deriving DecidableEq, Repr

namespace FrameStore

/-- What makes the store one of the two. -/
def config : FrameStore → HoleConfig
  | phyPage => phyPageHoles
  | kheap4k => kheap4kHoles

/-- Where a page of `alloc_phy_page` goes on the list, `0` for nowhere. -/
def newaddr : FrameStore → Nat → Nat
  | phyPage, page => page
  | kheap4k, page => P2V page

/-- The store before the first call. -/
def init (k : FrameStore) : HolePool := initHoles k.config.capacity

/-- What gives memory to the store. -/
def free : FrameStore → HolePool → Nat → Nat → Except Fault HolePool
  | phyPage => freePhyPageSmall
  | kheap4k => freeKheap4k

/-- What takes memory from it. -/
def alloc : FrameStore → HolePool → List Nat → Nat → Except Fault (Nat × HolePool × List Nat)
  | phyPage => allocPhyPageSmall
  | kheap4k => allocKheap4k

/-- The search, with the pages that can still be asked for. -/
def refill : FrameStore → HolePool → List Nat → Nat → Except Fault (Option Nat × HolePool × List Nat)
  | phyPage, s, pages, size => refillPhyPageSmall size s pages
  | kheap4k, s, pages, size => refillKheap4k size pages s

/-- The hole that `alloc` takes `size` bytes from, with the list at that moment. -/
def search (k : FrameStore) (s : HolePool) (pages : List Nat) (size : Nat) :
    Except Fault (Option Nat × HolePool × List Nat) :=
  match firstFit k.config s size with
  | none => .error .hang
  | some (some p) => .ok (some p, s, pages)
  | some none => k.refill s pages size

/-- One turn of the refill, which makes another where the second search finds no hole at all. -/
def turn (k : FrameStore) (page size : Nat) (s : HolePool) (rest : List Nat)
    (again : HolePool → Except Fault (Option Nat × HolePool × List Nat)) :
    Except Fault (Option Nat × HolePool × List Nat) :=
  if k.newaddr page = 0 then .ok (none, s.spinUnlock, rest)
  else do
    let s ← k.free s.spinUnlock (k.newaddr page) 0x200000
    match firstFitOrLast k.config s.spinLock size with
    | none => .error .hang
    | some (some p) => .ok (some p, s.spinLock, rest)
    | some none => again s.spinLock

/-- What `alloc` does with the hole. -/
def take (k : FrameStore) (size : Nat) :
    Option Nat × HolePool × List Nat → Except Fault (Nat × HolePool × List Nat)
  | (none, s, pages) => .ok (0, s, pages)
  | (some p, s, pages) => do
      let r ← carveHole k.config 0 s p size
      .ok (r.1, r.2.spinUnlock, pages)

/-- `size` in whole frames, as a number that does not wrap. -/
def need (size : Nat) : Nat := (size + 0xfff) / 0x1000 * 0x1000

/-- At `p->size -= size` the hole has at least the rounded request. -/
def NoUnderflow (k : FrameStore) (s : HolePool) (pages : List Nat) (size : Nat) : Prop :=
  ∀ p t rest, k.search s.spinLock pages (roundUp 0x1000 size) = .ok (some p, t, rest) →
    need size ≤ (t.nodes p).size

/-- A block of free memory or of the page obtained, or a failure that is reported. -/
def Grants (k : FrameStore) (s : HolePool) (page size : Nat) :
    Except Fault (Nat × HolePool × List Nat) → Prop
  | .error e => e = .panic k.config.tooSmall
  | .ok (ret, s', _) =>
      (ret = 0 ∧ s'.freeSet = s.freeSet) ∨
      ∃ added : Set Nat,
        (added = ∅ ∨ page ≠ 0 ∧ added = Set.Ico (k.newaddr page) (k.newaddr page + 0x200000)) ∧
        Set.Ico ret (ret + need size) ⊆ s.freeSet ∪ added ∧
        s'.freeSet = (s.freeSet ∪ added) \ Set.Ico ret (ret + need size)

/-- Some hole has room for the request. Or none has as much as the code asks for, and the allocator reports
    that there is no page, has no node for it, or gets a page that has room, alone or with the hole that
    ends at it. -/
def Serves (k : FrameStore) (s : HolePool) (page size : Nat) : Prop :=
  s.HasRoom (need size) ∨ ¬ s.HasRoom (roundUp 0x1000 size) ∧
    (k.newaddr page = 0 ∨ s.pfree = none ∨ page ≠ 0 ∧
      (need size ≤ 0x200000 ∨
        ∃ i, s.IsHole i ∧ s.holeEnd i = k.newaddr page ∧ need size ≤ (s.nodes i).size + 0x200000))

/-- No hole begins where the page of a refill ends. -/
def RefillClear (k : FrameStore) (s : HolePool) (page size : Nat) : Prop :=
  ¬ s.HasRoom (roundUp 0x1000 size) → ∀ i, s.IsHole i → k.newaddr page + 0x200000 ≠ (s.nodes i).addr

/-- What `alloc_phy_page` may answer first: nothing, or a 2 MiB page that is not free already. -/
def FreshPage (k : FrameStore) (s : HolePool) (page : Nat) : Prop :=
  page = 0 ∨ page % 0x200000 = 0 ∧ Loose s (k.newaddr page) 0x200000

/-- One call that returns, an allocation only where it is served. -/
inductive Step (k : FrameStore) : HolePool → HolePool → Prop
  | alloc {s s' : HolePool} {pages rest : List Nat} {size ret : Nat} (hlt : size < 2 ^ 64)
      (hfresh : k.FreshPage s (pages.headD 0)) (hserves : k.Serves s (pages.headD 0) size)
      (hok : k.alloc s pages size = .ok (ret, s', rest)) : Step k s s'
  | free {s s' : HolePool} {addr size : Nat} (hloose : Loose s addr size)
      (hok : k.free s addr size = .ok s') : Step k s s'

/-! ## The code in these terms -/

section Code

variable {k : FrameStore} {s : HolePool} {pages : List Nat} {page size addr : Nat}

/-- The allocators differ in their refill alone. -/
theorem alloc_eq : k.alloc s pages size =
    k.search s.spinLock pages (roundUp 0x1000 size) >>= k.take (roundUp 0x1000 size) := by
  cases k with
  | phyPage =>
      show allocPhyPageSmall s pages size = _
      unfold allocPhyPageSmall search
      dsimp only [config, refill]
      rcases firstFit phyPageHoles s.spinLock (roundUp 0x1000 size) with _ | _ | p
      · rfl
      · refine congrArg (refillPhyPageSmall (roundUp 0x1000 size) s.spinLock pages >>= ·) ?_
        funext r
        rcases r with ⟨_ | p, t, rest⟩
        · rfl
        · rfl
      · rfl
  | kheap4k =>
      show allocKheap4k s pages size = _
      unfold allocKheap4k search
      dsimp only [config, refill]
      rcases firstFit kheap4kHoles s.spinLock (roundUp 0x1000 size) with _ | _ | p
      · rfl
      · refine congrArg (refillKheap4k (roundUp 0x1000 size) pages s.spinLock >>= ·) ?_
        funext r
        rcases r with ⟨_ | p, t, rest⟩
        · rfl
        · rfl
      · rfl

theorem free_eq (haddr : addr % 0x1000 = 0) (hsize : size % 0x1000 = 0) :
    k.free s addr size = freeHole k.config s addr size := by
  cases k with
  | phyPage =>
      show freePhyPageSmall s addr size = _
      exact assert_bind ⟨haddr, hsize⟩
  | kheap4k =>
      show freeKheap4k s addr size = _
      exact assert_bind ⟨haddr, hsize⟩

theorem refill_turn (k : FrameStore) (s : HolePool) (pages : List Nat) (size : Nat) :
    ∃ again, k.refill s pages size = k.turn (pages.headD 0) size s pages.tail again := by
  cases k with
  | phyPage =>
      cases pages with
      | nil => exact ⟨fun _ => .error .hang, (if_pos rfl).symm⟩
      | cons page pages => exact ⟨fun s => refillPhyPageSmall size s pages, by rw [refill, refillPhyPageSmall]; rfl⟩
  | kheap4k =>
      cases pages with
      | nil => exact ⟨fun _ => .error .hang, rfl⟩
      | cons page pages => exact ⟨refillKheap4k size pages, rfl⟩

end Code

/-! ## What the search comes to -/

section Search

variable {k : FrameStore} {s : HolePool} {pages : List Nat} {size : Nat}

theorem search_room (pages : List Nat) (hinv : PoolInv k.config s) (hroom : s.HasRoom size) :
    ∃ p, k.search s pages size = .ok (some p, s, pages) ∧ s.IsHole p ∧ size ≤ (s.nodes p).size := by
  rcases hinv.firstFit_cases size with ⟨hnone, -⟩ | ⟨p, hfit, hp, hle⟩
  · exact absurd hroom hnone
  · exact ⟨p, by rw [search, hfit], hp, hle⟩

theorem search_refill (hinv : PoolInv k.config s) (hroom : ¬ s.HasRoom size) :
    k.search s pages size = k.refill s pages size := by
  rcases hinv.firstFit_cases size with ⟨-, hfit⟩ | ⟨p, -, hp, hle⟩
  · rw [search, hfit]
  · exact absurd ⟨p, hp, hle⟩ hroom

theorem search_exhausted (hinv : PoolInv k.config s) (hroom : ¬ s.HasRoom size)
    (hzero : k.newaddr (pages.headD 0) = 0) :
    k.search s pages size = .ok (none, s.spinUnlock, pages.tail) := by
  obtain ⟨again, hturn⟩ := refill_turn k s pages size
  rw [search_refill hinv hroom, hturn, turn, if_pos hzero]

theorem search_panics (hinv : PoolInv k.config s) (hroom : ¬ s.HasRoom size)
    (hne : k.newaddr (pages.headD 0) ≠ 0) (hal : k.newaddr (pages.headD 0) % 0x1000 = 0)
    (hpfree : s.pfree = none) :
    k.search s pages size = .error (.panic k.config.tooSmall) := by
  obtain ⟨again, hturn⟩ := refill_turn k s pages size
  have hfree : freeHole k.config s.spinUnlock (k.newaddr (pages.headD 0)) 0x200000
      = .error (.panic k.config.tooSmall) := by
    simp only [freeHole, spinUnlock_pfree, hpfree]
  rw [search_refill hinv hroom, hturn, turn, if_neg hne, free_eq hal (by decide), hfree]
  rfl

theorem search_refilled (hinv : PoolInv k.config s) (hroom : ¬ s.HasRoom size)
    (hne : k.newaddr (pages.headD 0) ≠ 0) (hal : k.newaddr (pages.headD 0) % 0x1000 = 0)
    (hloose : Loose s (k.newaddr (pages.headD 0)) 0x200000) (hpfree : s.pfree ≠ none) :
    ∃ p s₁, k.search s pages size = .ok (some p, s₁.spinLock, pages.tail) ∧
      PutBack k.config s s₁ (k.newaddr (pages.headD 0)) 0x200000 ∧ s₁.IsHole p ∧
      (s₁.HasRoom size → size ≤ (s₁.nodes p).size) := by
  obtain ⟨again, hturn⟩ := refill_turn k s pages size
  have hsame := SameHoles.unlock s
  rcases (hinv.congr hsame).freed (hloose.congr hsame) with ⟨hnone, -⟩ | ⟨-, s₁, hfree, hput⟩
  · exact absurd hnone hpfree
  have hput' : PutBack k.config s s₁ (k.newaddr (pages.headD 0)) 0x200000 :=
    ⟨hput.inv, hput.freeSet_eq, hput.hasRoom_iff, hput.spread⟩
  obtain ⟨i, hi, -⟩ := (hput.hasRoom_iff 0).2 (.inr (.inl (Nat.zero_le _)))
  obtain ⟨p, hfit, hp, hle⟩ := (hput.inv.congr (.lock s₁)).firstFitOrLast_cases ⟨i, hi⟩ size
  refine ⟨p, s₁, ?_, hput', hp, hle⟩
  rw [search_refill hinv hroom, hturn, turn, if_neg hne, free_eq hal (by decide), hfree, ok_bind, hfit]

end Search

/-! ## Requests that are served -/

section Served

variable {k : FrameStore} {s : HolePool} {pages : List Nat} {page size n : Nat}

theorem lt_of_hasRoom {c : HoleConfig} (hinv : PoolInv c s) (hroom : s.HasRoom n) : n < 2 ^ 64 := by
  obtain ⟨free, holes, hrep, -, hsorted⟩ := hinv
  obtain ⟨i, hi, hle⟩ := (hrep.hasRoom_iff n).1 hroom
  have := hsorted.bound i hi
  omega

/-- A request that some hole has room for is rounded without a wrap. -/
theorem roundUp_eq_need (hlt : need size < 2 ^ 64) : roundUp 0x1000 size = need size := by
  unfold need at hlt ⊢
  rw [roundUp_4K (by omega)]
  omega

/-- The hole chosen has room: the call gives out its front. -/
theorem take_grants (hinv : PoolInv k.config s) {p : Nat} (hp : s.IsHole p)
    (hle : need size ≤ (s.nodes p).size) (rest : List Nat) :
    ∃ s', k.take (need size) (some p, s, rest) = .ok ((s.nodes p).addr, s', rest) ∧
      TakenFront k.config s s' p (need size) := by
  obtain ⟨s', hok, htaken⟩ := hinv.carved hp hle
  refine ⟨s'.spinUnlock, bind_eq_ok.2 ⟨_, hok, rfl⟩, htaken.inv.congr (.unlock s'), htaken.subset,
    htaken.freeSet_eq, htaken.spread⟩

theorem newaddr_aligned (hpage : page % 0x200000 = 0) : k.newaddr page % 0x1000 = 0 := by
  cases k with
  | phyPage =>
      show page % 0x1000 = 0
      omega
  | kheap4k =>
      show P2V page % 0x1000 = 0
      unfold P2V wadd physVirtStart
      omega

/-- The search came to the hole `p`, which has room, with the page obtained added to the free memory. -/
structure Chosen (k : FrameStore) (s t : HolePool) (page size p : Nat) : Prop where
  inv : PoolInv k.config t
  hole : t.IsHole p
  exact : roundUp 0x1000 size = need size
  room : need size ≤ (t.nodes p).size
  added : ∃ added : Set Nat, t.freeSet = s.freeSet ∪ added ∧
    (added = ∅ ∨ page ≠ 0 ∧ added = Set.Ico (k.newaddr page) (k.newaddr page + 0x200000))
  spread : s.Spread → k.RefillClear s page size → t.Spread

theorem search_of_serves (hinv : PoolInv k.config s) (hfresh : k.FreshPage s (pages.headD 0))
    (hserves : k.Serves s (pages.headD 0) size) :
    (∃ t rest, k.search s pages (roundUp 0x1000 size) = .ok (none, t, rest) ∧ SameHoles s t) ∨
    k.search s pages (roundUp 0x1000 size) = .error (.panic k.config.tooSmall) ∨
    ∃ p t rest, k.search s pages (roundUp 0x1000 size) = .ok (some p, t, rest) ∧
      Chosen k s t (pages.headD 0) size p := by
  rcases hserves with hroom | ⟨hroom, hrefill⟩
  · have hexact := roundUp_eq_need (lt_of_hasRoom hinv hroom)
    rw [hexact]
    obtain ⟨p, hok, hp, hle⟩ := search_room pages hinv hroom
    exact .inr (.inr ⟨p, s, pages, hok, hinv, hp, hexact, hle, ⟨∅, (Set.union_empty _).symm, .inl rfl⟩,
      fun hspread _ => hspread⟩)
  by_cases hzero : k.newaddr (pages.headD 0) = 0
  · exact .inl ⟨_, _, search_exhausted hinv hroom hzero, .unlock s⟩
  have hal : k.newaddr (pages.headD 0) % 0x1000 = 0 := by
    rcases hfresh with h0 | ⟨hpage, -⟩
    · rw [h0]
      exact newaddr_aligned (by decide)
    · exact newaddr_aligned hpage
  by_cases hpfree : s.pfree = none
  · exact .inr (.inl (search_panics hinv hroom hzero hal hpfree))
  · obtain ⟨hpage, henough⟩ := (hrefill.resolve_left hzero).resolve_left hpfree
    obtain ⟨p, s₁, hok, hput, hp, hle⟩ :=
      search_refilled hinv hroom hzero hal (hfresh.resolve_left hpage).2 hpfree
    have hroom₁ : s₁.HasRoom (need size) := (hput.hasRoom_iff _).2 (.inr henough)
    have hexact := roundUp_eq_need (lt_of_hasRoom hput.inv hroom₁)
    refine .inr (.inr ⟨p, _, _, hok, hput.inv.congr (.lock s₁), hp, hexact, ?_,
      ⟨_, hput.freeSet_eq, .inr ⟨hpage, rfl⟩⟩, fun hspread hclear => hput.spread hspread (hclear hroom)⟩)
    rw [hexact] at hle
    exact hle hroom₁

/-- What a served call does, and that the pool is in order behind it. -/
theorem alloc_of_serves (hinv : PoolInv k.config s) (hfresh : k.FreshPage s (pages.headD 0))
    (hserves : k.Serves s (pages.headD 0) size) :
    k.NoUnderflow s pages size ∧ k.Grants s (pages.headD 0) size (k.alloc s pages size) ∧
      ∀ ret s' rest, k.alloc s pages size = .ok (ret, s', rest) → PoolInv k.config s' ∧
        (s.Spread → k.RefillClear s (pages.headD 0) size → s'.Spread) := by
  have hserves' : k.Serves s.spinLock (pages.headD 0) size := hserves
  have hfresh' : k.FreshPage s.spinLock (pages.headD 0) :=
    hfresh.imp_right (And.imp_right fun hloose => hloose.congr (.lock s))
  have hinv' := hinv.congr (.lock s)
  rcases search_of_serves hinv' hfresh' hserves' with
    ⟨t, rest, hok, hsame⟩ | herr | ⟨p, t, rest, hok, hc⟩
  · have halloc : k.alloc s pages size = .ok (0, t, rest) := by
      rw [alloc_eq, hok]
      rfl
    rw [NoUnderflow, halloc, hok]
    refine ⟨fun p t' rest' h => ?_, .inl ⟨rfl, hsame.freeSet_eq⟩, fun ret s' rest' h => ?_⟩
    · cases h
    · obtain ⟨rfl, rfl, rfl⟩ := h
      exact ⟨hinv'.congr hsame, fun hspread _ => hsame.spread hspread⟩
  · have halloc : k.alloc s pages size = .error (.panic k.config.tooSmall) := by
      rw [alloc_eq, herr]
      rfl
    rw [NoUnderflow, halloc, herr]
    refine ⟨fun p t rest h => ?_, rfl, fun ret s' rest h => ?_⟩
    · cases h
    · cases h
  · obtain ⟨s', htake, htaken⟩ := take_grants hc.inv hc.hole hc.room rest
    have halloc : k.alloc s pages size = .ok ((t.nodes p).addr, s', rest) := by
      rw [alloc_eq, hok, ok_bind, hc.exact, htake]
    rw [NoUnderflow, halloc, hok]
    refine ⟨fun p' t' rest' h => ?_, ?_, fun ret s₁ rest' h => ?_⟩
    · obtain ⟨rfl, rfl, rfl⟩ := h
      exact hc.room
    · obtain ⟨added, hset, hadded⟩ := hc.added
      refine .inr ⟨added, hadded, ?_, ?_⟩
      · have hsub := htaken.subset
        rw [hset] at hsub
        exact hsub
      · exact htaken.freeSet_eq.trans (congrArg (· \ _) hset)
    · obtain ⟨rfl, rfl, rfl⟩ := h
      exact ⟨htaken.inv, fun hspread hclear => htaken.spread (hc.spread hspread hclear)⟩

/-- A request that is not served takes more than its hole has. -/
theorem serves_of_noUnderflow (hinv : PoolInv k.config s) (hfresh : k.FreshPage s (pages.headD 0))
    (hpage : pages.headD 0 ≠ 0) (hno : k.NoUnderflow s pages size) :
    k.Serves s (pages.headD 0) size := by
  have hinv' := hinv.congr (.lock s)
  obtain ⟨hdiv, hloose⟩ := hfresh.resolve_left hpage
  by_cases hroom : s.HasRoom (roundUp 0x1000 size)
  · obtain ⟨p, hok, hp, -⟩ := search_room (k := k) pages hinv'
      (((SameHoles.lock s).hasRoom_iff _).2 hroom)
    exact .inl ⟨p, hp, hno p s.spinLock _ hok⟩
  refine .inr ⟨hroom, ?_⟩
  by_cases hzero : k.newaddr (pages.headD 0) = 0
  · exact .inl hzero
  by_cases hpfree : s.pfree = none
  · exact .inr (.inl hpfree)
  obtain ⟨p, s₁, hok, hput, hp, -⟩ := search_refilled hinv' hroom hzero
    (newaddr_aligned hdiv) (hloose.congr (.lock s)) hpfree
  have hle : need size ≤ (s₁.nodes p).size := hno p s₁.spinLock _ hok
  -- the hole chosen is one of the old list, or what the refill made of the page
  rcases (hput.hasRoom_iff (need size)).1 ⟨p, hp, hle⟩ with hold | hnew
  · have hneed : need size < 2 ^ 64 := lt_of_hasRoom hput.inv ⟨p, hp, hle⟩
    rw [roundUp_eq_need hneed] at hroom
    exact absurd hold hroom
  · exact .inr (.inr ⟨hpage, hnew⟩)

end Served

/-! ## Runs -/

section Runs

variable {k : FrameStore} {s s' : HolePool} {pages : List Nat} {addr size : Nat}

theorem free_spec (hinv : PoolInv k.config s) (hloose : Loose s addr size) (hok : k.free s addr size = .ok s') :
    PutBack k.config s s' addr size := by
  have hfree : freeHole k.config s addr size = .ok s' := by
    cases k with
    | phyPage => exact (assert_bind_eq_ok.1 hok).2
    | kheap4k => exact (assert_bind_eq_ok.1 hok).2
  rcases hinv.freed hloose with ⟨-, herr⟩ | ⟨-, s₁, hok₁, hput⟩
  · rw [herr] at hfree
    cases hfree
  · rw [hok₁] at hfree
    obtain rfl := Except.ok.inj hfree
    exact hput

theorem Step.preserves (step : Step k s s') (hinv : PoolInv k.config s) : PoolInv k.config s' := by
  cases step with
  | alloc hlt hfresh hserves hok => exact ((alloc_of_serves hinv hfresh hserves).2.2 _ _ _ hok).1
  | free hloose hok => exact (free_spec hinv hloose hok).inv

theorem run_inv (run : Relation.ReflTransGen (Step k) k.init s) : PoolInv k.config s := by
  induction run with
  | refl => exact initHoles_inv k.config
  | tail _ step ih => exact step.preserves ih

/-- **The choice of a hole.** In every state that is reached by requests that are served and by frees, a
    request that is served is taken from a hole that has room, and the block is free memory, or the call
    fails. Where `alloc_phy_page` has a page, no other request is taken from such a hole. -/
theorem run_noUnderflow (run : Relation.ReflTransGen (Step k) k.init s)
    (hfresh : k.FreshPage s (pages.headD 0)) :
    (k.Serves s (pages.headD 0) size →
      k.NoUnderflow s pages size ∧ k.Grants s (pages.headD 0) size (k.alloc s pages size)) ∧
    (pages.headD 0 ≠ 0 → (k.NoUnderflow s pages size ↔ k.Serves s (pages.headD 0) size)) := by
  have hinv := run_inv run
  have hsound := fun hserves : k.Serves s (pages.headD 0) size => alloc_of_serves hinv hfresh hserves
  refine ⟨fun hserves => ⟨(hsound hserves).1, (hsound hserves).2.1⟩, fun hpage => ⟨fun hno => ?_, fun hserves => ?_⟩⟩
  · exact serves_of_noUnderflow hinv hfresh hpage hno
  · exact (hsound hserves).1

theorem init_freeSet (k : FrameStore) : k.init.freeSet = ∅ := by
  rw [(initHoles_rep k.config.capacity).freeSet_eq (s := k.init)]
  simp [cover]

/-- A page for an empty list. -/
theorem init_freshPage {page : Nat} (hpage : 0x200000 ∣ page)
    (hlt : k.newaddr page + 0x200000 < 2 ^ 64) : k.FreshPage k.init page :=
  .inr ⟨Nat.mod_eq_zero_of_dvd hpage, by decide, hlt, by rw [init_freeSet]; exact Set.disjoint_empty _⟩

/-- Two requests on an empty list, a page being left: one for a page and one for a frame. -/
theorem run_noUnderflow_page :
    (phyPage.NoUnderflow phyPage.init [0x400000] 0x200000 ∧
      phyPage.Grants phyPage.init 0x400000 0x200000 (phyPage.alloc phyPage.init [0x400000] 0x200000)) ∧
    (kheap4k.NoUnderflow kheap4k.init [0x400000] 1 ∧
      kheap4k.Grants kheap4k.init 0x400000 1 (kheap4k.alloc kheap4k.init [0x400000] 1)) := by
  have hroom : ∀ k : FrameStore, ∀ n, 0 < n → ¬ k.init.HasRoom n := by
    intro k n hn
    rintro ⟨i, hi, -⟩
    exact List.not_mem_nil (((initHoles_rep k.config.capacity).isHole_iff i).1 hi)
  have hphy : phyPage.FreshPage phyPage.init ([0x400000].headD 0) := init_freshPage ⟨2, rfl⟩ (by decide)
  have hheap : kheap4k.FreshPage kheap4k.init ([0x400000].headD 0) := init_freshPage ⟨2, rfl⟩ (by decide)
  refine ⟨(run_noUnderflow .refl hphy).1 ?_, (run_noUnderflow .refl hheap).1 ?_⟩
  · exact .inr ⟨hroom _ _ (by decide), .inr (.inr ⟨by decide, .inl (by decide)⟩)⟩
  · exact .inr ⟨hroom _ _ (by decide), .inr (.inr ⟨by decide, .inl (by decide)⟩)⟩

/-- A request for 4 MiB on an empty list: the 2 MiB page is chosen, and its size underflows. -/
theorem run_underflow :
    (∃ s, ∃ rest, phyPage.alloc phyPage.init [0x400000] 0x400000 = .ok (0x400000, s, rest) ∧
      (s.nodes 0).size = 2 ^ 64 - 0x200000 ∧ ¬ phyPage.NoUnderflow phyPage.init [0x400000] 0x400000) ∧
    (∃ s, ∃ rest, kheap4k.alloc kheap4k.init [0x400000] 0x400000 = .ok (P2V 0x400000, s, rest) ∧
      (s.nodes 0).size = 2 ^ 64 - 0x200000 ∧ ¬ kheap4k.NoUnderflow kheap4k.init [0x400000] 0x400000) := by
  obtain ⟨t, rest, hphy, hsize⟩ : ∃ t rest,
      phyPage.search phyPage.init.spinLock [0x400000] (roundUp 0x1000 0x400000) = .ok (some 0, t, rest) ∧
      (t.nodes 0).size = 0x200000 := ⟨_, _, rfl, by decide⟩
  obtain ⟨u, rest', hheap, hsize'⟩ : ∃ t rest,
      kheap4k.search kheap4k.init.spinLock [0x400000] (roundUp 0x1000 0x400000) = .ok (some 0, t, rest) ∧
      (t.nodes 0).size = 0x200000 := ⟨_, _, rfl, by decide⟩
  refine ⟨⟨_, _, rfl, by decide, fun hno => ?_⟩, ⟨_, _, rfl, by decide, fun hno => ?_⟩⟩
  · have := hno 0 t rest hphy
    rw [hsize] at this
    exact absurd this (by decide)
  · have := hno 0 u rest' hheap
    rw [hsize'] at this
    exact absurd this (by decide)

end Runs

end FrameStore

end Yaos
