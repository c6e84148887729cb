import Yaos.Alloc.PhyPage
import Yaos.DirectMap

set_option autoImplicit false

/-! # The kernel heaps (`kernel/kheap.c`, `heap_alloc_4k` in `kernel/yaos_page.c`)

Two hole lists of direct-map addresses: one in units of 4 KiB, refilled with 2 MiB pages from
`alloc_phy_page`, and one for requests below 4 KiB, refilled from the first. The small list is not
sorted and never merges. As in `kernel/phy_page.c` the answers of `alloc_phy_page` are a list, where
the end of the list means that it returns 0 from there on. -/

namespace Yaos

open Chains Word

/-- `MAX_HEAP_HOLE` nodes; the merging path returns with `spin_4k` held. -/
def kheap4kHoles : HoleConfig where
  capacity := 20
  tooSmall := "MAX_HEAP_HOLE too small!\n"
  unlockOnMerge := false

/-- `MAX_SMALL_HOLE` nodes. -/
def kheapSmallHoles : HoleConfig where
  capacity := 100
  tooSmall := "MAX_HEAP_HOLE too small!\n"
  unlockOnMerge := true

/-- The two lists of holes. -/
structure KHeap where
  pool4k : HolePool
  poolSmall : HolePool

/-- The lists before the first donation. -/
def initKheap : KHeap where
  pool4k := initHoles kheap4kHoles.capacity
  poolSmall := initHoles kheapSmallHoles.capacity

/-- `free_kheap_4k`. -/
def freeKheap4k (s : HolePool) (addr size : Nat) : Except Fault HolePool := do
  assert "(addr & 0xfff) == 0 && (size & 0xfff) == 0" (addr % 0x1000 = 0 ∧ size % 0x1000 = 0)
  freeHole kheap4kHoles s addr size

/-- One turn of `while (!p) { … }`, for the answer `page` of `alloc_phy_page`. The test for 0 comes
    after the conversion to a direct-map address. -/
def refillKheap4kOnce (size page : Nat) (s : HolePool) (rest : List Nat)
    (again : HolePool → Except Fault (Option Nat × HolePool × List Nat)) :
    Except Fault (Option Nat × HolePool × List Nat) :=
  let s := s.spinUnlock
  let newaddr := P2V page
  if newaddr = 0 then .ok (none, s, rest)
  else do
    let s ← freeKheap4k s newaddr 0x200000
    let s := s.spinLock
    match firstFitOrLast kheap4kHoles s size with
    | none => .error .hang
    | some (some p) => .ok (some p, s, rest)
    | some none => again s

/-- The search of `alloc_kheap_4k`, over the pages that `alloc_phy_page` has still to give. -/
def refillKheap4k (size : Nat) : List Nat → HolePool →
    Except Fault (Option Nat × HolePool × List Nat)
  | [], s => refillKheap4kOnce size 0 s [] fun _ => .error .hang
  | page :: pages, s => refillKheap4kOnce size page s pages (refillKheap4k size pages)

/-- Returns the address of the block, or 0. -/
def allocKheap4k (s : HolePool) (pages : List Nat) (size : Nat) :
    Except Fault (Nat × HolePool × List Nat) := do
  let size := roundUp 0x1000 size
  let s := s.spinLock
  let (p, s, pages) ←
    match firstFit kheap4kHoles s size with
    | none => .error .hang
    | some (some p) => .ok (some p, s, pages)
    | some none => refillKheap4k size pages s
  match p with
  | none => .ok (0, s, pages)
  | some p => do
      let (pret, s) ← carveHole kheap4kHoles 0 s p size
      .ok (pret, s.spinUnlock, pages)

/-! ## Requests below 4 KiB -/

/-- `free_kheap_small`. -/
def freeKheapSmall (s : HolePool) (addr size : Nat) : Except Fault HolePool := do
  assert "(addr & 0xfff) == 0 && (size & 0xfff) == 0" (addr % 0x1000 = 0 ∧ size % 0x1000 = 0)
  let s := s.spinLock
  match s.pfree with
  | none => .error (.panic kheapSmallHoles.tooSmall)
  | some p =>
      let s := { s with pfree := s.next p }
      let s := s.modify p fun n => { n with addr := addr, size := size }
      .ok (s.pushHead p).spinUnlock

/-- `while (!p) { … }`. Every turn takes an unused node, so `turns` need not exceed their number. -/
def refillKheapSmall (size : Nat) : Nat → KHeap → List Nat →
    Except Fault (Option Nat × KHeap × List Nat)
  | 0, _, _ => .error .hang
  | turns + 1, h, pages => do
      let h := { h with poolSmall := h.poolSmall.spinUnlock }
      let (newaddr, pool4k, pages) ← allocKheap4k h.pool4k pages 0x1000
      let h := { h with pool4k := pool4k }
      -- the lock is not held here, and the function returns
      if newaddr = 0 then .ok (none, h, pages)
      else do
        let s ← freeKheapSmall h.poolSmall newaddr 0x1000
        let h := { h with poolSmall := s.spinLock }
        match firstFit kheapSmallHoles h.poolSmall size with
        | none => .error .hang
        | some (some p) => .ok (some p, h, pages)
        | some none => refillKheapSmall size turns h pages

/-- Returns the address of the block, or 0. A rest of at most 16 bytes is dropped, one of exactly 16 too,
    where the comment says smaller than 16. -/
def allocKheapSmall (h : KHeap) (pages : List Nat) (size : Nat) :
    Except Fault (Nat × KHeap × List Nat) := do
  assert "size < 0x1000" (size < 0x1000)
  let h := { h with poolSmall := h.poolSmall.spinLock }
  let (p, h, pages) ←
    match firstFit kheapSmallHoles h.poolSmall size with
    | none => .error .hang
    | some (some p) => .ok (some p, h, pages)
    | some none => refillKheapSmall size (kheapSmallHoles.capacity + 1) h pages
  match p with
  | none => .ok (0, h, pages)
  | some p => do
      let (pret, s) ← carveHole kheapSmallHoles 16 h.poolSmall p size
      .ok (pret, { h with poolSmall := s.spinUnlock }, pages)

/-- `MAX_SMALL_HEAP` parts the requests between the two lists. -/
def kalloc (h : KHeap) (pages : List Nat) (size : Nat) : Except Fault (Nat × KHeap × List Nat) :=
  if size < 2048 then allocKheapSmall h pages size
  else do
    let (pret, pool4k, pages) ← allocKheap4k h.pool4k pages size
    .ok (pret, { h with pool4k := pool4k }, pages)

/-! ## Frames for the system calls -/

/-- `ret.v` of `heap_alloc_4k`; `ret.e` is always 0. -/
def heapAlloc4k (s : HolePool) (pages : List Nat) (size : Nat) :
    Except Fault (Nat × HolePool × List Nat) := do
  assert "(size & 0xfff) == 0" (size % 0x1000 = 0)
  let (a, s, pages) ← allocPhyPageSmall s pages size
  .ok (P2V a, s, pages)

end Yaos
