import Yaos.Alloc.HolePool.Sorted
import Mathlib.Logic.Relation

set_option autoImplicit false

/-! # The store of small physical frames (`kernel/phy_page.c`)

`free_phy_page_small` and `alloc_phy_page_small` keep free 4 KiB frames in a hole list of twenty
nodes. When no hole is large enough the allocator asks `alloc_phy_page` for a 2 MiB page and puts
the whole page on the list. The answers of `alloc_phy_page` are an input here: a list of what it
returns, call by call, where `0` and the end of the list both mean that no page is left. -/

namespace Yaos

open Chains Word

/-- `MAX_PHY_PAGE_HOLE` nodes; this copy unlocks on every path. -/
def phyPageHoles : HoleConfig where
  capacity := 20
  tooSmall := "MAX_PHY_PAGE_HOLE too small!\n"
  unlockOnMerge := true

/-- The list before the first donation. -/
def initPhyPage : HolePool := initHoles phyPageHoles.capacity

/-- `free_phy_page_small`. -/
def freePhyPageSmall (s : HolePool) (addr size : Nat) : Except Fault HolePool := do
  assert "(addr & 0xfff) == 0 && (size & 0xfff) == 0" (addr % 0x1000 = 0 ∧ size % 0x1000 = 0)
  freeHole phyPageHoles s addr size

/-- `while (!p) { … }`: refill from `alloc_phy_page` until the list has a hole. The result is the
    chosen hole, or none when `alloc_phy_page` returned 0, with the answers not yet used. -/
def refillPhyPageSmall (size : Nat) : HolePool → List Nat →
    Except Fault (Option Nat × HolePool × List Nat)
  | s, [] => .ok (none, s.spinUnlock, [])
  | s, newaddr :: pages =>
      if newaddr = 0 then .ok (none, s.spinUnlock, pages)
      else do
        let s ← freePhyPageSmall s.spinUnlock newaddr 0x200000
        let s := s.spinLock
        match firstFitOrLast phyPageHoles s size with
        | none => .error .hang
        | some (some p) => .ok (some p, s, pages)
        | some none => refillPhyPageSmall size s pages

/-- Returns the address of the block, or 0. -/
def allocPhyPageSmall (s : HolePool) (pages : List Nat) (size : Nat) :
    Except Fault (Nat × HolePool × List Nat) := do
  let size := roundUp 0x1000 size
  let s := s.spinLock
  let (p, s, pages) ←
    match firstFit phyPageHoles s size with
    | none => .error .hang
    | some (some p) => .ok (some p, s, pages)
    | some none => refillPhyPageSmall size s pages
  match p with
  | none => .ok (0, s, pages)
  | some p => do
      let (pret, s) ← carveHole phyPageHoles 0 s p size
      .ok (pret, s.spinUnlock, pages)

end Yaos
