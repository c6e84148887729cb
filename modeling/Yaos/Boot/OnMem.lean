import Yaos.DirectMap

set_option autoImplicit false

/-! # Donation of RAM at boot (`on_mem` in `arch/x86_64/multiboot.c`)

`on_mem` splits a range of usable RAM among three free stores: whole 2 MiB pages go to the bitmap
(`free_phy_pages`), 4 KiB frames to the small frame store (`free_phy_page_small`), and what is not a
whole frame to the small kernel heap (`free_kheap_small`).

What a call hands over is a list of ranges, in order, together with the failed assertion that
stopped it, if any. A store is represented here by what it is given and by its own argument checks;
that the stores keep what they are given is the subject of the `Alloc` modules. -/

namespace Yaos

open Word

/-- `__max_phy_addr` and `__max_phy_mem_addr`. The boot loop raises the first for every entry of the
    memory map and the second for the usable entries only. -/
structure PhyLimits where
  maxPhyAddr : Nat
  maxPhyMemAddr : Nat
  mem_le : maxPhyMemAddr ≤ maxPhyAddr

/-- The stores that memory is given to. -/
inductive FreeStore
  | phyPages
  | phyPageSmall
  | kheapSmall
deriving DecidableEq, Repr

/-- A range of physical addresses handed to a store. -/
structure Donation where
  store : FreeStore
  addr : Nat
  size : Nat
deriving DecidableEq, Repr

/-- What was handed over, and why the call did not return. -/
structure Donated where
  handed : List Donation
  fault : Option Fault
deriving DecidableEq, Repr

namespace Donated

/-- No memory is given. -/
def nothing : Donated := ⟨[], none⟩

/-- `a; b`: what follows a fault is never reached. -/
def andThen (a b : Donated) : Donated :=
  match a.fault with
  | some _ => a
  | none => ⟨a.handed ++ b.handed, b.fault⟩

/-- `ASSERT(c); b`. -/
def assert (text : String) (c : Prop) [Decidable c] (b : Donated) : Donated :=
  if c then b else ⟨[], some (.assertion text)⟩

/-- The heap is given kernel addresses; the donation is the physical range behind them. -/
def freeKheapSmall (addr size : Nat) : Donated :=
  .assert "(addr & 0xfff) == 0 && (size & 0xfff) == 0" (addr % 0x1000 = 0 ∧ size % 0x1000 = 0)
    ⟨[⟨.kheapSmall, K2P addr, size⟩], none⟩

/-- `free_phy_page_small`. -/
def freePhyPageSmall (addr size : Nat) : Donated :=
  .assert "(addr & 0xfff) == 0 && (size & 0xfff) == 0" (addr % 0x1000 = 0 ∧ size % 0x1000 = 0)
    ⟨[⟨.phyPageSmall, addr, size⟩], none⟩

/-- The bitmap never takes the page at 0: the loop that sets the bits is skipped altogether. -/
def freePhyPages (l : PhyLimits) (addr size : Nat) : Donated :=
  .assert "addr<__max_phy_mem_addr" (addr < l.maxPhyMemAddr) <|
    if addr ≠ 0 then
      .assert "(addr & (PAGE_SIZE_LARGE - 1)) == 0 && addr < __max_phy_addr"
        (addr % 0x200000 = 0 ∧ addr < l.maxPhyAddr) <|
      .assert "(size & (PAGE_SIZE_LARGE - 1)) == 0" (size % 0x200000 = 0)
        ⟨[⟨.phyPages, addr, size⟩], none⟩
    else .nothing

end Donated

/-- `if (addr + size < __max_phy_mem_addr) free_phy_page_small(addr, size);` -/
def giveBelowMax (l : PhyLimits) (addr size : Nat) : Donated :=
  if wadd addr size < l.maxPhyMemAddr then .freePhyPageSmall addr size else .nothing

/-- `on_mem`. Each recursive call starts at a higher alignment, so two levels of calls below the
    first are all there can be; `fuel` bounds them. -/
def onMemAux (l : PhyLimits) : Nat → Nat → Nat → Donated
  | 0, _, _ => ⟨[], some .hang⟩
  | fuel + 1, addr, size =>
      let low4k := addr % 0x1000
      if low4k ≠ 0 then
        let low4ksize := 0x1000 - low4k
        let head : Donated :=
          if size ≤ low4ksize then
            if wadd addr size < l.maxPhyMemAddr then .freeKheapSmall (P2K addr) size else .nothing
          else .nothing
        -- the branch does not return: the piece is given once more, up to the page boundary
        head.andThen <| (Donated.freeKheapSmall (P2K addr) low4ksize).andThen <|
          onMemAux l fuel (wadd addr low4ksize) (wsub size low4ksize)
      else
        let size := alignDown 0x1000 size
        if size = 0 then .nothing
        else if size < 0x200000 then giveBelowMax l addr size
        else
          let low := addr % 0x200000
          if low ≠ 0 then
            let lowsize := 0x200000 - low
            if size ≤ lowsize then giveBelowMax l addr size
            else
              -- the piece below the boundary is given with the size of what is left, not with `lowsize`
              let size := wsub size lowsize
              (giveBelowMax l addr size).andThen (onMemAux l fuel (wadd addr lowsize) size)
          else
            let npg := size / 0x200000
            (Donated.freePhyPages l addr (npg * 0x200000)).andThen <|
              let size := size % 0x200000
              let addr := wadd addr (npg * 0x200000)
              if size = 0 then .nothing else giveBelowMax l addr size

/-- `on_mem`. -/
def onMem (l : PhyLimits) (addr size : Nat) : Donated := onMemAux l 3 addr size

end Yaos
