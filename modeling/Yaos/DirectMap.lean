import Yaos.Lib.Word
import Yaos.Fault

set_option autoImplicit false

/-! # Physical memory in the kernel's address space (`asm/pgtable.h`)

All of physical memory is mapped from `PHYS_VIRT_START` on, and its first gigabytes once more from
`KERNEL_BASE`. Converting a direct-map address back to a physical one asserts that it lies in the
window; the other conversions are plain additions. -/

namespace Yaos

open Word

/-- Where the kernel image is mapped. -/
def kernelBase : Nat := 0xffffffff80000000

/-- `P2K`. -/
def P2K (addr : Nat) : Nat := wadd addr kernelBase

/-- `K2P`. -/
def K2P (addr : Nat) : Nat := wsub addr kernelBase

/-- `PHYS_VIRT_START`: where the direct map starts. -/
def physVirtStart : Nat := 0xffff820000000000

/-- `VMALLOC_START - (1ul<<40) - 1`. -/
def physVirtEnd : Nat := 0xffffc7ffffffffff

/-- `P2V`. -/
def P2V (addr : Nat) : Nat := wadd addr physVirtStart

/-- `V2P`, with its assertion. -/
def V2P (addr : Nat) : Except Fault Nat := do
  assert "addr <= PHYS_VIRT_END && addr >=PHYS_VIRT_START"
    (addr ≤ physVirtEnd ∧ physVirtStart ≤ addr)
  .ok (wsub addr physVirtStart)

theorem V2P_eq {addr : Nat} (h : physVirtStart ≤ addr ∧ addr ≤ physVirtEnd) :
    V2P addr = .ok (addr - physVirtStart) := by
  rw [V2P, assert_pos ⟨h.2, h.1⟩, wsub_eq h.1 (by unfold physVirtEnd at h; omega)]
  rfl

end Yaos
