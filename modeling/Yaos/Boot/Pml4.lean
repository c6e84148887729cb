import Yaos.PageTable

set_option autoImplicit false

/-! # The page tables made at boot (`init_pml4` in `arch/x86_64/pgtable.c`)

Three passes over the tables. The first maps all of RAM from `PHYS_VIRT_START` on with 1 GiB pages, as
far as the PDP `first_pdp` goes; its first four entries are then replaced by page directories that are
part of the kernel image, as are the two below `KERNEL_BASE`. The last pass maps RAM above 1 GiB once
more, in 2 MiB pages, with `map_page_p2v`.

The static tables are named by their frames, `K2P` of their addresses. Reloading `cr3` and the output of
`printk` have no effect on the tables. -/

namespace Yaos

open Word TableTree

/-- The frames of the static tables besides `pml4`. -/
structure BootTables where
  firstPdp : Nat
  secondPdp : Nat
  firstPd : Nat
  secondPd : Nat
  thirdPd : Nat
  fourthPd : Nat
  phyFirstPd : Nat
  phySecondPd : Nat
  phyThirdPd : Nat
  phyFourthPd : Nat

/-- `table.entry[n] = e` for a static table. -/
def PgTables.setStatic (s : PgTables) (f : Nat) (n : Fin 512) (e : Nat) : PgTables :=
  { s with frames := setEntry s.frames f n e }

/-- All entries of a static table: `memset`, or the loop over `i`. -/
def PgTables.fillStatic (s : PgTables) (f : Nat) (v : Fin 512 → Nat) : PgTables :=
  { s with frames := Function.update s.frames f v }

/-- An `int` widened to 64 bits. -/
def signExtend (x : Nat) : Nat :=
  if x % 2 ^ 32 < 2 ^ 31 then x % 2 ^ 32 else x % 2 ^ 32 + (2 ^ 64 - 2 ^ 32)

/-- `(i + k * PD_PER_PTE) * PAGE_SIZE_LARGE | PTE_PS | PTE_W | PTE_P`. All of it is an `int`, so that it
    is negative from 2 GiB on. -/
def bootPde (k : Nat) (i : Fin 512) : Nat :=
  signExtend ((i + k * 512) * 0x200000 ||| ptePS ||| pteW ||| pteP)

/-- `while (len < __max_phy_mem_addr) { … }`. -/
def mapGigabytes (t : BootTables) (maxPhyMemAddr : Nat) :
    Nat → Nat → Nat → PgTables → Except Fault PgTables
  | 0, _, _, _ => .error .hang
  | fuel + 1, len, vaddr, s =>
      if len < maxPhyMemAddr then
        -- `break` at the first entry of the PML4 that is empty
        if s.frames s.pml4 (tableIndex pml4Shift vaddr) = 0 then .ok s
        else do
          let paddr ← V2P vaddr
          mapGigabytes t maxPhyMemAddr fuel (wadd len 0x40000000) (wadd vaddr 0x40000000)
            (s.setStatic t.firstPdp (tableIndex pdpShift vaddr) (paddr ||| pteP ||| pteW ||| ptePS))
      else .ok s

/-- The four page directories in place of the first 1 GiB pages. -/
def linkPhyPds (t : BootTables) (s : PgTables) : PgTables :=
  let idx : Nat := tableIndex pdpShift physVirtStart
  let s := s.setStatic t.firstPdp (Fin.ofNat 512 idx) (t.phyFirstPd ||| pteP ||| pteW)
  let s := if idx < 512 - 1 then
      s.setStatic t.firstPdp (Fin.ofNat 512 (idx + 1)) (t.phySecondPd ||| pteP ||| pteW)
    else s
  let s := if idx + 1 < 512 - 1 then
      s.setStatic t.firstPdp (Fin.ofNat 512 (idx + 2)) (t.phyThirdPd ||| pteP ||| pteW)
    else s
  if idx + 2 < 512 - 1 then
    s.setStatic t.firstPdp (Fin.ofNat 512 (idx + 3)) (t.phyFourthPd ||| pteP ||| pteW)
  else s

/-- `KERNEL_BASE`: 1 GiB or 2 GiB. -/
def linkKernelPds (t : BootTables) (s : PgTables) : PgTables :=
  let s := s.setStatic s.pml4 (tableIndex pml4Shift kernelBase) (t.secondPdp ||| pteP ||| pteW)
  let idx : Nat := tableIndex pdpShift kernelBase
  let s := s.setStatic t.secondPdp (Fin.ofNat 512 idx) (t.firstPd ||| pteP ||| pteW)
  if idx < 512 - 1 then
    s.setStatic t.secondPdp (Fin.ofNat 512 (idx + 1)) (t.secondPd ||| pteP ||| pteW)
  else s

/-- `for (int i = 0; i < PD_PER_PTE; i++) { … }`. -/
def fillPds (t : BootTables) (s : PgTables) : PgTables :=
  ((((((((s.fillStatic t.firstPd (bootPde 0)).fillStatic t.secondPd (bootPde 1)).fillStatic
    t.thirdPd (bootPde 2)).fillStatic t.fourthPd (bootPde 3)).fillStatic t.phyFirstPd
    (bootPde 0)).fillStatic t.phySecondPd (bootPde 1)).fillStatic t.phyThirdPd
    (bootPde 2)).fillStatic t.phyFourthPd (bootPde 3))

/-- `for (; addr < __max_phy_mem_addr; addr += PAGE_SIZE_LARGE) { … }`. -/
def mapDirect (maxPhyMemAddr : Nat) : Nat → Nat → PgTables → Except Fault PgTables
  | 0, _, _ => .error .hang
  | fuel + 1, addr, s =>
      if addr < maxPhyMemAddr then do
        let (ret, s) ← mapPageP2V s addr (P2V addr) (ptePS ||| pteP ||| pteW)
        if ret ≠ OK then .error (.panic "Not enough init heap memory!")
        else mapDirect maxPhyMemAddr fuel (wadd addr 0x200000) s
      else .ok s

/-- `init_pml4`. -/
def initPml4 (t : BootTables) (maxPhyMemAddr : Nat) (s : PgTables) : Except Fault PgTables := do
  let s := ((s.fillStatic s.pml4 fun _ => 0).fillStatic t.firstPdp fun _ => 0).fillStatic t.secondPdp
    fun _ => 0
  assert "(((ulong) & pml4) & 0xfff) == 0" (P2K s.pml4 % 0x1000 = 0)
  assert "(((ulong) & first_pdp) & 0xfff) == 0" (P2K t.firstPdp % 0x1000 = 0)
  assert "(((ulong) & first_pd) & 0xfff) == 0" (P2K t.firstPd % 0x1000 = 0)
  let s := s.setStatic s.pml4 (tableIndex pml4Shift physVirtStart) (t.firstPdp ||| pteP ||| pteW)
  let s ← mapGigabytes t maxPhyMemAddr (maxPhyMemAddr / 0x40000000 + 2) 0 physVirtStart s
  let s := fillPds t (linkKernelPds t (linkPhyPds t s))
  if maxPhyMemAddr > 0x200000 then
    mapDirect maxPhyMemAddr (maxPhyMemAddr / 0x200000 + 1) 0x40000000 s
  else .ok s

end Yaos
