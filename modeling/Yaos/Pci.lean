import Mathlib.Data.BitVec
import Mathlib.Logic.Function.Basic
import Yaos.Fault

set_option autoImplicit false

/-! # PCI devices (`asm/pci.h`, `drivers/pci.c`, `libs/libpci`)

A function of a device has 64 configuration registers. `init_pci` lists the functions of all buses, and
`pci_device_parse_config` reads what a driver needs from the registers of one of them: the ids, where the
MSI-X or MSI registers are, and the base address registers. The size of a base address is found by writing
ones to it. -/

namespace Yaos.Pci

/-! ## Registers -/

/-- A register and its writable bits. -/
structure Reg where
  val : BitVec 32
  mask : BitVec 32
deriving DecidableEq

/-- A write to the bits `en`. -/
def Reg.write (r : Reg) (en v : BitVec 32) : Reg :=
  { r with val := (v &&& (r.mask &&& en)) ||| (r.val &&& ~~~(r.mask &&& en)) }

/-- The registers of a function. -/
abbrev Config := BitVec 6 → Reg

/-- The bits of the bytes from `offset` on, as many as `w` has. -/
def lanes (w : BitVec 32) (offset : BitVec 8) : BitVec 32 := w <<< (8 * (offset &&& 3).toNat)

namespace Config

variable (c : Config)

/-- The register that holds the byte at `offset`. -/
def index (offset : BitVec 8) : BitVec 6 := offset.extractLsb' 2 6

/-- A register is read. -/
def readl (offset : BitVec 8) : BitVec 32 := (c (index offset)).val

/-- 16 bits of a register are read. -/
def readw (offset : BitVec 8) : BitVec 16 := (c.readl offset >>> (8 * (offset &&& 2).toNat)).setWidth 16

/-- 8 bits of a register are read. -/
def readb (offset : BitVec 8) : BitVec 8 := (c.readl offset >>> (8 * (offset &&& 3).toNat)).setWidth 8

/-- The bits in `en` of a register are written. -/
def write (offset : BitVec 8) (en v : BitVec 32) : Config :=
  Function.update c (index offset) ((c (index offset)).write en v)

/-- A register is written. -/
def writel (offset : BitVec 8) (v : BitVec 32) : Config := c.write offset 0xffffffff v

/-- 16 bits of a register are written. -/
def writew (offset : BitVec 8) (v : BitVec 16) : Config :=
  c.write offset (lanes 0xffff (offset &&& 2)) (lanes (v.setWidth 32) (offset &&& 2))

end Config

/-! ## The ports -/

/-- The host bridge: the register at the port 0xCF8, and the functions by bus, slot and function. -/
structure Host where
  address : BitVec 32
  functions : BitVec 8 → BitVec 5 → BitVec 3 → Option Config

namespace Host

variable (h : Host)

/-- The function that the address register selects. -/
def selected : Option Config :=
  if h.address.getLsbD 31 then
    h.functions (h.address.extractLsb' 16 8) (h.address.extractLsb' 11 5) (h.address.extractLsb' 8 3)
  else none

/-- The offset in its configuration space that the address register selects. -/
def offset : BitVec 8 := h.address.setWidth 8 &&& ~~~3

/-- Where there is no function the answer is all ones. -/
def inl : BitVec 32 :=
  match h.selected with
  | none => 0xffffffff
  | some c => c.readl h.offset

/-- At `PCI_CONFIG_DATA + k`. -/
def inw (k : BitVec 8) : BitVec 16 := (h.inl >>> (8 * k.toNat)).setWidth 16

/-- 8 bits are read from the data port. -/
def inb (k : BitVec 8) : BitVec 8 := (h.inl >>> (8 * k.toNat)).setWidth 8

/-- A write of the bits `en` to `PCI_CONFIG_DATA`. -/
def out (en v : BitVec 32) : Host :=
  match h.selected with
  | none => h
  | some c =>
    let bus := h.address.extractLsb' 16 8
    let slot := h.address.extractLsb' 11 5
    let func := h.address.extractLsb' 8 3
    { h with
      functions := fun b s f =>
        if b = bus ∧ s = slot ∧ f = func then some (c.write h.offset en v) else h.functions b s f }

end Host

section Access

variable (bus slot func offset : BitVec 8)

/-- `build_config_address`. -/
def buildConfigAddress : BitVec 32 :=
  bus.setWidth 32 <<< 16 ||| slot.setWidth 32 <<< 11 ||| func.setWidth 32 <<< 8 |||
    (offset.setWidth 32 &&& ~~~3)

/-- `prepare_pci_config_access`. -/
def preparePciConfigAccess (h : Host) : Host :=
  { h with address := 0x80000000 ||| buildConfigAddress bus slot func offset }

/-- `read_pci_config`. -/
def readPciConfig (h : Host) : BitVec 32 × Host :=
  let h := preparePciConfigAccess bus slot func offset h
  (h.inl, h)

/-- `read_pci_config_word`. -/
def readPciConfigWord (h : Host) : BitVec 16 × Host :=
  let h := preparePciConfigAccess bus slot func offset h
  (h.inw (offset &&& 2), h)

/-- `read_pci_config_byte`. -/
def readPciConfigByte (h : Host) : BitVec 8 × Host :=
  let h := preparePciConfigAccess bus slot func offset h
  (h.inb (offset &&& 3), h)

end Access

/-! ## The functions of all buses -/

/-- `struct pci_bsf` -/
structure PciBsf where
  vid : BitVec 16
  did : BitVec 16
  b : BitVec 8
  s : BitVec 8
  f : BitVec 8
deriving DecidableEq

/-- `MAX_PCI` -/
def maxPci : Nat := 128

/-- The table `pci_bsf` and the bridge. -/
abbrev Scan := List PciBsf × Host

/-- The body of the loops of `init_pci`. It is `none` when the entry is written behind the table. -/
def initPciFunction (b s f : Nat) : Scan → Option Scan := fun (table, h) =>
  let b := BitVec.ofNat 8 b
  let s := BitVec.ofNat 8 s
  let f := BitVec.ofNat 8 f
  let (vid, h) := readPciConfigWord b s f 0 h
  let (did, h) := readPciConfigWord b s f 2 h
  if vid ≠ 0xffff then
    if table.length < maxPci then some (table ++ [{ vid, did, b, s, f }], h) else none
  else some (table, h)

/-- `init_pci`: each function of each slot of each bus. -/
def initPci (h : Host) : Option Scan :=
  (List.range 256).foldlM (fun scan b => (List.range 32).foldlM (fun scan s =>
    (List.range 8).foldlM (fun scan f => initPciFunction b s f scan) scan) scan) ([], h)

/-- `find_pci`, with the `_bus`, the `_device` and the `_func` that it stores. -/
def findPci (table : List PciBsf) (vendorId deviceId : BitVec 16) :
    Option (BitVec 8 × BitVec 8 × BitVec 8) :=
  (table.find? fun e => e.vid == vendorId && e.did == deviceId).map fun e => (e.b, e.s, e.f)

end Yaos.Pci
