import Yaos.Lib.ByteMemory

set_option autoImplicit false

/-! # The boot loader (`bootloader/bootmain.c`)

It runs in 32-bit mode without paging. `disk` has the bytes of the two drives of the first channel; waiting
for the disk is left out. -/

namespace Yaos.Boot

open ByteMemory

section Disk

variable (disk : Bool → Nat → BitVec 8)

/-- What the drive sends for the command 0x20, by the registers 0x1F3 to 0x1F6: the sector is a number of
28 bits, and bit 4 of the last register chooses the drive. -/
def sector (r3 r4 r5 r6 : BitVec 8) : List (BitVec 8) :=
  let lba := r3.toNat + 2 ^ 8 * r4.toNat + 2 ^ 16 * r5.toNat + 2 ^ 24 * (r6 &&& 0xf).toNat
  (List.range 512).map fun i => disk (r6.getLsbD 4) (512 * lba + i)

/-- `readsect`. -/
def readsect (m : Mem 32) (dst offset : BitVec 32) : Mem 32 :=
  poke m dst (sector disk (offset.setWidth 8) ((offset >>> 8).setWidth 8) ((offset >>> 16).setWidth 8)
    ((offset >>> 24 ||| 0xE0).setWidth 8))

/-- The loop of `readseg`. It is `none` when it has not ended after as many rounds. -/
def readsegLoop : Nat → Mem 32 → BitVec 32 → BitVec 32 → BitVec 32 → Option (Mem 32)
  | 0, _, _, _, _ => none
  | rounds + 1, m, pa, epa, offset =>
    if pa < epa then readsegLoop rounds (readsect disk m pa offset) (pa + 512) epa (offset + 1)
    else some m

/-- `readseg`. It writes whole sectors. -/
def readseg (rounds : Nat) (m : Mem 32) (pa count offset : BitVec 32) : Option (Mem 32) :=
  let epa := pa + count
  let pa := pa - offset % 512
  let offset := offset / 512 + 1
  readsegLoop disk rounds m pa epa offset

/-- `struct mbheader` -/
structure MbHeader where
  magic : BitVec 32
  flags : BitVec 32
  checksum : BitVec 32
  headerAddr : BitVec 32
  loadAddr : BitVec 32
  loadEndAddr : BitVec 32
  bssEndAddr : BitVec 32
  entryAddr : BitVec 32
deriving DecidableEq

/-- The header at `a`. -/
def mbheader (m : Mem 32) (a : BitVec 32) : MbHeader where
  magic := load 4 m a
  flags := load 4 m (a + 4)
  checksum := load 4 m (a + 8)
  headerAddr := load 4 m (a + 12)
  loadAddr := load 4 m (a + 16)
  loadEndAddr := load 4 m (a + 20)
  bssEndAddr := load 4 m (a + 24)
  entryAddr := load 4 m (a + 28)

/-- `x`, the scratch space -/
def scratch : BitVec 32 := 0x100000

/-- `x[n] == 0x1BADB002` and the sum of three words is 0. -/
def isHeader (m : Mem 32) (x : BitVec 32) (n : Nat) : Bool :=
  let h := mbheader m (off x (4 * n))
  h.magic == 0x1BADB002 && h.magic + h.flags + h.checksum == 0

end Disk

end Yaos.Boot
