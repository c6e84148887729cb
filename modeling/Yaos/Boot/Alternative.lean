import Yaos.Lib.ByteMemory

set_option autoImplicit false

/-! # Alternative instructions (`arch/x86_64/alternative.c`)

`apply_alternatives` reads the table in memory and patches the code in memory. `insnbuf` is a memory of its
own, with what the stack has left in it. The debug output is left out. -/

namespace Yaos

open ByteMemory

/-- A byte of code. -/
abbrev Byte := BitVec 8

namespace Alternative

/-- `struct alt_instr` (packed) -/
structure AltInstr where
  instrOffset : BitVec 32
  replOffset : BitVec 32
  cpuid : BitVec 16
  instrlen : BitVec 8
  replacementlen : BitVec 8
  padlen : BitVec 32
deriving DecidableEq

/-- `*a` -/
def altInstr (m : Mem 64) (a : BitVec 64) : AltInstr where
  instrOffset := load 4 m a
  replOffset := load 4 m (a + 4)
  cpuid := load 2 m (a + 8)
  instrlen := load 1 m (a + 10)
  replacementlen := load 1 m (a + 11)
  padlen := load 4 m (a + 12)

/-- The size of an `alt_instr`. -/
def sizeofAltInstr : Nat := 16

/-- `sizeof(insnbuf)` -/
def maxPatchLen : Nat := 255 - 1

/-- `(NCAPINTS + NBUGINTS) * 32` -/
def nCpuBits : Nat := (19 + 1) * 32

/-- `ASM_NOP_MAX`: the longest instruction that does nothing. -/
def asmNopMax : Nat := 8

/-- `ideal_nops`, which is `p6_nops` -/
def idealNops : Nat → List Byte
  | 1 => [0x90]
  | 2 => [0x66, 0x90]
  | 3 => [0x0f, 0x1f, 0x00]
  | 4 => [0x0f, 0x1f, 0x40, 0]
  | 5 => [0x0f, 0x1f, 0x44, 0x00, 0]
  | 6 => [0x66, 0x0f, 0x1f, 0x44, 0x00, 0]
  | 7 => [0x0f, 0x1f, 0x80, 0, 0, 0, 0]
  | 8 => [0x0f, 0x1f, 0x84, 0x00, 0, 0, 0, 0]
  | _ => []

/-- `add_nops`. -/
def addNops {w : Nat} (m : Mem w) (insns : BitVec w) (len : Nat) : Mem w :=
  if 0 < len then
    let noplen := min len asmNopMax
    addNops (poke m insns (idealNops noplen)) (off insns noplen) (len - noplen)
  else m
termination_by len
decreasing_by
  rename_i h
  have hmin : 0 < min len asmNopMax := Nat.lt_min.2 ⟨h, by decide⟩
  omega

/-- `is_jmp`. -/
def isJmp (opcode : Byte) : Bool := opcode == 0xeb || opcode == 0xe9

/-- The choice between the labels `two_byte_jmp` and `five_byte_jmp` in `recompute_jump`. -/
def twoByteJmp (origInsn tgtRip : BitVec 64) : Bool :=
  let nDspl : BitVec 32 := (tgtRip - origInsn).setWidth 32
  if 0 ≤ (tgtRip - origInsn).toInt then (nDspl - 2).sle 127
  else (nDspl - 2) &&& 0xff == nDspl - 2

/-- `recompute_jump`: the target stays while the instruction moves. -/
def recomputeJump (a : AltInstr) (origInsn replInsn : BitVec 64) (insnbuf : Mem 8) : Mem 8 :=
  if a.replacementlen ≠ 5 then insnbuf
  else
    let oDspl : BitVec 32 := load 4 insnbuf 1
    let nextRip := replInsn + a.replacementlen.setWidth 64
    let tgtRip := nextRip + oDspl.signExtend 64
    let nDspl : BitVec 32 := (tgtRip - origInsn).setWidth 32
    if twoByteJmp origInsn tgtRip then
      addNops (poke insnbuf 0 [0xeb, (nDspl - 2).setWidth 8]) 2 3
    else store 4 (poke insnbuf 0 [0xe9]) 1 (nDspl - 5)

/-- The part of a round that copies the replacement to `insnbuf` and moves its target. -/
def copyReplacement (m : Mem 64) (a : AltInstr) (instr replacement : BitVec 64) (insnbuf : Mem 8) :
    Mem 8 :=
  let replacementlen := a.replacementlen.toNat
  let insnbuf := poke insnbuf 0 (bytes m replacement replacementlen)
  let insnbuf :=
    if insnbuf 0 = 0xe8 ∧ replacementlen = 5 then
      store 4 insnbuf 1 (load 4 insnbuf 1 + (replacement - instr).setWidth (8 * 4))
    else insnbuf
  if replacementlen ≠ 0 ∧ isJmp (m replacement) then recomputeJump a instr replacement insnbuf
  else insnbuf

/-- One round of the loop in `apply_alternatives`, with the memory and `insnbuf`. It is `none` where an
assertion fails. No feature of the processor is looked at. -/
def applyOne (m : Mem 64) (insnbuf : Mem 8) (p : BitVec 64) : Option (Mem 64 × Mem 8) :=
  let a := altInstr m p
  let instr := p + a.instrOffset.signExtend 64
  let replacement := p + 4 + a.replOffset.signExtend 64
  let instrlen := a.instrlen.toNat
  let replacementlen := a.replacementlen.toNat
  if maxPatchLen < instrlen then none
  else if nCpuBits ≤ a.cpuid.toNat then none
  else
    let insnbuf := copyReplacement m a instr replacement insnbuf
    let insnbufSz := replacementlen + (instrlen - replacementlen)
    let insnbuf :=
      if replacementlen < instrlen then
        addNops insnbuf (BitVec.ofNat 8 replacementlen) (instrlen - replacementlen)
      else insnbuf
    some (poke m instr (bytes insnbuf 0 insnbufSz), insnbuf)

/-- `apply_alternatives` for a table of `n` entries at `p`. -/
def applyAlternatives : Nat → Mem 64 → Mem 8 → BitVec 64 → Option (Mem 64 × Mem 8)
  | 0, m, insnbuf, _ => some (m, insnbuf)
  | n + 1, m, insnbuf, p => do
    let (m, insnbuf) ← applyOne m insnbuf p
    applyAlternatives n m insnbuf (off p sizeofAltInstr)

end Alternative

end Yaos
