import Yaos.Lib.ByteMemory

set_option autoImplicit false

/-! # `memmove` (`arch/x86_64/lib/memmove_64.S`)

Each label of the assembly is a definition, and each instruction a binding under the name of the register
that it writes. A narrow load leaves the rest of its register as it was, or zero; nothing reads that. -/

namespace Yaos

open ByteMemory

/-- `rep movsq` with `rcx` = `n`, upwards, with the memory, `rdi` and `rsi` after it. -/
def repMovsq : Nat → Mem 64 → BitVec 64 → BitVec 64 → Mem 64
  | 0, m, _, _ => m
  | n + 1, m, rdi, rsi => repMovsq n (store 8 m rdi (load 8 m rsi)) (rdi + 8) (rsi + 8)

/-- `rep movsq` after `std`. -/
def repMovsqDown : Nat → Mem 64 → BitVec 64 → BitVec 64 → Mem 64
  | 0, m, _, _ => m
  | n + 1, m, rdi, rsi => repMovsqDown n (store 8 m rdi (load 8 m rsi)) (rdi - 8) (rsi - 8)

/-- `rep movsb`. -/
def repMovsb : Nat → Mem 64 → BitVec 64 → BitVec 64 → Mem 64
  | 0, m, _, _ => m
  | n + 1, m, rdi, rsi => repMovsb n (store 1 m rdi (load 1 m rsi)) (rdi + 1) (rsi + 1)

namespace Memmove

/-- The label `1`. -/
def tail (m : Mem 64) (rdi rsi rdx : BitVec 64) : Mem 64 :=
  if 16 ≤ rdx then
    let r11 := load 8 m rsi
    let r10 := load 8 m (rsi + 8)
    let r9 := load 8 m (rsi + rdx - 16)
    let r8 := load 8 m (rsi + rdx - 8)
    let m := store 8 m rdi r11
    let m := store 8 m (rdi + 8) r10
    let m := store 8 m (rdi + rdx - 16) r9
    store 8 m (rdi + rdx - 8) r8
  else if 8 ≤ rdx then
    let r11 := load 8 m rsi
    let r10 := load 8 m (rsi + rdx - 8)
    let m := store 8 m rdi r11
    store 8 m (rdi + rdx - 8) r10
  else if 4 ≤ rdx then
    let r11d := load 4 m rsi
    let r10d := load 4 m (rsi + rdx - 4)
    let m := store 4 m rdi r11d
    store 4 m (rdi + rdx - 4) r10d
  else if 2 ≤ rdx then
    let r11w := load 2 m rsi
    let r10w := load 2 m (rsi + rdx - 2)
    let m := store 2 m rdi r11w
    store 2 m (rdi + rdx - 2) r10w
  else if 1 ≤ rdx then
    let r11b := load 1 m rsi
    store 1 m rdi r11b
  else m

/-- The label `5`, with `rdx` before the subtraction: 32 bytes upwards, until there is a borrow. -/
def loop5 (m : Mem 64) (rdi rsi rdx : BitVec 64) : Mem 64 × BitVec 64 × BitVec 64 × BitVec 64 :=
  let r11 := load 8 m rsi
  let r10 := load 8 m (rsi + 8)
  let r9 := load 8 m (rsi + 16)
  let r8 := load 8 m (rsi + 24)
  let m := store 8 m rdi r11
  let m := store 8 m (rdi + 8) r10
  let m := store 8 m (rdi + 16) r9
  let m := store 8 m (rdi + 24) r8
  if 0x20 ≤ rdx then loop5 m (rdi + 32) (rsi + 32) (rdx - 0x20)
  else (m, rdi + 32, rsi + 32, rdx - 0x20)
termination_by rdx.toNat
decreasing_by
  rename_i h
  have hle : 32 ≤ rdx.toNat := h
  rw [BitVec.toNat_sub_of_le h]
  show rdx.toNat - 32 < rdx.toNat
  omega

/-- The label `8`: 32 bytes downwards. -/
def loop8 (m : Mem 64) (rdi rsi rdx : BitVec 64) : Mem 64 × BitVec 64 × BitVec 64 × BitVec 64 :=
  let r11 := load 8 m (rsi - 8)
  let r10 := load 8 m (rsi - 16)
  let r9 := load 8 m (rsi - 24)
  let r8 := load 8 m (rsi - 32)
  let m := store 8 m (rdi - 8) r11
  let m := store 8 m (rdi - 16) r10
  let m := store 8 m (rdi - 24) r9
  let m := store 8 m (rdi - 32) r8
  if 0x20 ≤ rdx then loop8 m (rdi - 32) (rsi - 32) (rdx - 0x20)
  else (m, rdi - 32, rsi - 32, rdx - 0x20)
termination_by rdx.toNat
decreasing_by
  rename_i h
  have hle : 32 ≤ rdx.toNat := h
  rw [BitVec.toNat_sub_of_le h]
  show rdx.toNat - 32 < rdx.toNat
  omega

/-- The label `3`. -/
def forward (m : Mem 64) (rdi rsi rdx : BitVec 64) : Mem 64 :=
  let (m, rdi, rsi, rdx) := loop5 m rdi rsi (rdx - 0x20)
  tail m rdi rsi (rdx + 0x20)

/-- The label `4`. -/
def forwardMovsq (m : Mem 64) (rdi rsi rdx : BitVec 64) : Mem 64 :=
  let r11 := load 8 m (rsi + rdx - 8)
  let r10 := rdi + rdx - 8
  let m := repMovsq (rdx >>> 3).toNat m rdi rsi
  store 8 m r10 r11

/-- The label `7`. -/
def backwardMovsq (m : Mem 64) (rdi rsi rdx : BitVec 64) : Mem 64 :=
  let r11 := load 8 m rsi
  let r10 := rdi
  let m := repMovsqDown (rdx >>> 3).toNat m (rdi + rdx - 8) (rsi + rdx - 8)
  store 8 m r10 r11

/-- The label `6`. -/
def backward (m : Mem 64) (rdi rsi rdx : BitVec 64) : Mem 64 :=
  let (m, rdi, rsi, rdx) := loop8 m (rdi + rdx) (rsi + rdx) (rdx - 0x20)
  let rdx := rdx + 0x20
  tail m (rdi - rdx) (rsi - rdx) rdx

/-- `cmpb %dil, %sil; je` -/
def sameLowByte (rdi rsi : BitVec 64) : Bool := rsi.setWidth 8 == rdi.setWidth 8

/-- The label `.Lmemmove_begin_forward`. With the feature `ERMS` its first instructions are replaced. -/
def beginForward (erms : Bool) (m : Mem 64) (rdi rsi rdx : BitVec 64) : Mem 64 :=
  if erms then repMovsb rdx.toNat m rdi rsi
  else if rdx < 680 then forward m rdi rsi rdx
  else if sameLowByte rdi rsi then forwardMovsq m rdi rsi rdx
  else forward m rdi rsi rdx

/-- The label `2`. -/
def beginBackward (m : Mem 64) (rdi rsi rdx : BitVec 64) : Mem 64 :=
  if rdx < 680 then backward m rdi rsi rdx
  else if sameLowByte rdi rsi then backwardMovsq m rdi rsi rdx
  else backward m rdi rsi rdx

end Memmove

/-- `memmove(rdi, rsi, rdx)`, with the memory and `rax` after it. The comparisons of addresses are signed. -/
def memmove (erms : Bool) (m : Mem 64) (rdi rsi rdx : BitVec 64) : Mem 64 × BitVec 64 :=
  let rax := rdi
  if rdx < 0x20 then (Memmove.tail m rdi rsi rdx, rax)
  else if rdi.sle rsi then (Memmove.beginForward erms m rdi rsi rdx, rax)
  else
    let r8 := rsi + rdx
    if rdi.slt r8 then (Memmove.beginBackward m rdi rsi rdx, rax)
    else (Memmove.beginForward erms m rdi rsi rdx, rax)

end Yaos
