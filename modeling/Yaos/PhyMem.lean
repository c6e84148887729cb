import Yaos.Lib.Bitmap
import Yaos.Lib.Word
import Yaos.Fault

set_option autoImplicit false

/-! # The bitmap of 2 MiB frames (`arch/x86_64/phymem.c`)

Bit `i` of `pgbits` is set when the frame at `i * 2 MiB` is free, and `pages` counts them. The search
for a free frame starts where the last one ended (`pnow`), goes up to `pmax` and then once round from
the start. `pmax` is the word that holds the last bits when the number of frames is no multiple of
64: the search does not get there from below.

The pointers `pnow` and `pmax` are indices into `pgbits`. Memory behind the bitmap is there, too,
with any contents: what keeps the search from leaving the bitmap has to be proved. The second bitmap
of the file, for 4 KiB frames, is not modelled; nor is the output of `printk`. -/

namespace Yaos

open Bitmap Word

/-- The bitmap of the 2 MiB pages, with its cursor and its counter. -/
structure PhyMem where
  pgbits : Nat → BitVec 64
  pnow : Nat
  pmax : Nat
  pages : Nat
  maxPhyAddr : Nat
  maxPhyMemAddr : Nat

/-- `memset(p, 0, size)`, word by word. -/
def clearBytes (p : Nat → BitVec 64) (size i : Nat) : BitVec 64 :=
  p i >>> (8 * min 8 (size - 8 * i)) <<< (8 * min 8 (size - 8 * i))

/-- `p` is the memory that `kalloc` returns. -/
def initPhyMem (maxPhyAddr maxPhyMemAddr : Nat) (p : Nat → BitVec 64) : PhyMem where
  pgbits := clearBytes p (maxPhyAddr / 0x200000 / 8 + 8)
  pnow := 0
  pmax := maxPhyAddr / 0x200000 / 64
  pages := 0
  maxPhyAddr := maxPhyAddr
  maxPhyMemAddr := maxPhyMemAddr

/-- `while (++pnow < stop) { if (*pnow) return pnow; }`, at most `turns` times: `pnow` at the end, and
    whether the loop returned. -/
def scanWords (w : Nat → BitVec 64) (stop : Nat) : Nat → Nat → Nat × Bool
  | 0, pnow => (pnow + 1, false)
  | turns + 1, pnow =>
      if pnow + 1 < stop then
        if w (pnow + 1) ≠ 0 then (pnow + 1, true) else scanWords w stop turns (pnow + 1)
      else (pnow + 1, false)

/-- `get_none_zero`: the next word with a free page, from `pnow` on and round. -/
def getNoneZero (s : PhyMem) : Option Nat × PhyMem :=
  if s.pgbits s.pnow ≠ 0 then (some s.pnow, s)
  else
    let pos := s.pnow
    let (pnow, found) := scanWords s.pgbits s.pmax (s.pmax - pos) pos
    if found then (some pnow, { s with pnow := pnow })
    else if s.pgbits 0 ≠ 0 then (some 0, { s with pnow := 0 })
    else
      let (pnow, found) := scanWords s.pgbits pos pos 0
      if found then (some pnow, { s with pnow := pnow }) else (none, { s with pnow := pnow })

/-- The text of `get_none_zero` and `get_none_zero_small`, for the bitmap `w` and the pointers `stop` and
    `pos`: the word found and the pointer at the end. -/
def searchWords (w : Nat → BitVec 64) (stop pos : Nat) : Option Nat × Nat :=
  if w pos ≠ 0 then (some pos, pos)
  else
    let (pnow, found) := scanWords w stop (stop - pos) pos
    if found then (some pnow, pnow)
    else if w 0 ≠ 0 then (some 0, 0)
    else
      let (pnow, found) := scanWords w pos pos 0
      if found then (some pnow, pnow) else (none, pnow)

/-- `while (pages) { … }`. A turn that goes round changes nothing but `pnow`, so two of them would
    never end. Returns the address of the frame, or 0. -/
def allocPhyPageLoop : Nat → PhyMem → Except Fault (Nat × PhyMem)
  | 0, _ => .error .hang
  | turns + 1, s =>
      if s.pages = 0 then .ok (0, s)
      else
        match getNoneZero s with
        | (none, s) => .ok (0, s)
        | (some p, s) =>
            if s.pgbits p = 0 then allocPhyPageLoop turns s
            else
              let pos := ffs (s.pgbits p)
              let nr := pos + p * 64
              -- `test_and_clear_bit`
              if bit s.pgbits nr then
                .ok (0x200000 * nr % 2 ^ 64,
                  { s with pgbits := clearBit s.pgbits nr, pages := wsub s.pages 1 })
              else allocPhyPageLoop turns s

/-- `alloc_phy_page`. -/
def allocPhyPage (s : PhyMem) : Except Fault (Nat × PhyMem) := allocPhyPageLoop 2 s

/-- `test_and_set_bit`, with the count. -/
def freeBit (pos : Nat) (s : PhyMem) : PhyMem :=
  if bit s.pgbits pos then s
  else { s with pgbits := setBit s.pgbits pos, pages := wadd s.pages 1 }

/-- `free_phy_one_page`. -/
def freePhyOnePage (s : PhyMem) (addr : Nat) : Except Fault PhyMem := do
  assert "addr<__max_phy_mem_addr" (addr < s.maxPhyMemAddr)
  if addr ≠ 0 then do
    assert "(addr & (PAGE_SIZE_LARGE - 1)) == 0 && addr < __max_phy_addr"
      (addr % 0x200000 = 0 ∧ addr < s.maxPhyAddr)
    .ok (freeBit (addr / 0x200000) s)
  else .ok s

/-- `while (size > 0) { … }` for `size` a multiple of 2 MiB. -/
def freeBits : Nat → Nat → PhyMem → PhyMem
  | 0, _, s => s
  | n + 1, pos, s => freeBits n (pos + 1) (freeBit pos s)

/-- `free_phy_pages`. -/
def freePhyPages (s : PhyMem) (addr size : Nat) : Except Fault PhyMem := do
  assert "addr<__max_phy_mem_addr" (addr < s.maxPhyMemAddr)
  if addr ≠ 0 then do
    assert "(addr & (PAGE_SIZE_LARGE - 1)) == 0 && addr < __max_phy_addr"
      (addr % 0x200000 = 0 ∧ addr < s.maxPhyAddr)
    assert "(size & (PAGE_SIZE_LARGE - 1)) == 0" (size % 0x200000 = 0)
    .ok (freeBits (size / 0x200000) (addr / 0x200000) s)
  else .ok s

/-! ## Runs -/

/-- A call with its result. -/
inductive PhyMemEvent
  | alloc (ret : Nat)
  | freeOne (addr : Nat)
  | freePages (addr size : Nat)
deriving DecidableEq, Repr

/-- A call that gives back the frame at `addr`. -/
def PhyMemEvent.frees (addr : Nat) : PhyMemEvent → Prop
  | .alloc _ => False
  | .freeOne a => a = addr
  | .freePages a size => a ≠ 0 ∧ a ≤ addr ∧ addr < a + size

/-- A call of a run; a range of several frames is freed inside `[0, __max_phy_addr)`. -/
def PhyMemStep (s : PhyMem) : PhyMemEvent → PhyMem → Prop
  | .alloc ret, s' => allocPhyPage s = .ok (ret, s')
  | .freeOne addr, s' => freePhyOnePage s addr = .ok s'
  | .freePages addr size, s' => addr + size ≤ s.maxPhyAddr ∧ freePhyPages s addr size = .ok s'

/-- A run, the last call on the outside. -/
inductive PhyMemRun : PhyMem → List PhyMemEvent → PhyMem → Prop
  | nil (s : PhyMem) : PhyMemRun s [] s
  | snoc {s s₁ s' : PhyMem} {es : List PhyMemEvent} {e : PhyMemEvent} :
      PhyMemRun s es s₁ → PhyMemStep s₁ e s' → PhyMemRun s (es ++ [e]) s'

end Yaos
