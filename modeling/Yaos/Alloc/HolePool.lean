import Yaos.Lib.Chain
import Yaos.Lib.Word
import Yaos.Fault

set_option autoImplicit false

/-! # The hole lists of the kernel's range allocators

`kernel/phy_page.c`, `kernel/kheap.c` and `kernel/vm.c` each keep free address ranges ("holes") in
a fixed array of nodes. A node is either on the list of unused nodes (`pfree…`) or on the list of
holes (`phead…`), which is kept sorted by address. The three files are copies of one piece of code;
it is written here once, with what differs as `HoleConfig`.

The nodes are the entries of the array, named by their index, and a link is an optional index.
`origin_size` is written by two of the copies and read by none, so it is left out. `spin_lock` and
`spin_unlock` never block here; they are recorded, so that what a call does with its lock can be
stated. -/

namespace Yaos

open Chains Word

/-- One operation on the spinlock of an allocator. -/
inductive SpinOp
  | lock
  | unlock
deriving DecidableEq, Repr

/-- A node of the array: `struct phy_page_t`, `struct kheap_t`, `struct linear_t`. -/
structure HoleNode where
  addr : Nat
  size : Nat
  pnext : Option Nat
deriving DecidableEq, Repr

/-- The node array with its two list heads and the lock operations done so far. -/
structure HolePool where
  nodes : Nat → HoleNode
  pfree : Option Nat
  phead : Option Nat
  spin : List SpinOp

/-- What distinguishes the copies: the number of nodes, the text of the panic when no node is left,
    and whether the path that merges a freed range releases the lock. -/
structure HoleConfig where
  capacity : Nat
  tooSmall : String
  unlockOnMerge : Bool

namespace HolePool

/-- The link stored in a node. -/
def next (s : HolePool) (i : Nat) : Option Nat := (s.nodes i).pnext

/-- Rewrite one node. -/
def modify (s : HolePool) (i : Nat) (f : HoleNode → HoleNode) : HolePool :=
  { s with nodes := Function.update s.nodes i (f (s.nodes i)) }

/-- `spin_lock`. -/
def spinLock (s : HolePool) : HolePool := { s with spin := s.spin ++ [.lock] }

/-- `spin_unlock`. -/
def spinUnlock (s : HolePool) : HolePool := { s with spin := s.spin ++ [.unlock] }

/-- The end of a hole, as `p->addr + p->size` computes it. -/
def holeEnd (s : HolePool) (i : Nat) : Nat := wadd (s.nodes i).addr (s.nodes i).size

end HolePool

/-- The `init_…` loop: every node unused, in array order, and no hole. -/
def initHoles (capacity : Nat) : HolePool where
  nodes i := { addr := 0, size := 0, pnext := if i + 1 < capacity then some (i + 1) else none }
  pfree := if capacity = 0 then none else some 0
  phead := none
  spin := []

/-- `p->pnext = phead; phead = p;` -/
def HolePool.pushHead (s : HolePool) (p : Nat) : HolePool :=
  { s.modify p fun n => { n with pnext := s.phead } with phead := some p }

/-- `p->pnext = ph->pnext; ph->pnext = p;` -/
def HolePool.linkAfter (s : HolePool) (ph p : Nat) : HolePool :=
  (s.modify p fun n => { n with pnext := s.next ph }).modify ph fun n => { n with pnext := some p }

/-- `p->pnext = pfree; pfree = p;` -/
def HolePool.pushFree (s : HolePool) (p : Nat) : HolePool :=
  { s.modify p fun n => { n with pnext := s.pfree } with pfree := some p }

/-- Put the node `p`, just taken from the unused list, into the sorted list. -/
def insertHole (c : HoleConfig) (s : HolePool) (p addr size : Nat) : Except Fault HolePool :=
  let s := s.modify p fun n => { n with addr := addr, size := size }
  match s.phead with
  | none => .ok (s.pushHead p).spinUnlock
  | some h =>
      if (s.nodes h).addr > addr then .ok (s.pushHead p).spinUnlock
      else
        match advance s.next (fun j => (s.nodes j).addr < addr) c.capacity h with
        | none => .error .hang
        | some ph => .ok (s.linkAfter ph p).spinUnlock

/-- The body of `free_phy_page_small`, `free_kheap_4k` and `free_linear_zone` behind their argument
    checks: extend a hole that ends at `addr`, or else insert a new one. -/
def freeHole (c : HoleConfig) (s : HolePool) (addr size : Nat) : Except Fault HolePool :=
  match s.pfree with
  | none => .error (.panic c.tooSmall)
  | some p =>
      let s := s.spinLock
      match walk s.next (fun ph => s.holeEnd ph == addr) c.capacity s.phead with
      | none => .error .hang
      | some (some ph) =>
          let s := s.modify ph fun n => { n with size := wadd n.size size }
          -- two of the three functions return without the lock being released
          .ok (if c.unlockOnMerge then s.spinUnlock else s)
      | some none => insertHole c { s with pfree := s.next p } p addr size

/-- Take the node `p` out of the list of holes (first, second, or any later node). -/
def unlinkHole (c : HoleConfig) (s : HolePool) (p : Nat) : Except Fault HolePool :=
  match s.phead with
  | none => .error .null
  | some ptr =>
      if ptr = p then .ok { s with phead := s.next ptr }
      else if s.next ptr = some p then
        .ok (s.modify ptr fun n => { n with pnext := s.next p })
      else
        match advance s.next (fun j => j != p) c.capacity ptr with
        | none => .error .hang
        | some ptr =>
            if s.next ptr = none then .error (.panic "corrupted link")
            else .ok (s.modify ptr fun n => { n with pnext := s.next p })

/-- Take `size` bytes from the front of the hole `p`; a hole of at most `drop` bytes that is left
    goes back to the unused nodes. Returns the address of the block. -/
def carveHole (c : HoleConfig) (drop : Nat) (s : HolePool) (p size : Nat) :
    Except Fault (Nat × HolePool) := do
  let s := s.modify p fun n => { n with size := wsub n.size size }
  let s ←
    if (s.nodes p).size ≤ drop then do
      let s ← unlinkHole c s p
      pure (s.pushFree p)
    else pure s
  -- the node is read after it may have gone back to the unused ones
  let pret := (s.nodes p).addr
  pure (pret, s.modify p fun n => { n with addr := wadd n.addr size })

/-- The first hole of at least `size` bytes. -/
def firstFit (c : HoleConfig) (s : HolePool) (size : Nat) : Option (Option Nat) :=
  walk s.next (fun p => !((s.nodes p).size < size)) c.capacity s.phead

/-- The search after a refill, which stops at the last hole whatever its size. -/
def firstFitOrLast (c : HoleConfig) (s : HolePool) (size : Nat) : Option (Option Nat) :=
  walk s.next (fun p => (s.next p).isNone || !((s.nodes p).size < size)) c.capacity s.phead

end Yaos
