import Yaos.Alloc.HolePool

set_option autoImplicit false

/-! # Linear zones (`kernel/vm.c`)

A zone hands out ranges of virtual addresses. Free ranges are holes on `phead`; besides the unused
nodes and the holes, the nodes make up a third list, `alloced`, with one record for each block taken
from a hole. A later request whose hint lies in the same 2 MiB page as a record may be served from
what is left of that page (`check_alloced`). `free_linear_zone` puts a range back on `phead` and
leaves `alloced` alone.

The fields `start`, `end` and `name` of `struct linear_zone` are not read by any of the functions
here. -/

namespace Yaos

open Chains Word

/-- `struct linear_zone`: the hole lists `pfreeh` and `phead` with the nodes, and `alloced`. -/
structure LinearZone where
  pool : HolePool
  alloced : Option Nat

/-- `MAX_LINEAR_HOLE` nodes; the merging path of this copy returns with the lock held. -/
def linearHoles : HoleConfig where
  capacity := 100
  tooSmall := "MAX_LINEAR_HOLE too small!\n"
  unlockOnMerge := false

/-- `free_linear_zone`. -/
def freeLinearZone (z : LinearZone) (addr size : Nat) : Except Fault LinearZone := do
  assert "(addr & PAGE_MASK) == 0" (addr % 0x200000 = 0)
  let pool ← freeHole linearHoles z.pool addr (roundUp 0x200000 size)
  .ok { z with pool := pool }

/-- The zone as it is set up. -/
def initVmZone (addr size : Nat) : Except Fault LinearZone :=
  freeLinearZone { pool := initHoles linearHoles.capacity, alloced := none } addr size

/-- `addrmask <= p->size && p->size + size < PAGE_SIZE_LARGE`: the request fits behind what the
    record's page already holds. -/
def recordExtends (s : HolePool) (addr size p : Nat) : Bool :=
  addr % 0x200000 ≤ (s.nodes p).size && wadd (s.nodes p).size size < 0x200000

/-- `offset < PAGE_SIZE_LARGE && addrmask >= p->size`: the hint itself lies in the unused rest of
    the record's page. -/
def recordReaches (s : HolePool) (addr size p : Nat) : Bool :=
  wadd (addr % 0x200000) size < 0x200000 && (s.nodes p).size ≤ addr % 0x200000

/-- The record `check_alloced` serves the request from, if any. -/
def servingRecord (z : LinearZone) (addr size : Nat) : Option (Option Nat) :=
  walk z.pool.next (fun p => (z.pool.nodes p).addr == alignDown 0x200000 addr &&
    (recordExtends z.pool addr size p || recordReaches z.pool addr size p))
    linearHoles.capacity z.alloced

/-- Returns the address served, or 0. -/
def checkAlloced (z : LinearZone) (addr size : Nat) : Except Fault (Nat × LinearZone) :=
  let s := z.pool.spinLock
  match servingRecord z addr size with
  | none => .error .hang
  | some none => .ok (0, { z with pool := s.spinUnlock })
  | some (some p) =>
      -- the first of the two conditions wins, and moves the block behind what is used
      if recordExtends s addr size p then
        let ret := wadd (alignDown 0x200000 addr) (s.nodes p).size
        let s := s.modify p fun n => { n with size := wadd n.size size }
        .ok (ret, { z with pool := s.spinUnlock })
      else
        let s := s.modify p fun n => { n with size := wadd (addr % 0x200000) size }
        .ok (addr, { z with pool := s.spinUnlock })

/-- `z->pfreeh = pfree->pnext; …; pfree->pnext = z->alloced; z->alloced = pfree;`: the node `pfree`
    becomes the record of a block at `addr`. -/
def LinearZone.record (z : LinearZone) (pfree addr size : Nat) : LinearZone where
  pool := { z.pool.modify pfree fun _ => { addr := addr, size := size, pnext := z.alloced } with
    pfree := z.pool.next pfree }
  alloced := some pfree

/-- Take `size` bytes from the front of the hole `p` and record the block. -/
def takeLinear (z : LinearZone) (pfree p size realaddr realsize : Nat) :
    Except Fault (Nat × LinearZone) := do
  let (pret, pool) ← carveHole linearHoles 0 z.pool p size
  let z := { z with pool := pool }.record pfree pret (wadd realsize (realaddr % 0x200000))
  .ok (wadd pret (realaddr % 0x200000), { z with pool := z.pool.spinUnlock })

/-- `alloc_linear_zone_impl(z, NULL, realsize)`. -/
def allocLinearAny (z : LinearZone) (realsize : Nat) : Except Fault (Nat × LinearZone) :=
  match z.pool.pfree with
  | none => .error (.panic linearHoles.tooSmall)
  | some pfree =>
      let size := roundUp 0x200000 realsize
      let z := { z with pool := z.pool.spinLock }
      match firstFit linearHoles z.pool size with
      | none => .error .hang
      | some none => .ok (0, { z with pool := z.pool.spinUnlock })
      | some (some p) => takeLinear z pfree p size 0 realsize

/-- `p->addr <= addr && p->addr + p->size >= addr + size`. -/
def holeContains (s : HolePool) (addr size p : Nat) : Bool :=
  (s.nodes p).addr ≤ addr && wadd addr size ≤ s.holeEnd p

/-- Cut the block at `addr` out of the middle of the hole `p`: the hole keeps what is below, and
    what is above becomes a new hole. -/
def splitLinear (z : LinearZone) (pfree p addr size realaddr realsize : Nat) :
    Except Fault (Nat × LinearZone) := do
  let oldEnd := z.pool.holeEnd p
  let pool := z.pool.modify p fun n => { n with size := wsub addr n.addr }
  let z := { z with pool := pool }.record pfree addr (wadd realsize (realaddr % 0x200000))
  let z := { z with pool := z.pool.spinUnlock }
  let freeaddr := alignDown 0x200000 (wadd (wadd addr size) 0x1fffff)
  -- the upper part is freed like a block, behind the release of the lock
  let z ← freeLinearZone z freeaddr (wsub oldEnd freeaddr)
  .ok (wadd addr (realaddr % 0x200000), z)

/-- The part of `alloc_linear_zone_impl` for a hint that `check_alloced` did not serve. A request
    that the first candidate hole cannot serve in place is retried without the hint. -/
def allocLinearHinted (z : LinearZone) (realaddr realsize : Nat) :
    Except Fault (Nat × LinearZone) :=
  match z.pool.pfree with
  | none => .error (.panic linearHoles.tooSmall)
  | some pfree =>
      let size := wadd (roundUp 0x200000 realsize) (realaddr % 0x200000)
      let addr := alignDown 0x200000 realaddr
      let z := { z with pool := z.pool.spinLock }
      match walk z.pool.next (fun p => !((z.pool.nodes p).size < size) ||
          holeContains z.pool addr size p) linearHoles.capacity z.pool.phead with
      | none => .error .hang
      | some none => allocLinearAny { z with pool := z.pool.spinUnlock } realsize
      | some (some p) =>
          if (z.pool.nodes p).size < size || !holeContains z.pool addr size p then
            allocLinearAny { z with pool := z.pool.spinUnlock } realsize
          else if (z.pool.nodes p).addr ≠ addr then
            splitLinear z pfree p addr size realaddr realsize
          else takeLinear z pfree p size realaddr realsize

/-- Returns the address of the block, or 0. -/
def allocLinearZoneImpl (z : LinearZone) (realaddr realsize : Nat) :
    Except Fault (Nat × LinearZone) :=
  if realaddr ≠ 0 then do
    let (addr, z) ← checkAlloced z realaddr realsize
    if addr ≠ 0 then .ok (addr, z) else allocLinearHinted z realaddr realsize
  else allocLinearAny z realsize

/-! ## Runs of a zone

The state of a run is the zone together with the ranges currently allocated. Each range remembers
the record it was served from: the one made for it, or the one `check_alloced` extended. -/

/-- A range currently allocated. -/
structure LiveRange where
  addr : Nat
  size : Nat
  record : Nat
deriving DecidableEq, Repr

/-- The zone, with the ranges that were handed out and not given back. -/
structure ZoneRun where
  zone : LinearZone
  live : List LiveRange

/-- The calls of a run. -/
inductive ZoneOp
  | alloc (hint size : Nat)
  | free (r : LiveRange)
deriving DecidableEq, Repr

/-- The record a successful allocation is served from. -/
def recordFor (z : LinearZone) (hint size : Nat) (z' : LinearZone) : Nat :=
  match (if hint ≠ 0 then servingRecord z hint size else some none) with
  | some (some p) => p
  | _ => z'.alloced.getD 0

/-- One call. -/
def ZoneRun.exec (st : ZoneRun) : ZoneOp → Except Fault ZoneRun
  | .alloc hint size => do
      let (ret, z) ← allocLinearZoneImpl st.zone hint size
      .ok { zone := z
            live := if ret = 0 then st.live
              else { addr := ret, size := size, record := recordFor st.zone hint size z } :: st.live }
  | .free r => do
      let z ← freeLinearZone st.zone r.addr r.size
      .ok { zone := z, live := st.live.erase r }

/-- The calls of a run: any hint, any positive size, and frees of ranges that are allocated. -/
def ZoneRun.legal (st : ZoneRun) : ZoneOp → Prop
  | .alloc hint size => 0 < size ∧ size < 2 ^ 64 ∧ hint < 2 ^ 64
  | .free r => r ∈ st.live

end Yaos
