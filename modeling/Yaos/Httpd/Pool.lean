import Yaos.Lib.Regions
import Yaos.Lib.Word

set_option autoImplicit false

/-! # Memory pools of requests (`module/httpd/palloc.c`, `module/httpd/buf.c`)

A pool serves small requests from a chain of equal blocks and large ones from the kernel's allocator,
and gives all of it back at once. Small requests are answered with the next bytes of a block; there is
no way to give them back one by one.

Memory is described by addresses and sizes, not by its content; the records that a pool keeps of large
requests and of cleanups also lie in its blocks, and their addresses are part of the state.
`yaos_malloc` is a parameter. It does not look at the alignment that `httpd_memalign` is called with. -/

namespace Yaos.Palloc

open Regions Word

/-- `yaos_malloc`: its memory is aligned to words, and does not lie at the very end of memory. -/
structure Malloc extends Allocator where
  aligned : ∀ {es n a}, answer es n = some a → a % 8 = 0
  below : ∀ {es n a}, answer es n = some a → a + n + 64 ≤ 2 ^ 64

/-! ## The data -/

/-- The head of a block, at the address `self`. -/
structure HttpdPoolData where
  self : Nat
  last : Nat
  end_ : Nat
  failed : Nat
deriving DecidableEq, Repr

/-- `httpd_pool_large_t`, at the address `self`. -/
structure HttpdPoolLarge where
  self : Nat
  alloc : Nat
deriving DecidableEq, Repr

/-- `httpd_pool_cleanup_t`, at the address `self`. -/
structure HttpdPoolCleanup where
  self : Nat
  handler : Nat
  data : Nat
deriving DecidableEq, Repr

/-- A pool. The blocks are listed along `d.next`, the pool itself first, and `now` is the position of
    `pool->now` among them. -/
structure HttpdPool where
  blocks : List HttpdPoolData
  max : Nat
  now : Nat
  chain : List Nat
  large : List HttpdPoolLarge
  cleanup : List HttpdPoolCleanup

/-- `sizeof(httpd_pool_t)` -/
def poolSize : Nat := 72

/-- `sizeof(httpd_pool_data_t)` -/
def dataSize : Nat := 32

/-- `sizeof(httpd_pool_large_t)` -/
def largeSize : Nat := 16

/-- `sizeof(httpd_pool_cleanup_t)` -/
def cleanupSize : Nat := 24

/-- `sizeof(httpd_chain_t)` -/
def chainSize : Nat := 16

/-- A pool, and the calls made to the allocator. -/
structure PoolState where
  events : List Event
  pool : HttpdPool

/-- `httpd_align_ptr(p, HTTPD_ALIGNMENT)` -/
def alignPtr (p : Nat) : Nat := alignDown 8 (wadd p 7)

/-- `yaos_malloc(size)` -/
def yaosMalloc (A : Malloc) (es : List Event) (size : Nat) : Option (Nat × List Event) :=
  (A.answer es size).map fun a => (a, .alloc ⟨a, size⟩ :: es)

/-! ## Creation -/

/-- Where the next request starts. -/
def HttpdPoolData.start (p : HttpdPoolData) (align : Bool) : Nat :=
  if align then alignPtr p.last else p.last

/-- `(size_t) (p->d.end - m) >= size` -/
def HttpdPoolData.Fits (p : HttpdPoolData) (size : Nat) (align : Bool) : Prop :=
  size ≤ wsub p.end_ (p.start align)

instance (p : HttpdPoolData) (size : Nat) (align : Bool) : Decidable (p.Fits size align) :=
  inferInstanceAs (Decidable (_ ≤ _))

/-- The loop of `httpd_palloc_small` over the blocks from `pool->now` on. -/
def pallocFrom (size : Nat) (align : Bool) : List HttpdPoolData → Option (Nat × List HttpdPoolData)
  | [] => none
  | p :: ps =>
      if p.Fits size align then
        some (p.start align, { p with last := wadd (p.start align) size } :: ps)
      else (pallocFrom size align ps).map fun r => (r.1, p :: r.2)

/-- The loop of `httpd_palloc_block` over the blocks from the position `i` on: a block that another one
    follows counts a failure, and `now` moves past one with too many. -/
def countFailures (now i : Nat) : List HttpdPoolData → List HttpdPoolData × Nat
  | p :: q :: ps =>
      let r := countFailures (if p.failed > 4 then i + 1 else now) (i + 1) (q :: ps)
      ({ p with failed := (p.failed + 1) % 2 ^ 32 } :: r.1, r.2)
  | ps => (ps, now)

/-- `(size_t) (pool->d.end - (u_char *) pool)` -/
def HttpdPool.psize (pool : HttpdPool) : Nat :=
  match pool.blocks with
  | [] => 0
  | p :: _ => wsub p.end_ p.self

/-- The block that `httpd_palloc_block` makes at `m`, with `size` bytes of it in use. -/
def newBlock (m psize size : Nat) : HttpdPoolData :=
  { self := m, last := alignPtr (m + dataSize) + size, end_ := m + psize, failed := 0 }

/-- `httpd_palloc_block`. -/
def httpdPallocBlock (A : Malloc) (s : PoolState) (size : Nat) : Option Nat × PoolState :=
  match yaosMalloc A s.events s.pool.psize with
  | none => (none, s)
  | some (m, es) =>
      let r := countFailures s.pool.now s.pool.now (s.pool.blocks.drop s.pool.now)
      (some (alignPtr (m + dataSize)),
        { s with
          events := es
          pool :=
            { s.pool with
              blocks := s.pool.blocks.take s.pool.now ++ r.1 ++ [newBlock m s.pool.psize size]
              now := r.2 } })

/-- `httpd_palloc_small`. -/
def httpdPallocSmall (A : Malloc) (s : PoolState) (size : Nat) (align : Bool) : Option Nat × PoolState :=
  match pallocFrom size align (s.pool.blocks.drop s.pool.now) with
  | some (m, ps) =>
      (some m, { s with pool := { s.pool with blocks := s.pool.blocks.take s.pool.now ++ ps } })
  | none => httpdPallocBlock A s size

/-! ## Large requests -/

/-- The loop of `httpd_palloc_large`: a record without memory among the first ones takes `p`. -/
def reuseLarge (p : Nat) : Nat → List HttpdPoolLarge → Option (List HttpdPoolLarge)
  | _, [] => none
  | n, l :: ls =>
      if l.alloc = 0 then some ({ l with alloc := p } :: ls)
      else if n > 3 then none
      else (reuseLarge p (n + 1) ls).map (l :: ·)

/-- A new record of `p`, or `p` is given back. -/
def recordLarge (A : Malloc) (s : PoolState) (p : Nat) : Option Nat × PoolState :=
  match httpdPallocSmall A s largeSize true with
  | (none, s') => (none, { s' with events := .free p :: s'.events })
  | (some large, s') =>
      (some p, { s' with pool := { s'.pool with large := { self := large, alloc := p } :: s'.pool.large } })

/-- `httpd_palloc_large`. -/
def httpdPallocLarge (A : Malloc) (s : PoolState) (size : Nat) : Option Nat × PoolState :=
  match yaosMalloc A s.events size with
  | none => (none, s)
  | some (p, es) =>
      match reuseLarge p 0 s.pool.large with
      | some large => (some p, { s with events := es, pool := { s.pool with large := large } })
      | none => recordLarge A { s with events := es } p

/-- `alignment` plays no part in `httpd_memalign`. -/
def httpdPmemalign (A : Malloc) (s : PoolState) (size _alignment : Nat) : Option Nat × PoolState :=
  match yaosMalloc A s.events size with
  | none => (none, s)
  | some (p, es) => recordLarge A { s with events := es } p

/-- `httpd_palloc`. -/
def httpdPalloc (A : Malloc) (s : PoolState) (size : Nat) : Option Nat × PoolState :=
  if size ≤ s.pool.max then httpdPallocSmall A s size true else httpdPallocLarge A s size

/-- `httpd_pnalloc`. -/
def httpdPnalloc (A : Malloc) (s : PoolState) (size : Nat) : Option Nat × PoolState :=
  if size ≤ s.pool.max then httpdPallocSmall A s size false else httpdPallocLarge A s size

/-- The first record of `p` loses it. -/
def dropLarge (p : Nat) : List HttpdPoolLarge → Option (List HttpdPoolLarge)
  | [] => none
  | l :: ls => if p = l.alloc then some ({ l with alloc := 0 } :: ls) else (dropLarge p ls).map (l :: ·)

/-- `false` stands for `ESRCH`. -/
def httpdPfree (s : PoolState) (p : Nat) : Bool × PoolState :=
  match dropLarge p s.pool.large with
  | none => (false, s)
  | some large => (true, { s with events := .free p :: s.events, pool := { s.pool with large := large } })

/-! ## Cleanups, links and the end of a pool -/

/-- The memory that a new cleanup record leads to. -/
def cleanupData (A : Malloc) (s : PoolState) (size : Nat) : Option Nat × PoolState :=
  if size ≠ 0 then httpdPalloc A s size else (some 0, s)

/-- `httpd_pool_cleanup_add`. -/
def httpdPoolCleanupAdd (A : Malloc) (s : PoolState) (size : Nat) :
    Option HttpdPoolCleanup × PoolState :=
  match httpdPalloc A s cleanupSize with
  | (none, s') => (none, s')
  | (some c, s') =>
      match cleanupData A s' size with
      | (none, s'') => (none, s'')
      | (some data, s'') =>
          let r : HttpdPoolCleanup := { self := c, handler := 0, data := data }
          (some r, { s'' with pool := { s''.pool with cleanup := r :: s''.pool.cleanup } })

/-- `httpd_alloc_chain_link`. -/
def httpdAllocChainLink (A : Malloc) (s : PoolState) : Option Nat × PoolState :=
  match s.pool.chain with
  | cl :: rest => (some cl, { s with pool := { s.pool with chain := rest } })
  | [] => httpdPalloc A s chainSize

/-- The memory of large requests that has not been given back. -/
def HttpdPool.allocs (pool : HttpdPool) : List Nat :=
  (pool.large.map HttpdPoolLarge.alloc).filter (· ≠ 0)

/-- `httpd_reset_pool`. -/
def httpdResetPool (s : PoolState) : PoolState :=
  { events := freeAll s.pool.allocs s.events
    pool :=
      { s.pool with
        blocks := s.pool.blocks.map fun p => { p with last := p.self + poolSize, failed := 0 }
        now := 0
        chain := []
        large := [] } }

/-- The handlers that are called, with their data, and the calls made to the allocator. -/
def httpdDestroyPool (s : PoolState) : List (Nat × Nat) × List Event :=
  ((s.pool.cleanup.filter fun c => c.handler ≠ 0).map fun c => (c.handler, c.data),
    freeAll (s.pool.blocks.map HttpdPoolData.self) (freeAll s.pool.allocs s.events))

/-! ## Runs -/

/-- A pool in use. `given` is what callers hold, newest first. -/
structure PoolRun where
  state : PoolState
  given : List Region

/-- A call, or a write of a caller to the cleanup record at `c`. -/
inductive PoolOp
  | palloc (size : Nat)
  | pnalloc (size : Nat)
  | pmemalign (size alignment : Nat)
  | pfree (p : Nat)
  | cleanupAdd (size : Nat)
  | setCleanup (c handler data : Nat)
  | allocChainLink
  | reset
deriving DecidableEq, Repr

/-- The caller keeps what it got. -/
def give (given : List Region) (size : Nat) : Option Nat × PoolState → PoolRun
  | (some a, s) => { state := s, given := ⟨a, size⟩ :: given }
  | (none, s) => { state := s, given := given }

/-- The caller of `httpd_pool_cleanup_add` gets the memory that the record leads to. -/
def giveCleanup (given : List Region) (size : Nat) : Option HttpdPoolCleanup × PoolState → PoolRun
  | (some c, s) => { state := s, given := if size ≠ 0 then ⟨c.data, size⟩ :: given else given }
  | (none, s) => { state := s, given := given }

/-- The caller fills in the record at `c`. -/
def setCleanup (c handler data : Nat) (r : HttpdPoolCleanup) : HttpdPoolCleanup :=
  if r.self = c then { r with handler := handler, data := data } else r

/-- One call. What it returns is `given` until `httpd_pfree` or a reset takes it back. -/
def PoolOp.run (A : Malloc) (s : PoolRun) : PoolOp → PoolRun
  | palloc size => give s.given size (httpdPalloc A s.state size)
  | pnalloc size => give s.given size (httpdPnalloc A s.state size)
  | pmemalign size alignment => give s.given size (httpdPmemalign A s.state size alignment)
  | pfree p =>
      let r := httpdPfree s.state p
      { state := r.2, given := if r.1 then s.given.filter (fun g => g.base ≠ p) else s.given }
  | cleanupAdd size => giveCleanup s.given size (httpdPoolCleanupAdd A s.state size)
  | .setCleanup c handler data =>
      let pool := s.state.pool
      { s with
        state :=
          { s.state with
            pool := { pool with cleanup := pool.cleanup.map (Palloc.setCleanup c handler data) } } }
  | allocChainLink => give s.given chainSize (httpdAllocChainLink A s.state)
  | reset => { state := httpdResetPool s.state, given := [] }

/-- `NULL` and cleanup records are not given back, memory of no bytes is not asked of `httpd_pmemalign`,
    and a pool is not reset with cleanups to run: `httpd_reset_pool` keeps their list, but not their
    memory. -/
def PoolOp.Allowed (s : PoolRun) : PoolOp → Prop
  | pfree p => p ≠ 0 ∧ ∀ c ∈ s.state.pool.cleanup, c.self ≠ p
  | pmemalign size _ => 0 < size
  | reset => s.state.pool.cleanup = []
  | _ => True

/-- The number of bytes asked for. -/
def PoolOp.request : PoolOp → Nat
  | palloc size => size
  | pnalloc size => size
  | pmemalign size _ => size
  | cleanupAdd size => size
  | _ => 0

/-- The states that calls with the property `ok` lead to. -/
inductive PoolReach (A : Malloc) (ok : PoolOp → Prop) (s₀ : PoolRun) : PoolRun → Prop
  | start : PoolReach A ok s₀ s₀
  | step {s : PoolRun} (op : PoolOp) : PoolReach A ok s₀ s → ok op → op.Allowed s →
      PoolReach A ok s₀ (op.run A s)

/-! ## What lies where -/

/-- The bytes of a block. -/
def HttpdPoolData.region (p : HttpdPoolData) : Region := ⟨p.self, p.end_ - p.self⟩

/-- The heads of the blocks. -/
def HttpdPool.heads (pool : HttpdPool) : List Region :=
  match pool.blocks with
  | [] => []
  | p :: ps => ⟨p.self, poolSize⟩ :: ps.map fun q => ⟨q.self, dataSize⟩

/-- What a pool always keeps in its blocks. -/
def HttpdPool.own (pool : HttpdPool) : List Region :=
  pool.heads ++ pool.large.map fun l => ⟨l.self, largeSize⟩

/-- The memory of the cleanup records. -/
def HttpdPool.cleanups (pool : HttpdPool) : List Region :=
  pool.cleanup.map fun c => ⟨c.self, cleanupSize⟩

/-- All memory in use, by the pool itself and as `used`. -/
def PoolState.memory (s : PoolState) (used : List Region) : List Region :=
  s.pool.own ++ (s.pool.cleanups ++ used)

/-- What the pool has of the allocator's memory. -/
def PoolState.held (s : PoolState) : List Region :=
  (live s.events).filter fun r => r.base ∈ s.pool.blocks.map HttpdPoolData.self ++ s.pool.allocs

/-- No byte is in use for two things, and none that the pool does not have. -/
structure PoolRun.Sound (s : PoolRun) : Prop where
  apart : (s.state.memory s.given).Pairwise Region.Apart
  inside : ∀ r ∈ s.state.memory s.given, ∃ b ∈ s.state.held, r.Within b

end Yaos.Palloc
