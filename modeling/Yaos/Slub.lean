import Yaos.DirectMap
import Yaos.Lib.Chain
import Mathlib.Data.Nat.Log

set_option autoImplicit false

/-! # The slub allocator (`module/mm/slub.c`)

`slub_malloc` serves requests of at most a page from caches of equal objects, and larger ones with
whole pages of the page heap. Free objects of a cache are linked through their own first word. What
a pointer is, is told from a mark of four bits for each physical 4 KiB page, two marks to a byte:
the index of the cache the page was carved for, `LARGE_IDX` for the first page of a large block, or
`LARGE_NEXT` for the later ones.

The answers of `yaos_heap_alloc_4k` are an input of each call, and all calls to the page heap are
logged, newest first. The code is compiled with `SLUB_CHECK` 0. Of `struct kmem_cache`, the fields
`page`, `flags` and `name` play no part. `installed` is a nonzero constant, so its assertion always
passes. -/

namespace Yaos

open Chains Word

/-- A call to the page heap, with its result. -/
inductive HeapCall
  | alloc (size addr : Nat)
  | free (addr size : Nat)
deriving DecidableEq, Repr

/-- `kmem_cache`. -/
structure KmemCache where
  idx : Nat
  size : Nat
  freehead : Nat
deriving DecidableEq, Repr

/-- The allocator: the words of memory, `kmalloc_caches`, the bytes of `page_bits`, and the calls
    made to the page heap. -/
structure Slub where
  mem : Nat → Nat
  caches : Nat → KmemCache
  pageBits : Nat → Nat
  calls : List HeapCall

/-- `LARGE_IDX`: the mark of the first page of a large allocation. -/
def largeIdx : Nat := 15

/-- `LARGE_NEXT`: the mark of its other pages. -/
def largeNext : Nat := 14

/-- `ZERO_SIZE_PTR`. -/
def zeroSizePtr : Nat := 16

/-- `kmalloc_info`, up to the last entry that fits in a mark. -/
def kmallocInfo : List Nat :=
  [0, 96, 192, 8, 16, 32, 64, 128, 256, 512, 1024, 2048, 4096, 8192, 16384, 32768]

/-- `size_index`: the class for each size up to 192, in steps of 8. -/
def sizeIndex : List Nat :=
  [4, 4, 5, 5, 6, 6, 6, 6, 1, 1, 1, 1, 7, 7, 7, 7, 2, 2, 2, 2, 2, 2, 2, 2]

/-- `size_index_elem`. -/
def sizeIndexElem (bytes : Nat) : Nat := (bytes - 1) / 8

/-- The position of the last set bit, counted from 1; 0 if there is none. -/
def fls (x : Nat) : Nat := if x = 0 then 0 else Nat.log 2 x + 1

/-- What `kmalloc_slab` returns: `NULL`, `ZERO_SIZE_PTR`, or the cache at an index. -/
inductive Slab
  | null
  | zeroSize
  | cache (idx : Nat)
deriving DecidableEq, Repr

/-- `kmalloc_slab`. -/
def kmallocSlab (size : Nat) : Slab :=
  if size > 2 ^ 23 then .null
  else if size ≤ 192 then
    if size = 0 then .zeroSize else .cache (sizeIndex.getD (sizeIndexElem size) 0)
  else .cache (fls (size - 1))

/-! ## Initialisation -/

/-- `new_kmalloc_cache`. -/
def newKmallocCache (caches : Nat → KmemCache) (idx : Nat) : Nat → KmemCache :=
  Function.update caches idx { idx := idx, size := kmallocInfo.getD idx 0, freehead := 0 }

/-- The order in which `create_kmalloc_caches` makes the caches. -/
def kmallocCacheOrder : List Nat :=
  ((List.range' 3 10).flatMap fun i =>
    i :: ((if i = 6 then [1] else []) ++ if i = 7 then [2] else [])) ++ [largeIdx, largeNext]

/-- `create_kmalloc_caches`, from caches that are all zero. -/
def createKmallocCaches : Nat → KmemCache :=
  kmallocCacheOrder.foldl newKmallocCache fun _ => { idx := 0, size := 0, freehead := 0 }

/-- The allocator after `init_slub_bp` and `init_slub_ap`; memory holds anything. -/
def initSlub (mem : Nat → Nat) : Slub where
  mem := mem
  caches := createKmallocCaches
  pageBits _ := 0
  calls := []

/-! ## Page marks -/

namespace Slub

/-- The mark of a page, by its number. -/
def mark (s : Slub) (offset : Nat) : Nat :=
  if offset % 2 = 1 then s.pageBits (offset / 2) / 16 % 16 else s.pageBits (offset / 2) % 16

/-- The mark of a page is one half of a byte of `page_bits`. -/
def setMark (s : Slub) (offset setidx : Nat) : Slub :=
  let idx := s.pageBits (offset / 2)
  let byte := if offset % 2 = 1 then idx % 16 ||| setidx * 16 % 256 else idx / 16 % 16 * 16 ||| setidx
  { s with pageBits := Function.update s.pageBits (offset / 2) byte }

/-- `get_idx_from_addr`. -/
def getIdxFromAddr (s : Slub) (addr : Nat) : Except Fault Nat := do
  let pa ← V2P addr
  .ok (s.mark (pa / 0x1000))

/-- `set_idx_from_addr`. -/
def setIdxFromAddr (s : Slub) (addr setidx : Nat) : Except Fault Slub := do
  let pa ← V2P addr
  .ok (s.setMark (pa / 0x1000) setidx)

/-- `p->pnext = v`. -/
def store (s : Slub) (p v : Nat) : Slub := { s with mem := Function.update s.mem p v }

/-- The free list of a cache starts at `p`. -/
def setFreehead (s : Slub) (i p : Nat) : Slub :=
  { s with caches := Function.update s.caches i { s.caches i with freehead := p } }

/-- A call of the page heap is recorded. -/
def logCall (s : Slub) (c : HeapCall) : Slub := { s with calls := c :: s.calls }

end Slub

/-- `(ulong)p>PHYS_VIRT_START && (ulong)p<PHYS_VIRT_END`. -/
def InWindow (p : Nat) : Prop := physVirtStart < p ∧ p < physVirtEnd

instance (p : Nat) : Decidable (InWindow p) := inferInstanceAs (Decidable (_ ∧ _))

/-- The assertion made wherever `freehead` was changed. -/
def freeheadCheck : String :=
  "!s->freehead || ((ulong)s->freehead>PHYS_VIRT_START && (ulong)s->freehead<PHYS_VIRT_END)"

/-! ## Freeing -/

/-- The loop that finds the length of a large block. A page number is below `2 ^ 52`, so a scan of
    that many pages never ends. -/
def scanLarge (s : Slub) : Nat → Nat → Nat → Except Fault Nat
  | 0, _, _ => .error .hang
  | fuel + 1, offset, size =>
      let size := wadd size 0x1000
      let offset := offset + 1
      if s.mark offset = largeNext then scanLarge s fuel offset size else .ok size

/-- The part of `__kmfree` for a pointer to a large block. -/
def kmfreeLarge (s : Slub) (p : Nat) : Except Fault Slub := do
  let pa ← V2P p
  let size ← scanLarge s (2 ^ 52) (pa / 0x1000) 0
  .ok (s.logCall (.free p size))

/-- `kmfree`. -/
def kmfree (s : Slub) (p : Nat) : Except Fault Slub :=
  if p = zeroSizePtr then .ok s
  else do
    assert "(ulong)p>PHYS_VIRT_START && (ulong)p<PHYS_VIRT_END" (InWindow p)
    let i ← s.getIdxFromAddr p
    if (s.caches i).idx = largeIdx then kmfreeLarge s p
    else do
      assert "((ulong)p&(s->size-1))==0" (p &&& wsub (s.caches i).size 1 = 0)
      let s := (s.store p (s.caches i).freehead).setFreehead i p
      assert freeheadCheck (p = 0 ∨ InWindow p)
      .ok s

/-! ## Allocating -/

/-- The carving loop: link each object to the next one up to `pend`, and return the last. -/
def carve (size pend : Nat) : Nat → (Nat → Nat) → Nat → Except Fault ((Nat → Nat) × Nat)
  | 0, _, _ => .error .hang
  | fuel + 1, mem, pfree =>
      let pnext := wadd pfree size
      if pnext ≤ pend then carve size pend fuel (Function.update mem pfree pnext) pnext
      else .ok (mem, pfree)

/-- `slub_add_page`, given the answer of the page heap; the answer 0 already fails the first
    assertion, so the `return false` behind it is never reached. -/
def slubAddPage (s : Slub) (i addr : Nat) : Except Fault (Bool × Slub) := do
  let s := s.logCall (.alloc 0x1000 addr)
  assert "(ulong)addr>PHYS_VIRT_START && (ulong)addr<PHYS_VIRT_END" (InWindow addr)
  if addr = 0 then .ok (false, s)
  else do
    let size := (s.caches i).size
    let (mem, pfree) ← carve size (wsub (wadd addr 0x1000) size) 0x1000 s.mem addr
    let s := { s with mem := mem }
    -- the objects of the page go in front of those that the cache has
    let s := (s.store pfree (s.caches i).freehead).setFreehead i addr
    assert freeheadCheck (addr = 0 ∨ InWindow addr)
    assert "s->idx < 16" ((s.caches i).idx < 16)
    let s ← s.setIdxFromAddr addr (s.caches i).idx
    .ok (true, s)

/-- The part of `__kmalloc` that takes the first object of a cache. -/
def kmallocTake (s : Slub) (i : Nat) : Except Fault (Nat × Slub) := do
  let pfree := (s.caches i).freehead
  assert "pfree" (pfree ≠ 0)
  assert "(ulong)pfree>PHYS_VIRT_START && (ulong)pfree<PHYS_VIRT_END" (InWindow pfree)
  let s := s.setFreehead i (s.mem pfree)
  assert freeheadCheck ((s.caches i).freehead = 0 ∨ InWindow (s.caches i).freehead)
  assert "s->size>=0x1000 || ((uintptr_t)pfree&0xfff)+s->size<=0x1000"
    (0x1000 ≤ (s.caches i).size ∨ pfree % 0x1000 + (s.caches i).size ≤ 0x1000)
  .ok (pfree, s)

/-- `__kmalloc`; `heap` is what `yaos_heap_alloc_4k` answers if it is called. -/
def kmalloc (s : Slub) (size heap : Nat) : Except Fault (Nat × Slub) :=
  match kmallocSlab size with
  | .zeroSize => .ok (zeroSizePtr, s)
  | .null => .ok (0, s)
  | .cache i =>
      if (s.caches i).freehead = 0 then do
        let (added, s) ← slubAddPage s i heap
        if added then kmallocTake s i else .ok (0, s)
      else kmallocTake s i

/-- The loop that marks the later pages of a large block. -/
def markLarge (fin : Nat) : Nat → Slub → Nat → Except Fault Slub
  | 0, _, _ => .error .hang
  | fuel + 1, s, newaddr =>
      if newaddr < fin then do
        let s ← s.setIdxFromAddr newaddr largeNext
        markLarge fin fuel s (wadd newaddr 0x1000)
      else .ok s

/-- `kmalloc_large`, with the answer `heap` of the page heap. -/
def kmallocLarge (s : Slub) (size heap : Nat) : Except Fault (Nat × Slub) := do
  let newsize := alignDown 0x1000 (wadd size 0xfff)
  let s := s.logCall (.alloc newsize heap)
  if heap = 0 then .ok (0, s)
  else do
    let s ← s.setIdxFromAddr heap largeIdx
    let s ← markLarge (wadd heap newsize) (2 ^ 52) s (wadd heap 0x1000)
    .ok (heap, s)

/-- Returns the pointer, or 0. -/
def slubMalloc (s : Slub) (size heap : Nat) : Except Fault (Nat × Slub) :=
  if size > 0x1000 then kmallocLarge s size heap else kmalloc s size heap

/-! ## Runs

The state of a run is the allocator with the pointers currently live, each with the size it was
requested with. -/

/-- A live pointer. -/
structure LivePtr where
  ptr : Nat
  size : Nat
deriving DecidableEq, Repr

/-- The slabs, with the pointers that were handed out and not given back. -/
structure SlubRun where
  slub : Slub
  live : List LivePtr

/-- Do two ranges of addresses overlap? -/
def overlaps (a n b m : Nat) : Bool := a < b + m && b < a + n

/-- The blocks of the page heap that were handed out and not returned, from the calls. -/
def heapBlocks : List HeapCall → List (Nat × Nat)
  | [] => []
  | .alloc size addr :: cs =>
      if addr = 0 then heapBlocks cs else (addr, size) :: heapBlocks cs
  | .free addr size :: cs => (heapBlocks cs).filter fun b => !overlaps addr size b.1 b.2

/-- The calls of a run. -/
inductive SlubOp
  /-- `slub_malloc(size)`, with the answer of the page heap if it is asked. -/
  | malloc (size heap : Nat)
  /-- `slub_mfree` of a live pointer. -/
  | mfree (x : LivePtr)
  /-- `slub_mfree(ZERO_SIZE_PTR)`. -/
  | mfreeZero
  /-- Someone writes to memory that is not free. -/
  | client (mem : Nat → Nat)

/-- One call. -/
def SlubRun.exec (st : SlubRun) : SlubOp → Except Fault SlubRun
  | .malloc size heap => do
      let (p, s) ← slubMalloc st.slub size heap
      .ok { slub := s, live := if p = 0 ∨ size = 0 then st.live else ⟨p, size⟩ :: st.live }
  | .mfree x => do
      let s ← kmfree st.slub x.ptr
      .ok { slub := s, live := st.live.erase x }
  | .mfreeZero => do
      let s ← kmfree st.slub zeroSizePtr
      .ok { st with slub := s }
  | .client mem => .ok { st with slub := { st.slub with mem := mem } }

/-- A stored pointer as a link. -/
def link (p : Nat) : Option Nat := if p = 0 then none else some p

/-- The object behind `p` on its free list. -/
def Slub.next (s : Slub) (p : Nat) : Option Nat := link (s.mem p)

/-- The objects on the free list of a cache. -/
def Slub.FreeList (s : Slub) (i : Nat) (ps : List Nat) : Prop :=
  Chain s.next (link (s.caches i).freehead) ps

/-- What the page heap is assumed to answer: nothing, or a 4 KiB-aligned block of the direct map
    that shares nothing with a block it handed out and was not given back. -/
def FreshBlock (s : Slub) (addr size : Nat) : Prop :=
  addr = 0 ∨ addr % 0x1000 = 0 ∧ physVirtStart < addr ∧ addr + size ≤ physVirtEnd + 1 ∧
    ∀ b ∈ heapBlocks s.calls, overlaps addr size b.1 b.2 = false

/-- The number of bytes `slub_malloc(size)` asks the page heap for, if it asks. -/
def heapSize (size : Nat) : Nat := if size > 0x1000 then (size + 0xfff) / 0x1000 * 0x1000 else 0x1000

/-- The calls of a run. The rounding of a size does not wrap, the page heap keeps its promise, and
    clients leave the links of free objects alone. -/
def SlubRun.legal (st : SlubRun) : SlubOp → Prop
  | .malloc size heap => size + 0xfff < 2 ^ 64 ∧ FreshBlock st.slub heap (heapSize size)
  | .mfree x => x ∈ st.live
  | .mfreeZero => True
  | .client mem => ∀ i ps, st.slub.FreeList i ps → ∀ p ∈ ps, mem p = st.slub.mem p

end Yaos
