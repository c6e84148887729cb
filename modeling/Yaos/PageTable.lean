import Yaos.DirectMap
import Yaos.Lib.TableTree

set_option autoImplicit false

/-! # The page tables (`arch/x86_64/pgtable.c`)

A table is a frame of 512 entries. The code reaches every table through the direct map: pointers are
`P2V` images of frames, and the entries hold physical addresses. The functions below walk down from
the PML4, make the tables that are missing, split large pages, and write one entry.

Frames come from `alloc_phy_page_small` and `alloc_phy_page`. Their answers are an input: a list of
the frames handed out, kept apart by the place that asks, where the end of a list means that the
source returns 0 there. Freed frames are logged. Flushing the TLB has no effect on the tables. -/

namespace Yaos

open Word TableTree

/-- `PTE_P`: the entry is present. -/
def pteP : Nat := 0x001

/-- `PTE_W`: what it maps can be written. -/
def pteW : Nat := 0x002

/-- `PTE_U`: what it maps is for user code too. -/
def pteU : Nat := 0x004

/-- `PTE_PS`: the entry maps a large page. -/
def ptePS : Nat := 0x080

/-- `PTE_G`: the mapping is global. -/
def pteG : Nat := 0x100

/-- `~PTE_PS`, widened to 64 bits. -/
def notPS : Nat := 0xffffffffffffff7f

instance neZero_entries : NeZero 512 := ⟨by decide⟩

/-- `(vaddr >> shift) & 511`. -/
def tableIndex (shift vaddr : Nat) : Fin 512 :=
  ⟨vaddr / 2 ^ shift % 512, Nat.mod_lt _ (by decide)⟩

/-- The lowest bit of an address that selects the PML4 entry. -/
def pml4Shift : Nat := 39

/-- The lowest bit that selects the entry of the page directory pointer table. -/
def pdpShift : Nat := 30

/-- The lowest bit that selects the page directory entry. -/
def pdShift : Nat := 21

/-- The lowest bit that selects the page table entry. -/
def pteShift : Nat := 12

/-- The page tables, in physical memory, and the frame stores that the functions ask. -/
structure PgTables where
  /-- Physical memory: the 512 words of each frame. -/
  frames : Nat → Fin 512 → Nat
  /-- The frame of the static `pml4`. -/
  pml4 : Nat
  /-- `alloc_phy_page_small` in `map_alloc_at`. -/
  data : List Nat
  /-- `alloc_phy_page_small` for the page table under a PDE that is not present. -/
  pt : List Nat
  /-- `alloc_phy_page_small` for every other table. -/
  table : List Nat
  /-- `alloc_phy_page` in `map_alloc_at`. -/
  large : List Nat
  /-- What `free_phy_page_small` received. -/
  freedSmall : List Nat
  /-- What `free_phy_one_page` received. -/
  freedLarge : List Nat

/-- `p->entry[n]` for a pointer into the direct map. -/
def PgTables.load (s : PgTables) (p : Nat) (n : Fin 512) : Nat :=
  s.frames (wsub p physVirtStart) n

/-- A word of a table is written, through the direct map. -/
def PgTables.store (s : PgTables) (p : Nat) (n : Fin 512) (e : Nat) : PgTables :=
  { s with frames := setEntry s.frames (wsub p physVirtStart) n e }

/-- Write all entries of the frame behind `p`. -/
def PgTables.fill (s : PgTables) (p : Nat) (v : Fin 512 → Nat) : PgTables :=
  { s with frames := Function.update s.frames (wsub p physVirtStart) v }

/-- `(e & (PTE_PS|PTE_P)) == (PTE_PS|PTE_P)`. -/
def isLargePage (e : Nat) : Bool := e &&& (ptePS ||| pteP) == ptePS ||| pteP

/-- The entries written by the loops that replace one large page by 512 smaller ones:
    `p[n] = old | flags; old += size;`. -/
def splitEntries (old size flags : Nat) (n : Fin 512) : Nat := wadd old (n * size) ||| flags

/-- `p = P2V(alloc_phy_page_small(4096)); ASSERT((p & 0xfff) == 0); if (!p) return …;`, and the new
    table filled with `v`. -/
def newTable (s : PgTables) (text : String) (v : Fin 512 → Nat) :
    Except Fault (Option Nat × PgTables) := do
  let p := P2V (s.table.headD 0)
  let s := { s with table := s.table.tail }
  assert text (p % 0x1000 = 0)
  if p = 0 then .ok (none, s) else .ok (some p, s.fill p v)

/-- `p->entry[n] = V2P(q) | flags;`. -/
def linkTable (s : PgTables) (p : Nat) (n : Fin 512) (q flags : Nat) : Except Fault PgTables := do
  let a ← V2P q
  .ok (s.store p n (a ||| flags))

/-- Make a table, fill it with `v` and link it from entry `n` of `p`. -/
def linkNewTable (s : PgTables) (text : String) (v : Fin 512 → Nat) (flags p : Nat) (n : Fin 512) :
    Except Fault (Option Nat × PgTables) := do
  let (q, s) ← newTable s text v
  match q with
  | none => .ok (none, s)
  | some q => do
      let s ← linkTable s p n q flags
      .ok (some q, s)

/-- The table below entry `n` of `p`, made and cleared where the entry holds no address. -/
def nextTable (s : PgTables) (text : String) (flags p : Nat) (n : Fin 512) :
    Except Fault (Option Nat × PgTables) :=
  let q := alignDown 0x1000 (s.load p n)
  if q = 0 then linkNewTable s text (fun _ => 0) flags p n else .ok (some (P2V q), s)

/-- Returns the address of the PDE as the page directory and the index in it; `none` is 0. -/
def buildPteWithAddr (s : PgTables) (addr : Nat) :
    Except Fault (Option (Nat × Fin 512) × PgTables) := do
  let (pdp, s) ← nextTable s "((ulong) p_pdp & 0xfff) == 0" (pteP ||| pteW) (P2V s.pml4)
    (tableIndex pml4Shift addr)
  match pdp with
  | none => .ok (none, s)
  | some pdp => do
      let (pd, s) ← nextTable s "((ulong) p_pd & 0xfff) == 0" (pteP ||| pteW) pdp
        (tableIndex pdpShift addr)
      match pd with
      | none => .ok (none, s)
      | some pd => .ok (some (pd, tableIndex pdShift addr), s)

/-- `get_pte_with_addr`: the page directory of `addr` and the index in it, if the tables above are there. -/
def getPteWithAddr (s : PgTables) (addr : Nat) : Option (Nat × Fin 512) :=
  let pdp := alignDown 0x1000 (s.load (P2V s.pml4) (tableIndex pml4Shift addr))
  if pdp = 0 then none
  else
    let pd := alignDown 0x1000 (s.load (P2V pdp) (tableIndex pdpShift addr))
    if pd = 0 then none else some (P2V pd, tableIndex pdShift addr)

/-- The page table under the PDE `pd[k]`: the large page there is split, a missing table is made.
    This is the one place where a new table is linked as it comes from the frame source. -/
def pageTableFor (s : PgTables) (pd : Nat) (k : Fin 512) :
    Except Fault (Option Nat × PgTables) :=
  let e := s.load pd k
  if isLargePage e then
    -- the pieces get fixed flags: `oldflag` is computed and not used
    linkNewTable s "((ulong) p & 0xfff) == 0"
      (splitEntries (alignDown 0x1000 e) 0x1000 (pteP ||| pteW ||| pteG)) (pteP ||| pteW) pd k
  else if e &&& pteP = 0 then do
    assert "(*pte&~0xfff)==0" (alignDown 0x1000 e = 0)
    let a := s.pt.headD 0
    -- the entry is written before the test for 0
    let s := { s with pt := s.pt.tail }.store pd k a
    assert "((ulong) *pte & 0xfff) == 0" (a % 0x1000 = 0)
    if a = 0 then .ok (none, s)
    else
      let e := a ||| (pteW ||| pteP)
      .ok (some (alignDown 0x1000 (P2V e)), s.store pd k e)
  else .ok (some (alignDown 0x1000 (P2V e)), s)

/-- `map_4k_page_p2v`. A large page in the way is split first. -/
def map4kPageP2V (s : PgTables) (paddr vaddr flag : Nat) : Except Fault (Nat × PgTables) := do
  assert "(paddr & 0xfff) == 0" (paddr % 0x1000 = 0)
  assert "(vaddr & 0xfff) == 0" (vaddr % 0x1000 = 0)
  assert "(flag & ~0xfff) == 0" (alignDown 0x1000 flag = 0)
  let (pte, s) ← buildPteWithAddr s (alignDown 0x200000 vaddr)
  match pte with
  | none => .ok (ENOMEM, s)
  | some (pd, k) => do
      let (p, s) ← pageTableFor s pd k
      match p with
      | none => .ok (ENOMEM, s)
      | some p =>
          .ok (OK, s.store p (tableIndex pteShift vaddr) (paddr ||| (flag &&& notPS) ||| pteG))

/-- The page directory under the PDPTE `pdp[j]`: a 1 GiB page there is split, a missing directory is
    made. -/
def pageDirectoryFor (s : PgTables) (pdp : Nat) (j : Fin 512) :
    Except Fault (Option Nat × PgTables) :=
  let e := s.load pdp j
  if e = 0 then
    linkNewTable s "((ulong) pd & 0xfff) == 0" (fun _ => 0) (pteP ||| pteW ||| pteU) pdp j
  else if e &&& ptePS ≠ 0 then
    linkNewTable s "((ulong) pd & 0xfff) == 0"
      (splitEntries (alignDown 0x1000 e) 0x200000 (e &&& 0xfff)) (pteP ||| pteW ||| pteU) pdp j
  else .ok (some (alignDown 0x1000 (P2V e)), s)

/-- `map_page_p2v`: a 2 MiB page. The first assertion asks for 2 MiB, where its comment says 4k. -/
def mapPageP2V (s : PgTables) (paddr vaddr flag : Nat) : Except Fault (Nat × PgTables) := do
  assert "(vaddr & (PAGE_SIZE_LARGE-1)) == 0" (vaddr % 0x200000 = 0)
  assert "(paddr & (PAGE_SIZE_LARGE-1)) == 0" (paddr % 0x200000 = 0)
  assert "(flag & ~0xfff) == 0" (alignDown 0x1000 flag = 0)
  let (pdp, s) ← nextTable s "((ulong) p_pdp & 0xfff) == 0" (pteP ||| pteW ||| pteU) (P2V s.pml4)
    (tableIndex pml4Shift vaddr)
  match pdp with
  | none => .ok (ENOMEM, s)
  | some pdp => do
      let (pd, s) ← pageDirectoryFor s pdp (tableIndex pdpShift vaddr)
      match pd with
      | none => .ok (ENOMEM, s)
      | some pd => .ok (OK, s.store pd (tableIndex pdShift vaddr) (paddr ||| flag))

/-- `map_1g_page_p2v`: a 1 GiB page. -/
def map1gPageP2V (s : PgTables) (paddr vaddr flag : Nat) : Except Fault (Nat × PgTables) := do
  assert "(vaddr & (NUMBER_1G-1)) == 0" (vaddr % 0x40000000 = 0)
  assert "(paddr & 0xfff) == 0" (paddr % 0x1000 = 0)
  assert "(flag & ~0xfff) == 0" (alignDown 0x1000 flag = 0)
  let (pdp, s) ← nextTable s "((ulong) p_pdp & 0xfff) == 0" (pteP ||| pteW ||| pteU) (P2V s.pml4)
    (tableIndex pml4Shift vaddr)
  match pdp with
  | none => .ok (ENOMEM, s)
  | some pdp => .ok (OK, s.store pdp (tableIndex pdpShift vaddr) (paddr ||| flag))

/-! ## Unmapping -/

/-- `free_phy_page_small` where the unmapping frees what it unmaps. -/
def PgTables.freePhyPageSmall (s : PgTables) (isfree : Bool) (paddr : Nat) : PgTables :=
  if isfree then { s with freedSmall := s.freedSmall ++ [paddr] } else s

/-- `free_phy_one_page`, likewise. -/
def PgTables.freePhyOnePage (s : PgTables) (isfree : Bool) (paddr : Nat) : PgTables :=
  if isfree then { s with freedLarge := s.freedLarge ++ [paddr] } else s

/-- The loop of `unmap_free_at_impl` over one page table, with `left` entries to go before
    `++k >= PTRS_PER_PTE`. -/
def unmapPtes (isfree : Bool) (pte size : Nat) :
    Nat → Nat → PgTables → Except Fault (Nat × PgTables)
  | 0, len, s => .ok (len, s)
  | left + 1, len, s =>
      if len < size then
        let k := Fin.ofNat 512 (511 - left)
        let paddr := alignDown 0x1000 (s.load pte k)
        if paddr = 0 then .error (.panic "unmap free at none exist page:%lx\n")
        else unmapPtes isfree pte size left (len + 0x1000)
          ((s.freePhyPageSmall isfree paddr).store pte k 0)
      else .ok (len, s)

/-- The page table under the PDE `pd[n]`, where a large page is split first. -/
def tableToUnmap (s : PgTables) (pd : Nat) (n : Fin 512) : Except Fault (Option Nat × PgTables) :=
  let e := s.load pd n
  if isLargePage e then
    linkNewTable s "((ulong) pte & 0xfff) == 0"
      -- here the pieces do get `oldflag`
      (splitEntries (alignDown 0x1000 e) 0x1000 (e &&& 0xfff &&& notPS))
      (pteP ||| pteW ||| pteU) pd n
  else .ok (some (P2V (alignDown 0x1000 e)), s)

/-- The recursion of `unmap_free_at_impl`, one call for each PDE. -/
def unmapRegions (isfree : Bool) : Nat → Nat → Nat → PgTables → Except Fault PgTables
  | 0, _, _, _ => .error .hang
  | fuel + 1, vaddr, size, s =>
      if size = 0 then .ok s
      else match getPteWithAddr s (alignDown 0x200000 vaddr) with
        | none => .error (.panic "unmap free at none exist page\n")
        | some (pd, n) =>
            let e := s.load pd n
            if e = 0 then .error (.panic "unmap free at none exist page\n")
            else if isLargePage e ∧ alignDown 0x200000 vaddr = vaddr ∧ 0x200000 ≤ size then
              unmapRegions isfree fuel (wadd vaddr 0x200000) (size - 0x200000)
                ((s.freePhyOnePage isfree (alignDown 0x200000 e)).store pd n 0)
            else do
              let (pte, s) ← tableToUnmap s pd n
              match pte with
              -- no frame for the page table: a message, and the caller hears nothing
              | none => .ok s
              | some pte => do
                  let k := tableIndex pteShift vaddr
                  let (len, s) ← unmapPtes isfree pte size (512 - k) 0 s
                  if len < size then unmapRegions isfree fuel (wadd vaddr len) (size - len) s
                  else .ok s

/-- Every call of the recursion but the last takes at least one page off `size`. -/
def unmapFreeAtImpl (s : PgTables) (vaddr size : Nat) (isfree : Bool) : Except Fault PgTables :=
  unmapRegions isfree (size / 0x1000 + 1) vaddr size s

/-- `unmap_free_at`: unmaps and gives the frames back. -/
def unmapFreeAt (s : PgTables) (vaddr size : Nat) : Except Fault PgTables :=
  unmapFreeAtImpl s vaddr size true

/-- `unmap_at`: unmaps and keeps the frames. -/
def unmapAt (s : PgTables) (vaddr size : Nat) : Except Fault PgTables :=
  unmapFreeAtImpl s vaddr size false

/-! ## Mapping fresh memory -/

/-- The local variables of `map_alloc_at`. -/
structure MapProgress where
  ret : Nat
  len : Nat
  mapvaddr : Nat
  tables : PgTables

/-- One 4 KiB page after the other, until `len` reaches `stop`. The loop before the first 2 MiB
    boundary (`low`) asserts where the frame lies. -/
def mapSmall (low : Bool) (flag stop : Nat) : List Nat → MapProgress → Except Fault MapProgress
  | [], m => if m.len < stop then .ok { m with ret := ENOMEM } else .ok m
  | paddr :: data, m =>
      if m.len < stop then do
        assert "paddr<0x200000" (low → paddr < 0x200000)
        let s := { m.tables with data := data }
        let (ret, s) ← if paddr = 0 then .ok (ENOMEM, s) else map4kPageP2V s paddr m.mapvaddr flag
        -- the frame has left the source, also when it was not mapped
        if ret ≠ OK then .ok { m with ret := ret, tables := s }
        else
          mapSmall low flag stop data
            { m with len := wadd m.len 0x1000, mapvaddr := wadd m.mapvaddr 0x1000, tables := s }
      else .ok m

/-- One 2 MiB page after the other, while `len <= mapsize`. -/
def mapLarge (flag mapsize : Nat) : List Nat → MapProgress → Except Fault MapProgress
  | [], m => if m.len ≤ mapsize then .ok { m with ret := ENOMEM } else .ok m
  | paddr :: large, m =>
      if m.len ≤ mapsize then do
        let s := { m.tables with large := large }
        let (ret, s) ← if paddr = 0 then .ok (ENOMEM, s) else mapPageP2V s paddr m.mapvaddr flag
        if ret ≠ OK then .ok { m with ret := ret, tables := s }
        else
          mapLarge flag mapsize large
            { m with len := wadd m.len 0x200000, mapvaddr := wadd m.mapvaddr 0x200000, tables := s }
      else .ok m

/-- Up to the first 2 MiB boundary. -/
def mapHead (flag vaddr size : Nat) (m : MapProgress) : Except Fault MapProgress :=
  if vaddr % 0x200000 ≠ 0 then
    let mapsize := 0x200000 - vaddr % 0x200000
    let mapsize := if size > mapsize then mapsize else size
    mapSmall true flag mapsize m.tables.data m
  else .ok m

/-- The 2 MiB pages; a failed stage goes on to `freeat`. -/
def mapMiddle (flag size : Nat) (m : MapProgress) : Except Fault MapProgress :=
  if m.ret = OK ∧ 0x200000 ≤ wsub size m.len then
    mapLarge flag (wsub size 0x200000) m.tables.large m
  else .ok m

/-- The third loop of `map_alloc_at`: what is left, in 4 KiB pages. -/
def mapTail (flag size : Nat) (m : MapProgress) : Except Fault MapProgress :=
  if m.ret = OK then mapSmall false flag size m.tables.data m else .ok m

/-- `map_alloc_at`. What was mapped before a request is refused is unmapped again. -/
def mapAllocAt (s : PgTables) (vaddr size flag : Nat) : Except Fault (Nat × PgTables) := do
  let m ← mapHead flag vaddr size { ret := OK, len := 0, mapvaddr := vaddr, tables := s }
  let m ← mapMiddle flag size m
  let m ← mapTail flag size m
  if m.ret = OK then .ok (OK, m.tables)
  else if 0 < m.len then do
    let s ← unmapFreeAt m.tables vaddr m.len
    .ok (m.ret, s)
  else .ok (m.ret, m.tables)

/-! ## Walking the tables -/

/-- `PTE_PWT | PTE_PCD | PTE_U | PTE_W | PTE_P | PTE_PS | PTE_G`. -/
def walkFlags : Nat := 0x19f

/-- `map_flags_at`: the flags of the entry that maps `vaddr`. -/
def mapFlagsAt (s : PgTables) (vaddr : Nat) : Nat :=
  match getPteWithAddr s (alignDown 0x200000 vaddr) with
  | none => 0
  | some (pd, k) =>
      let e := s.load pd k
      if e &&& ptePS ≠ 0 then e &&& walkFlags
      else s.load (alignDown 0x1000 (P2V e)) (tableIndex pteShift vaddr) &&& walkFlags

/-- Returns `ret.v` and `ret.e`. -/
def mapPaddrFlagsAt (s : PgTables) (vaddr : Nat) : Nat × Nat :=
  match getPteWithAddr s (alignDown 0x200000 vaddr) with
  | none => (0, 0)
  | some (pd, k) =>
      let e := s.load pd k
      if isLargePage e then
        (wadd (alignDown 0x1000 e) (vaddr % 0x200000), e &&& walkFlags)
      else
        let e := s.load (alignDown 0x1000 (P2V e)) (tableIndex pteShift vaddr)
        (wadd (alignDown 0x1000 e) (vaddr % 0x1000), e &&& walkFlags)

/-- `get_phy_addr`. -/
def getPhyAddr (s : PgTables) (vaddr : Nat) : Nat := (mapPaddrFlagsAt s vaddr).1

/-! ## Ranges -/

/-- The loop of `map_copy_map`, for at most `fuel` rounds. -/
def copyPages (vend : Nat) : Nat → PgTables → Nat → Nat → Except Fault (Nat × PgTables)
  | 0, _, _, _ => .error .hang
  | fuel + 1, s, vaddr, oldaddr =>
      if oldaddr < vend then
        let af := mapPaddrFlagsAt s oldaddr
        if af.1 = 0 then .ok (EINVAL, s)
        else do
          let (ret, s) ← map4kPageP2V s af.1 vaddr af.2
          if ret ≠ OK then .ok (ENOMEM, s)
          else copyPages vend fuel s (wadd vaddr 0x1000) (wadd oldaddr 0x1000)
      else .ok (OK, s)

/-- `map_copy_map`. -/
def mapCopyMap (fuel : Nat) (s : PgTables) (vaddr oldaddr size : Nat) :
    Except Fault (Nat × PgTables) :=
  if size = 0 then .ok (OK, s) else copyPages (wadd oldaddr size) fuel s vaddr oldaddr

/-- The local variables of `map_p2v`. -/
structure P2VProgress where
  ret : Nat
  paddr : Nat
  vaddr : Nat
  len : Nat
  tables : PgTables

/-- A loop of `map_p2v`: `mapPage` for one page of `page` bytes after the other while `more len`, for at
    most `fuel` rounds. -/
def mapWhile (mapPage : PgTables → Nat → Nat → Nat → Except Fault (Nat × PgTables)) (page flag : Nat)
    (more : Nat → Bool) : Nat → P2VProgress → Except Fault P2VProgress
  | 0, _ => .error .hang
  | fuel + 1, m =>
      if more m.len then do
        let (ret, s) ← mapPage m.tables m.paddr m.vaddr flag
        if ret ≠ OK then .ok { m with ret := ret, tables := s }
        else
          mapWhile mapPage page flag more fuel
            { m with paddr := wadd m.paddr page, vaddr := wadd m.vaddr page, len := wadd m.len page,
                     tables := s }
      else .ok m

/-- Up to the first 2 MiB boundary. -/
def p2vHead (fuel flag size : Nat) (m : P2VProgress) : Except Fault P2VProgress :=
  if m.vaddr % 0x200000 ≠ 0 then
    let mapsize := 0x200000 - m.vaddr % 0x200000
    let mapsize := if size > mapsize then mapsize else size
    mapWhile map4kPageP2V 0x1000 flag (· < mapsize) fuel m
  else .ok m

/-- The second loop of `map_p2v`: 2 MiB pages. -/
def p2vMiddle (fuel flag size : Nat) (m : P2VProgress) : Except Fault P2VProgress :=
  if m.ret = OK ∧ 0x200000 ≤ wsub size m.len then
    mapWhile mapPageP2V 0x200000 flag (· ≤ wsub size 0x200000) fuel m
  else .ok m

/-- The third loop of `map_p2v`: what is left, in 4 KiB pages. -/
def p2vTail (fuel flag size : Nat) (m : P2VProgress) : Except Fault P2VProgress :=
  if m.ret = OK then mapWhile map4kPageP2V 0x1000 flag (· < size) fuel m else .ok m

/-- A stage that fails ends the call: the later ones leave `m` alone. -/
def mapP2V (fuel : Nat) (s : PgTables) (paddr vaddr size flag : Nat) :
    Except Fault (Nat × PgTables) := do
  let m ← p2vHead fuel flag size { ret := OK, paddr := paddr, vaddr := vaddr, len := 0, tables := s }
  let m ← p2vMiddle fuel flag size m
  let m ← p2vTail fuel flag size m
  .ok (m.ret, m.tables)

end Yaos
