import Yaos.Alloc.KHeap
import Yaos.Alloc.HolePool.Proofs
import Yaos.PageTable.Writes

set_option autoImplicit false

/-! # When no frame is left

`alloc_phy_page` and `alloc_phy_page_small` return 0 when they have nothing left. Most callers convert
the answer to a direct-map address first and test the converted address, and `P2V(0)` is not 0: they
go on with frame 0 as if it had been handed to them. The one caller that tests the physical address is
the branch of `map_4k_page_p2v` for a PDE that is not present.

`FrameRequest.reported_iff` says for every call and every state without frames whether the call
reports the failure. -/

namespace Yaos

open Word Chains TableTree

/-- The calls that may need a frame. -/
inductive FrameRequest
  | allocKheap4k (size : Nat)
  | heapAlloc4k (size : Nat)
  | buildPteWithAddr (addr : Nat)
  | map4kPageP2V (paddr vaddr flag : Nat)
  | mapPageP2V (paddr vaddr flag : Nat)
deriving DecidableEq, Repr

/-- What the calls work on: the 4 KiB kernel heap, the store of small frames, and the page tables. -/
structure FrameUsers where
  heap4k : HolePool
  small : HolePool
  tables : PgTables

/-- Nothing is left to be handed out for tables. Memory holds 64-bit words and `pml4` is not in frame
    0; apart from that the state is arbitrary. -/
structure FrameUsers.Exhausted (m : FrameUsers) : Prop where
  table : m.tables.table = []
  pt : m.tables.pt = []
  root : m.tables.pml4 ≠ 0
  root_lt : m.tables.pml4 < 2 ^ 64
  words : ∀ f n, m.tables.frames f n < 2 ^ 64

/-! ## Which calls ask for a frame -/

/-- The frame of the PDP of `vaddr`, 0 when there is none. -/
def PgTables.pdpFrame (s : PgTables) (vaddr : Nat) : Nat :=
  alignDown 0x1000 (s.frames s.pml4 (tableIndex pml4Shift vaddr))

/-- The entry for `vaddr` in the page directory pointer table that the PML4 names. -/
def PgTables.pdpte (s : PgTables) (vaddr : Nat) : Nat :=
  s.frames (s.pdpFrame vaddr) (tableIndex pdpShift vaddr)

/-- The frame of the page directory of `vaddr`, 0 when there is none. -/
def PgTables.pdFrame (s : PgTables) (vaddr : Nat) : Nat := alignDown 0x1000 (s.pdpte vaddr)

/-- The page directory entry for `vaddr`, in the directory that this one names. -/
def PgTables.pde (s : PgTables) (vaddr : Nat) : Nat :=
  s.frames (s.pdFrame vaddr) (tableIndex pdShift vaddr)

/-- `build_pte_with_addr` makes a PDP or a page directory. -/
def PgTables.LacksUpper (s : PgTables) (vaddr : Nat) : Prop :=
  s.pdpFrame vaddr = 0 ∨ s.pdFrame vaddr = 0

/-- `map_page_p2v` makes a PDP or a page directory, or splits a 1 GiB page. -/
def PgTables.LacksDirectory (s : PgTables) (vaddr : Nat) : Prop :=
  s.pdpFrame vaddr = 0 ∨ s.pdpte vaddr = 0 ∨ s.pdpte vaddr &&& ptePS ≠ 0

/-- The call needs a frame. -/
def FrameRequest.Asks (m : FrameUsers) : FrameRequest → Prop
  | allocKheap4k size => firstFit kheap4kHoles m.heap4k (roundUp 0x1000 size) = some none
  | heapAlloc4k size => firstFit phyPageHoles m.small (roundUp 0x1000 size) = some none
  | buildPteWithAddr addr => m.tables.LacksUpper addr
  | map4kPageP2V _ vaddr _ => m.tables.LacksUpper vaddr ∨
      isLargePage (m.tables.pde vaddr) = true ∨ m.tables.pde vaddr &&& pteP = 0
  | mapPageP2V _ vaddr _ => m.tables.LacksDirectory vaddr

/-- The argument checks the call makes. -/
def FrameRequest.Aligned : FrameRequest → Prop
  | allocKheap4k size => size < 2 ^ 64
  | heapAlloc4k size => size % 0x1000 = 0
  | buildPteWithAddr _ => True
  | map4kPageP2V paddr vaddr flag => paddr % 0x1000 = 0 ∧ vaddr % 0x1000 = 0 ∧ flag < 0x1000
  | mapPageP2V paddr vaddr flag => paddr % 0x200000 = 0 ∧ vaddr % 0x200000 = 0 ∧ flag < 0x1000

/-! ## Reporting the failure -/

/-- The same tables with other contents of frame 0. -/
def PgTables.withZero (s : PgTables) (c : Fin 512 → Nat) : PgTables :=
  { s with frames := Function.update s.frames 0 c }

/-- The call ends with `fail` and leaves memory alone, whatever frame 0 holds. -/
def LeavesMemory {α : Type} (s : PgTables) (fail : α)
    (call : PgTables → Except Fault (α × PgTables)) : Prop :=
  ∀ c, ∃ s', call (s.withZero c) = .ok (fail, s') ∧ s'.frames = (s.withZero c).frames

/-- The call returns 0 or `ENOMEM`, and nothing has been made of frame 0. -/
def FrameRequest.Reported (m : FrameUsers) : FrameRequest → Prop
  | allocKheap4k size => ∃ s pages, Yaos.allocKheap4k m.heap4k [] size = .ok (0, s, pages) ∧
      s.nodes = m.heap4k.nodes ∧ s.phead = m.heap4k.phead ∧ s.pfree = m.heap4k.pfree
  | heapAlloc4k size => ∃ s pages, Yaos.heapAlloc4k m.small [] size = .ok (0, s, pages)
  | buildPteWithAddr addr => LeavesMemory m.tables none fun s => Yaos.buildPteWithAddr s addr
  | map4kPageP2V paddr vaddr flag =>
      LeavesMemory m.tables ENOMEM fun s => Yaos.map4kPageP2V s paddr vaddr flag
  | mapPageP2V paddr vaddr flag =>
      LeavesMemory m.tables ENOMEM fun s => Yaos.mapPageP2V s paddr vaddr flag

/-- Only the page table is missing: the PDE is empty. -/
def FrameRequest.LacksOnlyPageTable (m : FrameUsers) : FrameRequest → Prop
  | map4kPageP2V _ vaddr _ => ¬ m.tables.LacksUpper vaddr ∧ m.tables.pde vaddr = 0
  | _ => False

/-! ## The heaps -/

theorem P2V_zero : P2V 0 = physVirtStart := rfl

theorem HolePool.modify_pnext_addr (s : HolePool) (i j : Nat) (k : Option Nat) :
    ((s.modify j fun n => { n with pnext := k }).nodes i).addr = (s.nodes i).addr := by
  by_cases hi : i = j
  · subst hi
    simp
  · simp [hi]

theorem unlinkHole_addr {c : HoleConfig} {s s' : HolePool} {p : Nat}
    (h : unlinkHole c s p = .ok s') (i : Nat) : (s'.nodes i).addr = (s.nodes i).addr := by
  unfold unlinkHole at h
  split at h
  · cases h
  · split at h
    · cases h
      rfl
    · split at h
      · cases h
        exact s.modify_pnext_addr _ _ _
      · split at h
        · cases h
        · split at h
          · cases h
          · cases h
            exact s.modify_pnext_addr _ _ _

theorem carveHole_addr {c : HoleConfig} {drop p size a : Nat} {s s' : HolePool}
    (h : carveHole c drop s p size = .ok (a, s')) :
    a = (s.nodes p).addr ∧ (s'.nodes p).addr = wadd a size := by
  dsimp only [carveHole] at h
  split at h
  · obtain ⟨s₁, hunlink, h⟩ := bind_eq_ok.1 h
    cases h
    simp [HolePool.pushFree, unlinkHole_addr hunlink]
  · cases h
    simp

/-- Freeing a range changes no address but that of the node used for it. -/
theorem insertHole_addr {c : HoleConfig} {s s' : HolePool} {p addr size : Nat}
    (h : insertHole c s p addr size = .ok s') (i : Nat) :
    (s'.nodes i).addr = (s.nodes i).addr ∨ (s'.nodes i).addr = addr := by
  have hset : ((s.modify p fun n => { n with addr := addr, size := size }).nodes i).addr =
      (s.nodes i).addr ∨
      ((s.modify p fun n => { n with addr := addr, size := size }).nodes i).addr = addr := by
    by_cases hi : i = p
    · subst hi
      simp
    · simp [hi]
  unfold insertHole at h
  dsimp only at h
  split at h
  · cases h
    simpa [HolePool.pushHead, HolePool.modify_pnext_addr] using hset
  · split at h
    · cases h
      simpa [HolePool.pushHead, HolePool.modify_pnext_addr] using hset
    · split at h
      · cases h
      · cases h
        simpa [HolePool.linkAfter, HolePool.modify_pnext_addr] using hset

theorem freeHole_addr {c : HoleConfig} {s s' : HolePool} {addr size : Nat}
    (h : freeHole c s addr size = .ok s') (i : Nat) :
    (s'.nodes i).addr = (s.nodes i).addr ∨ (s'.nodes i).addr = addr := by
  unfold freeHole at h
  split at h
  · cases h
  · dsimp only at h
    split at h
    · cases h
    · rename_i ph _
      cases h
      left
      by_cases hi : i = ph
      · subst hi
        split <;> simp
      · split <;> simp [hi]
    · exact insertHole_addr h i

/-- Into an empty list the range goes as it is. -/
theorem freeHole_empty {c : HoleConfig} {s s' : HolePool} {addr size : Nat}
    (hempty : s.phead = none) (h : freeHole c s addr size = .ok s') :
    ∃ p, s'.phead = some p ∧ (s'.nodes p).addr = addr := by
  unfold freeHole at h
  split at h
  · cases h
  · rename_i p _
    dsimp only at h
    have hwalk : ∀ stop, walk s.spinLock.next stop c.capacity none = some none := by
      intro stop
      cases c.capacity <;> rfl
    rw [HolePool.spinLock_phead, hempty, hwalk] at h
    refine ⟨p, ?_⟩
    unfold insertHole at h
    simp only [HolePool.modify_phead] at h
    cases h
    simp [HolePool.pushHead]

/-- `alloc_kheap_4k` puts `[P2V(0), P2V(0) + 2 MiB)` on its list and serves the request from there. -/
theorem allocKheap4k_not_reported {s s' : HolePool} {size : Nat} {pages : List Nat}
    (hlt : size < 2 ^ 64) (hfit : firstFit kheap4kHoles s (roundUp 0x1000 size) = some none)
    (hrun : allocKheap4k s [] size = .ok (0, s', pages)) : s'.nodes ≠ s.nodes := by
  intro hnodes
  have hfit' : firstFit kheap4kHoles s.spinLock (roundUp 0x1000 size) = some none := hfit
  dsimp only [allocKheap4k] at hrun
  rw [hfit'] at hrun
  obtain ⟨⟨p, t, ps⟩, hsearch, hrun⟩ := bind_eq_ok.1 hrun
  dsimp only [refillKheap4k, refillKheap4kOnce] at hsearch
  rw [if_neg (by decide)] at hsearch
  obtain ⟨s₁, hfree, hsearch⟩ := bind_eq_ok.1 hsearch
  have ⟨_, hfree'⟩ := assert_bind_eq_ok.1 hfree
  split at hsearch
  · cases hsearch
  · rename_i q hq
    cases hsearch
    obtain ⟨⟨a, s₂⟩, hcarve, hrun⟩ := bind_eq_ok.1 hrun
    cases hrun
    -- the block at address 0 is cut off the front of `q`, which moves the hole
    obtain ⟨hzero, hadd⟩ := carveHole_addr hcarve
    have hadd' : (s.nodes q).addr = wadd 0 (roundUp 0x1000 size) := by
      rw [← hnodes]
      exact hadd
    have hsize : roundUp 0x1000 size < 2 ^ 64 := by
      unfold roundUp
      split
      · exact wadd_lt ..
      · exact hlt
    rcases freeHole_addr hfree' q with hold | hnew
    · -- an old hole at address 0 would have moved, unless nothing was asked for
      have hsize0 : roundUp 0x1000 size = 0 := by
        have h0 : (s.nodes q).addr = 0 := by
          rw [HolePool.spinLock_nodes] at hzero
          rw [hzero, hold]
          rfl
        rw [h0] at hadd'
        unfold wadd at hadd'
        omega
      have hempty : s.phead = none := by
        rw [hsize0] at hfit
        unfold firstFit at hfit
        cases hhead : s.phead with
        | none => rfl
        | some i =>
            rw [hhead] at hfit
            simp [walk, kheap4kHoles] at hfit
      obtain ⟨r, hr, haddr⟩ := freeHole_empty (s := s.spinLock.spinUnlock) hempty hfree'
      have hqr : q = r := by
        rw [hsize0] at hq
        unfold firstFitOrLast at hq
        rw [HolePool.spinLock_phead, hr] at hq
        simpa [walk, kheap4kHoles] using hq.symm
      subst hqr
      rw [HolePool.spinLock_nodes, haddr] at hzero
      exact absurd hzero (by decide)
    · rw [HolePool.spinLock_nodes, hnew] at hzero
      exact absurd hzero (by decide)
  · cases hsearch

theorem heapAlloc4k_exhausted {s : HolePool} {size : Nat} (halign : size % 0x1000 = 0)
    (hfit : firstFit phyPageHoles s (roundUp 0x1000 size) = some none) :
    ∃ s', heapAlloc4k s [] size = .ok (physVirtStart, s', []) := by
  have hfit' : firstFit phyPageHoles s.spinLock (roundUp 0x1000 size) = some none := hfit
  refine ⟨s.spinLock.spinUnlock, ?_⟩
  have halloc : allocPhyPageSmall s [] size = .ok (0, s.spinLock.spinUnlock, []) := by
    dsimp only [allocPhyPageSmall]
    rw [hfit']
    rfl
  rw [heapAlloc4k, assert_pos halign, ok_bind, halloc, ok_bind]
  rfl

/-! ## The page tables -/

section Tables

variable {s : PgTables} {vaddr : Nat}

/-- Frame 0 is cleared and linked from entry `n` of `p`. -/
def PgTables.linkZero (s : PgTables) (p : Nat) (n : Fin 512) (flags : Nat) : PgTables :=
  (s.fill physVirtStart fun _ => 0).store p n flags

@[simp] theorem PgTables.linkZero_table (s : PgTables) (p : Nat) (n : Fin 512) (flags : Nat) :
    (s.linkZero p n flags).table = s.table := rfl

@[simp] theorem PgTables.linkZero_pt (s : PgTables) (p : Nat) (n : Fin 512) (flags : Nat) :
    (s.linkZero p n flags).pt = s.pt := rfl

/-- Frame 0 is filled and linked. -/
theorem linkNewTable_exhausted (h : s.table = []) (text : String) (v : Fin 512 → Nat)
    (flags p : Nat) (n : Fin 512) :
    linkNewTable s text v flags p n =
      .ok (some physVirtStart, (s.fill physVirtStart v).store p n flags) := by
  have hs : { s with table := s.table.tail } = s := by
    have htail : s.table.tail = s.table := by rw [h, List.tail_nil]
    rw [htail]
  have hnew : newTable s text v = .ok (some physVirtStart, s.fill physVirtStart v) := by
    dsimp only [newTable]
    rw [hs, h, List.headD_nil, P2V_zero, assert_pos (by decide), ok_bind, if_neg (by decide)]
  have hlink : linkTable (s.fill physVirtStart v) p n physVirtStart flags =
      .ok ((s.fill physVirtStart v).store p n flags) := by
    dsimp only [linkTable]
    rw [V2P_eq ⟨le_rfl, by decide⟩, ok_bind, Nat.sub_self, Nat.zero_or]
  rw [linkNewTable, hnew, ok_bind]
  dsimp only
  rw [hlink, ok_bind]

theorem nextTable_exhausted (h : s.table = []) (text : String) (flags p : Nat) (n : Fin 512)
    (hzero : alignDown 0x1000 (s.load p n) = 0) :
    nextTable s text flags p n =
      .ok (some physVirtStart, s.linkZero p n flags) := by
  dsimp only [nextTable]
  rw [if_pos hzero, linkNewTable_exhausted h, PgTables.linkZero]

theorem nextTable_there (text : String) (flags p : Nat) (n : Fin 512)
    (hlink : alignDown 0x1000 (s.load p n) ≠ 0) :
    nextTable s text flags p n = .ok (some (P2V (alignDown 0x1000 (s.load p n))), s) := by
  dsimp only [nextTable]
  rw [if_neg hlink]

/-- Nothing is left, and the tables are in memory of 64-bit words. -/
structure PgTables.Dry (s : PgTables) : Prop where
  table : s.table = []
  pt : s.pt = []
  root : s.pml4 ≠ 0
  root_lt : s.pml4 < 2 ^ 64
  words : ∀ f n, f ≠ 0 → s.frames f n < 2 ^ 64

theorem PgTables.load_frame (s : PgTables) {f : Nat} (hf : f < 2 ^ 64) (n : Fin 512) :
    s.load (P2V f) n = s.frames f n := by
  rw [PgTables.load, wsub_P2V hf]

theorem PgTables.Dry.pdpFrame_lt (h : s.Dry) : s.pdpFrame vaddr < 2 ^ 64 :=
  (alignDown_le ..).trans_lt (h.words _ _ h.root)

theorem PgTables.Dry.pdFrame_lt (h : s.Dry) (hpdp : s.pdpFrame vaddr ≠ 0) :
    s.pdFrame vaddr < 2 ^ 64 := (alignDown_le ..).trans_lt (h.words _ _ hpdp)

theorem PgTables.Dry.load_pml4 (h : s.Dry) :
    alignDown 0x1000 (s.load (P2V s.pml4) (tableIndex pml4Shift vaddr)) = s.pdpFrame vaddr := by
  rw [s.load_frame h.root_lt]
  rfl

/-- After frame 0 has been linked below the table in frame `f`, frame 0 is clear but for the link
    itself. -/
theorem PgTables.linkZero_zero (s : PgTables) {f : Nat} (hf : f < 2 ^ 64) (n m : Fin 512)
    (flags : Nat) :
    (s.linkZero (P2V f) n flags).frames 0 m = if f = 0 ∧ m = n then flags else 0 := by
  have hfill : s.fill physVirtStart (fun _ => 0) =
      { s with frames := Function.update s.frames 0 fun _ => 0 } :=
    s.fill_P2V (t := 0) _ (by decide)
  rw [PgTables.linkZero, PgTables.store_P2V _ _ hf, hfill]
  dsimp only
  split
  case isTrue h =>
    obtain ⟨rfl, rfl⟩ := h
    exact setEntry_self ..
  case isFalse h =>
    rw [setEntry_of_ne _ _ (fun h0 hm => h ⟨h0.symm, hm⟩)]
    simp

/-- Below a table other than frame 0. -/
theorem PgTables.linkZero_clear (s : PgTables) {f : Nat} (hf : f < 2 ^ 64) (h0 : f ≠ 0)
    (n m : Fin 512) (flags : Nat) : (s.linkZero (P2V f) n flags).load physVirtStart m = 0 := by
  rw [← P2V_zero, PgTables.load_frame _ (by decide), s.linkZero_zero hf, if_neg fun h => h0 h.1]

/-- What is left of frame 0 after the tables above have been made of it. -/
structure MadeOfZero (s s' : PgTables) : Prop where
  table : s'.table = []
  pt : s'.pt = s.pt
  zero : ∀ n, s'.frames 0 n = 0 ∨ s'.frames 0 n = pteP ||| pteW

/-- `build_pte_with_addr` returns a page directory in frame 0. -/
theorem buildPteWithAddr_exhausted (h : s.Dry) (hlacks : s.LacksUpper vaddr) :
    ∃ s', buildPteWithAddr s vaddr =
      .ok (some (physVirtStart, tableIndex pdShift vaddr), s') ∧ MadeOfZero s s' := by
  unfold buildPteWithAddr
  by_cases hpdp : s.pdpFrame vaddr = 0
  · rw [nextTable_exhausted h.table _ _ _ _ (h.load_pml4.trans hpdp), ok_bind]
    dsimp only
    rw [nextTable_exhausted (s := s.linkZero _ _ _) h.table _ _ _ _
      (by rw [s.linkZero_clear h.root_lt h.root]; rfl), ok_bind]
    refine ⟨_, rfl, h.table, rfl, fun n => ?_⟩
    rw [← P2V_zero, PgTables.linkZero_zero _ (by decide)]
    split
    · exact .inr rfl
    · exact .inl rfl
  · have hpd := hlacks.resolve_left hpdp
    rw [nextTable_there _ _ _ _ (by rwa [h.load_pml4]), ok_bind, h.load_pml4]
    dsimp only
    rw [nextTable_exhausted h.table _ _ _ _ (by rwa [s.load_frame h.pdpFrame_lt]), ok_bind]
    refine ⟨_, rfl, h.table, rfl, fun n => .inl ?_⟩
    rw [s.linkZero_zero h.pdpFrame_lt, if_neg (fun h0 => hpdp h0.1)]

theorem buildPteWithAddr_there (h : s.Dry) (hhas : ¬ s.LacksUpper vaddr) :
    buildPteWithAddr s vaddr =
      .ok (some (P2V (s.pdFrame vaddr), tableIndex pdShift vaddr), s) := by
  have hpdp : s.pdpFrame vaddr ≠ 0 := fun h0 => hhas (.inl h0)
  have hpd : s.pdFrame vaddr ≠ 0 := fun h0 => hhas (.inr h0)
  unfold buildPteWithAddr
  rw [nextTable_there _ _ _ _ (by rwa [h.load_pml4]), ok_bind, h.load_pml4]
  dsimp only
  rw [nextTable_there _ _ _ _ (by rwa [s.load_frame h.pdpFrame_lt]), ok_bind,
    s.load_frame h.pdpFrame_lt]
  rfl

/-- `map_page_p2v` maps the page, in a directory in frame 0. -/
theorem mapPageP2V_exhausted {paddr flag : Nat} (h : s.Dry) (hlacks : s.LacksDirectory vaddr)
    (hpa : paddr % 0x200000 = 0) (hv : vaddr % 0x200000 = 0) (hf : flag < 0x1000) :
    ∃ s', mapPageP2V s paddr vaddr flag = .ok (OK, s') := by
  have hflag : alignDown 0x1000 flag = 0 := by
    unfold alignDown
    omega
  rw [mapPageP2V, assert_pos hv, assert_pos hpa, assert_pos hflag, ok_bind, ok_bind, ok_bind]
  by_cases hpdp : s.pdpFrame vaddr = 0
  · rw [nextTable_exhausted h.table _ _ _ _ (h.load_pml4.trans hpdp), ok_bind]
    dsimp only [pageDirectoryFor]
    rw [if_pos (s.linkZero_clear h.root_lt h.root ..),
      linkNewTable_exhausted (s := s.linkZero _ _ _) h.table, ok_bind]
    exact ⟨_, rfl⟩
  · have hpdpte := hlacks.resolve_left hpdp
    rw [nextTable_there _ _ _ _ (by rwa [h.load_pml4]), ok_bind, h.load_pml4]
    dsimp only [pageDirectoryFor]
    rw [s.load_frame h.pdpFrame_lt, ← PgTables.pdpte]
    by_cases hzero : s.pdpte vaddr = 0
    · rw [if_pos hzero, linkNewTable_exhausted h.table, ok_bind]
      exact ⟨_, rfl⟩
    · rw [if_neg hzero, if_pos (hpdpte.resolve_left hzero), linkNewTable_exhausted h.table, ok_bind]
      exact ⟨_, rfl⟩

theorem PgTables.lacksUpper_alignDown :
    s.LacksUpper (alignDown 0x200000 vaddr) ↔ s.LacksUpper vaddr := by
  unfold LacksUpper pdFrame pdpte pdpFrame
  rw [tableIndex_alignDown pml4Shift vaddr (by decide),
    tableIndex_alignDown pdpShift vaddr (by decide)]

theorem PgTables.pdFrame_alignDown : s.pdFrame (alignDown 0x200000 vaddr) = s.pdFrame vaddr := by
  unfold pdFrame pdpte pdpFrame
  rw [tableIndex_alignDown pml4Shift vaddr (by decide),
    tableIndex_alignDown pdpShift vaddr (by decide)]

/-- The page table under a PDE in frame 0: there is none, or frame 0 is its own page table. -/
theorem pageTableFor_madeOfZero {s' : PgTables} (h : s.Dry) (hm : MadeOfZero s s') (k : Fin 512) :
    ∃ r s₁, pageTableFor s' physVirtStart k = .ok (r, s₁) ∧
      (r = none → ∀ n, s₁.frames 0 n = 0 ∨ s₁.frames 0 n = pteP ||| pteW) := by
  have hload : s'.load physVirtStart k = s'.frames 0 k := s'.load_frame (f := 0) (by decide) k
  dsimp only [pageTableFor]
  rw [hload]
  rcases hm.zero k with he | he
  · rw [he, hm.pt, h.pt]
    refine ⟨none, _, rfl, fun _ n => ?_⟩
    rw [← P2V_zero, PgTables.store_P2V _ _ (by decide)]
    dsimp only [List.headD_nil]
    by_cases hn : n = k
    · subst hn
      exact .inl (setEntry_self ..)
    · rw [setEntry_of_ne _ _ fun _ => hn]
      exact hm.zero n
  · rw [he]
    exact ⟨_, _, rfl, fun h => by cases h⟩

/-- The branch of the source that tests the physical address. -/
theorem pageTableFor_missing (h : s.Dry) {g : Nat} (hg : g < 2 ^ 64) {k : Fin 512}
    (hzero : s.frames g k = 0) : ∃ s', pageTableFor s (P2V g) k = .ok (none, s') ∧
      s'.frames = s.frames := by
  dsimp only [pageTableFor]
  rw [s.load_frame hg, hzero, h.pt]
  refine ⟨_, rfl, ?_⟩
  rw [PgTables.store_P2V _ _ hg]
  funext f n
  dsimp only [List.headD_nil]
  by_cases hfn : f = g ∧ n = k
  · obtain ⟨rfl, rfl⟩ := hfn
    rw [setEntry_self, hzero]
  · rw [setEntry_of_ne _ _ fun hf hn => hfn ⟨hf, hn⟩]

/-- A PDE that is not present but not 0 either is overwritten, or fails the assertion. -/
theorem pageTableFor_remnant (h : s.Dry) {g : Nat} (hg : g < 2 ^ 64) {k : Fin 512}
    (hne : s.frames g k ≠ 0) (hp : s.frames g k &&& pteP = 0) {s' : PgTables} {r : Option Nat}
    (hrun : pageTableFor s (P2V g) k = .ok (r, s')) : s'.frames g k ≠ s.frames g k := by
  have hsmall : ¬ isLargePage (s.frames g k) = true := by
    rw [isLargePage_iff]
    exact fun hl => and_pteP_eq_zero.1 hp hl.1
  dsimp only [pageTableFor] at hrun
  rw [s.load_frame hg, if_neg hsmall, if_pos hp, h.pt] at hrun
  obtain ⟨-, hrun⟩ := assert_bind_eq_ok.1 hrun
  cases hrun
  rw [PgTables.store_P2V _ _ hg]
  dsimp only [List.headD_nil]
  rw [setEntry_self]
  exact hne.symm

theorem pageTableFor_splits_zero (h : s.Dry) {g : Nat} (hg : g < 2 ^ 64) {k : Fin 512}
    (hl : isLargePage (s.frames g k) = true) :
    ∃ q s', pageTableFor s (P2V g) k = .ok (some q, s') := by
  dsimp only [pageTableFor]
  rw [s.load_frame hg, if_pos hl, linkNewTable_exhausted h.table]
  exact ⟨_, _, rfl⟩

section Map4k

variable {paddr flag : Nat} (hpa : paddr % 0x1000 = 0) (hv : vaddr % 0x1000 = 0)
  (hf : flag < 0x1000)

include hpa hv hf

/-- `map_4k_page_p2v` behind its assertions. -/
theorem map4kPageP2V_eq {pd : Nat} {k : Fin 512} {s₁ : PgTables}
    (hbuild : buildPteWithAddr s (alignDown 0x200000 vaddr) = .ok (some (pd, k), s₁)) :
    map4kPageP2V s paddr vaddr flag = (do
      let (p, s₂) ← pageTableFor s₁ pd k
      match p with
      | none => .ok (ENOMEM, s₂)
      | some p => .ok (OK, s₂.store p (tableIndex pteShift vaddr)
          (paddr ||| (flag &&& notPS) ||| pteG))) := by
  have hflag : alignDown 0x1000 flag = 0 := by
    unfold alignDown
    omega
  rw [map4kPageP2V, assert_bind hpa, assert_bind hv, assert_bind hflag]
  exact congrArg (· >>= _) hbuild

theorem map4kPageP2V_exhausted_upper (h : s.Dry) (hlacks : s.LacksUpper vaddr) {s' : PgTables}
    (hrun : map4kPageP2V s paddr vaddr flag = .ok (ENOMEM, s')) (n : Fin 512) :
    s'.frames 0 n = 0 ∨ s'.frames 0 n = pteP ||| pteW := by
  obtain ⟨s₁, hbuild, hm⟩ := buildPteWithAddr_exhausted h (PgTables.lacksUpper_alignDown.2 hlacks)
  obtain ⟨r, s₂, hpt, hzero⟩ := pageTableFor_madeOfZero h hm (tableIndex pdShift
    (alignDown 0x200000 vaddr))
  rw [map4kPageP2V_eq hpa hv hf hbuild, hpt, ok_bind] at hrun
  cases r with
  | none =>
      cases hrun
      exact hzero rfl n
  | some p => cases hrun

theorem map4kPageP2V_there (h : s.Dry) (hhas : ¬ s.LacksUpper vaddr) :
    map4kPageP2V s paddr vaddr flag = (do
      let (p, s₂) ← pageTableFor s (P2V (s.pdFrame vaddr)) (tableIndex pdShift vaddr)
      match p with
      | none => .ok (ENOMEM, s₂)
      | some p => .ok (OK, s₂.store p (tableIndex pteShift vaddr)
          (paddr ||| (flag &&& notPS) ||| pteG))) := by
  have hbuild := buildPteWithAddr_there h (mt PgTables.lacksUpper_alignDown.1 hhas)
  rw [map4kPageP2V_eq hpa hv hf hbuild, PgTables.pdFrame_alignDown,
    tableIndex_alignDown pdShift vaddr (by decide)]

/-- When the PDP and the page directory are there and the PDE needs a page table. -/
theorem map4kPageP2V_reported_iff (h : s.Dry) (hhas : ¬ s.LacksUpper vaddr)
    (hasks : isLargePage (s.pde vaddr) = true ∨ s.pde vaddr &&& pteP = 0) :
    (∃ s', map4kPageP2V s paddr vaddr flag = .ok (ENOMEM, s') ∧ s'.frames = s.frames) ↔
      s.pde vaddr = 0 := by
  have hlt : s.pdFrame vaddr < 2 ^ 64 := h.pdFrame_lt fun h0 => hhas (.inl h0)
  rw [map4kPageP2V_there hpa hv hf h hhas]
  constructor
  · rintro ⟨s', hrun, hsame⟩
    by_contra hne
    rcases hasks with hl | hp
    · obtain ⟨q, s₁, hpt⟩ := pageTableFor_splits_zero h hlt hl
      rw [hpt] at hrun
      cases hrun
    · obtain ⟨⟨r, s₁⟩, hpt, hrun⟩ := bind_eq_ok.1 hrun
      have hchanged := pageTableFor_remnant h hlt hne hp hpt
      cases r with
      | none =>
          cases hrun
          exact hchanged (congrFun (congrFun hsame _) _)
      | some q => cases hrun
  · intro hzero
    obtain ⟨s₁, hpt, hsame⟩ := pageTableFor_missing h hlt hzero
    refine ⟨s₁, ?_, hsame⟩
    rw [hpt]
    rfl

end Map4k

/-! ### Whatever frame 0 holds -/

theorem PgTables.withZero_frames {f : Nat} (hf : f ≠ 0) (c : Fin 512 → Nat) :
    (s.withZero c).frames f = s.frames f := Function.update_of_ne hf ..

theorem PgTables.Dry.withZero (h : s.Dry) (c : Fin 512 → Nat) : (s.withZero c).Dry where
  table := h.table
  pt := h.pt
  root := h.root
  root_lt := h.root_lt
  words := fun f n hf => by
    rw [PgTables.withZero_frames hf]
    exact h.words f n hf

theorem PgTables.Dry.withZero_pdpFrame (h : s.Dry) (c : Fin 512 → Nat) :
    (s.withZero c).pdpFrame vaddr = s.pdpFrame vaddr := by
  unfold PgTables.pdpFrame
  rw [← PgTables.withZero_frames h.root c]
  rfl

theorem PgTables.Dry.withZero_pdpte (h : s.Dry) (c : Fin 512 → Nat) (hpdp : s.pdpFrame vaddr ≠ 0) :
    (s.withZero c).pdpte vaddr = s.pdpte vaddr := by
  unfold PgTables.pdpte
  rw [h.withZero_pdpFrame, PgTables.withZero_frames hpdp]

theorem PgTables.Dry.withZero_lacksUpper (h : s.Dry) (c : Fin 512 → Nat) :
    (s.withZero c).LacksUpper vaddr ↔ s.LacksUpper vaddr := by
  unfold PgTables.LacksUpper
  rw [h.withZero_pdpFrame]
  by_cases hpdp : s.pdpFrame vaddr = 0
  · simp [hpdp]
  · rw [PgTables.pdFrame, h.withZero_pdpte c hpdp, PgTables.pdFrame]

theorem PgTables.Dry.withZero_pde (h : s.Dry) (c : Fin 512 → Nat) (hhas : ¬ s.LacksUpper vaddr) :
    (s.withZero c).pde vaddr = s.pde vaddr := by
  have hpdp : s.pdpFrame vaddr ≠ 0 := fun h0 => hhas (.inl h0)
  have hpd : s.pdFrame vaddr ≠ 0 := fun h0 => hhas (.inr h0)
  unfold PgTables.pde
  rw [PgTables.pdFrame, h.withZero_pdpte c hpdp, ← PgTables.pdFrame,
    PgTables.withZero_frames hpd]

theorem PgTables.Dry.withZero_lacksDirectory (h : s.Dry) (c : Fin 512 → Nat)
    (hlacks : s.LacksDirectory vaddr) : (s.withZero c).LacksDirectory vaddr := by
  by_cases hpdp : s.pdpFrame vaddr = 0
  · exact .inl ((h.withZero_pdpFrame c).trans hpdp)
  · rw [PgTables.LacksDirectory, h.withZero_pdpte c hpdp]
    exact .inr (hlacks.resolve_left hpdp)

end Tables

/-! ## All calls -/

theorem FrameUsers.Exhausted.dry {m : FrameUsers} (h : m.Exhausted) : m.tables.Dry :=
  ⟨h.table, h.pt, h.root, h.root_lt, fun f n _ => h.words f n⟩

theorem map4k_reported_iff {m : FrameUsers} (h : m.Exhausted) {paddr vaddr flag : Nat}
    (hr : (FrameRequest.map4kPageP2V paddr vaddr flag).Aligned)
    (hasks : (FrameRequest.map4kPageP2V paddr vaddr flag).Asks m) :
    (FrameRequest.map4kPageP2V paddr vaddr flag).Reported m ↔
      ¬ m.tables.LacksUpper vaddr ∧ m.tables.pde vaddr = 0 := by
  obtain ⟨hpa, hv, hf⟩ := hr
  by_cases hlacks : m.tables.LacksUpper vaddr
  · -- frame 0 does not keep a content of ones
    refine ⟨fun hrep => ?_, fun hc => absurd hlacks hc.1⟩
    obtain ⟨s', hrun, hsame⟩ := hrep fun _ => 1
    have hzero := map4kPageP2V_exhausted_upper hpa hv hf (h.dry.withZero _)
      ((h.dry.withZero_lacksUpper _).2 hlacks) hrun 0
    rw [hsame, PgTables.withZero] at hzero
    simp [pteP, pteW] at hzero
  · have hpde := hasks.resolve_left hlacks
    have hiff : ∀ c, (∃ s', map4kPageP2V (m.tables.withZero c) paddr vaddr flag = .ok (ENOMEM, s') ∧
        s'.frames = (m.tables.withZero c).frames) ↔ m.tables.pde vaddr = 0 := by
      intro c
      rw [map4kPageP2V_reported_iff hpa hv hf (h.dry.withZero c)
        (mt (h.dry.withZero_lacksUpper c).1 hlacks) (by rwa [h.dry.withZero_pde c hlacks]),
        h.dry.withZero_pde c hlacks]
    constructor
    · exact fun hrep => ⟨hlacks, (hiff fun _ => 0).1 (hrep _)⟩
    · exact fun hc c => (hiff c).2 hc.2

/-- **When a call reports that no frame is left.** In every state without frames, a call that needs one
    reports the failure and leaves memory alone if and only if it is `map_4k_page_p2v` and all it
    lacks is the page table under an empty PDE. -/
theorem FrameRequest.reported_iff {m : FrameUsers} (h : m.Exhausted) {r : FrameRequest}
    (hr : r.Aligned) : (r.Asks m → r.Reported m) ↔ ¬ r.Asks m ∨ r.LacksOnlyPageTable m := by
  suffices hiff : r.Asks m → (r.Reported m ↔ r.LacksOnlyPageTable m) by
    by_cases hasks : r.Asks m
    · simp [hasks, hiff hasks]
    · simp [hasks]
  intro hasks
  cases r with
  | allocKheap4k size =>
      refine iff_of_false ?_ not_false
      rintro ⟨s, pages, hrun, hnodes, -⟩
      exact allocKheap4k_not_reported hr hasks hrun hnodes
  | heapAlloc4k size =>
      refine iff_of_false ?_ not_false
      rintro ⟨s, pages, hrun⟩
      obtain ⟨s', hrun'⟩ := heapAlloc4k_exhausted hr hasks
      rw [hrun'] at hrun
      cases hrun
  | buildPteWithAddr addr =>
      refine iff_of_false (fun hrep => ?_) not_false
      obtain ⟨s', hrun, -⟩ := hrep fun _ => 0
      obtain ⟨s₁, hrun', -⟩ := buildPteWithAddr_exhausted (h.dry.withZero fun _ => 0)
        ((h.dry.withZero_lacksUpper _).2 hasks)
      dsimp only at hrun
      rw [hrun'] at hrun
      cases hrun
  | map4kPageP2V paddr vaddr flag => exact map4k_reported_iff h hr hasks
  | mapPageP2V paddr vaddr flag =>
      refine iff_of_false (fun hrep => ?_) not_false
      obtain ⟨s', hrun, -⟩ := hrep fun _ => 0
      obtain ⟨s₁, hrun'⟩ := mapPageP2V_exhausted (h.dry.withZero fun _ => 0)
        (h.dry.withZero_lacksDirectory _ hasks) hr.1 hr.2.1 hr.2.2
      dsimp only at hrun
      rw [hrun'] at hrun
      cases hrun

/-- After boot: both lists empty, a cleared PML4 in frame `0x1000`. -/
def nothingLeft : FrameUsers where
  heap4k := initHoles kheap4kHoles.capacity
  small := initPhyPage
  tables :=
    { frames := fun _ _ => 0, pml4 := 0x1000, data := [], pt := [], table := [], large := []
      freedSmall := [], freedLarge := [] }

theorem nothingLeft_exhausted : nothingLeft.Exhausted :=
  ⟨rfl, rfl, by decide, by decide, fun _ _ => Nat.two_pow_pos 64⟩

theorem FrameRequest.reported_iff_nothingLeft :
    ¬ (FrameRequest.Asks nothingLeft (.mapPageP2V 0x200000 0 0x83) →
      FrameRequest.Reported nothingLeft (.mapPageP2V 0x200000 0 0x83)) := by
  have halign : (FrameRequest.mapPageP2V 0x200000 0 0x83).Aligned :=
    ⟨by decide, by decide, by decide⟩
  rw [FrameRequest.reported_iff nothingLeft_exhausted halign]
  rintro (hasks | hlacks)
  · exact hasks (.inl rfl)
  · exact hlacks

/-- The kernel heap hands out `P2V(0)`. -/
theorem allocKheap4k_returns_zero_frame :
    FrameRequest.Asks nothingLeft (.allocKheap4k 0x1000) ∧
      (∃ s, allocKheap4k nothingLeft.heap4k [] 0x1000 = .ok (P2V 0, s, [])) ∧
      ¬ FrameRequest.Reported nothingLeft (.allocKheap4k 0x1000) := by
  refine ⟨rfl, ⟨_, rfl⟩, ?_⟩
  rintro ⟨s, pages, hrun, -⟩
  cases hrun

end Yaos
