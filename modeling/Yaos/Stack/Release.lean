import Yaos.Stack.Guards
import Yaos.Alloc.LinearZone.Lending
import Yaos.PageTable.PageRange
import Yaos.PageTable.Pages
import Mathlib.Data.Finset.Card
import Mathlib.Data.List.Perm.Basic

set_option autoImplicit false

/-! # Freeing a stack

`free_vm_stack` unmaps the whole stack, page by page, and the loop panics at the first page that maps no
frame. Of a stack that was just made only the top page does; the others are mapped when they are first
touched. So a stack can be freed only after every single page of it was in use. -/

namespace Yaos

open Word TableTree

/-- The page that `alloc_vm_stack` maps. -/
def topPage (addr size : Nat) : Nat := wsub (wadd addr size) 0x1000

/-- `map_page` for one fault after the other: the address, and the frame there was for it. -/
def faultIn (s : Stacks) (faults : List (Nat × Nat)) : Except Fault Stacks :=
  faults.foldlM (fun s f => mapPage s f.1 f.2) s

/-- The mapped pages of a stack with their frames. -/
def stackPages (s : Stacks) (addr size : Nat) (faults : List (Nat × Nat)) : List (Nat × Nat) :=
  (topPage addr size, s.tables.data.headD 0) :: faults

/-- The addresses whose pages may get mapped. Only for an empty stack is the top page not in the range. -/
def OnStack (addr size x : Nat) : Prop := InRange addr size x ∨ virtPage x = virtPage (topPage addr size)

/-- Nothing is mapped where the stack is to be, and there are frames for the tables. -/
structure StackReady (s : PgTables) (addr size : Nat) : Prop where
  prepared : s.Prepared (OnStack addr size)
  unmapped : ∀ x, OnStack addr size x → translate s x = none

/-- The stack is gone: no page of it is mapped, the frames are free, and the zone has its addresses and
    those of the guard again. -/
structure Released (s s₂ s' : Stacks) (addr size : Nat) (frames : List Nat) : Prop where
  unmapped : ∀ x, InRange addr size x → translate s'.tables x = none
  frames : s'.tables.freedSmall.Perm (s₂.tables.freedSmall ++ frames)
  zone : s'.zone.pool.freeSet = s.zone.pool.freeSet

/-- Every page of a stack that is not empty was touched, and the zone had a second unused node. -/
structure Freeable (s : Stacks) (addr size : Nat) (faults : List (Nat × Nat)) : Prop where
  positive : 0 < size
  short : size < kernelStackZoneSize
  touched : ∀ x, InRange addr size x → ∃ d ∈ stackPages s addr size faults, virtPage x = virtPage d.1
  node : s.zone.SpareNode

/-! ## Page numbers -/

/-- The pages `pages`, each once, are among the `n` pages from `addr` on. -/
structure Among (addr n : Nat) (pages : List (Nat × Nat)) : Prop where
  nodup : (pages.map fun d => virtPage d.1).Nodup
  inside : ∀ d ∈ pages, ∃ j < n, virtPage d.1 = virtPage (addr + 0x1000 * j)

section Among

variable {addr n : Nat} {pages : List (Nat × Nat)}

theorem virtPage_lt (x : Nat) : virtPage x < 2 ^ 36 := Nat.mod_lt _ (by decide)

theorem Among.length_le (h : Among addr n pages) : pages.length ≤ 2 ^ 36 := by
  have hcard : (pages.map fun d => virtPage d.1).toFinset.card = pages.length := by
    rw [List.toFinset_card_of_nodup h.nodup, List.length_map]
  have hsub : (pages.map fun d => virtPage d.1).toFinset ⊆ Finset.range (2 ^ 36) := by
    intro k hk
    obtain ⟨d, -, rfl⟩ := List.mem_map.1 (List.mem_toFinset.1 hk)
    exact Finset.mem_range.2 (virtPage_lt d.1)
  have hle := Finset.card_le_card hsub
  rwa [hcard, Finset.card_range] at hle

/-- As many pages as there are places: every place is taken. -/
theorem Among.covers (h : Among addr n pages) (hlen : n ≤ pages.length) {j : Nat} (hj : j < n) :
    ∃ d ∈ pages, virtPage d.1 = virtPage (addr + 0x1000 * j) := by
  have hsub : (pages.map fun d => virtPage d.1).toFinset ⊆
      (Finset.range n).image fun j => virtPage (addr + 0x1000 * j) := by
    intro k hk
    obtain ⟨d, hd, rfl⟩ := List.mem_map.1 (List.mem_toFinset.1 hk)
    obtain ⟨j, hj, heq⟩ := h.inside d hd
    exact Finset.mem_image.2 ⟨j, Finset.mem_range.2 hj, heq.symm⟩
  have hcard : ((Finset.range n).image fun j => virtPage (addr + 0x1000 * j)).card ≤
      (pages.map fun d => virtPage d.1).toFinset.card := by
    rw [List.toFinset_card_of_nodup h.nodup, List.length_map]
    exact (Finset.card_image_le.trans_eq (Finset.card_range n)).trans hlen
  have hmem : virtPage (addr + 0x1000 * j) ∈ (pages.map fun d => virtPage d.1).toFinset := by
    rw [Finset.eq_of_subset_of_card_le hsub hcard]
    exact Finset.mem_image.2 ⟨j, Finset.mem_range.2 hj, rfl⟩
  obtain ⟨d, hd, heq⟩ := List.mem_map.1 (List.mem_toFinset.1 hmem)
  exact ⟨d, hd, heq⟩

theorem Among.eq_of_page (h : Among addr n pages) {d e : Nat × Nat} (hd : d ∈ pages) (he : e ∈ pages)
    (heq : virtPage d.1 = virtPage e.1) : d = e :=
  List.inj_on_of_nodup_map h.nodup hd he heq

theorem virtPage_inj {i j : Nat} (hi : i < 2 ^ 36) (hj : j < 2 ^ 36)
    (h : virtPage (addr + 0x1000 * i) = virtPage (addr + 0x1000 * j)) : i = j := by
  unfold virtPage at h
  omega

/-- The mapped pages in the order of their addresses, where every page is mapped. -/
theorem Among.inOrder (h : Among addr n pages) (hn : n ≤ 2 ^ 36)
    (hall : ∀ j < n, ∃ d ∈ pages, virtPage d.1 = virtPage (addr + 0x1000 * j)) :
    ∃ sorted : List (Nat × Nat), sorted.Perm pages ∧ sorted.length = n ∧
      ∀ j d, sorted[j]? = some d → virtPage d.1 = virtPage (addr + 0x1000 * j) := by
  have htotal : ∀ j, ∃ d, j < n → d ∈ pages ∧ virtPage d.1 = virtPage (addr + 0x1000 * j) := by
    intro j
    by_cases hj : j < n
    · obtain ⟨d, hd⟩ := hall j hj
      exact ⟨d, fun _ => hd⟩
    · exact ⟨(0, 0), fun hj' => absurd hj' hj⟩
  choose pick hpick using htotal
  have hnd : ((List.range n).map pick).Nodup := by
    refine List.Nodup.map_on (fun i hi j hj heq => ?_) List.nodup_range
    have hi := List.mem_range.1 hi
    have hj := List.mem_range.1 hj
    refine @virtPage_inj addr i j (by omega) (by omega) ?_
    rw [← (hpick i hi).2, ← (hpick j hj).2, heq]
  refine ⟨(List.range n).map pick, ?_, by simp, fun j d hd => ?_⟩
  · refine (List.perm_ext_iff_of_nodup hnd (List.Nodup.of_map _ h.nodup)).2 fun d => ⟨fun hd => ?_, fun hd => ?_⟩
    · obtain ⟨j, hj, rfl⟩ := List.mem_map.1 hd
      exact (hpick j (List.mem_range.1 hj)).1
    · obtain ⟨j, hj, heq⟩ := h.inside d hd
      refine List.mem_map.2 ⟨j, List.mem_range.2 hj, ?_⟩
      exact h.eq_of_page (hpick j hj).1 hd ((hpick j hj).2.trans heq.symm)
  · obtain ⟨hj, rfl⟩ := List.getElem?_eq_some_iff.1 hd
    rw [List.length_map, List.length_range] at hj
    rw [List.getElem_map, List.getElem_range]
    exact (hpick j hj).2

end Among

/-! ## The tables under a stack -/

/-- The pages `pages` are mapped by page tables, and the tables over `V` are ready for more. -/
structure TouchedPages (s : PgTables) (V : Nat → Prop) (pages : List (Nat × Nat)) : Prop where
  prepared : s.Prepared V
  opens : ∀ x, V x → Opens (s.entry (pdePath x))
  held : ∀ d ∈ pages, d.2 ≠ 0 ∧ IsLink (s.entry (pdePath d.1)) ∧
    alignDown 0x1000 (s.entry (ptePath d.1)) = d.2

section TouchedPages

variable {s s' : PgTables} {V : Nat → Prop} {pages : List (Nat × Nat)} {vaddr paddr : Nat}

theorem mapFlagsStack_lt : mapFlagsStack < 0x1000 := by decide

/-- One more page. -/
theorem TouchedPages.map {x ret : Nat} (h : TouchedPages s V pages) (hV : V vaddr) (hx : virtPage x = virtPage vaddr)
    (hne : paddr ≠ 0) (hnew : ∀ d ∈ pages, virtPage d.1 ≠ virtPage x)
    (hrun : map4kPageP2V s paddr vaddr mapFlagsStack = .ok (ret, s')) :
    TouchedPages s' V ((x, paddr) :: pages) := by
  have hasserts : paddr % 0x1000 = 0 ∧ vaddr % 0x1000 = 0 := by
    obtain ⟨hp, hrun⟩ := assert_bind_eq_ok.1 hrun
    exact ⟨hp, (assert_bind_eq_ok.1 hrun).1⟩
  obtain ⟨s₁, hrun₁, hprepared, hm⟩ := h.prepared.map4k hV hasserts.1 hasserts.2 mapFlagsStack_lt
  obtain ⟨-, rfl⟩ := Prod.mk.inj (Except.ok.inj (hrun.symm.trans hrun₁))
  refine ⟨hprepared, fun y hy => ?_, fun d hd => ?_⟩
  · by_cases hpde : pdePath y = pdePath vaddr
    · rw [hpde]
      exact .inr hm.pde
    · rw [hm.off.pde hpde]
      exact h.opens y hy
  rcases List.mem_cons.1 hd with rfl | hd
  · have hpte : ptePath x = ptePath vaddr := ptePath_eq_iff.2 hx
    have hpde : pdePath x = pdePath vaddr := (List.cons.inj hpte).2
    refine ⟨hne, ?_, ?_⟩
    · rw [hpde]
      exact hm.pde
    · rw [hpte, hm.pte]
      exact alignDown_pteFor hasserts.1 mapFlagsStack_lt
  · obtain ⟨hd0, hlink, hpte⟩ := h.held d hd
    by_cases hpde : pdePath d.1 = pdePath vaddr
    · -- another entry of the same page table
      have hidx : tableIndex pteShift d.1 ≠ tableIndex pteShift vaddr := by
        intro heq
        refine hnew d hd ((ptePath_eq_iff.1 ?_).trans hx.symm)
        rw [ptePath, ptePath, heq, hpde]
      have hkept : s'.entry (ptePath d.1) = s.entry (ptePath d.1) := by
        rw [ptePath, hpde, hm.pt _ hidx, ptContent_link (hpde ▸ hlink)]
      rw [hkept, hpde]
      exact ⟨hd0, hm.pde, hpte⟩
    · have hnot : ¬ pdePath vaddr <:+ ptePath d.1 := fun h =>
        hpde (pdePath_eq_iff.2 (pdePath_suffix_ptePath.1 h)).symm
      rw [hm.off.pde hpde, hm.off.entry_eq (by simp) hnot]
      exact ⟨hd0, hlink, hpte⟩

theorem TouchedPages.perm {pages' : List (Nat × Nat)} (h : TouchedPages s V pages)
    (hperm : pages'.Perm pages) : TouchedPages s V pages' :=
  ⟨h.prepared, h.opens, fun d hd => h.held d (hperm.mem_iff.1 hd)⟩

/-- What `unmap_free_at` does to a range of which every page is mapped. -/
theorem TouchedPages.unmap {addr n : Nat} (h : TouchedPages s V pages) (haddr : addr % 0x1000 = 0)
    (hV : ∀ x, InRange addr (0x1000 * n) x → V x) (hamong : Among addr n pages) (hn : n ≤ 2 ^ 36)
    (hall : ∀ j < n, ∃ d ∈ pages, virtPage d.1 = virtPage (addr + 0x1000 * j)) :
    ∃ s', unmapFreeAt s addr (0x1000 * n) = .ok s' ∧
      (∀ x, InRange addr (0x1000 * n) x → translate s' x = none) ∧
      s'.freedSmall.Perm (s.freedSmall ++ pages.map Prod.snd) := by
  obtain ⟨sorted, hperm, hlen, hpage⟩ := hamong.inOrder hn hall
  have hlen' : (sorted.map Prod.snd).length = n := by rw [List.length_map, hlen]
  have hholds : HoldsSmall s addr (sorted.map Prod.snd) := by
    intro j a ha
    rw [List.getElem?_map, Option.map_eq_some_iff] at ha
    obtain ⟨d, hd, rfl⟩ := ha
    have hj := (List.getElem?_eq_some_iff.1 hd).1
    obtain ⟨hne, hlink, hpte⟩ := h.held d (hperm.mem_iff.1 (List.mem_of_getElem? hd))
    have hpath : ptePath d.1 = ptePath (addr + 0x1000 * j) := ptePath_eq_iff.2 (hpage j d hd)
    have hpde : pdePath d.1 = pdePath (addr + 0x1000 * j) := (List.cons.inj hpath).2
    rw [← hpath, ← hpde]
    exact ⟨hne, h.prepared.upper _ (hV _ ⟨0x1000 * j, by omega, rfl⟩), hlink, hpte⟩
  obtain ⟨s', hrun, hfreed⟩ := @unmapRegions_pages s addr (n + 1) (sorted.map Prod.snd) h.prepared.sound
    haddr (by omega) (by omega) hholds
  rw [hlen'] at hrun
  refine ⟨s', ?_, fun x hx => hfreed.translate_none haddr hholds (hlen'.symm ▸ hx), ?_⟩
  · rw [unmapFreeAt, unmapFreeAtImpl, Nat.mul_div_cancel_left n (by decide)]
    exact hrun
  · rw [hfreed.same]
    exact List.Perm.append_left _ (hperm.map Prod.snd)

/-- Where `unmap_free_at` comes back, it freed a frame for each page of the range. -/
theorem TouchedPages.unmap_count {addr n : Nat} (h : TouchedPages s V pages)
    (hV : ∀ x, InRange addr (0x1000 * n) x → V x) (hrun : unmapFreeAt s addr (0x1000 * n) = .ok s') :
    s'.freedSmall.length = s.freedSmall.length + n := by
  have hcount := unmapRegions_count h.prepared.sound (Nat.mul_mod_right _ _)
    (fun x hx => ⟨h.prepared.upper x (hV x hx), h.opens x (hV x hx)⟩) hrun
  rwa [Nat.mul_div_cancel_left n (by decide)] at hcount

end TouchedPages

/-! ## Making a stack and touching it -/

section Calls

variable {s s₁ s₂ : Stacks} {addr size : Nat} {faults : List (Nat × Nat)}

/-- A stack is the block of the zone without its lowest 2 MiB, and its top page is mapped. -/
theorem allocVmStack_lent {busy : Set Nat} (hoff : ZoneOff s.zone busy) (hal : s.zone.HolesAligned)
    (hok : allocVmStack s size = .ok (addr, s₁)) (haddr : addr ≠ 0) :
    ∃ p, addr = p + 0x200000 ∧
      Lent kernelStackZoneStart kernelStackZoneEnd s.zone s₁.zone (wadd size 0x200000) p ∧
      mapAllocAt s.tables (topPage addr size) 0x1000 mapFlagsStack = .ok (OK, s₁.tables) := by
  obtain ⟨⟨p, zone⟩, halloc, hok⟩ := bind_eq_ok.1 hok
  have hend := kernelStackZoneEnd_lt
  dsimp only at hok
  by_cases hp : p = 0
  · rw [if_pos hp] at hok
    exact absurd (congrArg Prod.fst (Except.ok.inj hok)).symm haddr
  have hlent : Lent kernelStackZoneStart kernelStackZoneEnd s.zone zone (wadd size 0x200000) p :=
    (OffHoles.lent hoff hal (by decide) halloc).2 hp
  have hhigh := hlent.high
  have hsum : wadd p 0x200000 = p + 0x200000 := wadd_eq (by omega)
  rw [if_neg hp] at hok
  obtain ⟨⟨ret, tables⟩, hmap, hok⟩ := bind_eq_ok.1 hok
  dsimp only at hok
  by_cases hret : ret = OK
  · rw [if_neg (not_not.2 hret)] at hok
    obtain ⟨rfl, rfl⟩ := Prod.mk.inj (Except.ok.inj hok)
    subst hret
    exact ⟨p, hsum, hlent, hmap⟩
  · rw [if_pos hret] at hok
    obtain ⟨zone', -, hok⟩ := bind_eq_ok.1 hok
    exact absurd (congrArg Prod.fst (Except.ok.inj hok)).symm haddr

theorem topPage_aligned (haddr : addr % 0x1000 = 0) (hsize : size % 0x1000 = 0) :
    topPage addr size % 0x1000 = 0 := by
  unfold topPage wsub wadd
  omega

/-- The top page is the last page of the range. -/
theorem virtPage_topPage {n : Nat} (hpos : 0 < n) (haddr : addr % 0x1000 = 0) :
    virtPage (topPage addr (0x1000 * n)) = virtPage (addr + 0x1000 * (n - 1)) := by
  unfold virtPage topPage wsub wadd
  omega

/-- Other frames for pages do not matter to the tables. -/
theorem PgTables.Prepared.withData {t : PgTables} {V : Nat → Prop} (h : t.Prepared V) (data : List Nat) :
    PgTables.Prepared { t with data := data } V where
  sound := ⟨h.sound.tree, h.sound.root, h.sound.frame, h.sound.unused, h.sound.nodup⟩
  upper x hx := ⟨(h.upper x hx).pml4e, (h.upper x hx).pdpte⟩
  pde := h.pde
  tables := h.tables
  pts := h.pts

theorem StackReady.topTouched (h : StackReady s.tables addr size) (haddr : addr % 0x1000 = 0)
    (hsize : size % 0x1000 = 0)
    (hmap : mapAllocAt s.tables (topPage addr size) 0x1000 mapFlagsStack = .ok (OK, s₁.tables)) :
    TouchedPages s₁.tables (OnStack addr size) (stackPages s addr size []) := by
  obtain ⟨a, rest, hdata, ha, hrun⟩ := mapAllocAt_page (topPage_aligned haddr hsize) hmap
  have hprepared := h.prepared.withData rest
  have hfirst : TouchedPages { s.tables with data := rest } (OnStack addr size) [] :=
    ⟨hprepared, fun x hx => Opens.of_unmapped (hprepared.upper x hx) (hprepared.pde x hx).opens
      (h.unmapped x hx), by simp⟩
  rw [stackPages, hdata]
  exact hfirst.map (.inr rfl) rfl ha (by simp) hrun

/-- One fault on the stack. -/
theorem mapPage_touched {x paddr : Nat} {pages : List (Nat × Nat)} (haddr : addr % 0x1000 = 0)
    (h : TouchedPages s.tables (OnStack addr size) pages) (hx : InRange addr size x)
    (hsize : size % 0x1000 = 0) (hnew : ∀ d ∈ pages, virtPage d.1 ≠ virtPage x)
    (hok : mapPage s x paddr = .ok s₁) :
    s₁.zone = s.zone ∧ TouchedPages s₁.tables (OnStack addr size) ((x, paddr) :: pages) := by
  unfold mapPage at hok
  by_cases hzero : paddr = 0
  · rw [if_pos hzero] at hok
    cases hok
  rw [if_neg hzero] at hok
  obtain ⟨⟨ret, tables⟩, hmap, hok⟩ := bind_eq_ok.1 hok
  obtain rfl := Except.ok.inj hok
  have hpage : virtPage x = virtPage (alignDown 0x1000 x) := by
    unfold virtPage alignDown
    omega
  have hdown : InRange addr size (alignDown 0x1000 x) := by
    obtain ⟨y, hy, hxy⟩ := hx
    exact ⟨alignDown 0x1000 y, by unfold alignDown; omega, by unfold alignDown; omega⟩
  exact ⟨rfl, h.map (.inl hdown) hpage hzero hnew hmap⟩

theorem faultIn_touched {pages : List (Nat × Nat)} (haddr : addr % 0x1000 = 0) (hsize : size % 0x1000 = 0)
    (h : TouchedPages s.tables (OnStack addr size) pages) (hon : ∀ f ∈ faults, InRange addr size f.1)
    (hnd : ((faults ++ pages).map fun d => virtPage d.1).Nodup) (hok : faultIn s faults = .ok s₁) :
    s₁.zone = s.zone ∧ TouchedPages s₁.tables (OnStack addr size) (faults ++ pages) := by
  induction faults generalizing s pages with
  | nil =>
      obtain rfl := Except.ok.inj hok
      exact ⟨rfl, h⟩
  | cons f faults ih =>
      rw [faultIn, List.foldlM_cons] at hok
      obtain ⟨s', hfault, hok⟩ := bind_eq_ok.1 hok
      have hperm : (faults ++ f :: pages).Perm (f :: faults ++ pages) := List.perm_middle
      obtain ⟨hfirst, -⟩ := List.nodup_cons.1 hnd
      have hnew : ∀ d ∈ pages, virtPage d.1 ≠ virtPage f.1 := fun d hd heq =>
        hfirst (List.mem_map.2 ⟨d, List.mem_append_right _ hd, heq⟩)
      obtain ⟨hzone, htouched⟩ :=
        mapPage_touched haddr h (hon f List.mem_cons_self) hsize hnew hfault
      obtain ⟨hzone', htouched'⟩ := ih htouched (fun g hg => hon g (List.mem_cons_of_mem _ hg))
        ((hperm.map _).nodup_iff.2 hnd) hok
      exact ⟨hzone'.trans hzone, htouched'.perm hperm.symm⟩

end Calls

/-! ## The result -/

/-- **Freeing a stack.** After any run of the kernel stack zone from its start, `free_vm_stack` on a stack
    of which some pages were touched, in any order, releases the stack if and only if it is not empty and
    every page of it was touched, and the zone had a second unused node when the stack was made. -/
theorem stack_freed_iff {z : LinearZone}
    (hinit : initVmZone kernelStackZoneStart kernelStackZoneSize = .ok z) {st : ZoneRun}
    (run : Relation.ReflTransGen UnhintedStep ⟨z, []⟩ st) {s s₁ s₂ : Stacks} (hzone : s.zone = st.zone)
    {addr size : Nat} (hsize : size % 0x1000 = 0) (halloc : allocVmStack s size = .ok (addr, s₁))
    (haddr : addr ≠ 0) (hready : StackReady s.tables addr size) {faults : List (Nat × Nat)}
    (hon : ∀ f ∈ faults, InRange addr size f.1)
    (honce : ((stackPages s addr size faults).map fun d => virtPage d.1).Nodup)
    (hfaults : faultIn s₁ faults = .ok s₂) :
    (∃ s', freeVmStack s₂ addr size = .ok s' ∧
      Released s s₂ s' addr size ((stackPages s addr size faults).map Prod.snd)) ↔
      Freeable s addr size faults := by
  have hround : roundUp 0x200000 kernelStackZoneSize = kernelStackZoneSize := by decide
  obtain ⟨hlends, hal⟩ := lends_run hinit (by rw [hround]; decide) run
  rw [hround] at hlends
  obtain ⟨p, hp, hlent, hmap⟩ := allocVmStack_lent (hzone ▸ hlends.zone) (hzone ▸ hal) halloc haddr
  obtain ⟨n, rfl⟩ : ∃ n, size = 0x1000 * n := ⟨size / 0x1000, by omega⟩
  have hp2M := hlent.aligned
  have haddr4k : addr % 0x1000 = 0 := by omega
  have hperm : (faults ++ stackPages s addr (0x1000 * n) []).Perm (stackPages s addr (0x1000 * n) faults) :=
    List.perm_append_singleton _ _
  obtain ⟨hzone₂, htouched⟩ := faultIn_touched haddr4k hsize (hready.topTouched haddr4k hsize hmap) hon
    ((hperm.map _).nodup_iff.2 honce) hfaults
  replace htouched := htouched.perm hperm.symm
  have hV : ∀ x, InRange addr (0x1000 * n) x → OnStack addr (0x1000 * n) x := fun x hx => .inl hx
  have hback : wsub addr 0x200000 = p := by
    have hend := kernelStackZoneEnd_lt
    have hhigh := hlent.high
    rw [hp, wsub_eq (by omega) (by omega)]
    omega
  obtain ⟨htotal, hrestored⟩ := hlent.returned (by decide)
  have hamong : 0 < n → Among addr n (stackPages s addr (0x1000 * n) faults) := fun hpos => by
    refine ⟨honce, fun d hd => ?_⟩
    rcases List.mem_cons.1 hd with rfl | hd
    · exact ⟨n - 1, by omega, virtPage_topPage hpos haddr4k⟩
    · obtain ⟨y, hy, hxy⟩ := hon d hd
      exact ⟨y / 0x1000, by omega, by unfold virtPage; omega⟩
  have hunfold : ∀ s', freeVmStack s₂ addr (0x1000 * n) = .ok s' ↔ ∃ tables zone,
      unmapFreeAt s₂.tables addr (0x1000 * n) = .ok tables ∧
      freeLinearZone s₁.zone p (wadd (0x1000 * n) 0x200000) = .ok zone ∧
      s' = { s₂ with zone := zone, tables := tables } := by
    intro s'
    rw [freeVmStack, hback, hzone₂]
    constructor
    · intro h
      obtain ⟨tables, hunmap, h⟩ := bind_eq_ok.1 h
      obtain ⟨zone, hgive, h⟩ := bind_eq_ok.1 h
      exact ⟨tables, zone, hunmap, hgive, (Except.ok.inj h).symm⟩
    · rintro ⟨tables, zone, hunmap, hgive, rfl⟩
      rw [hunmap, ok_bind, hgive, ok_bind]
  constructor
  · rintro ⟨s', hfree, hreleased⟩
    obtain ⟨tables, zone, hunmap, hgive, rfl⟩ := (hunfold s').1 hfree
    have hcount := htouched.unmap_count hV hunmap
    -- every page of the range was freed, and there are only as many as were touched
    have hlen := hreleased.frames.length_eq
    rw [List.length_append, List.length_map] at hlen
    dsimp only at hlen
    have hpos : 0 < n := by
      have : 0 < (stackPages s addr (0x1000 * n) faults).length := Nat.succ_pos _
      omega
    have hle := (hamong hpos).length_le
    refine ⟨by omega, ?_, fun x hx => ?_, htotal.1 ⟨zone, hgive⟩⟩
    · have hge := @stackBlock_ge (0x1000 * n) (by omega)
      have hlow := hlent.low
      have hhigh := hlent.high
      unfold kernelStackZoneEnd at hhigh
      omega
    · obtain ⟨y, hy, hxy⟩ := hx
      have hj : y / 0x1000 < n := by omega
      obtain ⟨d, hd, heq⟩ := (hamong hpos).covers (by omega) hj
      refine ⟨d, hd, heq ▸ ?_⟩
      unfold virtPage
      omega
  · rintro ⟨hpos, hshort, hcovered, hnode⟩
    have hshort' : 0x1000 * n < 2 ^ 40 := hshort
    obtain ⟨tables, hunmap, hnone, hfrees⟩ := htouched.unmap haddr4k hV (hamong (by omega)) (by omega)
      fun j hj => by
        obtain ⟨d, hd, heq⟩ := hcovered (addr + 0x1000 * j) ⟨0x1000 * j, by omega, rfl⟩
        exact ⟨d, hd, heq.symm⟩
    obtain ⟨zone, hgive⟩ := htotal.2 hnode
    exact ⟨_, (hunfold _).2 ⟨tables, zone, hunmap, hgive, rfl⟩, hnone, hfrees, hrestored zone hgive⟩

/-- A stack of two pages is in one page table. -/
theorem onePage_stackReady (a : Nat) : StackReady (onePage a) 0xffff810000200000 0x2000 where
  prepared := onePage_prepared (v := 0xffff810000200000) a fun x hx => by
    have htop : topPage 0xffff810000200000 0x2000 = 0xffff810000201000 := by decide
    unfold virtRegion
    rcases hx with ⟨y, hy, hxy⟩ | hx
    · omega
    · rw [htop] at hx
      unfold virtPage at hx
      omega
  unmapped x _ := onePage_unmapped a x

/-- A stack of two pages, the lower one touched. -/
theorem stack_freed_touched : ∃ z s s₁ s₂ s',
    initVmZone kernelStackZoneStart kernelStackZoneSize = .ok z ∧ s.zone = z ∧
    allocVmStack s 0x2000 = .ok (0xffff810000200000, s₁) ∧
    faultIn s₁ [(0xffff810000200010, 0x6000)] = .ok s₂ ∧
    freeVmStack s₂ 0xffff810000200000 0x2000 = .ok s' ∧
    Released s s₂ s' 0xffff810000200000 0x2000 [0x5000, 0x6000] := by
  obtain ⟨z, hinit, hpfree, hnext⟩ : ∃ z, initVmZone kernelStackZoneStart kernelStackZoneSize = .ok z ∧
      z.pool.pfree = some 1 ∧ z.pool.next 1 = some 2 := ⟨_, rfl, rfl, rfl⟩
  have hobs : (do
      let z ← initVmZone kernelStackZoneStart kernelStackZoneSize
      let r ← allocVmStack ⟨z, onePage 0x5000, maxStacks, []⟩ 0x2000
      let _ ← faultIn r.2 [(0xffff810000200010, 0x6000)]
      .ok r.1) = .ok 0xffff810000200000 := by
    decide +kernel
  rw [hinit, ok_bind] at hobs
  obtain ⟨⟨addr, s₁⟩, halloc, hobs⟩ := bind_eq_ok.1 hobs
  obtain ⟨s₂, hfaults, hobs⟩ := bind_eq_ok.1 hobs
  obtain rfl := Except.ok.inj hobs
  have hon : ∀ f ∈ [(0xffff810000200010, 0x6000)], InRange 0xffff810000200000 0x2000 f.1 := by
    intro f hf
    obtain rfl := List.mem_singleton.1 hf
    exact ⟨0x10, by decide, rfl⟩
  have hcovered : ∀ x, InRange 0xffff810000200000 0x2000 x →
      ∃ d ∈ [(0xffff810000201000, 0x5000), (0xffff810000200010, 0x6000)], virtPage x = virtPage d.1 := by
    rintro x ⟨y, hy, hxy⟩
    unfold virtPage
    by_cases hlow : y < 0x1000
    · exact ⟨_, List.mem_cons_of_mem _ List.mem_cons_self, by simp only; omega⟩
    · exact ⟨_, List.mem_cons_self, by simp only; omega⟩
  obtain ⟨s', hfree, hreleased⟩ := (stack_freed_iff hinit .refl rfl (by decide) halloc (by decide)
    (onePage_stackReady 0x5000) hon
    (show [virtPage (topPage 0xffff810000200000 0x2000), virtPage 0xffff810000200010].Nodup by decide)
    hfaults).2
    ⟨by decide, by decide, hcovered, 1, hpfree, by simp [hnext]⟩
  exact ⟨z, _, s₁, s₂, s', hinit, rfl, halloc, hfaults, hfree, hreleased⟩

/-- The lower page of the stack was not touched. -/
theorem stack_not_freed : ∃ z s s₁,
    initVmZone kernelStackZoneStart kernelStackZoneSize = .ok z ∧ s.zone = z ∧
    allocVmStack s 0x2000 = .ok (0xffff810000200000, s₁) ∧
    StackReady s.tables 0xffff810000200000 0x2000 ∧ faultIn s₁ [] = .ok s₁ ∧
    freeVmStack s₁ 0xffff810000200000 0x2000 =
      .error (.panic "unmap free at none exist page:%lx\n") := by
  have hobs : (do
      let z ← initVmZone kernelStackZoneStart kernelStackZoneSize
      let r ← allocVmStack ⟨z, onePage 0x5000, maxStacks, []⟩ 0x2000
      .ok (r.1, (freeVmStack r.2 r.1 0x2000).map fun _ => ())) =
      .ok (0xffff810000200000, .error (.panic "unmap free at none exist page:%lx\n")) := by
    decide +kernel
  obtain ⟨z, hinit, hobs⟩ := bind_eq_ok.1 hobs
  obtain ⟨⟨addr, s₁⟩, halloc, hobs⟩ := bind_eq_ok.1 hobs
  obtain ⟨rfl, hobs⟩ := Prod.mk.inj (Except.ok.inj hobs)
  refine ⟨z, _, s₁, hinit, rfl, halloc, onePage_stackReady 0x5000, rfl, ?_⟩
  cases hfree : freeVmStack s₁ 0xffff810000200000 0x2000 with
  | ok s' =>
      rw [hfree] at hobs
      cases hobs
  | error e =>
      rw [hfree] at hobs
      rw [Except.error.inj hobs]

end Yaos
