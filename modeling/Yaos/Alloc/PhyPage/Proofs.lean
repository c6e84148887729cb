import Yaos.Alloc.FrameStore

set_option autoImplicit false

/-! # Runs of the small frame store

The invariant of `kernel/phy_page.c` over whole runs: the twenty nodes are split between the two
lists and the holes stay sorted, non-empty and disjoint. Each call changes the set of free addresses
by exactly the range it returns or is given, and a 2 MiB page is taken from `alloc_phy_page` at most
once in a call. -/

namespace Yaos

open Chains Word HolePool

/-- Every node is on exactly one list, and the holes are sorted. -/
def PhyPageInv (s : HolePool) : Prop :=
  ∃ free holes, s.Rep free holes ∧ (free ++ holes).Perm (List.range phyPageHoles.capacity) ∧
    SortedHoles s holes

/-- A range that may be given to the store: 4 KiB aligned, non-empty, not wrapping, not free. -/
structure Givable (s : HolePool) (addr size : Nat) : Prop where
  addrAligned : addr % 0x1000 = 0
  sizeAligned : size % 0x1000 = 0
  pos : 0 < size
  bound : addr + size < 2 ^ 64
  notFree : Disjoint (Set.Ico addr (addr + size)) s.freeSet

/-- What `alloc_phy_page` may answer first: nothing, or a 2 MiB page that is not free already. -/
def FreshPages (s : HolePool) (pages : List Nat) : Prop :=
  ∀ pg, pages.head? = some pg → pg = 0 ∨ (pg % 0x200000 = 0 ∧ Givable s pg 0x200000)

theorem Givable.loose {s : HolePool} {addr size : Nat} (h : Givable s addr size) : Loose s addr size :=
  ⟨h.pos, h.bound, h.notFree⟩

theorem freePhyPageSmall_spec {s : HolePool} (h : PhyPageInv s) {addr size : Nat}
    (hg : Givable s addr size) :
    freePhyPageSmall s addr size = .error (.panic phyPageHoles.tooSmall) ∨
    ∃ s', freePhyPageSmall s addr size = .ok s' ∧ PutBack phyPageHoles s s' addr size := by
  have hfree : freePhyPageSmall s addr size = freeHole phyPageHoles s addr size :=
    FrameStore.free_eq (k := .phyPage) hg.addrAligned hg.sizeAligned
  rw [hfree]
  rcases PoolInv.freed h hg.loose with ⟨-, herr⟩ | ⟨-, hput⟩
  · exact .inl herr
  · exact .inr hput

/-- The effect a call of `alloc_phy_page_small(size)` may have. -/
def AllocEffect (s : HolePool) (pages : List Nat) (size : Nat) :
    Except Fault (Nat × HolePool × List Nat) → Prop
  | .error e => e = .panic phyPageHoles.tooSmall
  | .ok (ret, s', _) =>
      (ret = 0 ∧ pages.headD 0 = 0 ∧ s'.freeSet = s.freeSet) ∨
      ∃ added : Set Nat,
        (added = ∅ ∨ ∃ pg, pages.head? = some pg ∧ pg ≠ 0 ∧
          added = Set.Ico pg (pg + 0x200000)) ∧
        Set.Ico ret (ret + (size + 0xfff) / 0x1000 * 0x1000) ⊆ s.freeSet ∪ added ∧
        s'.freeSet = (s.freeSet ∪ added) \ Set.Ico ret (ret + (size + 0xfff) / 0x1000 * 0x1000)

/-- The effect a call of `free_phy_page_small(addr, size)` may have. -/
def FreeEffect (s : HolePool) (addr size : Nat) : Except Fault HolePool → Prop
  | .error e => e = .panic phyPageHoles.tooSmall
  | .ok s' => s'.freeSet = s.freeSet ∪ Set.Ico addr (addr + size)

/-- What a call leaves behind when it returns. -/
def KeepsInv : Except Fault (Nat × HolePool × List Nat) → Prop
  | .error _ => True
  | .ok (_, s', _) => PhyPageInv s'

theorem need_le {size : Nat} (hmax : size ≤ 0x200000) : FrameStore.need size ≤ 0x200000 := by
  unfold FrameStore.need
  omega

/-- A block from the hole that the search comes to, in a list that `added` has been put on. -/
theorem allocPhyPageSmall_taken {s t : HolePool} {pages rest : List Nat} {size p : Nat} {added : Set Nat}
    (hmax : size ≤ 0x200000) (hsearch : FrameStore.phyPage.search s.spinLock pages (roundUp 0x1000 size)
      = .ok (some p, t, rest)) (ht : PhyPageInv t) (hp : t.IsHole p)
    (hle : FrameStore.need size ≤ (t.nodes p).size) (hset : t.freeSet = s.freeSet ∪ added)
    (hadded : added = ∅ ∨ ∃ pg, pages.head? = some pg ∧ pg ≠ 0 ∧ added = Set.Ico pg (pg + 0x200000)) :
    AllocEffect s pages size (allocPhyPageSmall s pages size) ∧
      KeepsInv (allocPhyPageSmall s pages size) := by
  have hneed := need_le hmax
  have hround : roundUp 0x1000 size = FrameStore.need size := FrameStore.roundUp_eq_need (by omega)
  obtain ⟨s', htake, htaken⟩ := FrameStore.take_grants (k := .phyPage) ht hp hle rest
  have hres : allocPhyPageSmall s pages size = .ok ((t.nodes p).addr, s', rest) := by
    have halloc : allocPhyPageSmall s pages size = _ := FrameStore.alloc_eq (k := .phyPage)
    rw [halloc, hsearch, ok_bind, hround, htake]
  have hsub := htaken.subset
  have hafter := htaken.freeSet_eq
  rw [hset] at hsub hafter
  rw [hres]
  exact ⟨.inr ⟨added, hadded, hsub, hafter⟩, htaken.inv⟩

theorem allocPhyPageSmall_spec {s : HolePool} (h : PhyPageInv s) {pages : List Nat} {size : Nat}
    (hmax : size ≤ 0x200000) (hfresh : FreshPages s pages) :
    AllocEffect s pages size (allocPhyPageSmall s pages size) ∧
      KeepsInv (allocPhyPageSmall s pages size) := by
  have hneed := need_le hmax
  have hround : roundUp 0x1000 size = FrameStore.need size := FrameStore.roundUp_eq_need (by omega)
  have halloc : allocPhyPageSmall s pages size = _ := FrameStore.alloc_eq (k := .phyPage)
  have hlock : PoolInv phyPageHoles s.spinLock := PoolInv.congr h (.lock s)
  by_cases hroom : s.spinLock.HasRoom (roundUp 0x1000 size)
  · -- a hole of the list is large enough
    obtain ⟨p, hsearch, hp, hle⟩ := FrameStore.search_room (k := .phyPage) pages hlock hroom
    rw [hround] at hle
    exact allocPhyPageSmall_taken hmax hsearch hlock hp hle (Set.union_empty _).symm (.inl rfl)
  by_cases hzero : pages.headD 0 = 0
  · rw [halloc, FrameStore.search_exhausted (k := .phyPage) hlock hroom hzero]
    exact ⟨.inl ⟨rfl, hzero, rfl⟩, PoolInv.congr hlock (.unlock _)⟩
  obtain ⟨pg, rest, rfl⟩ : ∃ pg rest, pages = pg :: rest := by
    cases pages with
    | nil => exact absurd rfl hzero
    | cons pg rest => exact ⟨pg, rest, rfl⟩
  obtain ⟨-, hgiv⟩ := (hfresh pg rfl).resolve_left hzero
  have hne : FrameStore.phyPage.newaddr ((pg :: rest).headD 0) ≠ 0 := hzero
  by_cases hpfree : s.spinLock.pfree = none
  · rw [halloc, FrameStore.search_panics (k := .phyPage) hlock hroom hne hgiv.addrAligned hpfree]
    exact ⟨rfl, trivial⟩
  · -- the page becomes free, and then some hole is large enough
    obtain ⟨p, s₁, hsearch, hput, hp, hle⟩ := FrameStore.search_refilled (k := .phyPage) hlock hroom hne
      hgiv.addrAligned (hgiv.loose.congr (.lock s)) hpfree
    have hle := hle ((hput.hasRoom_iff _).2 (.inr (.inl (hround ▸ hneed))))
    rw [hround] at hle
    exact allocPhyPageSmall_taken hmax hsearch (PoolInv.congr hput.inv (.lock s₁)) hp hle hput.freeSet_eq
      (.inr ⟨pg, rfl, hzero, rfl⟩)

/-! ## Runs -/

/-- One call that returns. -/
inductive PhyPageStep : HolePool → HolePool → Prop
  | alloc {s s' : HolePool} {pages rest : List Nat} {size ret : Nat} (hpos : 0 < size)
      (hmax : size ≤ 0x200000) (hfresh : FreshPages s pages)
      (hok : allocPhyPageSmall s pages size = .ok (ret, s', rest)) : PhyPageStep s s'
  | free {s s' : HolePool} {addr size : Nat} (hg : Givable s addr size)
      (hok : freePhyPageSmall s addr size = .ok s') : PhyPageStep s s'

theorem initPhyPage_inv : PhyPageInv initPhyPage := initHoles_inv phyPageHoles

theorem PhyPageStep.preserves {s s' : HolePool} (step : PhyPageStep s s') (h : PhyPageInv s) :
    PhyPageInv s' := by
  cases step with
  | alloc hpos hmax hfresh hok =>
      have := (allocPhyPageSmall_spec h hmax hfresh).2
      rwa [hok] at this
  | free hg hok =>
      rcases freePhyPageSmall_spec h hg with herr | ⟨s₁, hok₁, hput⟩
      · rw [hok] at herr
        cases herr
      · rw [hok] at hok₁
        cases hok₁
        exact hput.inv

theorem phyPage_run_inv {s : HolePool} (run : Relation.ReflTransGen PhyPageStep initPhyPage s) :
    PhyPageInv s := by
  induction run with
  | refl => exact initPhyPage_inv
  | tail _ step ih => exact step.preserves ih

/-- **The small frame store over whole runs.** In every state reached from `init_phy_page` the
    twenty nodes are split between the two lists and the holes are sorted, non-empty and disjoint;
    from there an allocation removes exactly its block (after adding at most one whole page) and a
    free adds exactly its range, and the only way to fail is the panic for lack of nodes. -/
theorem phyPageSmall_run_correct {s : HolePool}
    (run : Relation.ReflTransGen PhyPageStep initPhyPage s) :
    (∃ free holes, s.Rep free holes ∧ (free ++ holes).Perm (List.range 20) ∧
      SortedHoles s holes) ∧
    (∀ pages size, 0 < size → size ≤ 0x200000 → FreshPages s pages →
      AllocEffect s pages size (allocPhyPageSmall s pages size)) ∧
    (∀ addr size, Givable s addr size →
      FreeEffect s addr size (freePhyPageSmall s addr size)) := by
  have hinv := phyPage_run_inv run
  refine ⟨hinv, fun pages size hpos hmax hfresh => ?_, fun addr size hg => ?_⟩
  · exact (allocPhyPageSmall_spec hinv hmax hfresh).1
  · rcases freePhyPageSmall_spec hinv hg with herr | ⟨s', hok, hput⟩
    · rw [herr]
      rfl
    · rw [hok]
      exact hput.freeSet_eq

/-- The store after it was given three frames. -/
theorem phyPageSmall_run_correct_given : ∃ s, Relation.ReflTransGen PhyPageStep initPhyPage s ∧
    freePhyPageSmall initPhyPage 0x300000 0x3000 = .ok s ∧
    AllocEffect s [] 0x1800 (allocPhyPageSmall s [] 0x1800) ∧
    ∃ s' rest, allocPhyPageSmall s [] 0x1800 = .ok (0x300000, s', rest) := by
  have hgive : Givable initPhyPage 0x300000 0x3000 := by
    refine ⟨by decide, by decide, by decide, by decide, ?_⟩
    rw [(initHoles_rep phyPageHoles.capacity).freeSet_eq (s := initPhyPage)]
    simp [cover, Set.disjoint_left]
  have hrun : ∃ s, freePhyPageSmall initPhyPage 0x300000 0x3000 = .ok s ∧
      ∃ s' rest, allocPhyPageSmall s [] 0x1800 = .ok (0x300000, s', rest) :=
    ⟨_, rfl, _, _, rfl⟩
  obtain ⟨s, hok, hres⟩ := hrun
  have run : Relation.ReflTransGen PhyPageStep initPhyPage s := .single (.free hgive hok)
  refine ⟨s, run, hok, ?_, hres⟩
  exact (phyPageSmall_run_correct run).2.1 [] 0x1800 (by decide) (by decide) (by simp [FreshPages])

end Yaos
