import Yaos.Lib.Intervals
import Yaos.Alloc.FrameStore

set_option autoImplicit false

/-! # The twenty nodes of the small frame store

`free_phy_page_small` joins a range with the hole that ends where it begins, but not with the hole that begins
where it ends. So a hole list can be longer than the number of free intervals, by the number of places where two
holes touch, and the panic for lack of nodes depends on both. -/

namespace Yaos

open Chains Word HolePool Intervals

/-- The holes as intervals. -/
def HolePool.intervals (s : HolePool) (holes : List Nat) : List (Nat × Nat) :=
  holes.map fun i => ((s.nodes i).addr, (s.nodes i).addr + (s.nodes i).size)

/-- A call that returns, where no hole begins at the end of what it puts on the list. -/
inductive SpacedStep : HolePool → HolePool → Prop
  | alloc {s s' : HolePool} {pages rest : List Nat} {size ret : Nat} (hlt : size < 2 ^ 64)
      (hfresh : FrameStore.phyPage.FreshPage s (pages.headD 0))
      (hserves : FrameStore.phyPage.Serves s (pages.headD 0) size)
      (hclear : FrameStore.phyPage.RefillClear s (pages.headD 0) size)
      (hok : allocPhyPageSmall s pages size = .ok (ret, s', rest)) : SpacedStep s s'
  | free {s s' : HolePool} {addr size : Nat} (hloose : Loose s addr size)
      (hclear : ∀ i, s.IsHole i → addr + size ≠ (s.nodes i).addr)
      (hok : freePhyPageSmall s addr size = .ok s') : SpacedStep s s'

/-! ## Holes and intervals -/

section Count

variable {c : HoleConfig} {s : HolePool} {free holes : List Nat} {l : List (Nat × Nat)}

theorem SortedHoles.ascending (h : SortedHoles s holes) : Ascending (s.intervals holes) where
  proper := by
    intro r hr
    obtain ⟨i, hi, rfl⟩ := List.mem_map.1 hr
    exact Nat.lt_add_of_pos_right (h.pos i hi)
  sorted := List.pairwise_map.2 h.sorted

theorem cover_intervals (s : HolePool) (holes : List Nat) : cover (s.intervals holes) = s.cover holes := by
  ext a
  constructor
  · rintro ⟨r, hr, ha⟩
    obtain ⟨i, hi, rfl⟩ := List.mem_map.1 hr
    exact ⟨i, hi, ha⟩
  · rintro ⟨i, hi, ha⟩
    exact ⟨_, List.mem_map_of_mem hi, ha⟩

theorem touching_eq_zero (h : s.Rep free holes) (hs : s.Spread) : touching (s.intervals holes) = 0 := by
  refine List.countP_eq_zero.2 fun r hr => ?_
  obtain ⟨j, hj, rfl⟩ := List.mem_map.1 hr
  simp only [List.any_eq_true, beq_iff_eq, not_exists, not_and]
  intro q hq
  obtain ⟨i, hi, rfl⟩ := List.mem_map.1 hq
  exact hs i j ((h.isHole_iff i).2 hi) ((h.isHole_iff j).2 hj)

/-- The nodes in use, counted by the intervals of free memory. -/
theorem PoolInv.pfree_ne_none (hinv : PoolInv c s) (hholes : Chain s.next s.phead holes) (hl : Gapped l)
    (hcover : cover l = s.freeSet) :
    s.pfree ≠ none ↔ l.length + touching (s.intervals holes) < c.capacity := by
  obtain ⟨free, holes', hrep, hperm, hsorted⟩ := hinv
  obtain rfl := hrep.phead.unique hholes
  have hcover' : cover l = cover (s.intervals holes') := by
    rw [hcover, hrep.freeSet_eq, cover_intervals]
  have hcount := hsorted.ascending.length_eq hl hcover'
  have hlen := hperm.length_eq
  rw [List.length_append, List.length_range] at hlen
  rw [HolePool.intervals, List.length_map] at hcount
  rw [Ne, hrep.pfree_eq_none, ← List.length_eq_zero_iff, HolePool.intervals]
  omega

end Count

/-! ## The panic -/

section Panic

variable {s s' : HolePool} {pages : List Nat} {addr size : Nat}

theorem freePhyPageSmall_panics_iff (hinv : PoolInv phyPageHoles s) (haddr : addr % 0x1000 = 0)
    (hsize : size % 0x1000 = 0) :
    freePhyPageSmall s addr size = .error (.panic phyPageHoles.tooSmall) ↔ s.pfree = none := by
  have hfree : freePhyPageSmall s addr size = freeHole phyPageHoles s addr size :=
    FrameStore.free_eq (k := .phyPage) haddr hsize
  obtain ⟨free, holes, hrep, hperm, -⟩ := hinv
  rw [hfree, hrep.pfree_eq_none]
  rcases freeHole_spec phyPageHoles hrep (length_le_capacity hperm) addr size with
    ⟨hnil, herr⟩ | ⟨p, free', s', rfl, hok, -⟩
  · exact iff_of_true herr hnil
  · rw [hok]
    exact iff_of_false (by simp) (by simp)

/-- Taking from the hole chosen does not fail. -/
theorem take_ne_error {k : FrameStore} (hinv : PoolInv k.config s) {p n : Nat} (hp : s.IsHole p) (e : Fault) :
    k.take n (some p, s, pages) ≠ .error e := by
  obtain ⟨free, holes, hrep, hperm, -⟩ := hinv
  obtain ⟨pre, post, rfl⟩ := List.append_of_mem ((hrep.isHole_iff p).1 hp)
  obtain ⟨s', hok, -⟩ := carveHole_spec k.config 0 hrep (length_le_capacity hperm) n
  have htake : k.take n (some p, s, pages) = .ok ((s.nodes p).addr, s'.spinUnlock, pages) :=
    bind_eq_ok.2 ⟨_, hok, rfl⟩
  rw [htake]
  exact nofun

theorem allocPhyPageSmall_panics_iff (hinv : PoolInv phyPageHoles s)
    (hfresh : FrameStore.phyPage.FreshPage s (pages.headD 0)) :
    allocPhyPageSmall s pages size = .error (.panic phyPageHoles.tooSmall) ↔
      ¬ s.HasRoom (roundUp 0x1000 size) ∧ pages.headD 0 ≠ 0 ∧ s.pfree = none := by
  have halloc : allocPhyPageSmall s pages size =
      FrameStore.phyPage.search s.spinLock pages (roundUp 0x1000 size) >>=
        FrameStore.phyPage.take (roundUp 0x1000 size) := FrameStore.alloc_eq (k := .phyPage)
  have hinv' : PoolInv FrameStore.phyPage.config s.spinLock := hinv.congr (.lock s)
  rw [halloc]
  by_cases hroom : s.HasRoom (roundUp 0x1000 size)
  · obtain ⟨p, hok, hp, -⟩ := FrameStore.search_room (k := .phyPage) pages hinv' hroom
    rw [hok]
    exact iff_of_false (take_ne_error hinv' hp _) fun h => h.1 hroom
  by_cases hzero : pages.headD 0 = 0
  · rw [FrameStore.search_exhausted (k := .phyPage) hinv' hroom hzero]
    exact iff_of_false nofun fun h => h.2.1 hzero
  obtain ⟨hpage, hloose⟩ := hfresh.resolve_left hzero
  have hal := FrameStore.newaddr_aligned (k := .phyPage) hpage
  by_cases hpfree : s.pfree = none
  · rw [FrameStore.search_panics (k := .phyPage) hinv' hroom hzero hal hpfree]
    exact iff_of_true rfl ⟨hroom, hzero, hpfree⟩
  · obtain ⟨p, s₁, hok, hput, hp, -⟩ :=
      FrameStore.search_refilled (k := .phyPage) hinv' hroom hzero hal (hloose.congr (.lock s)) hpfree
    rw [hok]
    exact iff_of_false (take_ne_error (k := .phyPage) (hput.inv.congr (.lock s₁)) hp _) fun h => hpfree h.2.2

theorem SpacedStep.preserves (step : SpacedStep s s') (hinv : PoolInv phyPageHoles s) (hs : s.Spread) :
    PoolInv phyPageHoles s' ∧ s'.Spread := by
  cases step with
  | alloc hlt hfresh hserves hclear hok =>
      obtain ⟨hinv', hspread⟩ :=
        (FrameStore.alloc_of_serves (k := .phyPage) hinv hfresh hserves).2.2 _ _ _ hok
      exact ⟨hinv', hspread hs hclear⟩
  | free hloose hclear hok =>
      have hput := FrameStore.free_spec (k := .phyPage) hinv hloose hok
      exact ⟨hput.inv, hput.spread hs hclear⟩

theorem spaced_run (run : Relation.ReflTransGen SpacedStep initPhyPage s) :
    PoolInv phyPageHoles s ∧ s.Spread := by
  induction run with
  | refl =>
      refine ⟨initHoles_inv phyPageHoles, fun i j hi => ?_⟩
      exact absurd (((initHoles_rep phyPageHoles.capacity).isHole_iff i).1 hi) List.not_mem_nil
  | tail _ step ih => exact step.preserves ih.1 ih.2

/-- **When the nodes suffice.** In every state that is reached, with the free memory made of the intervals `l`, a
    call that needs a node panics exactly when the intervals and the places where two holes touch are twenty
    together. No two holes touch while nothing was put on the list right below a hole. -/
theorem phyPage_nodes_suffice {holes : List Nat} {l : List (Nat × Nat)}
    (run : Relation.ReflTransGen FrameStore.phyPage.Step initPhyPage s) (hholes : Chain s.next s.phead holes)
    (hl : Gapped l) (hcover : cover l = s.freeSet) :
    (∀ addr size, addr % 0x1000 = 0 → size % 0x1000 = 0 →
      (freePhyPageSmall s addr size ≠ .error (.panic phyPageHoles.tooSmall) ↔
        l.length + touching (s.intervals holes) < 20)) ∧
    (∀ pages size, FrameStore.phyPage.FreshPage s (pages.headD 0) →
      (allocPhyPageSmall s pages size ≠ .error (.panic phyPageHoles.tooSmall) ↔
        s.HasRoom (roundUp 0x1000 size) ∨ pages.headD 0 = 0 ∨
          l.length + touching (s.intervals holes) < 20)) ∧
    (Relation.ReflTransGen SpacedStep initPhyPage s → touching (s.intervals holes) = 0) := by
  have hinv : PoolInv phyPageHoles s := FrameStore.run_inv (k := .phyPage) run
  have hnodes : s.pfree ≠ none ↔ l.length + touching (s.intervals holes) < 20 :=
    hinv.pfree_ne_none hholes hl hcover
  refine ⟨fun addr size haddr hsize => ?_, fun pages size hfresh => ?_, fun hrun => ?_⟩
  · rw [Ne, freePhyPageSmall_panics_iff hinv haddr hsize]
    exact hnodes
  · rw [Ne, allocPhyPageSmall_panics_iff hinv hfresh, ← hnodes]
    tauto
  · obtain ⟨hinv', hspread⟩ := spaced_run hrun
    obtain ⟨free, holes', hrep, -, -⟩ := hinv'
    obtain rfl := hrep.phead.unique hholes
    exact touching_eq_zero hrep hspread

end Panic

/-! ## Frames given back from the top -/

/-- The `n` frames below `top` are given back one by one, the highest first. -/
def freeDown (top : Nat) : Nat → HolePool → Except Fault HolePool
  | 0, s => .ok s
  | n + 1, s => do
      let s ← freeDown top n s
      freePhyPageSmall s (top - (n + 1) * 0x1000) 0x1000

theorem freeDown_run {s s' : HolePool} {top hi n : Nat} (hset : s.freeSet = Set.Ico top hi) (htop : top ≤ hi)
    (hhi : hi < 2 ^ 64) (hn : n * 0x1000 ≤ top) (hinv : PoolInv phyPageHoles s)
    (hok : freeDown top n s = .ok s') :
    Relation.ReflTransGen FrameStore.phyPage.Step s s' ∧ PoolInv phyPageHoles s' ∧
      s'.freeSet = Set.Ico (top - n * 0x1000) hi := by
  induction n generalizing s' with
  | zero =>
      obtain rfl := Except.ok.inj hok
      exact ⟨.refl, hinv, by rw [hset, Nat.zero_mul, Nat.sub_zero]⟩
  | succ n ih =>
      have hn' : n * 0x1000 + 0x1000 ≤ top := Nat.succ_mul n 0x1000 ▸ hn
      rw [freeDown] at hok
      obtain ⟨s₁, hok₁, hfree⟩ := bind_eq_ok.1 hok
      obtain ⟨run, hinv₁, hset₁⟩ := ih (Nat.le_of_add_right_le hn') hok₁
      have hloose : Loose s₁ (top - (n + 1) * 0x1000) 0x1000 := by
        refine ⟨by decide, by omega, Set.disjoint_left.2 fun a ha hfree => ?_⟩
        rw [hset₁] at hfree
        have := ha.2
        have := hfree.1
        omega
      have step : FrameStore.phyPage.Step s₁ s' := .free hloose hfree
      have hput := FrameStore.free_spec (k := .phyPage) hinv₁ hloose hfree
      refine ⟨run.tail step, hput.inv, ?_⟩
      rw [hput.freeSet_eq, hset₁]
      ext a
      simp only [Set.mem_union, Set.mem_Ico]
      omega

/-- The store after twenty frames were taken from the page at 4 MiB. -/
theorem twenty_frames : ∃ s, Relation.ReflTransGen FrameStore.phyPage.Step initPhyPage s ∧
    allocPhyPageSmall initPhyPage [0x400000] 0x14000 = .ok (0x400000, s, []) ∧
    PoolInv phyPageHoles s ∧ s.freeSet = Set.Ico 0x414000 0x600000 := by
  obtain ⟨s, hok⟩ : ∃ s, allocPhyPageSmall initPhyPage [0x400000] 0x14000 = .ok (0x400000, s, []) := ⟨_, rfl⟩
  have hempty : initPhyPage.freeSet = ∅ := FrameStore.init_freeSet .phyPage
  have hfresh : FrameStore.phyPage.FreshPage initPhyPage ([0x400000].headD 0) :=
    FrameStore.init_freshPage ⟨2, rfl⟩ (by decide)
  have hserves : FrameStore.phyPage.Serves initPhyPage ([0x400000].headD 0) 0x14000 := by
    refine .inr ⟨?_, .inr (.inr ⟨by decide, .inl (by decide)⟩)⟩
    rintro ⟨i, hi, -⟩
    exact List.not_mem_nil (((initHoles_rep phyPageHoles.capacity).isHole_iff i).1 hi)
  have hinit : PoolInv FrameStore.phyPage.config initPhyPage := initHoles_inv phyPageHoles
  have step : FrameStore.phyPage.Step initPhyPage s := .alloc (by decide) hfresh hserves hok
  obtain ⟨-, hgrants, -⟩ := FrameStore.alloc_of_serves hinit hfresh hserves
  have halloc : FrameStore.phyPage.alloc initPhyPage [0x400000] 0x14000 = .ok (0x400000, s, []) := hok
  rw [halloc] at hgrants
  refine ⟨s, .single step, hok, step.preserves hinit, ?_⟩
  rcases hgrants with ⟨hzero, -⟩ | ⟨added, hadded, hsub, hset⟩
  · exact absurd hzero (by decide)
  rcases hadded with rfl | ⟨-, rfl⟩
  · have hin : (0x400000 : Nat) ∈ initPhyPage.freeSet ∪ ∅ := hsub ⟨Nat.le_refl _, by decide⟩
    rw [hempty, Set.union_empty] at hin
    exact absurd hin (Set.notMem_empty _)
  · rw [hset, hempty]
    ext a
    simp only [Set.empty_union, Set.mem_sdiff, Set.mem_Ico, FrameStore.newaddr, FrameStore.need,
      List.headD_cons]
    omega

/-- Twenty frames given back from the top are one interval with what is left of their page, and the last
    of them finds no node. -/
theorem freeDown_exhausts : ∃ s, Relation.ReflTransGen FrameStore.phyPage.Step initPhyPage s ∧
    Gapped [(0x401000, 0x600000)] ∧ cover [(0x401000, 0x600000)] = s.freeSet ∧ Loose s 0x400000 0x1000 ∧
    freePhyPageSmall s 0x400000 0x1000 = .error (.panic phyPageHoles.tooSmall) := by
  obtain ⟨s, run, hok, hinv, hset⟩ := twenty_frames
  have hend : ((allocPhyPageSmall initPhyPage [0x400000] 0x14000 >>= fun r =>
      freeDown 0x414000 19 r.2.1).map fun t => t.pfree) = .ok none := by decide +kernel
  rw [hok, ok_bind] at hend
  obtain ⟨t, hdown, hpfree⟩ := map_eq_ok.1 hend
  obtain ⟨run', hinv', hset'⟩ := freeDown_run hset (by decide) (by decide) (by decide) hinv hdown
  have hset₁ : t.freeSet = Set.Ico 0x401000 0x600000 := hset'
  refine ⟨t, run.trans run', ⟨by simp, by simp⟩, ?_, ⟨by decide, by decide, ?_⟩, ?_⟩
  · rw [hset₁]
    ext a
    simp [Intervals.cover]
  · rw [hset₁]
    refine Set.disjoint_left.2 fun a ha hfree => ?_
    have := ha.2
    have := hfree.1
    omega
  · exact (freePhyPageSmall_panics_iff hinv' (by decide) (by decide)).2 hpfree

/-- A frame that is given back. -/
theorem freeFrame_run {s s' : HolePool} {addr : Nat} (run : Relation.ReflTransGen FrameStore.phyPage.Step initPhyPage s)
    (hbound : addr + 0x1000 < 2 ^ 64) (hout : Disjoint (Set.Ico addr (addr + 0x1000)) s.freeSet)
    (hok : freePhyPageSmall s addr 0x1000 = .ok s') :
    Relation.ReflTransGen FrameStore.phyPage.Step initPhyPage s' ∧
      s'.freeSet = s.freeSet ∪ Set.Ico addr (addr + 0x1000) := by
  have hloose : Loose s addr 0x1000 := ⟨by decide, hbound, hout⟩
  have hput := FrameStore.free_spec (k := .phyPage) (FrameStore.run_inv (k := .phyPage) run) hloose hok
  exact ⟨run.tail (.free hloose hok), hput.freeSet_eq⟩

/-- Of the twenty frames, the third, the fifth and the last are given back: four holes, two of which touch. -/
theorem frames_scattered : ∃ s, Relation.ReflTransGen FrameStore.phyPage.Step initPhyPage s ∧
    (∀ a, a ∈ s.freeSet ↔ 0x402000 ≤ a ∧ a < 0x403000 ∨ 0x404000 ≤ a ∧ a < 0x405000 ∨ 0x413000 ≤ a ∧ a < 0x600000) ∧
    Chain s.next s.phead [1, 2, 3, 0] ∧ s.intervals [1, 2, 3, 0] =
      [(0x402000, 0x403000), (0x404000, 0x405000), (0x413000, 0x414000), (0x414000, 0x600000)] := by
  obtain ⟨s, run, hok, -, hset⟩ := twenty_frames
  have hend : ((allocPhyPageSmall initPhyPage [0x400000] 0x14000 >>= fun r =>
      freePhyPageSmall r.2.1 0x402000 0x1000 >>= fun s => freePhyPageSmall s 0x404000 0x1000 >>= fun s =>
        freePhyPageSmall s 0x413000 0x1000).map fun t =>
      (t.phead, [1, 2, 3, 0].map t.next, t.intervals [1, 2, 3, 0])) =
      .ok (some 1, [some 2, some 3, some 0, none],
        [(0x402000, 0x403000), (0x404000, 0x405000), (0x413000, 0x414000), (0x414000, 0x600000)]) := by
    decide +kernel
  rw [hok, ok_bind] at hend
  obtain ⟨s₃, hfrees, hfacts⟩ := map_eq_ok.1 hend
  obtain ⟨s₁, h₁, hfrees⟩ := bind_eq_ok.1 hfrees
  obtain ⟨s₂, h₂, h₃⟩ := bind_eq_ok.1 hfrees
  obtain ⟨run₁, hset₁⟩ := freeFrame_run run (by decide) (Set.disjoint_left.2 fun a ha hfree => by
    rw [hset, Set.mem_Ico] at hfree
    rw [Set.mem_Ico] at ha
    omega) h₁
  obtain ⟨run₂, hset₂⟩ := freeFrame_run run₁ (by decide) (Set.disjoint_left.2 fun a ha hfree => by
    rw [hset₁, hset, Set.mem_union, Set.mem_Ico, Set.mem_Ico] at hfree
    rw [Set.mem_Ico] at ha
    omega) h₂
  have hmem₂ : ∀ a, a ∈ s₂.freeSet ↔ 0x402000 ≤ a ∧ a < 0x403000 ∨ 0x404000 ≤ a ∧ a < 0x405000 ∨
      0x414000 ≤ a ∧ a < 0x600000 := by
    intro a
    rw [hset₂, hset₁, hset, Set.mem_union, Set.mem_union, Set.mem_Ico, Set.mem_Ico, Set.mem_Ico]
    omega
  obtain ⟨run₃, hset₃⟩ := freeFrame_run run₂ (by decide) (Set.disjoint_left.2 fun a ha hfree => by
    rw [hmem₂] at hfree
    rw [Set.mem_Ico] at ha
    omega) h₃
  have hmem₃ : ∀ a, a ∈ s₃.freeSet ↔ 0x402000 ≤ a ∧ a < 0x403000 ∨ 0x404000 ≤ a ∧ a < 0x405000 ∨
      0x413000 ≤ a ∧ a < 0x600000 := by
    intro a
    rw [hset₃, Set.mem_union, hmem₂, Set.mem_Ico]
    omega
  simp only [List.map_cons, List.map_nil, Prod.mk.injEq, List.cons.injEq, and_true] at hfacts
  obtain ⟨hhead, ⟨hnext₁, hnext₂, hnext₃, hnext₀⟩, hintervals⟩ := hfacts
  refine ⟨s₃, run₃, hmem₃, ?_, hintervals⟩
  simp only [chain_cons, chain_nil, hhead, hnext₁, hnext₂, hnext₃, hnext₀, and_self]

/-- Three free intervals and one place where two holes touch: of the twenty nodes, four are in use, and neither
    a free nor an allocation that needs another page panics. -/
theorem phyPage_nodes_suffice_scattered : ∃ s, Relation.ReflTransGen FrameStore.phyPage.Step initPhyPage s ∧
    cover [(0x402000, 0x403000), (0x404000, 0x405000), (0x413000, 0x600000)] = s.freeSet ∧
    freePhyPageSmall s 0x406000 0x1000 ≠ .error (.panic phyPageHoles.tooSmall) ∧
    allocPhyPageSmall s [0x800000] 0x1f0000 ≠ .error (.panic phyPageHoles.tooSmall) := by
  obtain ⟨s, run, hmem, hholes, hintervals⟩ := frames_scattered
  let l : List (Nat × Nat) := [(0x402000, 0x403000), (0x404000, 0x405000), (0x413000, 0x600000)]
  have hl : Gapped l := ⟨by decide, by decide⟩
  have hcover : cover l = s.freeSet := by
    ext a
    rw [hmem]
    simp [l, Intervals.cover]
  have hcount : l.length + touching (s.intervals [1, 2, 3, 0]) < 20 := by
    rw [hintervals]
    decide
  have hloose : Loose s (FrameStore.phyPage.newaddr 0x800000) 0x200000 :=
    ⟨by decide, by decide, Set.disjoint_left.2 fun a ha hfree => by
      have hlow : 0x800000 ≤ a := ha.1
      rw [hmem] at hfree
      omega⟩
  have hfresh : FrameStore.phyPage.FreshPage s ([0x800000].headD 0) := .inr ⟨by decide, hloose⟩
  obtain ⟨hfrees, hallocs, -⟩ := phyPage_nodes_suffice run hholes hl hcover
  exact ⟨s, run, hcover, (hfrees _ _ (by decide) (by decide)).2 hcount,
    (hallocs _ _ hfresh).2 (.inr (.inr hcount))⟩

end Yaos
