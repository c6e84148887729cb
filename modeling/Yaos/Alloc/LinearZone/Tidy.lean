import Yaos.Alloc.LinearZone.Nodes

set_option autoImplicit false

/-! # The holes of a linear zone

When the holes stay in order: sorted, non-empty, and made of whole 2 MiB pages. A hint inside a page
adds its offset to the size of the request. That does no harm when the block is cut out of the middle
of a hole, because the rest is then rounded to a page; but a block from the front of a hole leaves a
hole that starts inside a page. A block that reaches to the end of a hole leaves an empty hole
behind. -/

namespace Yaos

open Chains Word HolePool

/-! ## Holes in order -/

/-- The holes are in the order of their addresses, inside the zone and made of whole pages. -/
structure TidyHoles (lo hi : Nat) (s : HolePool) (holes : List Nat) : Prop where
  sorted : SortedHoles s holes
  inside : ∀ i ∈ holes, lo ≤ (s.nodes i).addr ∧ (s.nodes i).addr + (s.nodes i).size ≤ hi
  aligned : ∀ i ∈ holes, (s.nodes i).addr % 0x200000 = 0 ∧ (s.nodes i).size % 0x200000 = 0

theorem TidyHoles.zoneHoles {lo hi : Nat} {s : HolePool} {holes : List Nat}
    (h : TidyHoles lo hi s holes) : ZoneHoles lo hi s holes where
  inside := h.inside
  aligned := fun i hi => by
    have := h.aligned i hi
    omega
  apart := h.sorted.apart

theorem TidyHoles.congr {lo hi : Nat} {s t : HolePool} {holes : List Nat}
    (h : TidyHoles lo hi s holes) (heq : ∀ i ∈ holes, SameRange s t i) : TidyHoles lo hi t holes := by
  refine ⟨⟨fun i hi' => ?_, fun i hi' => ?_, ?_⟩, fun i hi' => ?_, fun i hi' => ?_⟩
  · rw [(heq i hi').2]; exact h.sorted.pos i hi'
  · rw [(heq i hi').1, (heq i hi').2]; exact h.sorted.bound i hi'
  · refine h.sorted.sorted.imp_of_mem fun {i j} hi' hj hij => ?_
    rw [(heq i hi').1, (heq i hi').2, (heq j hj).1]
    exact hij
  · rw [(heq i hi').1, (heq i hi').2]; exact h.inside i hi'
  · rw [(heq i hi').1, (heq i hi').2]; exact h.aligned i hi'

/-- The lists of a zone are determined by its links. -/
theorem ZoneRep.unique {z : LinearZone} {free free' holes holes' recs recs' : List Nat}
    (h : ZoneRep z free holes recs) (h' : ZoneRep z free' holes' recs') :
    holes = holes' ∧ recs = recs' :=
  ⟨h.rep.phead.unique h'.rep.phead, h.alloced.unique h'.alloced⟩

section Ops

variable {z z' : LinearZone} {free holes recs : List Nat} {lo hi : Nat}

theorem freeHole_tidy (h : ZoneRep z free holes recs) (ht : TidyHoles lo hi z.pool holes)
    (hhi : hi < 2 ^ 64) {addr size : Nat} (hlo : lo ≤ addr) (hend : addr + size ≤ hi)
    (haddr : addr % 0x200000 = 0) (hsize : size % 0x200000 = 0) (hpos : 0 < size)
    (hd : Disjoint (Set.Ico addr (addr + size)) (z.pool.cover holes)) {pool' : HolePool}
    (hok : freeHole linearHoles z.pool addr size = .ok pool') :
    ∃ free' holes', ZoneRep { z with pool := pool' } free' holes' recs ∧
      TidyHoles lo hi pool' holes' ∧
      pool'.cover holes' = z.pool.cover holes ∪ Set.Ico addr (addr + size) ∧
      SameRecords z.pool pool' recs := by
  obtain ⟨free₁, holes₁, hrep₁, hzone₁, hcover, hsame⟩ := freeHole_zone h ht.zoneHoles hhi hlo hend
    (by omega) hd hok
  obtain ⟨-, ⟨ph, hm, hrep'⟩ | ⟨p, free', rfl, hins, hrep'⟩⟩ := freeHole_nodes h hok
  · obtain ⟨rfl, -⟩ := hrep₁.unique hrep'
    refine ⟨free₁, holes₁, hrep₁,
      ⟨ht.sorted.merged hm hpos (by omega) hd, hzone₁.inside, fun i hi' => ?_⟩, hcover, hsame⟩
    have hal := ht.aligned i hi'
    by_cases hip : i = ph
    · subst hip
      rw [hm.self]
      dsimp only
      unfold wadd
      omega
    · rw [hm.others i hip]
      exact hal
  · obtain ⟨rfl, -⟩ := hrep₁.unique hrep'
    have hp : p ∉ holes := h.rep.disj p List.mem_cons_self
    refine ⟨free₁, _, hrep₁,
      ⟨ht.sorted.inserted hins hp hpos (by omega) hd, hzone₁.inside, fun i hi' => ?_⟩, hcover, hsame⟩
    rcases List.mem_cons.1 ((insertPos_perm _ _ _ _).mem_iff.1 hi') with rfl | hmem
    · rw [hins.addr_eq, hins.size_eq]
      exact ⟨haddr, hsize⟩
    · have := hins.ranges i fun he => hp (he ▸ hmem)
      rw [this.1, this.2]
      exact ht.aligned i hmem

/-- What an allocation from a hole leaves when it keeps the holes in order. -/
structure TookTidy (lo hi : Nat) (z z' : LinearZone) (holes recs : List Nat) (base top size : Nat) :
    Prop where
  lists : ∃ free' holes' pfree, ZoneRep z' free' holes' (pfree :: recs) ∧
    TidyHoles lo hi z'.pool holes' ∧
    z'.pool.cover holes' = z.pool.cover holes \ Set.Ico base top ∧
    (z'.pool.nodes pfree).size = size
  records : SameRecords z.pool z'.pool recs
  wasFree : Set.Ico base top ⊆ z.pool.cover holes

/-- Whole pages are taken from the front of a hole. -/
theorem takeLinear_tidy {pfree p n off size ret : Nat} (h : ZoneRep z free holes recs)
    (ht : TidyHoles lo hi z.pool holes) (hhi : hi < 2 ^ 64) (hp : p ∈ holes)
    (hpf : z.pool.pfree = some pfree) (hle : n ≤ (z.pool.nodes p).size) (hn : n % 0x200000 = 0)
    (hok : takeLinear z pfree p n off size = .ok (ret, z')) :
    ret = wadd (z.pool.nodes p).addr (off % 0x200000) ∧
      TookTidy lo hi z z' holes recs (z.pool.nodes p).addr ((z.pool.nodes p).addr + n)
        (wadd size (off % 0x200000)) := by
  obtain ⟨free, rfl⟩ := h.free_cons hpf
  obtain ⟨z₁, hok₁, htook⟩ := takeLinear_spec h ht.zoneHoles hhi hp hle off size
  rw [hok] at hok₁
  obtain ⟨hret, rfl⟩ := Prod.mk.inj (Except.ok.inj hok₁)
  obtain ⟨free₁, holes₁, hrep₁, hzone₁, hcover⟩ := htook.lists
  refine ⟨hret, ⟨⟨free₁, holes₁, pfree, hrep₁, ?_, hcover, htook.size_eq⟩, htook.records,
    htook.wasFree⟩⟩
  obtain ⟨pre, post, rfl⟩ := List.append_of_mem hp
  obtain ⟨z₂, pool', hok₂, hc, hnodes, -, -, hrep₂⟩ := takeLinear_nodes h n off size
  rw [hok] at hok₂
  obtain ⟨-, rfl⟩ := Prod.mk.inj (Except.ok.inj hok₂)
  obtain ⟨heq, -⟩ := hrep₁.unique hrep₂
  have hsub : ∀ i ∈ holes₁, i ∈ pre ++ p :: post := by
    intro i hi'
    rw [heq] at hi'
    split at hi'
    · rcases List.mem_append.1 hi' with hm | hm
      · simp [hm]
      · simp [hm]
    · exact hi'
  have hsame : ∀ i ∈ holes₁, SameRange pool' z'.pool i := by
    intro i hi'
    have hne : i ≠ pfree := fun he => h.rep.disj pfree List.mem_cons_self (he ▸ hsub i hi')
    rw [SameRange, hnodes i hne]
    exact ⟨rfl, rfl⟩
  have htidy : TidyHoles lo hi pool' holes₁ := by
    have hin := ht.inside p hp
    refine ⟨ht.sorted.carved hc hle heq, fun i hi' => ?_, fun i hi' => ?_⟩
    · have := hzone₁.inside i hi'
      rwa [(hsame i hi').1, (hsame i hi').2] at this
    · have hal := ht.aligned i (hsub i hi')
      by_cases hip : i = p
      · subst hip
        rw [hc.addr_eq, hc.size_eq, wadd_eq (by omega), wsub_eq hle (by omega)]
        omega
      · rw [(hc.ranges i hip).1, (hc.ranges i hip).2]
        exact hal
  exact htidy.congr hsame

/-- The hole below the block keeps its order. -/
theorem cutLinear_tidy {pfree p addr : Nat} (h : ZoneRep z (pfree :: free) holes recs)
    (ht : TidyHoles lo hi z.pool holes) (hhi : hi < 2 ^ 64) (hp : p ∈ holes)
    (hlo : (z.pool.nodes p).addr < addr)
    (hup : addr ≤ (z.pool.nodes p).addr + (z.pool.nodes p).size) (hal : addr % 0x200000 = 0)
    (recsize : Nat) : TidyHoles lo hi (cutLinear z pfree p addr recsize).pool holes := by
  have hin := ht.inside p hp
  obtain ⟨hzone, -⟩ := cutLinear_zone h ht.zoneHoles hhi hp hlo.le hup hal recsize
  have hunused : ∀ i ∈ holes, i ≠ pfree := fun i hi' he =>
    h.rep.disj pfree List.mem_cons_self (he ▸ hi')
  have haddr : ∀ i ∈ holes, ((cutLinear z pfree p addr recsize).pool.nodes i).addr
      = (z.pool.nodes i).addr := by
    intro i hi'
    by_cases hip : i = p
    · subst hip
      rw [cutLinear_nodes_hole z addr recsize (hunused i hi')]
    · rw [cutLinear_nodes_ne z addr recsize (hunused i hi') hip]
  have hsize : ∀ i ∈ holes, ((cutLinear z pfree p addr recsize).pool.nodes i).size
      = if i = p then addr - (z.pool.nodes p).addr else (z.pool.nodes i).size := by
    intro i hi'
    by_cases hip : i = p
    · subst hip
      rw [cutLinear_nodes_hole z addr recsize (hunused i hi'), if_pos rfl]
      exact wsub_eq hlo.le (by omega)
    · rw [cutLinear_nodes_ne z addr recsize (hunused i hi') hip, if_neg hip]
  refine ⟨⟨fun i hi' => ?_, fun i hi' => ?_, ?_⟩, hzone.inside, fun i hi' => ?_⟩
  · rw [hsize i hi']
    split
    · omega
    · exact ht.sorted.pos i hi'
  · exact lt_of_le_of_lt (hzone.inside i hi').2 hhi
  · refine ht.sorted.sorted.imp_of_mem fun {i j} hi' hj hij => ?_
    rw [haddr i hi', haddr j hj, hsize i hi']
    split
    · rename_i hip
      subst hip
      omega
    · exact hij
  · have hali := ht.aligned i hi'
    have halp := ht.aligned p hp
    rw [haddr i hi', hsize i hi']
    refine ⟨hali.1, ?_⟩
    split
    · omega
    · exact hali.2

/-- A block is cut out of the middle of a hole, with something left above it. -/
theorem splitLinear_tidy {pfree p addr n hint size ret : Nat} (h : ZoneRep z free holes recs)
    (ht : TidyHoles lo hi z.pool holes) (hhi : hi < 2 ^ 64) (hp : p ∈ holes)
    (hpf : z.pool.pfree = some pfree) (hal : addr % 0x200000 = 0)
    (hlo : (z.pool.nodes p).addr < addr)
    (hup : alignDown 0x200000 (addr + n + 0x1fffff) < (z.pool.nodes p).addr + (z.pool.nodes p).size)
    (hok : splitLinear z pfree p addr n hint size = .ok (ret, z')) :
    ret = wadd addr (hint % 0x200000) ∧ ∃ top, addr + n ≤ top ∧ top ≤ hi ∧
      TookTidy lo hi z z' holes recs addr top (wadd size (hint % 0x200000)) := by
  obtain ⟨free, rfl⟩ := h.free_cons hpf
  have hin := ht.inside p hp
  have halp := ht.aligned p hp
  have hdown := alignDown_add_mod 0x200000 (addr + n + 0x1fffff)
  have htopmod : alignDown 0x200000 (addr + n + 0x1fffff) % 0x200000 = 0 := alignDown_mod _ _
  obtain ⟨hret, top, hge, htop, htook⟩ := splitLinear_spec h ht.zoneHoles hhi hp hal hlo.le
    (by omega) hok
  obtain ⟨free₁, holes₁, hrep₁, -, hcover⟩ := htook.lists
  refine ⟨hret, top, hge, htop, ⟨⟨free₁, holes₁, pfree, hrep₁, ?_, hcover, htook.size_eq⟩,
    htook.records, htook.wasFree⟩⟩
  have hcut := cutLinear_nodes (p := p) h addr (wadd size (hint % 0x200000))
  have htidy := cutLinear_tidy h ht hhi hp hlo (by omega) hal (wadd size (hint % 0x200000))
  obtain ⟨-, hcutcover⟩ := cutLinear_zone h ht.zoneHoles hhi hp hlo.le (by omega) hal
    (wadd size (hint % 0x200000))
  rw [splitLinear_eq] at hok
  generalize cutLinear z pfree p addr (wadd size (hint % 0x200000)) = zc at *
  have hend : z.pool.holeEnd p = (z.pool.nodes p).addr + (z.pool.nodes p).size :=
    holeEnd_eq (by omega)
  dsimp only at hok
  rw [hend, wadd_eq (a := addr) (by omega), wadd_eq (by omega), wsub_eq hup.le (by omega)] at hok
  generalize alignDown 0x200000 (addr + n + 0x1fffff) = tail at *
  obtain ⟨z₂, hfree, hok⟩ := bind_eq_ok.1 hok
  obtain ⟨-, rfl⟩ := Prod.mk.inj (Except.ok.inj hok)
  obtain ⟨-, hfree⟩ := assert_bind_eq_ok.1 hfree
  obtain ⟨pool', hfree, hz'⟩ := bind_eq_ok.1 hfree
  rw [roundUp, if_neg (by omega)] at hfree
  -- the rest lies above the block, where the cut hole had its addresses
  have hdisj : Disjoint (Set.Ico tail (tail + ((z.pool.nodes p).addr + (z.pool.nodes p).size - tail)))
      (zc.pool.cover holes) := by
    rw [hcutcover, Set.disjoint_left]
    intro a ha hm
    exact hm.2 ⟨by have := ha.1; omega, by have := ha.2; omega⟩
  obtain ⟨free₂, holes₂, hrep₂, htidy₂, -, -⟩ := freeHole_tidy hcut htidy hhi (by omega) (by omega)
    htopmod (by omega) (by omega) hdisj hfree
  rw [← Except.ok.inj hz'] at hrep₁ ⊢
  obtain ⟨rfl, -⟩ := hrep₁.unique hrep₂
  exact htidy₂

end Ops

/-! ## The invariant of a run -/

/-- The pages that freeing a range gives back. -/
def LiveRange.pages (r : LiveRange) : Set Nat :=
  Set.Ico r.addr (r.addr + (r.size + 0x1fffff) / 0x200000 * 0x200000)

/-- The holes are in order, and what freeing a range would give back is in the zone, off the holes,
    and off what freeing any other range would give back. Only ranges on a page boundary can be
    freed; `records` keeps `check_alloced` from handing out further such ranges. -/
structure ZoneTidy (lo hi : Nat) (z : LinearZone) (live : List LiveRange)
    (free holes recs : List Nat) : Prop where
  rep : ZoneRep z free holes recs
  tidy : TidyHoles lo hi z.pool holes
  records : ∀ i ∈ recs, 0 < (z.pool.nodes i).size
  inside : ∀ r ∈ live, r.addr % 0x200000 = 0 → 0 < r.size ∧ lo ≤ r.addr ∧
    r.addr + (r.size + 0x1fffff) / 0x200000 * 0x200000 ≤ hi
  taken : ∀ r ∈ live, r.addr % 0x200000 = 0 → Disjoint r.pages (z.pool.cover holes)
  apart : live.Pairwise fun r r' =>
    r.addr % 0x200000 = 0 → r'.addr % 0x200000 = 0 → Disjoint r.pages r'.pages

section Keep

variable {lo hi : Nat} {z z₁ z' : LinearZone} {live : List LiveRange} {free holes recs : List Nat}
  {hint size ret : Nat}

theorem ZoneTidy.tail {r : LiveRange} (h : ZoneTidy lo hi z (r :: live) free holes recs) :
    ZoneTidy lo hi z live free holes recs where
  rep := h.rep
  tidy := h.tidy
  records := h.records
  inside := fun r' hr' => h.inside r' (List.mem_cons_of_mem r hr')
  taken := fun r' hr' => h.taken r' (List.mem_cons_of_mem r hr')
  apart := (List.pairwise_cons.1 h.apart).2

theorem cover_congr {s t : HolePool} (hn : t.nodes = s.nodes) (holes : List Nat) :
    t.cover holes = s.cover holes := by
  simp only [cover, HolePool.range, hn]

/-- A block was taken from the holes. -/
theorem ZoneTidy.granted (h : ZoneTidy lo hi z live free holes recs)
    (hn : z₁.pool.nodes = z.pool.nodes) {base top recsize : Nat}
    (ht : TookTidy lo hi z₁ z' holes recs base top recsize) (hpos : 0 < recsize) {r : LiveRange}
    (hr : r.addr % 0x200000 = 0 → 0 < r.size ∧ lo ≤ r.addr ∧
      r.addr + (r.size + 0x1fffff) / 0x200000 * 0x200000 ≤ hi ∧ r.pages ⊆ Set.Ico base top) :
    ∃ free' holes' recs', ZoneTidy lo hi z' (r :: live) free' holes' recs' := by
  obtain ⟨free', holes', pfree, hrep', hholes', hcover, hsize⟩ := ht.lists
  have hfree := ht.wasFree
  rw [cover_congr hn] at hcover hfree
  have hold : ∀ r' ∈ live, r'.addr % 0x200000 = 0 →
      Disjoint r'.pages (z'.pool.cover holes') := fun r' hr' hal =>
    (h.taken r' hr' hal).mono_right (by rw [hcover]; exact Set.sdiff_subset)
  refine ⟨free', holes', pfree :: recs, hrep', hholes', fun i hi' => ?_, fun r' hr' hal => ?_,
    fun r' hr' hal => ?_, List.pairwise_cons.2 ⟨fun r' hr' hal hal' => ?_, h.apart⟩⟩
  · rcases List.mem_cons.1 hi' with rfl | hi'
    · rw [hsize]; exact hpos
    · rw [ht.records i hi', hn]; exact h.records i hi'
  · rcases List.mem_cons.1 hr' with rfl | hr'
    · obtain ⟨hp, hlo, hhi, -⟩ := hr hal
      exact ⟨hp, hlo, hhi⟩
    · exact h.inside r' hr' hal
  · rcases List.mem_cons.1 hr' with rfl | hr'
    · rw [hcover]
      exact Set.disjoint_sdiff_right.mono_left (hr hal).2.2.2
    · exact hold r' hr' hal
  · exact ((h.taken r' hr' hal').mono_right ((hr hal).2.2.2.trans hfree)).symm

/-- Nothing but the lock changed. -/
theorem ZoneTidy.congr (h : ZoneTidy lo hi z live free holes recs)
    (hn : z'.pool.nodes = z.pool.nodes) (hrep : ZoneRep z' free holes recs) :
    ZoneTidy lo hi z' live free holes recs where
  rep := hrep
  tidy := h.tidy.congr fun i _ => by rw [SameRange, hn]; exact ⟨rfl, rfl⟩
  records := fun i hi' => by rw [hn]; exact h.records i hi'
  inside := h.inside
  taken := fun r hr hal => by rw [cover_congr hn]; exact h.taken r hr hal
  apart := h.apart

theorem ZoneTidy.freed (h : ZoneTidy lo hi z live free holes recs) (hhi : hi < 2 ^ 64)
    {r : LiveRange} (hr : r ∈ live) (hok : freeLinearZone z r.addr r.size = .ok z') :
    ∃ free' holes', ZoneTidy lo hi z' (live.erase r) free' holes' recs := by
  obtain ⟨hal, hok⟩ := assert_bind_eq_ok.1 hok
  obtain ⟨pool', hfree, hok⟩ := bind_eq_ok.1 hok
  obtain ⟨hpos, hlo, hin⟩ := h.inside r hr hal
  rw [roundUp_2M_eq (by omega)] at hfree
  obtain ⟨free', holes', hrep', hholes', hcover, hsame⟩ := freeHole_tidy h.rep h.tidy hhi hlo hin
    hal (by omega) (by omega) (h.taken r hr hal) hfree
  rw [← Except.ok.inj hok]
  -- what the other ranges would give back is off the pages of `r`
  have hperm := (List.perm_cons_erase hr)
  have hpair : (r :: live.erase r).Pairwise fun r r' =>
      r.addr % 0x200000 = 0 → r'.addr % 0x200000 = 0 → Disjoint r.pages r'.pages :=
    (hperm.pairwise_iff fun {a b} hab ha hb => (hab hb ha).symm).1 h.apart
  obtain ⟨hfirst, hrest⟩ := List.pairwise_cons.1 hpair
  refine ⟨free', holes', hrep', hholes', fun i hi' => ?_, fun r' hr' hal' => ?_,
    fun r' hr' hal' => ?_, hrest⟩
  · show 0 < (pool'.nodes i).size
    rw [hsame i hi']
    exact h.records i hi'
  · exact h.inside r' (List.mem_of_mem_erase hr') hal'
  · show Disjoint r'.pages (pool'.cover holes')
    rw [hcover, Set.disjoint_union_right]
    exact ⟨h.taken r' (List.mem_of_mem_erase hr') hal', (hfirst r' hr' hal hal').symm⟩

/-! ## One call -/

theorem hintedSize_eq (hb : hint + (size + 0x1fffff) / 0x200000 * 0x200000 < 2 ^ 64) :
    hintedSize hint size = (size + 0x1fffff) / 0x200000 * 0x200000 + hint % 0x200000 := by
  rw [hintedSize, roundUp_2M_eq (by omega), wadd_eq (by omega)]

/-- The condition under which an allocation does not overflow. -/
structure NoWrap (z : LinearZone) (hint size : Nat) : Prop where
  request : hint + (size + 0x1fffff) / 0x200000 * 0x200000 < 2 ^ 64
  record : ∀ p, hint ≠ 0 → servingRecord z hint size = some (some p) →
    (z.pool.nodes p).size + size < 2 ^ 64

/-- Without overflow, a record serves a request inside its page, off the page boundary. -/
theorem ZoneTidy.served (h : ZoneTidy lo hi z live free holes recs) (hw : NoWrap z hint size)
    (hpos : 0 < size) (hne : hint ≠ 0) (hok : checkAlloced z hint size = .ok (ret, z')) :
    (servingRecord z hint size = some none ∧ ret = 0) ∨
      ret % 0x200000 ≠ 0 ∧ ZoneTidy lo hi z' live free holes recs := by
  have hrequest := hw.request
  rcases checkAlloced_spec h.rep (by omega : hint < 2 ^ 64) size with
    ⟨hnone, hres⟩ | ⟨p, hp, off, hsome, haddr, hoff, hcase, hlt, hres⟩
  · rw [hok] at hres
    exact .inl ⟨hnone, (Prod.mk.inj (Except.ok.inj hres)).1⟩
  · have hsum := hw.record p hne hsome
    have hsize := h.records p hp
    have hbase : alignDown 0x200000 hint % 0x200000 = 0 := alignDown_mod _ _
    have hdown := alignDown_add_mod 0x200000 hint
    have hend : wadd off size = off + size := wadd_eq (by omega)
    rw [hok, hend] at hres
    rw [hend] at hlt
    obtain ⟨hret, hz'⟩ := Prod.mk.inj (Except.ok.inj hres)
    rw [wadd_eq (by omega)] at hret
    refine .inr ⟨by omega, ?_⟩
    have hrep' : ZoneRep z' free holes recs := (checkAlloced_touched hne hok).1.rep h.rep
    have hother : ∀ i, i ≠ p → z'.pool.nodes i = z.pool.nodes i := fun i hi' => by
      rw [hz', spinUnlock_nodes, modify_nodes_ne _ _ hi', spinLock_nodes]
    have hhole : ∀ i ∈ holes, z'.pool.nodes i = z.pool.nodes i := fun i hi' =>
      hother i fun he => (h.rep.not_recs hp).2 (he ▸ hi')
    have hcover : z'.pool.cover holes = z.pool.cover holes := by
      ext a
      refine exists_congr fun i => and_congr_right fun hi' => ?_
      rw [mem_range, mem_range, hhole i hi']
    refine ⟨hrep', h.tidy.congr fun i hi' => ?_, fun i hi' => ?_, h.inside, ?_, h.apart⟩
    · rw [SameRange, hhole i hi']
      exact ⟨rfl, rfl⟩
    · by_cases hip : i = p
      · subst hip
        rw [hz', spinUnlock_nodes, modify_nodes_self]
        exact Nat.lt_add_left off hpos
      · rw [hother i hip]
        exact h.records i hi'
    · rw [hcover]
      exact h.taken

/-- A request that is not served from a record changes no record. -/
theorem ZoneTidy.same_nodes (h : ZoneTidy lo hi z live free holes recs) (hw : NoWrap z hint size)
    (hpos : 0 < size) (hu : hint = 0 ∨ Unserved z hint size)
    (ht : Touched z z₁ (servedBy z hint size)) : z₁.pool.nodes = z.pool.nodes := by
  have hnil : servedBy z hint size = [] := by
    unfold servedBy
    split
    · rfl
    · rename_i hne
      obtain ⟨z₂, hcheck⟩ := hu.resolve_left hne
      rcases h.served hw hpos hne hcheck with ⟨hnone, -⟩ | ⟨hret, -⟩
      · rw [hnone]
      · exact absurd rfl hret
  rw [hnil] at ht
  exact funext fun i => ht.nodes i List.not_mem_nil

end Keep

/-- The condition under which a call keeps the holes in order. For an allocation: nothing overflows,
    and if a hole serves it at the hint, then a block at the front of the hole is asked for without an
    offset into the page, and a block further up does not reach the end of the hole. -/
def ZoneRun.tidy (st : ZoneRun) : ZoneOp → Prop
  | .alloc hint size => NoWrap st.zone hint size ∧
      ∀ p, hint ≠ 0 → Unserved st.zone hint size → Placed st.zone hint size p →
        if (st.zone.pool.nodes p).addr = alignDown 0x200000 hint then hint % 0x200000 = 0
        else tailAddr hint size ≠ st.zone.pool.holeEnd p
  | .free _ => True

section Alloc

variable {lo hi : Nat} {z z' : LinearZone} {live : List LiveRange} {free holes recs : List Nat}
  {hint size ret : Nat}

/-- A block of whole pages from the front of a hole. -/
theorem ZoneTidy.took_front (h : ZoneTidy lo hi z live free holes recs) (hhi : hi < 2 ^ 64)
    (hpos : 0 < size) {z₁ : LinearZone} (hn : z₁.pool.nodes = z.pool.nodes)
    (hrep₁ : ZoneRep z₁ free holes recs) {p pfree off : Nat} (hp : p ∈ holes)
    (hpf : z₁.pool.pfree = some pfree) (hoff : off % 0x200000 = 0)
    (hb : size + 0x1fffff < 2 ^ 64)
    (hle : roundUp 0x200000 size ≤ (z.pool.nodes p).size)
    (hok : takeLinear z₁ pfree p (roundUp 0x200000 size) off size = .ok (ret, z')) (record : Nat) :
    ∃ free' holes' recs', ZoneTidy lo hi z' (⟨ret, size, record⟩ :: live) free' holes' recs' := by
  have hin := h.tidy.inside p hp
  rw [roundUp_2M_eq hb] at hle hok
  obtain ⟨hret, htook⟩ := takeLinear_tidy hrep₁ (h.congr hn hrep₁).tidy hhi hp hpf
    (by rw [hn]; exact hle) (by omega) hok
  rw [hn, hoff, wadd_eq (by omega), Nat.add_zero] at hret
  rw [hn, hoff, wadd_eq (by omega), Nat.add_zero] at htook
  refine h.granted hn htook hpos fun _ => ⟨hpos, ?_, ?_, ?_⟩
  · exact hret ▸ hin.1
  · dsimp only
    omega
  · rw [LiveRange.pages, hret]

theorem ZoneTidy.alloc (h : ZoneTidy lo hi z live free holes recs) (hhi : hi < 2 ^ 64)
    (hpos : 0 < size) (htidy : ZoneRun.tidy ⟨z, live⟩ (.alloc hint size))
    (hok : allocLinearZoneImpl z hint size = .ok (ret, z')) (record : Nat) :
    ∃ free' holes' recs', ZoneTidy lo hi z'
      (if ret = 0 then live else ⟨ret, size, record⟩ :: live) free' holes' recs' := by
  obtain ⟨hw, hplaced⟩ := htidy
  have hrequest := hw.request
  -- a block was taken; at address 0 it is not counted as allocated
  have hkeep : (∃ free' holes' recs', ZoneTidy lo hi z' (⟨ret, size, record⟩ :: live)
      free' holes' recs') → ∃ free' holes' recs', ZoneTidy lo hi z'
      (if ret = 0 then live else ⟨ret, size, record⟩ :: live) free' holes' recs' := by
    rintro ⟨free', holes', recs', h'⟩
    split
    · exact ⟨free', holes', recs', h'.tail⟩
    · exact ⟨free', holes', recs', h'⟩
  cases allocLinearZoneImpl_cases h.rep hok with
  | served hne hret hcheck _ _ =>
      rcases h.served hw hpos hne hcheck with ⟨-, hzero⟩ | ⟨hal, h'⟩
      · exact absurd hzero hret
      · rw [if_neg hret]
        refine ⟨free, holes, recs, h'.rep, h'.tidy, h'.records, fun r hr ha => ?_,
          fun r hr ha => ?_, List.pairwise_cons.2 ⟨fun r _ ha => absurd ha hal, h'.apart⟩⟩
        · rcases List.mem_cons.1 hr with rfl | hr
          · exact absurd ha hal
          · exact h'.inside r hr ha
        · rcases List.mem_cons.1 hr with rfl | hr
          · exact absurd ha hal
          · exact h'.taken r hr ha
  | full hu _ ht _ =>
      rw [if_pos rfl]
      exact ⟨free, holes, recs,
        h.congr (h.same_nodes hw hpos (hu.imp_right And.left) ht) (ht.rep h.rep)⟩
  | @anywhere z₁ _ _ pfree p hu hff ht _ hpf htake =>
      have hn := h.same_nodes hw hpos (hu.imp_right And.left) ht
      obtain ⟨hvisit, hfit⟩ := visits_of_walk_some hff
      refine hkeep (h.took_front hhi hpos hn (ht.rep h.rep) (h.rep.rep.phead.visits_iff.1 hvisit)
        hpf rfl (by omega) ?_ htake record)
      simpa using hfit
  | @front z₁ _ _ pfree p hne hu hp haddr ht _ hpf htake =>
      have hn := h.same_nodes hw hpos (.inr hu) ht
      have hoff : hint % 0x200000 = 0 := by
        have := hplaced p hne hu hp
        rwa [if_pos haddr] at this
      have hsize : hintedSize hint size = roundUp 0x200000 size := by
        rw [hintedSize_eq hrequest, roundUp_2M_eq (by omega), hoff, Nat.add_zero]
      have hfit := hp.fits
      rw [hsize] at htake hfit
      exact hkeep (h.took_front hhi hpos hn (ht.rep h.rep)
        (h.rep.rep.phead.visits_iff.1 (visits_of_walk_some hp.found).1) hpf hoff (by omega) hfit
        htake record)
  | @middle z₁ _ _ pfree p hne hu hp haddr ht _ hpf hsplit =>
      have hn := h.same_nodes hw hpos (.inr hu) ht
      have hmem : p ∈ holes := h.rep.rep.phead.visits_iff.1 (visits_of_walk_some hp.found).1
      have hin := h.tidy.inside p hmem
      have hal := h.tidy.aligned p hmem
      have hend : z.pool.holeEnd p = (z.pool.nodes p).addr + (z.pool.nodes p).size :=
        holeEnd_eq (by omega)
      have htail := hplaced p hne hu hp
      have hfit := hp.fits
      have hcont := hp.contains
      rw [if_neg haddr, tailAddr, hend] at htail
      rw [holeContains, Bool.and_eq_true, decide_eq_true_eq, decide_eq_true_eq, hend] at hcont
      rw [hintedSize_eq hrequest] at htail hfit hcont hsplit
      have hdown := alignDown_add_mod 0x200000 hint
      have hbase : alignDown 0x200000 hint % 0x200000 = 0 := alignDown_mod _ _
      rw [wadd_eq (by omega)] at hcont
      rw [wadd_eq (a := alignDown 0x200000 hint) (by omega), wadd_eq (by omega)] at htail
      generalize alignDown 0x200000 hint = base at *
      have htop := alignDown_add_mod 0x200000
        (base + ((size + 0x1fffff) / 0x200000 * 0x200000 + hint % 0x200000) + 0x1fffff)
      have htopmod := alignDown_mod 0x200000
        (base + ((size + 0x1fffff) / 0x200000 * 0x200000 + hint % 0x200000) + 0x1fffff)
      obtain ⟨hret, top, hge, hle, htook⟩ := splitLinear_tidy (ht.rep h.rep)
        (h.congr hn (ht.rep h.rep)).tidy hhi hmem hpf hbase
        (by rw [hn]; omega) (by rw [hn]; omega) hsplit
      rw [wadd_eq (by omega)] at hret htook
      refine hkeep (h.granted hn htook (by omega) fun hra => ⟨hpos, ?_, ?_, ?_⟩)
      · dsimp only
        omega
      · dsimp only at hra ⊢
        omega
      · dsimp only at hra
        intro a ha
        exact ⟨by have := ha.1; dsimp only at this; omega, by have := ha.2; dsimp only at this; omega⟩

end Alloc

/-! ## Whole runs -/

/-- The list of holes is strictly sorted by address; the holes share no address, lie in the zone, and
    are made of one or more whole 2 MiB pages. -/
def HolesInOrder (lo hi : Nat) (z : LinearZone) : Prop :=
  ∃ holes, Chain z.pool.next z.pool.phead holes ∧
    holes.Pairwise (fun i j => (z.pool.nodes i).addr < (z.pool.nodes j).addr) ∧
    Apart z.pool holes ∧
    ∀ i ∈ holes, lo ≤ (z.pool.nodes i).addr ∧
      (z.pool.nodes i).addr + (z.pool.nodes i).size ≤ hi ∧ 0 < (z.pool.nodes i).size ∧
      (z.pool.nodes i).addr % 0x200000 = 0 ∧ (z.pool.nodes i).size % 0x200000 = 0

theorem ZoneTidy.inOrder {lo hi : Nat} {z : LinearZone} {live : List LiveRange}
    {free holes recs : List Nat} (h : ZoneTidy lo hi z live free holes recs) :
    HolesInOrder lo hi z := by
  have hsorted := h.tidy.sorted
  refine ⟨holes, h.rep.rep.phead, ?_, hsorted.apart, fun i hi' => ?_⟩
  · refine hsorted.sorted.imp_of_mem fun {i j} hi' _ hij => ?_
    have := hsorted.pos i hi'
    omega
  · have hin := h.tidy.inside i hi'
    have hal := h.tidy.aligned i hi'
    exact ⟨hin.1, hin.2, hsorted.pos i hi', hal.1, hal.2⟩

/-- One call of a run that meets the condition. -/
def TidyStep (st st' : ZoneRun) : Prop := ∃ op, st.legal op ∧ st.tidy op ∧ st.exec op = .ok st'

theorem TidyStep.preserves {lo hi : Nat} {st st' : ZoneRun} (hhi : hi < 2 ^ 64)
    (step : TidyStep st st')
    (h : ∃ free holes recs, ZoneTidy lo hi st.zone st.live free holes recs) :
    ∃ free holes recs, ZoneTidy lo hi st'.zone st'.live free holes recs := by
  obtain ⟨free, holes, recs, h⟩ := h
  obtain ⟨op, hlegal, htidy, hok⟩ := step
  cases op with
  | alloc hint size =>
      obtain ⟨⟨ret, z'⟩, halloc, hok⟩ := bind_eq_ok.1 hok
      rw [← Except.ok.inj hok]
      exact h.alloc hhi hlegal.1 htidy halloc _
  | free r =>
      obtain ⟨z', hfree, hok⟩ := bind_eq_ok.1 hok
      rw [← Except.ok.inj hok]
      obtain ⟨free', holes', h'⟩ := h.freed hhi hlegal hfree
      exact ⟨free', holes', recs, h'⟩

theorem initVmZone_tidy {start size : Nat} {z : LinearZone} (hok : initVmZone start size = .ok z)
    (hb : start + roundUp 0x200000 size < 2 ^ 64) (hpos : 0 < roundUp 0x200000 size) :
    ∃ free holes recs, ZoneTidy start (start + roundUp 0x200000 size) z [] free holes recs := by
  obtain ⟨hal, hok⟩ := assert_bind_eq_ok.1 hok
  obtain ⟨pool', hfree, hok⟩ := bind_eq_ok.1 hok
  have hround := roundUp_2M_mod size
  have hnone : TidyHoles start (start + roundUp 0x200000 size) (initHoles linearHoles.capacity) [] :=
    ⟨⟨by simp, by simp, List.Pairwise.nil⟩, by simp, by simp⟩
  obtain ⟨free', holes', hrep', htidy', -, -⟩ := freeHole_tidy initZone_rep hnone hb le_rfl le_rfl
    hal hround hpos (by simp [cover, Set.disjoint_left]) hfree
  rw [← Except.ok.inj hok]
  exact ⟨free', holes', [], hrep', htidy', by simp, by simp, by simp, List.Pairwise.nil⟩

/-- **The holes stay in order.** In every run from `init_vm_zone` whose calls meet
    `ZoneRun.tidy`. -/
theorem linearZone_run_holesInOrder {start size : Nat} {z : LinearZone}
    (hinit : initVmZone start size = .ok z) (hb : start + roundUp 0x200000 size < 2 ^ 64)
    (hpos : 0 < roundUp 0x200000 size) {st : ZoneRun}
    (run : Relation.ReflTransGen TidyStep ⟨z, []⟩ st) :
    HolesInOrder start (start + roundUp 0x200000 size) st.zone := by
  have h : ∃ free holes recs, ZoneTidy start (start + roundUp 0x200000 size) st.zone st.live
      free holes recs := by
    induction run with
    | refl => exact initVmZone_tidy hinit hb hpos
    | tail _ step ih => exact step.preserves hb ih
  obtain ⟨free, holes, recs, h⟩ := h
  exact h.inOrder

/-- Two blocks of the `low` zone, the second from the middle of the hole, and a free. -/
theorem linearZone_run_holesInOrder_lowMmap : ∃ z st,
    initVmZone 0x700000000000 0x40000000000 = .ok z ∧
    Relation.ReflTransGen TidyStep ⟨z, []⟩ st ∧ st.live.length = 1 ∧
    HolesInOrder 0x700000000000 (0x700000000000 + roundUp 0x200000 0x40000000000) st.zone := by
  have hrun : ∃ z st, initVmZone 0x700000000000 0x40000000000 = .ok z ∧
      Relation.ReflTransGen TidyStep ⟨z, []⟩ st ∧ st.live.length = 1 := by
    refine ⟨_, _, rfl, .tail (.tail (.tail .refl
      ⟨.alloc 0 0x1000, ⟨by decide, by decide, by decide⟩,
        ⟨⟨by decide, fun p h => absurd rfl h⟩, fun p h => absurd rfl h⟩, rfl⟩)
      ⟨.alloc 0x700000400000 0x1000, ⟨by decide, by decide, by decide⟩,
        ⟨⟨by decide, fun p _ hp => ?_⟩, fun p _ _ hp => ?_⟩, rfl⟩)
      ⟨.free ⟨0x700000000000, 0x1000, 1⟩, List.mem_cons_of_mem _ List.mem_cons_self, trivial, rfl⟩,
      rfl⟩
    · cases Option.some.inj hp
    · cases Option.some.inj (Option.some.inj hp.found)
      decide +kernel
  obtain ⟨z, st, hinit, run, hlen⟩ := hrun
  exact ⟨z, st, hinit, run, hlen,
    linearZone_run_holesInOrder hinit (by decide) (by decide) run⟩

/-- A hint 4 KiB into a page of the `low` zone leaves a hole that starts 4 KiB into a page. -/
theorem hintOffset_misaligns_hole : ∃ z st,
    initVmZone 0x700000000000 0x40000000000 = .ok z ∧
    Relation.ReflTransGen ZoneStep ⟨z, []⟩ st ∧
    ¬ HolesInOrder 0x700000000000 (0x700000000000 + roundUp 0x200000 0x40000000000) st.zone := by
  refine ⟨_, _, rfl, .tail .refl
    ⟨.alloc 0x700000001000 0x1000, ⟨by decide, by decide, by decide⟩, rfl⟩, ?_⟩
  rintro ⟨holes, hchain, -, -, hall⟩
  have hholes : holes = [0] := hchain.unique ⟨rfl, rfl⟩
  subst hholes
  exact absurd (hall 0 List.mem_cons_self).2.2.2.1 (by decide +kernel)

end Yaos
