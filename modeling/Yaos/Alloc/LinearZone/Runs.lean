import Yaos.Alloc.LinearZone.Proofs
import Mathlib.Logic.Relation

set_option autoImplicit false

/-! # Runs of a linear zone

Which ranges stay apart over a whole run. Every block taken from a hole has its record, and the
block stays off the holes until it is freed. `check_alloced` may later put further ranges into the
first 2 MiB of the block. That is sound as long as the block is still allocated; the records are
never removed, so a record may also outlive its block, and then the same addresses are handed out
from the record and from the holes. -/

namespace Yaos

open Chains Word HolePool

/-! ## The ways out of the allocator -/

/-- A block taken from a hole for a request of `realsize` bytes, `off` bytes into the block. -/
def Granted (lo hi : Nat) (z z' : LinearZone) (holes recs : List Nat) (ret realsize : Nat) : Prop :=
  ∃ pfree base top off, Took lo hi z z' holes recs pfree base top (realsize + off) ∧
    ret = base + off ∧ off < 0x200000 ∧ (off ≠ 0 → base % 0x200000 = 0) ∧ lo ≤ base ∧
    base + ((realsize + 0x1fffff) / 0x200000 * 0x200000 + off) ≤ top ∧ top ≤ hi

/-- The lists and the ranges do not see the lock. -/
theorem Granted.of_lock {lo hi : Nat} {z z' : LinearZone} {holes recs : List Nat}
    {ret realsize : Nat} (pool : HolePool) (hn : pool.nodes = z.pool.nodes)
    (h : Granted lo hi { z with pool := pool } z' holes recs ret realsize) :
    Granted lo hi z z' holes recs ret realsize := by
  obtain ⟨pfree, base, top, off, ht, hrest⟩ := h
  have hcover : pool.cover holes = z.pool.cover holes := by
    simp only [cover, HolePool.range, hn]
  refine ⟨pfree, base, top, off, ⟨?_, ht.fresh, ht.addr_eq, ht.size_eq, ?_, ht.newest, ?_⟩, hrest⟩
  · rw [← hcover]; exact ht.lists
  · intro i hi'
    rw [← hn]; exact ht.records i hi'
  · rw [← hcover]; exact ht.wasFree

theorem roundUp_2M_eq {n : Nat} (h : n + 0x1fffff < 2 ^ 64) :
    roundUp 0x200000 n = (n + 0x1fffff) / 0x200000 * 0x200000 := by
  rw [roundUp_2M (by omega), Nat.mod_eq_of_lt (by omega)]

theorem allocLinearAny_spec {z : LinearZone} {free holes recs : List Nat} {lo hi : Nat}
    (h : ZoneRep z free holes recs) (hz : ZoneHoles lo hi z.pool holes) (hhi : hi < 2 ^ 64)
    {realsize : Nat} (hb : realsize + 0x1fffff < 2 ^ 64) {ret : Nat} {z' : LinearZone}
    (hok : allocLinearAny z realsize = .ok (ret, z')) :
    (ret = 0 ∧ z' = { z with pool := z.pool.spinLock.spinUnlock }) ∨
      Granted lo hi z z' holes recs ret realsize := by
  cases free with
  | nil =>
      have hnone : z.pool.pfree = none := h.rep.pfree
      simp [allocLinearAny, hnone] at hok
  | cons pfree free =>
      have hsome : z.pool.pfree = some pfree := h.rep.pfree.head_eq
      have hff : firstFit linearHoles z.pool.spinLock (roundUp 0x200000 realsize)
          = some (holes.find? fun p => !((z.pool.nodes p).size < roundUp 0x200000 realsize)) :=
        firstFit_eq linearHoles (s := z.pool.spinLock) h.rep.phead h.holes_le _
      simp only [allocLinearAny, hsome, hff] at hok
      cases hfind : holes.find? (fun p => !((z.pool.nodes p).size
          < roundUp 0x200000 realsize)) with
      | none =>
          simp only [hfind, Except.ok.injEq, Prod.mk.injEq] at hok
          exact .inl ⟨hok.1.symm, hok.2.symm⟩
      | some p =>
          have hp := List.mem_of_find?_eq_some hfind
          have hle : roundUp 0x200000 realsize ≤ (z.pool.nodes p).size := by
            simpa using List.find?_some hfind
          have hin := hz.inside p hp
          obtain ⟨z1, hok1, ht⟩ := takeLinear_spec h.lock
            (hz.congr fun i _ => ⟨rfl, rfl⟩) hhi hp hle 0 realsize
          simp only [hfind, hok1, Except.ok.injEq, Prod.mk.injEq] at hok
          rw [roundUp_2M_eq hb] at ht hle
          have hsz : wadd realsize (0 % 0x200000) = realsize + 0 := wadd_eq (by omega)
          have hret : wadd (z.pool.nodes p).addr (0 % 0x200000) = (z.pool.nodes p).addr + 0 :=
            wadd_eq (by omega)
          rw [hsz] at ht
          refine .inr (Granted.of_lock z.pool.spinLock rfl ?_)
          exact ⟨pfree, _, _, 0, hok.2 ▸ ht, hok.1.symm.trans hret, by decide,
            fun h0 => absurd rfl h0, hin.1, by simp, by simp only [spinLock_nodes]; omega⟩

theorem allocLinearHinted_spec {z : LinearZone} {free holes recs : List Nat} {lo hi : Nat}
    (h : ZoneRep z free holes recs) (hz : ZoneHoles lo hi z.pool holes) (hhi : hi < 2 ^ 64)
    {hint realsize : Nat}
    (hb : hint + (realsize + 0x1fffff) / 0x200000 * 0x200000 < 2 ^ 64) {ret : Nat} {z' : LinearZone}
    (hok : allocLinearHinted z hint realsize = .ok (ret, z')) :
    (ret = 0 ∧ z'.pool.nodes = z.pool.nodes ∧ z'.pool.phead = z.pool.phead ∧
        z'.pool.pfree = z.pool.pfree ∧ z'.alloced = z.alloced) ∨
      Granted lo hi z z' holes recs ret realsize := by
  -- the retry without the hint, which both misses below end in
  have hretry : allocLinearAny { z with pool := z.pool.spinLock.spinUnlock } realsize
      = .ok (ret, z') → (ret = 0 ∧ z'.pool.nodes = z.pool.nodes ∧ z'.pool.phead = z.pool.phead ∧
        z'.pool.pfree = z.pool.pfree ∧ z'.alloced = z.alloced) ∨
      Granted lo hi z z' holes recs ret realsize := by
    intro hany
    rcases allocLinearAny_spec h.lock.unlock (hz.congr fun i _ => ⟨rfl, rfl⟩) hhi (by omega) hany
      with ⟨rfl, rfl⟩ | hg
    · exact .inl ⟨rfl, rfl, rfl, rfl, rfl⟩
    · exact .inr (Granted.of_lock z.pool.spinLock.spinUnlock rfl hg)
  cases free with
  | nil =>
      have hnone : z.pool.pfree = none := h.rep.pfree
      simp [allocLinearHinted, hnone] at hok
  | cons pfree free =>
      have hsome : z.pool.pfree = some pfree := h.rep.pfree.head_eq
      have hround := roundUp_2M_eq (n := realsize) (by omega)
      have hsum : wadd (roundUp 0x200000 realsize) (hint % 0x200000)
          = (realsize + 0x1fffff) / 0x200000 * 0x200000 + hint % 0x200000 := by
        rw [hround, wadd_eq (by omega)]
      set need := (realsize + 0x1fffff) / 0x200000 * 0x200000 + hint % 0x200000 with hneed
      have hbase := alignDown_add_mod 0x200000 hint
      have hscan : walk z.pool.spinLock.next (fun p => !((z.pool.spinLock.nodes p).size < need) ||
          holeContains z.pool.spinLock (alignDown 0x200000 hint) need p) linearHoles.capacity
          z.pool.spinLock.phead = some (holes.find? fun p => !((z.pool.nodes p).size < need) ||
            holeContains z.pool (alignDown 0x200000 hint) need p) :=
        walk_eq_find h.rep.phead h.holes_le
      simp only [allocLinearHinted, hsome, hsum, hscan] at hok
      cases hfind : holes.find? (fun p => !((z.pool.nodes p).size < need) ||
          holeContains z.pool (alignDown 0x200000 hint) need p) with
      | none =>
          simp only [hfind] at hok
          exact hretry hok
      | some p =>
          have hp := List.mem_of_find?_eq_some hfind
          have hin := hz.inside p hp
          simp only [hfind] at hok
          split at hok
          · exact hretry hok
          rename_i hfit
          replace hfit : ¬ (decide ((z.pool.nodes p).size < need) ||
              !holeContains z.pool (alignDown 0x200000 hint) need p) = true := hfit
          have hfit : need ≤ (z.pool.nodes p).size ∧
              (z.pool.nodes p).addr ≤ alignDown 0x200000 hint ∧
              wadd (alignDown 0x200000 hint) need ≤ z.pool.holeEnd p := by
            simpa [holeContains] using hfit
          obtain ⟨hle, hlow, hhigh⟩ := hfit
          rw [holeEnd_eq (by omega), wadd_eq (by omega)] at hhigh
          have hsz : wadd realsize (hint % 0x200000) = realsize + hint % 0x200000 :=
            wadd_eq (by omega)
          have hret : wadd (alignDown 0x200000 hint) (hint % 0x200000)
              = alignDown 0x200000 hint + hint % 0x200000 := wadd_eq (by omega)
          split at hok
          · -- the block lies inside the hole
            obtain ⟨rfl, top, hge, htop, ht⟩ := splitLinear_spec h.lock
              (hz.congr fun i _ => ⟨rfl, rfl⟩) hhi hp (alignDown_mod _ _) hlow hhigh hok
            rw [hsz] at ht
            refine .inr (Granted.of_lock z.pool.spinLock rfl ?_)
            exact ⟨pfree, _, top, _, ht, hret, Nat.mod_lt _ (by decide), fun _ => alignDown_mod _ _,
              by omega, by omega, htop⟩
          · -- the block is the front of the hole
            rename_i hfront
            have hfront : (z.pool.nodes p).addr = alignDown 0x200000 hint := by
              simpa using hfront
            obtain ⟨z1, hok1, ht⟩ := takeLinear_spec h.lock
              (hz.congr fun i _ => ⟨rfl, rfl⟩) hhi hp hle hint realsize
            simp only [hok1, Except.ok.injEq, Prod.mk.injEq] at hok
            obtain ⟨rfl, rfl⟩ := hok
            simp only [spinLock_nodes, hfront, hsz, hret] at ht ⊢
            refine .inr (Granted.of_lock z.pool.spinLock rfl ?_)
            exact ⟨pfree, _, _, _, ht, rfl, Nat.mod_lt _ (by decide), fun _ => alignDown_mod _ _,
              by omega, le_rfl, by omega⟩

/-- What `check_alloced` does: nothing, or it serves the request `off` bytes into the page of a
    record, behind all the record has given out before. -/
theorem checkAlloced_spec {z : LinearZone} {free holes recs : List Nat}
    (h : ZoneRep z free holes recs) {hint : Nat} (hhint : hint < 2 ^ 64) (size : Nat) :
    (servingRecord z hint size = some none ∧
      checkAlloced z hint size = .ok (0, { z with pool := z.pool.spinLock.spinUnlock })) ∨
    ∃ p ∈ recs, ∃ off, servingRecord z hint size = some (some p) ∧
      (z.pool.nodes p).addr = alignDown 0x200000 hint ∧ (z.pool.nodes p).size ≤ off ∧
      (off = (z.pool.nodes p).size ∨ off = hint % 0x200000) ∧ wadd off size < 0x200000 ∧
      checkAlloced z hint size = .ok (wadd (alignDown 0x200000 hint) off,
        { z with pool := (z.pool.spinLock.modify p fun n =>
          { n with size := wadd off size }).spinUnlock }) := by
  have hwalk : servingRecord z hint size = _ := walk_eq_find h.alloced h.recs_le
  cases hfind : recs.find? (fun p => (z.pool.nodes p).addr == alignDown 0x200000 hint &&
      (recordExtends z.pool hint size p || recordReaches z.pool hint size p)) with
  | none =>
      rw [hfind] at hwalk
      exact .inl ⟨hwalk, by rw [checkAlloced, hwalk]⟩
  | some p =>
      rw [hfind] at hwalk
      have hstop := List.find?_some hfind
      rw [Bool.and_eq_true, beq_iff_eq, Bool.or_eq_true] at hstop
      obtain ⟨haddr, hserve⟩ := hstop
      refine .inr ⟨p, List.mem_of_find?_eq_some hfind, ?_⟩
      by_cases hext : recordExtends z.pool hint size p = true
      · have hlt : wadd (z.pool.nodes p).size size < 0x200000 := by
          simp only [recordExtends, Bool.and_eq_true, decide_eq_true_eq] at hext
          exact hext.2
        have hext' : recordExtends z.pool.spinLock hint size p = true := hext
        refine ⟨_, hwalk, haddr, le_rfl, .inl rfl, hlt, ?_⟩
        rw [checkAlloced, hwalk]
        simp only [hext', if_true]
        rfl
      · have hreach := hserve.resolve_left hext
        simp only [recordReaches, Bool.and_eq_true, decide_eq_true_eq] at hreach
        have hext' : ¬ recordExtends z.pool.spinLock hint size p = true := hext
        have hsum : wadd (alignDown 0x200000 hint) (hint % 0x200000) = hint := by
          have hadd := alignDown_add_mod 0x200000 hint
          rw [wadd_eq (by omega)]
          exact hadd
        refine ⟨_, hwalk, haddr, hreach.2, .inr rfl, hreach.1, ?_⟩
        rw [checkAlloced, hwalk, hsum]
        simp only [hext']
        rfl

/-! ## The invariant of a run -/

/-- The addresses of an allocated range. -/
def LiveRange.range (r : LiveRange) : Set Nat := Set.Ico r.addr (r.addr + r.size)

/-- The block of a record: what was taken from the hole for it, up to `top`. -/
def block (s : HolePool) (top : Nat → Nat) (i : Nat) : Set Nat := Set.Ico (s.nodes i).addr (top i)

/-- A range lies in the part of its record's block that the record counts as used. A range on a
    2 MiB boundary starts its block, which then holds all that freeing the range puts back. -/
structure Backed (lo hi : Nat) (s : HolePool) (recs : List Nat) (top : Nat → Nat) (r : LiveRange) :
    Prop where
  mem : r.record ∈ recs
  pos : 0 < r.size
  low : (s.nodes r.record).addr ≤ r.addr
  high : r.addr + r.size ≤ (s.nodes r.record).addr + (s.nodes r.record).size
  inside : lo ≤ (s.nodes r.record).addr ∧ top r.record ≤ hi
  used : (s.nodes r.record).addr + (s.nodes r.record).size ≤ top r.record
  page : (s.nodes r.record).addr + 0x200000 ≤ top r.record
  whole : r.addr % 0x200000 = 0 → r.addr = (s.nodes r.record).addr ∧
    r.addr + (r.size + 0x1fffff) / 0x200000 * 0x200000 ≤ top r.record

/-- The allocated ranges are backed by blocks that are off the holes and off each other. -/
structure ZoneOwns (lo hi : Nat) (z : LinearZone) (live : List LiveRange) (free holes recs : List Nat)
    (top : Nat → Nat) : Prop where
  rep : ZoneRep z free holes recs
  shape : ZoneHoles lo hi z.pool holes
  backed : ∀ r ∈ live, Backed lo hi z.pool recs top r
  taken : ∀ r ∈ live, Disjoint (block z.pool top r.record) (z.pool.cover holes)
  blocks : ∀ r ∈ live, ∀ r' ∈ live, r.record ≠ r'.record →
    Disjoint (block z.pool top r.record) (block z.pool top r'.record)
  apart : live.Pairwise fun r r' => Disjoint r.range r'.range

/-- The invariant of the runs. -/
def ZoneInv (lo hi : Nat) (st : ZoneRun) : Prop :=
  ∃ free holes recs top, ZoneOwns lo hi st.zone st.live free holes recs top

theorem Backed.range_subset {lo hi : Nat} {s : HolePool} {recs : List Nat} {top : Nat → Nat}
    {r : LiveRange} (h : Backed lo hi s recs top r) : r.range ⊆ block s top r.record := by
  intro a ha
  have hlow := h.low
  have hhigh := h.high
  have hused := h.used
  exact ⟨by have := ha.1; omega, by have := ha.2; omega⟩

/-- A range is still backed when its record keeps its address and does not shrink, and neither the
    records nor its block change otherwise. -/
theorem Backed.mono {lo hi : Nat} {s s' : HolePool} {recs recs' : List Nat} {top top' : Nat → Nat}
    {r : LiveRange} (h : Backed lo hi s recs top r) (hmem : r.record ∈ recs')
    (haddr : (s'.nodes r.record).addr = (s.nodes r.record).addr)
    (hsize : (s.nodes r.record).size ≤ (s'.nodes r.record).size)
    (htop : top' r.record = top r.record)
    (hused : (s'.nodes r.record).addr + (s'.nodes r.record).size ≤ top' r.record) :
    Backed lo hi s' recs' top' r := by
  have hhigh := h.high
  refine ⟨hmem, h.pos, ?_, by omega, ?_, hused, ?_, ?_⟩
  · rw [haddr]; exact h.low
  · rw [haddr, htop]; exact h.inside
  · rw [haddr, htop]; exact h.page
  · rw [haddr, htop]; exact h.whole

/-- What the invariant is for. -/
theorem ZoneInv.disjoint {lo hi : Nat} {st : ZoneRun} (h : ZoneInv lo hi st) :
    st.live.Pairwise (fun r r' => Disjoint r.range r'.range) ∧
      ∀ r ∈ st.live, Disjoint r.range st.zone.pool.freeSet := by
  obtain ⟨free, holes, recs, top, hown⟩ := h
  refine ⟨hown.apart, fun r hr => ?_⟩
  rw [hown.rep.rep.freeSet_eq]
  exact (hown.taken r hr).mono_left (hown.backed r hr).range_subset

/-! ## What one call keeps -/

theorem ZoneOwns.sublist {lo hi : Nat} {z : LinearZone} {live live' : List LiveRange}
    {free holes recs : List Nat} {top : Nat → Nat}
    (h : ZoneOwns lo hi z live free holes recs top) (hs : live'.Sublist live) :
    ZoneOwns lo hi z live' free holes recs top where
  rep := h.rep
  shape := h.shape
  backed r hr := h.backed r (hs.subset hr)
  taken r hr := h.taken r (hs.subset hr)
  blocks r hr r' hr' := h.blocks r (hs.subset hr) r' (hs.subset hr')
  apart := h.apart.sublist hs

/-- The invariant does not see the lock. -/
theorem ZoneOwns.congr {lo hi : Nat} {z z' : LinearZone} {live : List LiveRange}
    {free holes recs : List Nat} {top : Nat → Nat}
    (h : ZoneOwns lo hi z live free holes recs top) (hn : z'.pool.nodes = z.pool.nodes)
    (hf : z'.pool.pfree = z.pool.pfree) (hh : z'.pool.phead = z.pool.phead)
    (ha : z'.alloced = z.alloced) : ZoneOwns lo hi z' live free holes recs top := by
  obtain ⟨⟨nodes', pfree', phead', spin'⟩, alloced'⟩ := z'
  obtain ⟨⟨nodes, pfree, phead, spin⟩, alloced⟩ := z
  simp only at hn hf hh ha
  subst hn hf hh ha
  exact ⟨⟨⟨h.rep.rep.pfree, h.rep.rep.phead, h.rep.rep.disj⟩, h.rep.alloced, h.rep.nodup,
    h.rep.bound⟩, h.shape.congr fun i _ => ⟨rfl, rfl⟩,
    fun r hr => (h.backed r hr).mono (h.backed r hr).mem rfl le_rfl rfl (h.backed r hr).used,
    h.taken, h.blocks, h.apart⟩

/-- A block taken from a hole backs a new range. -/
theorem ZoneOwns.granted {lo hi : Nat} {z z' : LinearZone} {live : List LiveRange}
    {free holes recs : List Nat} {top : Nat → Nat}
    (h : ZoneOwns lo hi z live free holes recs top) {ret size : Nat} (hpos : 0 < size)
    (hg : Granted lo hi z z' holes recs ret size) :
    ∃ p, z'.alloced = some p ∧
      ZoneInv lo hi ⟨z', { addr := ret, size := size, record := p } :: live⟩ := by
  obtain ⟨p, base, t, off, ht, rfl, hoff, hbase, hlo, hge, hle⟩ := hg
  obtain ⟨free', holes', hrep', hz', hcover'⟩ := ht.lists
  have hne : ∀ r ∈ live, r.record ≠ p := fun r hr he =>
    ht.fresh (he ▸ (h.backed r hr).mem)
  have hnode : ∀ r ∈ live, z'.pool.nodes r.record = z.pool.nodes r.record := fun r hr =>
    ht.records _ (h.backed r hr).mem
  have htop : ∀ r ∈ live, Function.update top p t r.record = top r.record := fun r hr =>
    Function.update_of_ne (hne r hr) _ _
  have hblock : ∀ r ∈ live, block z'.pool (Function.update top p t) r.record
      = block z.pool top r.record := fun r hr => by
    rw [block, block, hnode r hr, htop r hr]
  have hnew : block z'.pool (Function.update top p t) p = Set.Ico base t := by
    rw [block, ht.addr_eq, Function.update_self]
  -- the new block was free before, so it is off every older block
  have hsep : ∀ r ∈ live, Disjoint (Set.Ico base t) (block z.pool top r.record) := fun r hr =>
    ((h.taken r hr).mono_right ht.wasFree).symm
  have hbacked : Backed lo hi z'.pool (p :: recs) (Function.update top p t)
      { addr := base + off, size := size, record := p } := by
    refine ⟨List.mem_cons_self .., hpos, ?_, ?_, ?_, ?_, ?_, ?_⟩ <;>
      simp only [ht.addr_eq, ht.size_eq, Function.update_self]
    · omega
    · omega
    · exact ⟨hlo, hle⟩
    · omega
    · omega
    · intro hal
      by_cases h0 : off = 0
      · rw [h0, Nat.add_zero] at hge ⊢; exact ⟨rfl, hge⟩
      · have := hbase h0; omega
  refine ⟨p, ht.newest, free', holes', p :: recs, Function.update top p t,
    ⟨hrep', hz', ?_, ?_, ?_, ?_⟩⟩
  · intro r hr
    rcases List.mem_cons.1 hr with rfl | hr
    · exact hbacked
    · have hb := h.backed r hr
      refine hb.mono (List.mem_cons_of_mem _ hb.mem) ?_ ?_ (htop r hr) ?_
      · rw [hnode r hr]
      · rw [hnode r hr]
      · rw [hnode r hr, htop r hr]; exact hb.used
  · intro r hr
    simp only [hcover']
    rcases List.mem_cons.1 hr with rfl | hr
    · rw [hnew]; exact Set.disjoint_sdiff_right
    · rw [hblock r hr]; exact (h.taken r hr).mono_right Set.sdiff_subset
  · intro r hr r' hr' hrr
    rcases List.mem_cons.1 hr with he | hr <;> rcases List.mem_cons.1 hr' with he' | hr'
    · subst he he'; exact absurd rfl hrr
    · subst he; simp only [hnew, hblock r' hr']; exact hsep r' hr'
    · subst he'; simp only [hnew, hblock r hr]; exact (hsep r hr).symm
    · simp only [hblock r hr, hblock r' hr']; exact h.blocks r hr r' hr' hrr
  · refine List.pairwise_cons.2 ⟨fun r hr => ?_, h.apart⟩
    have hsub := hbacked.range_subset
    rw [hnew] at hsub
    exact (hsep r hr).mono hsub (h.backed r hr).range_subset

/-- A range served from the record of a block that is still allocated. -/
theorem ZoneOwns.served {lo hi : Nat} {z : LinearZone} {live : List LiveRange}
    {free holes recs : List Nat} {top : Nat → Nat}
    (h : ZoneOwns lo hi z live free holes recs top) (hhi : hi < 2 ^ 64) {p off size : Nat}
    (hpos : 0 < size) {r₀ : LiveRange} (hr₀ : r₀ ∈ live) (hrec : r₀.record = p)
    (hal : (z.pool.nodes p).addr % 0x200000 = 0) (hoff : (z.pool.nodes p).size ≤ off)
    (hend : off + size < 0x200000) {pool' : HolePool}
    (hpool : pool' = (z.pool.spinLock.modify p fun n =>
      { n with size := off + size }).spinUnlock) :
    wadd (z.pool.nodes p).addr off ≠ 0 ∧
      ZoneInv lo hi ⟨{ z with pool := pool' },
        { addr := wadd (z.pool.nodes p).addr off, size := size, record := p } :: live⟩ := by
  subst hrec
  have hb₀ := h.backed r₀ hr₀
  have hp := hb₀.mem
  have hnh := (h.rep.not_recs hp).2
  have hself : pool'.nodes r₀.record = { z.pool.nodes r₀.record with size := off + size } := by
    rw [hpool, spinUnlock_nodes, modify_nodes_self]; rfl
  have hother : ∀ i, i ≠ r₀.record → pool'.nodes i = z.pool.nodes i := fun i hi' => by
    rw [hpool, spinUnlock_nodes, modify_nodes_ne _ _ hi']; rfl
  have haddr : ∀ i, (pool'.nodes i).addr = (z.pool.nodes i).addr := by
    intro i
    by_cases hi' : i = r₀.record
    · rw [hi', hself]
    · rw [hother i hi']
  have hblock : ∀ i, block pool' top i = block z.pool top i := fun i => by
    rw [block, block, haddr]
  have hsame : ∀ i ∈ holes, SameRange z.pool pool' i := fun i hi' => by
    rw [SameRange, hother i fun he => hnh (he ▸ hi')]; exact ⟨rfl, rfl⟩
  -- no hole changes: only the used part of the record grew
  have hcover : pool'.cover holes = z.pool.cover holes := by
    ext a
    refine exists_congr fun i => and_congr_right fun hi' => ?_
    rw [(hsame i hi').range_eq]
  have hlow := hb₀.low
  have hhigh := hb₀.high
  have hpos₀ := hb₀.pos
  have hpage := hb₀.page
  have htop := hb₀.inside.2
  have hret : wadd (z.pool.nodes r₀.record).addr off = (z.pool.nodes r₀.record).addr + off :=
    wadd_eq (by omega)
  have hrep' : ZoneRep { z with pool := pool' } free holes recs := by
    have hnext : ∀ i, pool'.next i = z.pool.next i := by
      intro i
      by_cases hi' : i = r₀.record
      · rw [hi', HolePool.next, HolePool.next, hself]
      · rw [HolePool.next, HolePool.next, hother i hi']
    have hf : pool'.pfree = z.pool.pfree := by rw [hpool]; rfl
    have hh : pool'.phead = z.pool.phead := by rw [hpool]; rfl
    refine ⟨⟨?_, ?_, h.rep.rep.disj⟩, h.rep.alloced.congr fun i _ => hnext i, h.rep.nodup,
      h.rep.bound⟩
    · simp only [hf]; exact h.rep.rep.pfree.congr fun i _ => hnext i
    · simp only [hh]; exact h.rep.rep.phead.congr fun i _ => hnext i
  have hold : ∀ r ∈ live, Backed lo hi pool' recs top r := by
    intro r hr
    have hb := h.backed r hr
    by_cases he : r.record = r₀.record
    · have hs : (pool'.nodes r.record).size = off + size := by rw [he, hself]
      refine hb.mono hb.mem (haddr _) ?_ rfl ?_
      · rw [hs, he]; omega
      · rw [hs, haddr, he]; omega
    · have hs := hother r.record he
      refine hb.mono hb.mem (haddr _) (by rw [hs]) rfl ?_
      rw [hs]; exact hb.used
  have hnew : Backed lo hi pool' recs top
      { addr := wadd (z.pool.nodes r₀.record).addr off, size := size, record := r₀.record } := by
    refine ⟨hp, hpos, ?_, ?_, ?_, ?_, ?_, ?_⟩ <;> simp only [hself, hret]
    · omega
    · omega
    · exact hb₀.inside
    · omega
    · exact hpage
    · omega
  -- the two ranges of one record share its block, all others have blocks of their own
  refine ⟨by omega, free, holes, recs, top, ⟨hrep', h.shape.congr hsame, ?_, ?_, ?_, ?_⟩⟩
  · intro r hr
    rcases List.mem_cons.1 hr with rfl | hr
    · exact hnew
    · exact hold r hr
  · intro r hr
    simp only [hcover, hblock]
    rcases List.mem_cons.1 hr with rfl | hr
    · exact h.taken r₀ hr₀
    · exact h.taken r hr
  · intro r hr r' hr' hrr
    simp only [hblock]
    rcases List.mem_cons.1 hr with he | hr <;> rcases List.mem_cons.1 hr' with he' | hr'
    · subst he he'; exact absurd rfl hrr
    · subst he; exact h.blocks r₀ hr₀ r' hr' hrr
    · subst he'; exact h.blocks r hr r₀ hr₀ hrr
    · exact h.blocks r hr r' hr' hrr
  · refine List.pairwise_cons.2 ⟨fun r hr => ?_, h.apart⟩
    by_cases he : r.record = r₀.record
    · -- every older range of the record ends where the record's used part ended
      have hend' := (h.backed r hr).high
      rw [he] at hend'
      rw [Set.disjoint_left]
      intro a ha ha'
      have h1 := ha.1
      have h2 := ha'.2
      simp only [hret] at h1
      omega
    · have hd := h.blocks r₀ hr₀ r hr (Ne.symm he)
      have hs := hnew.range_subset
      rw [hblock] at hs
      exact hd.mono hs (h.backed r hr).range_subset

/-- Freeing the only range of a block. -/
theorem ZoneOwns.freed {lo hi : Nat} {z z' : LinearZone} {live : List LiveRange}
    {free holes recs : List Nat} {top : Nat → Nat}
    (h : ZoneOwns lo hi z live free holes recs top) (hhi : hi < 2 ^ 64) {r : LiveRange}
    (hr : r ∈ live) (honly : ∀ r' ∈ live, r' ≠ r → r'.record ≠ r.record)
    (hok : freeLinearZone z r.addr r.size = .ok z') : ZoneInv lo hi ⟨z', live.erase r⟩ := by
  have hb := h.backed r hr
  obtain ⟨hal, hok⟩ := assert_bind_eq_ok.1 hok
  obtain ⟨pool', hfree, hres⟩ := bind_eq_ok.1 hok
  simp only [Except.ok.injEq] at hres
  obtain ⟨haddr, hwhole⟩ := hb.whole hal
  have hin := hb.inside
  rw [roundUp_2M_eq (by omega)] at hfree
  set freed := (r.size + 0x1fffff) / 0x200000 * 0x200000 with hfreed
  have hsub : Set.Ico r.addr (r.addr + freed) ⊆ block z.pool top r.record := by
    intro a ha
    exact ⟨by have := ha.1; omega, by have := ha.2; omega⟩
  have hlow := hb.low
  obtain ⟨free', holes', hrep', hz', hcover', hrecs'⟩ := freeHole_zone h.rep h.shape hhi
    (by omega) (by omega) (by omega) ((h.taken r hr).mono_left hsub) hfree
  have hnd : live.Nodup := by
    refine h.apart.imp_of_mem fun {a b} ha _ hd he => ?_
    subst he
    have hpos := (h.backed a ha).pos
    have hself : a.addr ∈ a.range := ⟨le_rfl, by omega⟩
    exact Set.disjoint_left.1 hd hself hself
  have hleft : ∀ r' ∈ live.erase r, r' ∈ live ∧ r'.record ≠ r.record := fun r' hr' => by
    obtain ⟨hne, hmem⟩ := hnd.mem_erase_iff.1 hr'
    exact ⟨hmem, honly r' hmem hne⟩
  have hnode : ∀ r' ∈ live, pool'.nodes r'.record = z.pool.nodes r'.record := fun r' hr' =>
    hrecs' _ (h.backed r' hr').mem
  have hblock : ∀ r' ∈ live, block pool' top r'.record = block z.pool top r'.record :=
    fun r' hr' => by rw [block, block, hnode r' hr']
  subst hres
  refine ⟨free', holes', recs, top, ⟨hrep', hz', ?_, ?_, ?_, h.apart.sublist List.erase_sublist⟩⟩
  · intro r' hr'
    have hmem := (hleft r' hr').1
    have hb' := h.backed r' hmem
    refine hb'.mono hb'.mem ?_ ?_ rfl ?_
    · simp only [hnode r' hmem]
    · simp only [hnode r' hmem, le_refl]
    · simp only [hnode r' hmem]; exact hb'.used
  · intro r' hr'
    obtain ⟨hmem, hne⟩ := hleft r' hr'
    simp only [hblock r' hmem, hcover']
    rw [Set.disjoint_union_right]
    exact ⟨h.taken r' hmem, (h.blocks r' hmem r hr hne).mono_right hsub⟩
  · intro r' hr' r'' hr'' hrr
    simp only [hblock r' (hleft r' hr').1, hblock r'' (hleft r'' hr'').1]
    exact h.blocks r' (hleft r' hr').1 r'' (hleft r'' hr'').1 hrr

/-! ## Whole runs -/

/-- The condition under which a call keeps the ranges apart. For an allocation: the hint and the
    size rounded up to 2 MiB stay below `2 ^ 64`, and a record that serves the request belongs to a
    block that is still allocated (and does not overflow). For a free: no other range was served
    from the block. -/
def ZoneRun.sound (st : ZoneRun) : ZoneOp → Prop
  | .alloc hint size =>
      hint + (size + 0x1fffff) / 0x200000 * 0x200000 < 2 ^ 64 ∧
      ∀ p, hint ≠ 0 → servingRecord st.zone hint size = some (some p) →
        (∃ r ∈ st.live, r.record = p) ∧ (st.zone.pool.nodes p).size + size < 2 ^ 64
  | .free r => ∀ r' ∈ st.live, r' ≠ r → r'.record ≠ r.record

/-- One call of a run, made as the zone's callers make it. -/
def ZoneStep (st st' : ZoneRun) : Prop := ∃ op, st.legal op ∧ st.exec op = .ok st'

/-- One call of a run that meets the condition. -/
def SoundStep (st st' : ZoneRun) : Prop := ∃ op, st.legal op ∧ st.sound op ∧ st.exec op = .ok st'

theorem initVmZone_inv {start size : Nat} {z : LinearZone}
    (hok : initVmZone start size = .ok z) (hb : start + roundUp 0x200000 size < 2 ^ 64) :
    ZoneInv start (start + roundUp 0x200000 size) ⟨z, []⟩ := by
  obtain ⟨hal, hok⟩ := assert_bind_eq_ok.1 hok
  obtain ⟨pool', hfree, hres⟩ := bind_eq_ok.1 hok
  simp only [Except.ok.injEq] at hres
  have hround := roundUp_2M_mod size
  obtain ⟨free', holes', hrep', hz', -, -⟩ := freeHole_zone initZone_rep
    (show ZoneHoles start (start + roundUp 0x200000 size) _ [] from
      ⟨by simp, by simp, by simp [Apart]⟩) hb le_rfl le_rfl
    (by omega) (by simp [cover, Set.disjoint_left]) hfree
  subst hres
  exact ⟨free', holes', [], fun _ => 0, ⟨hrep', hz', by simp, by simp, by simp, by simp⟩⟩

theorem allocLinearZone_step {lo hi : Nat} {st : ZoneRun} (h : ZoneInv lo hi st)
    (hhi : hi < 2 ^ 64) {hint size : Nat} (hl : st.legal (.alloc hint size))
    (hs : st.sound (.alloc hint size)) {st' : ZoneRun}
    (hok : st.exec (.alloc hint size) = .ok st') : ZoneInv lo hi st' := by
  obtain ⟨z, live⟩ := st
  obtain ⟨free, holes, recs, top, hown⟩ := h
  replace hown : ZoneOwns lo hi z live free holes recs top := hown
  obtain ⟨hpos, -, hhint⟩ := hl
  obtain ⟨hb, hserve⟩ := hs
  obtain ⟨⟨ret, z'⟩, hret, hres⟩ := bind_eq_ok.1 hok
  simp only [Except.ok.injEq] at hres
  subst hres
  -- a request not served from a record: nothing happens, or a block is taken from a hole
  have hfromHoles : (if hint ≠ 0 then servingRecord z hint size else some none) = some none →
      (ret = 0 ∧ ZoneOwns lo hi z' live free holes recs top) ∨
        Granted lo hi z z' holes recs ret size →
      ZoneInv lo hi ⟨z', if ret = 0 then live else
        { addr := ret, size := size, record := recordFor z hint size z' } :: live⟩ := by
    intro hnone hcase
    rcases hcase with ⟨rfl, hsame⟩ | hg
    · rw [if_pos rfl]
      exact ⟨free, holes, recs, top, hsame⟩
    · obtain ⟨p, hp, hinv⟩ := hown.granted hpos hg
      have hrec : recordFor z hint size z' = p := by
        rw [recordFor, hnone]
        simp only [hp, Option.getD_some]
      split
      · obtain ⟨free', holes', recs', top', hown'⟩ := hinv
        exact ⟨free', holes', recs', top', hown'.sublist (List.sublist_cons_self _ _)⟩
      · rw [hrec]; exact hinv
  by_cases h0 : hint = 0
  · subst h0
    rw [allocLinearZoneImpl, if_neg (by simp)] at hret
    refine hfromHoles (by simp) ?_
    rcases allocLinearAny_spec hown.rep hown.shape hhi (by omega) hret with ⟨rfl, rfl⟩ | hg
    · exact .inl ⟨rfl, hown.congr rfl rfl rfl rfl⟩
    · exact .inr hg
  · rw [allocLinearZoneImpl, if_pos h0] at hret
    obtain ⟨⟨addr, z1⟩, hcheck, hret⟩ := bind_eq_ok.1 hret
    rcases checkAlloced_spec hown.rep hhint size with
      ⟨hnone, hres⟩ | ⟨p, hp, off, hsome, haddr, hoff, hcase, hlt, hres⟩
    · rw [hcheck] at hres
      simp only [Except.ok.injEq, Prod.mk.injEq] at hres
      obtain ⟨rfl, rfl⟩ := hres
      simp only [ne_eq, not_true, if_false] at hret
      refine hfromHoles (by simp [h0, hnone]) ?_
      have hown1 : ZoneOwns lo hi { z with pool := z.pool.spinLock.spinUnlock } live free holes recs
          top := hown.congr rfl rfl rfl rfl
      rcases allocLinearHinted_spec hown1.rep hown1.shape hhi hb hret with
        ⟨rfl, hn, hh, hf, ha⟩ | hg
      · exact .inl ⟨rfl, hown1.congr hn hf hh ha⟩
      · exact .inr (Granted.of_lock z.pool.spinLock.spinUnlock rfl hg)
    · -- the record that serves the request backs a live range, so its block is still taken
      obtain ⟨⟨r₀, hr₀, hrec⟩, hsum⟩ := hserve p h0 hsome
      simp only at hsum
      have hend : wadd off size = off + size := wadd_eq (by omega)
      rw [hend] at hlt hres
      obtain ⟨hne, hinv⟩ := hown.served hhi hpos hr₀ hrec
        (by rw [haddr]; exact alignDown_mod _ _) hoff hlt rfl
      rw [haddr] at hne hinv
      rw [hcheck] at hres
      simp only [Except.ok.injEq, Prod.mk.injEq] at hres
      obtain ⟨rfl, rfl⟩ := hres
      simp only [if_pos hne, Except.ok.injEq, Prod.mk.injEq] at hret
      obtain ⟨rfl, rfl⟩ := hret
      have hfor : recordFor z hint size
          { z with pool := (z.pool.spinLock.modify p fun n =>
            { n with size := off + size }).spinUnlock } = p := by
        rw [recordFor, if_pos h0, hsome]
      simp only [if_neg hne, hfor]
      exact hinv

theorem SoundStep.preserves {lo hi : Nat} {st st' : ZoneRun} (hhi : hi < 2 ^ 64)
    (step : SoundStep st st') (h : ZoneInv lo hi st) : ZoneInv lo hi st' := by
  obtain ⟨op, hl, hs, hok⟩ := step
  cases op with
  | alloc hint size => exact allocLinearZone_step h hhi hl hs hok
  | free r =>
      obtain ⟨free, holes, recs, top, hown⟩ := h
      obtain ⟨z', hfree, hres⟩ := bind_eq_ok.1 hok
      simp only [Except.ok.injEq] at hres
      subst hres
      exact hown.freed hhi hl hs hfree

theorem zone_run_inv {lo hi : Nat} (hhi : hi < 2 ^ 64) {st₀ st : ZoneRun} (h : ZoneInv lo hi st₀)
    (run : Relation.ReflTransGen SoundStep st₀ st) : ZoneInv lo hi st := by
  induction run with
  | refl => exact h
  | tail _ step ih => exact step.preserves hhi ih

/-- **The allocated ranges stay apart.** In every run from `init_vm_zone` whose calls meet
    `ZoneRun.sound`, the ranges currently allocated are pairwise disjoint and miss every hole. -/
theorem linearZone_run_disjoint {start size : Nat} {z : LinearZone}
    (hinit : initVmZone start size = .ok z) (hb : start + roundUp 0x200000 size < 2 ^ 64)
    {st : ZoneRun} (run : Relation.ReflTransGen SoundStep ⟨z, []⟩ st) :
    st.live.Pairwise (fun r r' => Disjoint r.range r'.range) ∧
      ∀ r ∈ st.live, Disjoint r.range st.zone.pool.freeSet :=
  (zone_run_inv hb (initVmZone_inv hinit hb) run).disjoint

/-- A block of the `low` zone with a second range served from its record. -/
theorem linearZone_run_disjoint_lowMmap : ∃ z st,
    initVmZone 0x700000000000 0x40000000000 = .ok z ∧
    Relation.ReflTransGen SoundStep ⟨z, []⟩ st ∧ st.live.length = 2 ∧
    st.live.Pairwise (fun r r' => Disjoint r.range r'.range) ∧
    ∀ r ∈ st.live, Disjoint r.range st.zone.pool.freeSet := by
  have hrun : ∃ z st, initVmZone 0x700000000000 0x40000000000 = .ok z ∧
      Relation.ReflTransGen SoundStep ⟨z, []⟩ st ∧ st.live.length = 2 := by
    refine ⟨_, _, rfl, .tail (.tail .refl
      ⟨.alloc 0 0x1000, ⟨by decide, by decide, by decide⟩, ⟨by decide, fun p h => absurd rfl h⟩,
        rfl⟩)
      ⟨.alloc 0x700000000000 0x1000, ⟨by decide, by decide, by decide⟩,
        ⟨by decide, fun p _ hp => ?_⟩, rfl⟩, rfl⟩
    cases Option.some.inj (Option.some.inj hp)
    exact ⟨⟨⟨0x700000000000, 0x1000, 1⟩, List.mem_cons_self, rfl⟩, by decide +kernel⟩
  obtain ⟨z, st, hinit, run, hlen⟩ := hrun
  exact ⟨z, st, hinit, run, hlen, linearZone_run_disjoint hinit (by decide) run⟩

/-- A stale record: the `low` zone gives out its first page, takes it back, and then serves a hint
    in that page from the record, although the page is a hole again. -/
theorem staleRecord_overlaps_hole : ∃ z st,
    initVmZone 0x700000000000 0x40000000000 = .ok z ∧
    Relation.ReflTransGen ZoneStep ⟨z, []⟩ st ∧
    ∃ r ∈ st.live, ¬ Disjoint r.range st.zone.pool.freeSet := by
  refine ⟨_, _, rfl, .tail (.tail (.tail .refl
      ⟨.alloc 0 0x1000, ⟨by decide, by decide, by decide⟩, rfl⟩)
      ⟨.free ⟨0x700000000000, 0x1000, 1⟩, List.mem_cons_self, rfl⟩)
      ⟨.alloc 0x700000000000 0x1000, ⟨by decide, by decide, by decide⟩, rfl⟩,
    ⟨0x700000001000, 0x1000, 1⟩, List.mem_cons_self, fun hd => ?_⟩
  have hmem : 0x700000001000 ∈ Set.Ico 0x700000001000 (0x700000001000 + 0x1000) := by simp
  refine Set.disjoint_left.1 hd hmem ⟨[2, 0], ⟨rfl, rfl, rfl⟩, 2, by simp, ?_, ?_⟩
  · decide +kernel
  · decide +kernel

end Yaos
