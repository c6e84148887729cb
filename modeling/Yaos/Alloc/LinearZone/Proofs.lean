import Yaos.Alloc.LinearZone
import Yaos.Alloc.HolePool.Sorted
import Mathlib.Data.List.Perm.Subperm

set_option autoImplicit false

/-! # What the zone operations do to the three lists

`ZoneRep` names the nodes of the three lists and `ZoneHoles` says what is kept of the holes. They
need not stay sorted: a hole that is split at its very end leaves an empty hole behind, which may
later grow out of order. What matters to the blocks handed out is the set of addresses the holes
cover, and every lemma below says how that set changes. -/

namespace Yaos

open Chains Word HolePool

/-- The nodes of the three lists of a zone. -/
structure ZoneRep (z : LinearZone) (free holes recs : List Nat) : Prop where
  rep : z.pool.Rep free holes
  alloced : Chain z.pool.next z.alloced recs
  nodup : (free ++ (holes ++ recs)).Nodup
  bound : ∀ i ∈ free ++ (holes ++ recs), i < linearHoles.capacity

/-- The holes lie in the zone `[lo, hi)`, end on 2 MiB boundaries and share no address. -/
structure ZoneHoles (lo hi : Nat) (s : HolePool) (holes : List Nat) : Prop where
  inside : ∀ i ∈ holes, lo ≤ (s.nodes i).addr ∧ (s.nodes i).addr + (s.nodes i).size ≤ hi
  aligned : ∀ i ∈ holes, ((s.nodes i).addr + (s.nodes i).size) % 0x200000 = 0
  apart : Apart s holes

theorem ZoneRep.lock {z : LinearZone} {free holes recs : List Nat} (h : ZoneRep z free holes recs) :
    ZoneRep { z with pool := z.pool.spinLock } free holes recs :=
  ⟨⟨h.rep.pfree, h.rep.phead, h.rep.disj⟩, h.alloced, h.nodup, h.bound⟩

theorem ZoneRep.unlock {z : LinearZone} {free holes recs : List Nat}
    (h : ZoneRep z free holes recs) :
    ZoneRep { z with pool := z.pool.spinUnlock } free holes recs :=
  ⟨⟨h.rep.pfree, h.rep.phead, h.rep.disj⟩, h.alloced, h.nodup, h.bound⟩

theorem ZoneHoles.congr {lo hi : Nat} {s t : HolePool} {holes : List Nat}
    (h : ZoneHoles lo hi s holes) (heq : ∀ i ∈ holes, SameRange s t i) :
    ZoneHoles lo hi t holes := by
  refine ⟨fun i hi' => ?_, fun i hi' => ?_, fun i hi' j hj hij => ?_⟩
  · rw [(heq i hi').1, (heq i hi').2]; exact h.inside i hi'
  · rw [(heq i hi').1, (heq i hi').2]; exact h.aligned i hi'
  · rw [(heq i hi').range_eq, (heq j hj).range_eq]; exact h.apart i hi' j hj hij

/-- All nodes are unused before `init_vm_zone` frees the zone. -/
theorem initZone_rep : ZoneRep { pool := initHoles linearHoles.capacity, alloced := none }
    (List.range linearHoles.capacity) [] [] :=
  ⟨initHoles_rep _, rfl, by simpa using List.nodup_range, by simp⟩

/-- A list of distinct nodes is no longer than the array. -/
theorem length_le_of_nodup {l : List Nat} {n : Nat} (hnd : l.Nodup) (hb : ∀ i ∈ l, i < n) :
    l.length ≤ n := by
  have hsub : l ⊆ List.range n := fun i hi => List.mem_range.2 (hb i hi)
  have := (List.subperm_of_subset hnd hsub).length_le
  rwa [List.length_range] at this

theorem ZoneRep.holes_le {z : LinearZone} {free holes recs : List Nat}
    (h : ZoneRep z free holes recs) : holes.length ≤ linearHoles.capacity :=
  length_le_of_nodup h.rep.phead.nodup fun i hi => h.bound i (by simp [hi])

theorem ZoneRep.recs_le {z : LinearZone} {free holes recs : List Nat}
    (h : ZoneRep z free holes recs) : recs.length ≤ linearHoles.capacity :=
  length_le_of_nodup h.alloced.nodup fun i hi => h.bound i (by simp [hi])

theorem ZoneRep.free_cons {z : LinearZone} {free holes recs : List Nat} {p : Nat}
    (h : ZoneRep z free holes recs) (hp : z.pool.pfree = some p) : ∃ free', free = p :: free' := by
  cases free with
  | nil =>
      have hnone : z.pool.pfree = none := h.rep.pfree
      rw [hp] at hnone
      cases hnone
  | cons q free => exact ⟨free, by rw [Option.some.inj (h.rep.pfree.1.symm.trans hp)]⟩

/-- Nodes of the lists are told apart by the list they are on. -/
theorem ZoneRep.not_recs {z : LinearZone} {free holes recs : List Nat}
    (h : ZoneRep z free holes recs) {i : Nat} (hi : i ∈ recs) : i ∉ free ∧ i ∉ holes := by
  have hnd := List.nodup_append.1 h.nodup
  refine ⟨fun hf => hnd.2.2 i hf i (by simp [hi]) rfl, fun hh => ?_⟩
  exact (List.nodup_append.1 hnd.2.1).2.2 i hh i hi rfl

/-! ## Freeing -/

/-- The records of a zone that a step leaves as they are. -/
def SameRecords (s s' : HolePool) (recs : List Nat) : Prop := ∀ i ∈ recs, s'.nodes i = s.nodes i

/-- A hole is made of an unused node. -/
theorem inserted_perm (addrOf : Nat → Nat) (p addr : Nat) (free holes recs : List Nat) :
    (free ++ (insertPos addrOf p addr holes ++ recs)).Perm (p :: free ++ (holes ++ recs)) :=
  (((insertPos_perm addrOf p addr holes).append_right recs).append_left free).trans List.perm_middle

/-- What freeing does to the three lists: it extends a hole, or the first unused node becomes one. -/
theorem freeHole_nodes {z : LinearZone} {free holes recs : List Nat} (h : ZoneRep z free holes recs)
    {addr size : Nat} {pool' : HolePool} (hok : freeHole linearHoles z.pool addr size = .ok pool') :
    SameRecords z.pool pool' recs ∧
      ((∃ ph, Merged z.pool pool' holes addr size ph ∧
          ZoneRep { z with pool := pool' } free holes recs) ∨
        ∃ p free', free = p :: free' ∧ Inserted z.pool pool' free' holes addr size p ∧
          ZoneRep { z with pool := pool' } free'
            (insertPos (fun i => (z.pool.nodes i).addr) p addr holes) recs) := by
  rcases freeHole_spec linearHoles h.rep h.holes_le addr size with
    ⟨-, herr⟩ | ⟨p, free', s', rfl, hok', ⟨ph, hm⟩ | hins⟩
  · rw [hok] at herr; cases herr
  · rw [hok] at hok'; cases hok'
    have hsame : ∀ i, pool'.next i = z.pool.next i := by
      intro i
      by_cases hip : i = ph
      · subst hip; simp [HolePool.next, hm.self]
      · simp [HolePool.next, hm.others i hip]
    refine ⟨fun i hi' => hm.others i fun he => (h.not_recs hi').2 (he ▸ hm.mem), .inl ⟨ph, hm, ?_⟩⟩
    exact ⟨h.rep.merged hm, h.alloced.congr fun i _ => hsame i, h.nodup, h.bound⟩
  · rw [hok] at hok'; cases hok'
    have hnd := h.nodup
    rw [List.cons_append, List.nodup_cons] at hnd
    have hprec : p ∉ recs := fun hm => hnd.1 (by simp [hm])
    have hrecs : SameRecords z.pool pool' recs := fun i hi' =>
      hins.frame i (fun he => hprec (he ▸ hi')) (h.not_recs hi').2
    have hall := inserted_perm (fun i => (z.pool.nodes i).addr) p addr free' holes recs
    refine ⟨hrecs, .inr ⟨p, free', rfl, hins, hins.rep, ?_, hall.nodup_iff.2 h.nodup,
      fun i hi' => h.bound i (hall.mem_iff.1 hi')⟩⟩
    refine h.alloced.congr fun i hi' => ?_
    simp only [HolePool.next, hrecs i hi']

theorem freeHole_zone {z : LinearZone} {free holes recs : List Nat} {lo hi : Nat}
    (h : ZoneRep z free holes recs) (hz : ZoneHoles lo hi z.pool holes) (hhi : hi < 2 ^ 64)
    {addr size : Nat} (hlo : lo ≤ addr) (hend : addr + size ≤ hi)
    (hal : (addr + size) % 0x200000 = 0)
    (hd : Disjoint (Set.Ico addr (addr + size)) (z.pool.cover holes)) {pool' : HolePool}
    (hok : freeHole linearHoles z.pool addr size = .ok pool') :
    ∃ free' holes', ZoneRep { z with pool := pool' } free' holes' recs ∧
      ZoneHoles lo hi pool' holes' ∧
      pool'.cover holes' = z.pool.cover holes ∪ Set.Ico addr (addr + size) ∧
      SameRecords z.pool pool' recs := by
  obtain ⟨hrecs, ⟨ph, hm, hrep'⟩ | ⟨p, free', rfl, hins, hrep'⟩⟩ := freeHole_nodes h hok
  -- the range goes on the end of the hole `ph`
  · have hin := hz.inside ph hm.mem
    have hends := hm.ends
    rw [holeEnd_eq (by omega)] at hends
    have hself : (pool'.nodes ph).addr = (z.pool.nodes ph).addr ∧
        (pool'.nodes ph).size = (z.pool.nodes ph).size + size := by
      rw [hm.self]; exact ⟨rfl, wadd_eq (by omega)⟩
    have hrange : pool'.range ph = z.pool.range ph ∪ Set.Ico addr (addr + size) := by
      ext a
      simp only [mem_range, Set.mem_union, Set.mem_Ico, hself.1, hself.2]
      omega
    refine ⟨free, holes, hrep', ⟨?_, ?_, ?_⟩, hm.cover_eq (by omega) (by omega), hrecs⟩
    · intro i hi'
      by_cases hip : i = ph
      · subst hip; omega
      · rw [hm.others i hip]; exact hz.inside i hi'
    · intro i hi'
      by_cases hip : i = ph
      · subst hip
        have heq : (pool'.nodes i).addr + (pool'.nodes i).size = addr + size := by omega
        rw [heq]; exact hal
      · rw [hm.others i hip]; exact hz.aligned i hi'
    · -- only `ph` grew, by a range that misses every hole
      have hgrow : ∀ j ∈ holes, j ≠ ph → Disjoint (pool'.range ph) (pool'.range j) := by
        intro j hj hjp
        have hj' : pool'.range j = z.pool.range j := by
          rw [HolePool.range, HolePool.range, hm.others j hjp]
        rw [hrange, hj', Set.disjoint_union_left]
        exact ⟨hz.apart ph hm.mem j hj hjp.symm, disjoint_range_of_cover hd hj⟩
      intro i hi' j hj hij
      by_cases hip : i = ph
      · subst hip; exact hgrow j hj hij.symm
      · by_cases hjp : j = ph
        · subst hjp; exact (hgrow i hi' hip).symm
        · have := hz.apart i hi' j hj hij
          rwa [HolePool.range, HolePool.range, hm.others i hip, hm.others j hjp]
  -- the range becomes a hole of its own, in the node `p`
  · have hp : p ∉ holes := h.rep.disj p (List.mem_cons_self ..)
    have hperm := insertPos_perm (fun i => (z.pool.nodes i).addr) p addr holes
    have hpr : pool'.range p = Set.Ico addr (addr + size) := by
      rw [HolePool.range, hins.addr_eq, hins.size_eq]
    refine ⟨free', _, hrep', ⟨?_, ?_, ?_⟩, hins.cover_eq hp, hrecs⟩
    · intro i hi'
      rcases List.mem_cons.1 (hperm.mem_iff.1 hi') with rfl | hi'
      · rw [hins.addr_eq, hins.size_eq]; exact ⟨hlo, hend⟩
      · have := hins.ranges i fun he => hp (he ▸ hi')
        rw [this.1, this.2]; exact hz.inside i hi'
    · intro i hi'
      rcases List.mem_cons.1 (hperm.mem_iff.1 hi') with rfl | hi'
      · rw [hins.addr_eq, hins.size_eq]; exact hal
      · have := hins.ranges i fun he => hp (he ▸ hi')
        rw [this.1, this.2]; exact hz.aligned i hi'
    · have hold : ∀ j ∈ holes, pool'.range j = z.pool.range j := fun j hj =>
        (hins.ranges j fun he => hp (he ▸ hj)).range_eq
      intro i hi' j hj hij
      rcases List.mem_cons.1 (hperm.mem_iff.1 hi') with hip | him <;>
        rcases List.mem_cons.1 (hperm.mem_iff.1 hj) with hjp | hjm
      · exact absurd (hip.trans hjp.symm) hij
      · rw [hip, hpr, hold j hjm]; exact disjoint_range_of_cover hd hjm
      · rw [hjp, hpr, hold i him]; exact (disjoint_range_of_cover hd him).symm
      · rw [hold i him, hold j hjm]; exact hz.apart i him j hjm hij

/-! ## Making a record -/

/-- A record is made of an unused node. -/
theorem recorded_perm (pfree : Nat) (free holes recs : List Nat) :
    (free ++ (holes ++ pfree :: recs)).Perm (pfree :: free ++ (holes ++ recs)) :=
  (List.Perm.append_left free List.perm_middle).trans List.perm_middle

/-- The node `pfree`, on the unused list behind `front`, becomes the newest record. The nodes of
    `front` drop out of all lists. -/
theorem record_rep {z : LinearZone} {front free holes recs : List Nat} {pfree addr size : Nat}
    (hfree : Chain z.pool.next z.pool.pfree (front ++ pfree :: free))
    (hhead : Chain z.pool.next z.pool.phead holes) (halloc : Chain z.pool.next z.alloced recs)
    (hnd : (pfree :: free ++ (holes ++ recs)).Nodup)
    (hb : ∀ i ∈ pfree :: free ++ (holes ++ recs), i < linearHoles.capacity) :
    ZoneRep (z.record pfree addr size) free holes (pfree :: recs) := by
  have hne : ∀ i, i ∈ free ++ (holes ++ recs) → i ≠ pfree := by
    intro i hi he
    rw [List.cons_append, List.nodup_cons] at hnd
    exact hnd.1 (he ▸ hi)
  have hnext : ∀ i, i ≠ pfree → (z.record pfree addr size).pool.next i = z.pool.next i := by
    intro i hi
    simp [HolePool.next, LinearZone.record, hi]
  have hself : (z.record pfree addr size).pool.next pfree = z.alloced := by
    simp [HolePool.next, LinearZone.record]
  have hnd' := List.nodup_append.1 (List.nodup_cons.1 hnd).2
  have hall := recorded_perm pfree free holes recs
  refine ⟨⟨?_, ?_, ?_⟩, ?_, hall.nodup_iff.2 hnd, fun i hi => hb i (hall.mem_iff.1 hi)⟩
  · have hrest : Chain z.pool.next (z.pool.next pfree) free := hfree.after
    exact hrest.congr fun i hi => hnext i (hne i (by simp [hi]))
  · exact hhead.congr fun i hi => hnext i (hne i (by simp [hi]))
  · intro i hi hm
    exact hnd'.2.2 i hi i (by simp [hm]) rfl
  · refine ⟨rfl, ?_⟩
    rw [hself]
    exact halloc.congr fun i hi => hnext i (hne i (by simp [hi]))

@[simp] theorem record_nodes_self (z : LinearZone) (pfree addr size : Nat) :
    (z.record pfree addr size).pool.nodes pfree
      = { addr := addr, size := size, pnext := z.alloced } := by
  simp [LinearZone.record]

@[simp] theorem record_nodes_ne (z : LinearZone) {pfree i : Nat} (addr size : Nat) (h : i ≠ pfree) :
    (z.record pfree addr size).pool.nodes i = z.pool.nodes i := by
  simp [LinearZone.record, h]

/-! ## Taking a block -/

/-- What an allocation from a hole leaves: the block `[base, top)` is no longer free, and a new
    record starts at its base. -/
structure Took (lo hi : Nat) (z z' : LinearZone) (holes recs : List Nat) (pfree base top size : Nat) :
    Prop where
  lists : ∃ free' holes', ZoneRep z' free' holes' (pfree :: recs) ∧
    ZoneHoles lo hi z'.pool holes' ∧
    z'.pool.cover holes' = z.pool.cover holes \ Set.Ico base top
  fresh : pfree ∉ recs
  addr_eq : (z'.pool.nodes pfree).addr = base
  size_eq : (z'.pool.nodes pfree).size = size
  records : SameRecords z.pool z'.pool recs
  newest : z'.alloced = some pfree
  wasFree : Set.Ico base top ⊆ z.pool.cover holes

/-- What taking a block from the front of a hole does to the lists. The node of a hole that is used
    up leaves the holes and is lost in front of `pfree`. -/
theorem takeLinear_nodes {z : LinearZone} {free pre post recs : List Nat} {pfree p : Nat}
    (h : ZoneRep z (pfree :: free) (pre ++ p :: post) recs) (size realaddr realsize : Nat) :
    ∃ z' pool', takeLinear z pfree p size realaddr realsize
        = .ok (wadd (z.pool.nodes p).addr (realaddr % 0x200000), z') ∧
      Carved z.pool pool' (pre ++ p :: post) p size ∧
      (∀ i, i ≠ pfree → z'.pool.nodes i = pool'.nodes i) ∧
      z'.pool.nodes pfree = { addr := (z.pool.nodes p).addr
                              size := wadd realsize (realaddr % 0x200000), pnext := z.alloced } ∧
      z'.alloced = some pfree ∧
      ZoneRep z' free (if wsub (z.pool.nodes p).size size ≤ 0 then pre ++ post
        else pre ++ p :: post) (pfree :: recs) := by
  obtain ⟨pool', hok, hc, hrep'⟩ := carveHole_spec linearHoles 0 h.rep h.holes_le size
  have halloc : Chain pool'.next z.alloced recs := h.alloced.congr fun i hi' => by
    simp only [HolePool.next, hc.frame i (h.not_recs hi').2]
  set z1 : LinearZone := { z with pool := pool' } with hz1
  set z' := z1.record pfree (z.pool.nodes p).addr (wadd realsize (realaddr % 0x200000)) with hz'
  refine ⟨{ z' with pool := z'.pool.spinUnlock }, pool', ?_, hc,
    fun i hi' => record_nodes_ne z1 _ _ hi', record_nodes_self .., rfl, ?_⟩
  · simp only [takeLinear, hok, bind, Except.bind]
    rfl
  · by_cases hzero : wsub (z.pool.nodes p).size size ≤ 0
    · rw [if_pos hzero] at hrep' ⊢
      have hsubl : (pfree :: free ++ ((pre ++ post) ++ recs)).Sublist
          (pfree :: free ++ ((pre ++ p :: post) ++ recs)) :=
        List.Sublist.append_left (List.Sublist.append_right
          (List.Sublist.append_left (List.sublist_cons_self p post) pre) recs) (pfree :: free)
      have hrec : ZoneRep z' free (pre ++ post) (pfree :: recs) :=
        @record_rep z1 [p] _ _ _ _ _ _ hrep'.pfree hrep'.phead halloc
          (h.nodup.sublist hsubl) fun i hi' => h.bound i (hsubl.subset hi')
      exact hrec.unlock
    · rw [if_neg hzero] at hrep' ⊢
      have hrec : ZoneRep z' free (pre ++ p :: post) (pfree :: recs) :=
        @record_rep z1 [] _ _ _ _ _ _ hrep'.pfree hrep'.phead halloc h.nodup h.bound
      exact hrec.unlock

theorem takeLinear_spec {z : LinearZone} {free holes recs : List Nat} {lo hi pfree p : Nat}
    (h : ZoneRep z (pfree :: free) holes recs) (hz : ZoneHoles lo hi z.pool holes)
    (hhi : hi < 2 ^ 64) (hp : p ∈ holes) {size : Nat} (hle : size ≤ (z.pool.nodes p).size)
    (realaddr realsize : Nat) :
    ∃ z', takeLinear z pfree p size realaddr realsize
        = .ok (wadd (z.pool.nodes p).addr (realaddr % 0x200000), z') ∧
      Took lo hi z z' holes recs pfree (z.pool.nodes p).addr ((z.pool.nodes p).addr + size)
        (wadd realsize (realaddr % 0x200000)) := by
  obtain ⟨pre, post, rfl⟩ := List.append_of_mem hp
  have hin := hz.inside p hp
  have hal := hz.aligned p hp
  obtain ⟨z', pool', hok, hc, hnodes, hself, hnewest, hrep'⟩ :=
    takeLinear_nodes h size realaddr realsize
  have hnd := h.nodup
  rw [List.cons_append, List.nodup_cons] at hnd
  have hpf : pfree ∉ pre ++ p :: post := fun hm =>
    hnd.1 (List.mem_append_right _ (List.mem_append_left _ hm))
  have hprec : pfree ∉ recs := fun hm => hnd.1 (by simp [hm])
  have hsz : wsub (z.pool.nodes p).size size = (z.pool.nodes p).size - size :=
    wsub_eq hle (by omega)
  -- the ranges of the holes after the cut
  have hrangep : (pool'.nodes p).addr = (z.pool.nodes p).addr + size ∧
      (pool'.nodes p).size = (z.pool.nodes p).size - size := by
    rw [hc.addr_eq, hc.size_eq, hsz]; exact ⟨wadd_eq (by omega), rfl⟩
  have hsub : ∀ i ∈ pre ++ p :: post, pool'.range i ⊆ z.pool.range i := by
    intro i hi'
    by_cases hip : i = p
    · subst hip
      intro a ha
      rw [mem_range, hrangep.1, hrangep.2] at ha
      exact ⟨by omega, by omega⟩
    · rw [(hc.ranges i hip).range_eq]
  have hholes : ∀ l : List Nat, (∀ i ∈ l, i ∈ pre ++ p :: post) → ZoneHoles lo hi pool' l := by
    intro l hl
    refine ⟨fun i hi' => ?_, fun i hi' => ?_, fun i hi' j hj hij => ?_⟩
    · by_cases hip : i = p
      · subst hip; omega
      · rw [(hc.ranges i hip).1, (hc.ranges i hip).2]; exact hz.inside i (hl i hi')
    · by_cases hip : i = p
      · subst hip
        have : (pool'.nodes i).addr + (pool'.nodes i).size
            = (z.pool.nodes i).addr + (z.pool.nodes i).size := by omega
        rw [this]; exact hal
      · rw [(hc.ranges i hip).1, (hc.ranges i hip).2]; exact hz.aligned i (hl i hi')
    · exact (hz.apart i (hl i hi') j (hl j hj) hij).mono (hsub i (hl i hi')) (hsub j (hl j hj))
  have hfinal : ∀ l : List Nat, (∀ i ∈ l, i ∈ pre ++ p :: post) →
      ZoneHoles lo hi z'.pool l ∧ z'.pool.cover l = pool'.cover l := by
    intro l hl
    have hnode : ∀ i ∈ l, z'.pool.nodes i = pool'.nodes i := fun i hi' =>
      hnodes i fun he => hpf (he ▸ hl i hi')
    refine ⟨(hholes l hl).congr fun i hi' => ?_, ?_⟩
    · rw [SameRange, hnode i hi']; exact ⟨rfl, rfl⟩
    · ext a
      refine exists_congr fun i => and_congr_right fun hi' => ?_
      rw [mem_range, mem_range, hnode i hi']
  have hl : ∀ i ∈ (if wsub (z.pool.nodes p).size size ≤ 0 then pre ++ post else pre ++ p :: post),
      i ∈ pre ++ p :: post := by
    intro i hi'
    split at hi'
    · rcases List.mem_append.1 hi' with hm | hm
      · simp [hm]
      · simp [hm]
    · exact hi'
  refine ⟨z', hok, ⟨⟨free, _, hrep', (hfinal _ hl).1, ?_⟩, hprec, by rw [hself], by rw [hself], ?_,
    hnewest, ?_⟩⟩
  · exact (hfinal _ hl).2.trans (hc.cover_eq h.rep.phead.nodup hz.apart hle (by omega) rfl)
  · intro i hi'
    exact (hnodes i fun he => hprec (he ▸ hi')).trans (hc.frame i (h.not_recs hi').2)
  · intro a ha
    exact ⟨p, hp, ha.1, by have := ha.2; omega⟩

/-- The zone when `splitLinear` gives the rest of the hole back: the hole `p` ends at `addr`, and
    `pfree` records the block. -/
def cutLinear (z : LinearZone) (pfree p addr recsize : Nat) : LinearZone :=
  let z := { z with pool := z.pool.modify p fun n => { n with size := wsub addr n.addr } }.record
    pfree addr recsize
  { z with pool := z.pool.spinUnlock }

theorem splitLinear_eq (z : LinearZone) (pfree p addr size realaddr realsize : Nat) :
    splitLinear z pfree p addr size realaddr realsize = (do
      let freeaddr := alignDown 0x200000 (wadd (wadd addr size) 0x1fffff)
      let z' ← freeLinearZone (cutLinear z pfree p addr (wadd realsize (realaddr % 0x200000)))
        freeaddr (wsub (z.pool.holeEnd p) freeaddr)
      .ok (wadd addr (realaddr % 0x200000), z')) := rfl

theorem cutLinear_nodes {z : LinearZone} {free holes recs : List Nat} {pfree p : Nat}
    (h : ZoneRep z (pfree :: free) holes recs) (addr recsize : Nat) :
    ZoneRep (cutLinear z pfree p addr recsize) free holes (pfree :: recs) := by
  have hnext : ∀ i, (z.pool.modify p fun n => { n with size := wsub addr n.addr }).next i
      = z.pool.next i := by
    intro i
    by_cases hip : i = p
    · subst hip; simp [HolePool.next]
    · simp [HolePool.next, hip]
  have hrep := h.rep.modify_data (p := p) (g := fun n => { n with size := wsub addr n.addr })
    fun n => rfl
  exact (@record_rep { z with pool := _ } [] _ _ _ _ _ _ hrep.pfree hrep.phead
    (h.alloced.congr fun i _ => hnext i) h.nodup h.bound).unlock

@[simp] theorem cutLinear_nodes_ne (z : LinearZone) {pfree p i : Nat} (addr recsize : Nat)
    (hf : i ≠ pfree) (hp : i ≠ p) :
    (cutLinear z pfree p addr recsize).pool.nodes i = z.pool.nodes i := by
  simp [cutLinear, hf, hp]

@[simp] theorem cutLinear_nodes_hole (z : LinearZone) {pfree p : Nat} (addr recsize : Nat)
    (hf : p ≠ pfree) : (cutLinear z pfree p addr recsize).pool.nodes p =
      { z.pool.nodes p with size := wsub addr (z.pool.nodes p).addr } := by
  simp [cutLinear, hf]

@[simp] theorem cutLinear_nodes_record (z : LinearZone) (pfree p addr recsize : Nat) :
    (cutLinear z pfree p addr recsize).pool.nodes pfree
      = { addr := addr, size := recsize, pnext := z.alloced } := by
  simp [cutLinear]

/-- Shortening the hole `p` to end at `addr` gives up exactly the addresses from `addr` on. -/
theorem cutLinear_zone {z : LinearZone} {free holes recs : List Nat} {lo hi pfree p addr : Nat}
    (h : ZoneRep z (pfree :: free) holes recs) (hz : ZoneHoles lo hi z.pool holes) (hhi : hi < 2 ^ 64)
    (hp : p ∈ holes) (hlo : (z.pool.nodes p).addr ≤ addr)
    (hup : addr ≤ (z.pool.nodes p).addr + (z.pool.nodes p).size) (hal : addr % 0x200000 = 0)
    (recsize : Nat) :
    ZoneHoles lo hi (cutLinear z pfree p addr recsize).pool holes ∧
      (cutLinear z pfree p addr recsize).pool.cover holes = z.pool.cover holes
        \ Set.Ico addr ((z.pool.nodes p).addr + (z.pool.nodes p).size) := by
  have hin := hz.inside p hp
  have hpf : ∀ i ∈ holes, i ≠ pfree := fun i hi' he =>
    h.rep.disj pfree List.mem_cons_self (he ▸ hi')
  have hself : (cutLinear z pfree p addr recsize).pool.nodes p
      = { z.pool.nodes p with size := addr - (z.pool.nodes p).addr } := by
    rw [cutLinear_nodes_hole z addr recsize (hpf p hp), wsub_eq hlo (by omega)]
  have hother : ∀ i ∈ holes, i ≠ p →
      (cutLinear z pfree p addr recsize).pool.nodes i = z.pool.nodes i := fun i hi' hip =>
    cutLinear_nodes_ne z addr recsize (hpf i hi') hip
  generalize (cutLinear z pfree p addr recsize).pool = pool' at *
  have hsub : ∀ i ∈ holes, pool'.range i ⊆ z.pool.range i := by
    intro i hi'
    by_cases hip : i = p
    · subst hip
      intro a ha
      rw [mem_range, hself] at ha
      exact ⟨ha.1, by have := ha.2; simp only at this; omega⟩
    · rw [HolePool.range, HolePool.range, hother i hi' hip]
  refine ⟨⟨?_, ?_, ?_⟩, ?_⟩
  · intro i hi'
    by_cases hip : i = p
    · subst hip; rw [hself]; simp only; omega
    · rw [hother i hi' hip]; exact hz.inside i hi'
  · intro i hi'
    by_cases hip : i = p
    · subst hip
      have heq : (pool'.nodes i).addr + (pool'.nodes i).size = addr := by
        rw [hself]; simp only; omega
      rw [heq]; exact hal
    · rw [hother i hi' hip]; exact hz.aligned i hi'
  · intro i hi' j hj hij
    exact (hz.apart i hi' j hj hij).mono (hsub i hi') (hsub j hj)
  · ext a
    simp only [cover, Set.mem_ofPred_eq, Set.mem_sdiff]
    constructor
    -- an address in the part that was cut off was in `p`, so in no other hole
    · rintro ⟨i, hi', ha⟩
      refine ⟨⟨i, hi', hsub i hi' ha⟩, fun hm => ?_⟩
      by_cases hip : i = p
      · subst hip
        rw [mem_range, hself] at ha
        have := hm.1
        have := ha.2
        simp only at this
        omega
      · rw [HolePool.range, hother i hi' hip] at ha
        exact Set.disjoint_left.1 (hz.apart i hi' p hp hip) ha ⟨by have := hm.1; omega, hm.2⟩
    · rintro ⟨⟨i, hi', ha⟩, hnot⟩
      refine ⟨i, hi', ?_⟩
      by_cases hip : i = p
      · subst hip
        rw [mem_range, hself]
        have hlt : a < addr := by
          by_contra hge
          exact hnot ⟨by omega, ha.2⟩
        exact ⟨ha.1, by simp only; have := ha.1; omega⟩
      · rw [HolePool.range, hother i hi' hip]; exact ha

theorem splitLinear_spec {z : LinearZone} {free holes recs : List Nat} {lo hi pfree p : Nat}
    (h : ZoneRep z (pfree :: free) holes recs) (hz : ZoneHoles lo hi z.pool holes)
    (hhi : hi < 2 ^ 64) (hp : p ∈ holes) {addr size realaddr realsize : Nat}
    (hal : addr % 0x200000 = 0) (hlo : (z.pool.nodes p).addr ≤ addr)
    (hup : addr + size ≤ (z.pool.nodes p).addr + (z.pool.nodes p).size)
    {ret : Nat} {z' : LinearZone}
    (hok : splitLinear z pfree p addr size realaddr realsize = .ok (ret, z')) :
    ret = wadd addr (realaddr % 0x200000) ∧
      ∃ top, addr + size ≤ top ∧ top ≤ hi ∧
        Took lo hi z z' holes recs pfree addr top (wadd realsize (realaddr % 0x200000)) := by
  have hin := hz.inside p hp
  have halp := hz.aligned p hp
  have hend : z.pool.holeEnd p = (z.pool.nodes p).addr + (z.pool.nodes p).size :=
    holeEnd_eq (by omega)
  set oldEnd := (z.pool.nodes p).addr + (z.pool.nodes p).size with holdEnd
  have hnd := h.nodup
  rw [List.cons_append, List.nodup_cons] at hnd
  have hprec : pfree ∉ recs := fun hm => hnd.1 (by simp [hm])
  have hrec := cutLinear_nodes (p := p) h addr (wadd realsize (realaddr % 0x200000))
  obtain ⟨hz2, hcover2⟩ := cutLinear_zone h hz hhi hp hlo (by omega) hal
    (wadd realsize (realaddr % 0x200000))
  rw [splitLinear_eq] at hok
  set z2 := cutLinear z pfree p addr (wadd realsize (realaddr % 0x200000)) with hz2def
  -- where the rest of the hole starts
  have hsum : wadd addr size = addr + size := wadd_eq (by omega)
  have hmask : wadd (addr + size) 0x1fffff = addr + size + 0x1fffff := wadd_eq (by omega)
  set top := alignDown 0x200000 (addr + size + 0x1fffff) with htop
  have htopmod : top % 0x200000 = 0 := alignDown_mod _ _
  have hadd := alignDown_add_mod 0x200000 (addr + size + 0x1fffff)
  rw [← htop] at hadd
  have htople : top ≤ oldEnd := by omega
  have hrest : wsub oldEnd top = oldEnd - top := wsub_eq htople (by omega)
  have hround : roundUp 0x200000 (oldEnd - top) = oldEnd - top := by
    rw [roundUp, if_neg (by omega)]
  simp only [hend, hsum, hmask, hrest, freeLinearZone, hround, ← htop] at hok
  rw [bind_eq_ok] at hok
  obtain ⟨z3, hok3, hres⟩ := hok
  simp only [Except.ok.injEq, Prod.mk.injEq] at hres
  obtain ⟨rfl, rfl⟩ := hres
  replace hok3 := bind_eq_ok.1 hok3
  obtain ⟨-, -, hok3⟩ := hok3
  obtain ⟨pool3, hfree, hres3⟩ := bind_eq_ok.1 hok3
  simp only [Except.ok.injEq] at hres3
  have hdisj : Disjoint (Set.Ico top (top + (oldEnd - top))) (z2.pool.cover holes) := by
    rw [hcover2, Set.disjoint_left]
    intro a ha hm
    exact hm.2 ⟨by have := ha.1; omega, by have := ha.2; omega⟩
  obtain ⟨free', holes', hrep3, hz3, hcover3, hrecs3⟩ := freeHole_zone hrec hz2 hhi
    (by omega) (by omega) (by omega) hdisj hfree
  subst hres3
  refine ⟨rfl, top, by omega, by omega, ⟨⟨free', holes', hrep3, hz3, ?_⟩, hprec, ?_, ?_, ?_, rfl, ?_⟩⟩
  · rw [hcover3, hcover2]
    ext a
    simp only [Set.mem_union, Set.mem_sdiff, Set.mem_Ico]
    constructor
    · rintro (⟨ha, hnot⟩ | ha)
      · exact ⟨ha, by omega⟩
      · exact ⟨⟨p, hp, by omega, by omega⟩, by omega⟩
    · rintro ⟨ha, hnot⟩
      by_cases hge : addr ≤ a ∧ a < oldEnd
      · exact .inr (by omega)
      · exact .inl ⟨ha, hge⟩
  · have := hrecs3 pfree (List.mem_cons_self ..)
    simp only at this ⊢
    rw [this, hz2def, cutLinear_nodes_record]
  · have := hrecs3 pfree (List.mem_cons_self ..)
    simp only at this ⊢
    rw [this, hz2def, cutLinear_nodes_record]
  · intro i hi'
    have := hrecs3 i (List.mem_cons_of_mem _ hi')
    simp only at this ⊢
    have hif : i ≠ pfree := fun he => hprec (he ▸ hi')
    have hip : i ≠ p := fun he => (h.not_recs hi').2 (he ▸ hp)
    rw [this, hz2def, cutLinear_nodes_ne z _ _ hif hip]
  · intro a ha
    exact ⟨p, hp, by have := ha.1; omega, by have := ha.2; omega⟩

end Yaos
