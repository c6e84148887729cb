import Yaos.Alloc.LinearZone.Hints

set_option autoImplicit false

/-! # Lending a block

Asked without hints, a zone gives out the front of a hole, and taking the block back restores the set of
free addresses. The way back needs an unused node: the record of the block is on another list and stays
there. So of the nodes that are unused before, a second one is needed. -/

namespace Yaos

open Chains Word HolePool

/-- Every hole starts at a 2 MiB page. -/
def LinearZone.HolesAligned (z : LinearZone) : Prop :=
  ∀ i, z.pool.IsHole i → (z.pool.nodes i).addr % 0x200000 = 0

/-- There are two unused nodes or more. -/
def LinearZone.SpareNode (z : LinearZone) : Prop := ∃ q, z.pool.pfree = some q ∧ z.pool.next q ≠ none

variable {lo hi : Nat} {z z' : LinearZone} {free holes recs : List Nat} {busy : Set Nat}

/-! ## Where holes start -/

theorem takeLinear_holesAligned {pfree p n off size ret : Nat} (h : ZoneRep z (pfree :: free) holes recs)
    (hz : ZoneHoles lo hi z.pool holes) (hhi : hi < 2 ^ 64) (hp : p ∈ holes)
    (hle : n ≤ (z.pool.nodes p).size) (hn : n % 0x200000 = 0) (hal : z.HolesAligned)
    (hok : takeLinear z pfree p n off size = .ok (ret, z')) : z'.HolesAligned := by
  have hin := hz.inside p hp
  obtain ⟨pre, post, rfl⟩ := List.append_of_mem hp
  obtain ⟨z₂, pool', hok₂, hc, hnodes, -, -, hrep₂⟩ := takeLinear_nodes h n off size
  obtain ⟨-, rfl⟩ := Prod.mk.inj (Except.ok.inj (hok.symm.trans hok₂))
  intro i hi'
  have hmem : i ∈ pre ++ p :: post := by
    have hi' := (isHole_iff hrep₂).1 hi'
    split at hi'
    · rcases List.mem_append.1 hi' with hm | hm
      · exact List.mem_append_left _ hm
      · exact List.mem_append_right _ (List.mem_cons_of_mem _ hm)
    · exact hi'
  have hold := hal i ((isHole_iff h).2 hmem)
  have hne : i ≠ pfree := fun he => h.rep.disj pfree List.mem_cons_self (he ▸ hmem)
  rw [hnodes i hne]
  by_cases hip : i = p
  · subst hip
    rw [hc.addr_eq, wadd_eq (by omega)]
    omega
  · rw [(hc.ranges i hip).1]
    exact hold

theorem freeLinearZone_holesAligned {addr size : Nat} (h : ZoneRep z free holes recs)
    (hal : z.HolesAligned) (hok : freeLinearZone z addr size = .ok z') : z'.HolesAligned := by
  obtain ⟨haddr, hok⟩ := assert_bind_eq_ok.1 hok
  obtain ⟨pool', hfree, hres⟩ := bind_eq_ok.1 hok
  obtain rfl := Except.ok.inj hres
  obtain ⟨-, ⟨ph, hm, hrep'⟩ | ⟨p, free', rfl, hins, hrep'⟩⟩ := freeHole_nodes h hfree
  · -- the hole below grows
    intro i hi
    have hold := hal i ((isHole_iff h).2 ((isHole_iff hrep').1 hi))
    show (pool'.nodes i).addr % 0x200000 = 0
    by_cases hip : i = ph
    · subst hip
      rw [hm.self]
      exact hold
    · rw [hm.others i hip]
      exact hold
  · intro i hi
    show (pool'.nodes i).addr % 0x200000 = 0
    by_cases hip : i = p
    · rw [hip, hins.addr_eq]
      exact haddr
    · have hmem := (insertPos_perm (fun i => (z.pool.nodes i).addr) p addr holes).mem_iff.1
        ((isHole_iff hrep').1 hi)
      rw [(hins.ranges i hip).1]
      exact hal i ((isHole_iff h).2 ((List.mem_cons.1 hmem).resolve_left hip))

/-! ## One block -/

/-- What is left of a zone that lent the block of `size` bytes at `p`. -/
structure Lent (lo hi : Nat) (z z' : LinearZone) (size p : Nat) : Prop where
  aligned : p % 0x200000 = 0
  low : lo ≤ p
  high : p + roundUp 0x200000 size ≤ hi
  lists : ∃ free holes recs, ZoneRep z' free holes recs ∧ ZoneHoles lo hi z'.pool holes ∧
    Disjoint (Set.Ico p (p + roundUp 0x200000 size)) (z'.pool.cover holes)
  node : z'.pool.pfree ≠ none ↔ z.SpareNode
  freeSet_eq : z'.pool.freeSet = z.pool.freeSet \ Set.Ico p (p + roundUp 0x200000 size)
  subset : Set.Ico p (p + roundUp 0x200000 size) ⊆ z.pool.freeSet
  holesAligned : z'.HolesAligned

/-- An allocation without a hint fails and changes nothing but the record of the lock, or lends. -/
theorem OffHoles.lent {size p : Nat} (h : OffHoles lo hi z busy) (hal : z.HolesAligned) (hhi : hi < 2 ^ 64)
    (hok : allocLinearZoneImpl z 0 size = .ok (p, z')) :
    z'.HolesAligned ∧ (p ≠ 0 → Lent lo hi z z' size p) := by
  obtain ⟨free, holes, recs, hrep, hz, -⟩ := h
  rcases allocLinearUnhinted_cases hrep hz hhi hok with
    ⟨rfl, -, rfl⟩ | ⟨pfree, free, i, rfl, hi', -, hle, rfl, htake, ht⟩
  · exact ⟨hal, fun hp => absurd rfl hp⟩
  have hin := hz.inside i hi'
  have hsome : z.pool.pfree = some pfree := hrep.rep.pfree.head_eq
  have hz₀ : ZoneHoles lo hi z.pool.spinLock holes := hz.congr fun i _ => ⟨rfl, rfl⟩
  have hal' : z'.HolesAligned :=
    takeLinear_holesAligned hrep.lock hz₀ hhi hi' hle (roundUp_2M_mod size) hal htake
  obtain ⟨free', holes', hrep', hz', hcover'⟩ := ht.lists
  refine ⟨hal', fun _ => ⟨hal i ((isHole_iff hrep).2 hi'), hin.1, by omega,
    ⟨_, _, _, hrep', hz', ?_⟩, ?_, ?_, ?_, hal'⟩⟩
  · rw [hcover']
    exact Set.disjoint_sdiff_right
  · obtain ⟨pre, post, rfl⟩ := List.append_of_mem hi'
    obtain ⟨z₂, pool', hok₂, -, -, -, -, hrep₂⟩ :=
      takeLinear_nodes hrep.lock (roundUp 0x200000 size) 0 size
    obtain ⟨-, rfl⟩ := Prod.mk.inj (Except.ok.inj (htake.symm.trans hok₂))
    rw [hrep₂.pfree_ne_none, ← hrep.next_ne_none]
    constructor
    · exact fun hne => ⟨pfree, hsome, hne⟩
    · rintro ⟨q, hq, hne⟩
      rwa [Option.some.inj (hsome.symm.trans hq)]
  · rw [freeSet_of_rep hrep', freeSet_of_rep hrep, hcover']
    rfl
  · rw [freeSet_of_rep hrep]
    exact ht.wasFree

/-- Taking the block back. -/
theorem Lent.returned {size p : Nat} (h : Lent lo hi z z' size p) (hhi : hi < 2 ^ 64) :
    ((∃ z₂, freeLinearZone z' p size = .ok z₂) ↔ z.SpareNode) ∧
      ∀ z₂, freeLinearZone z' p size = .ok z₂ → z₂.pool.freeSet = z.pool.freeSet := by
  obtain ⟨free, holes, recs, hrep, hz, hd⟩ := h.lists
  have haligned := h.aligned
  refine ⟨(freeLinearZone_total hrep haligned).trans h.node, fun z₂ hok => ?_⟩
  obtain ⟨-, hok⟩ := assert_bind_eq_ok.1 hok
  obtain ⟨pool', hfree, hres⟩ := bind_eq_ok.1 hok
  obtain rfl := Except.ok.inj hres
  have hround : roundUp 0x200000 size % 0x200000 = 0 := roundUp_2M_mod size
  obtain ⟨free', holes', hrep', -, hcover', -⟩ := freeHole_zone hrep hz hhi h.low h.high (by omega) hd hfree
  rw [freeSet_of_rep hrep', hcover', ← freeSet_of_rep hrep, h.freeSet_eq]
  exact Set.sdiff_union_of_subset h.subset

/-! ## Runs -/

theorem UnhintedStep.holesAligned {st st' : ZoneRun} (step : UnhintedStep st st') (hhi : hi < 2 ^ 64)
    (h : st.Lends lo hi) (hal : st.zone.HolesAligned) : st'.zone.HolesAligned := by
  obtain ⟨op, -, hunhinted, hok⟩ := step
  cases op with
  | alloc hint size =>
      obtain rfl : hint = 0 := hunhinted
      obtain ⟨⟨ret, z'⟩, halloc, hok⟩ := bind_eq_ok.1 hok
      rw [← Except.ok.inj hok]
      exact (h.zone.lent hal hhi halloc).1
  | free r =>
      obtain ⟨z', hfree, hok⟩ := bind_eq_ok.1 hok
      rw [← Except.ok.inj hok]
      obtain ⟨free, holes, recs, hrep, -⟩ := h.zone
      exact freeLinearZone_holesAligned hrep hal hfree

/-- The zone after a run without hints, as a lender finds it. -/
theorem lends_run {start size : Nat} (hinit : initVmZone start size = .ok z)
    (hb : start + roundUp 0x200000 size < 2 ^ 64) {st : ZoneRun}
    (run : Relation.ReflTransGen UnhintedStep ⟨z, []⟩ st) :
    st.Lends start (start + roundUp 0x200000 size) ∧ st.zone.HolesAligned := by
  have hnone : LinearZone.HolesAligned { pool := initHoles linearHoles.capacity, alloced := none } := by
    intro i hi
    exact absurd ((isHole_iff initZone_rep).1 hi) (by simp)
  induction run with
  | refl => exact ⟨initVmZone_lends hinit hb, freeLinearZone_holesAligned initZone_rep hnone hinit⟩
  | tail _ step ih => exact ⟨step.preserves hb ih.1, step.holesAligned hb ih.1 ih.2⟩

end Yaos
