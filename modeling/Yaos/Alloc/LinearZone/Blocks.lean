import Yaos.Alloc.LinearZone.Runs

set_option autoImplicit false

/-! # Blocks of a zone

For a user of a zone who asks without hints: the addresses in use are off the holes, an allocation adds
a block to them, and freeing a block takes it away again. No size is excluded; a size that cannot be
rounded up to 2 MiB has an empty block. -/

namespace Yaos

open Chains Word HolePool

/-- The lists of the zone are in order, and no hole has an address of `busy`. -/
def OffHoles (lo hi : Nat) (z : LinearZone) (busy : Set Nat) : Prop :=
  ∃ free holes recs, ZoneRep z free holes recs ∧ ZoneHoles lo hi z.pool holes ∧
    Disjoint busy (z.pool.cover holes)

variable {lo hi : Nat} {z z' : LinearZone} {busy : Set Nat} {size p : Nat}

/-- An allocation without a hint finds no hole that fits, or takes the front of the first one that does. -/
theorem allocLinearUnhinted_cases {free holes recs : List Nat} (hrep : ZoneRep z free holes recs)
    (hz : ZoneHoles lo hi z.pool holes) (hhi : hi < 2 ^ 64)
    (hok : allocLinearZoneImpl z 0 size = .ok (p, z')) :
    (p = 0 ∧ firstFit linearHoles z.pool (roundUp 0x200000 size) = some none ∧
      z' = { z with pool := z.pool.spinLock.spinUnlock }) ∨
    ∃ pfree rest i, free = pfree :: rest ∧ i ∈ holes ∧
      firstFit linearHoles z.pool (roundUp 0x200000 size) = some (some i) ∧
      roundUp 0x200000 size ≤ (z.pool.nodes i).size ∧ p = (z.pool.nodes i).addr ∧
      takeLinear { z with pool := z.pool.spinLock } pfree i (roundUp 0x200000 size) 0 size = .ok (p, z') ∧
      Took lo hi { z with pool := z.pool.spinLock } z' holes recs pfree p (p + roundUp 0x200000 size)
        (wadd size (0 % 0x200000)) := by
  rw [allocLinearZoneImpl, if_neg (by simp)] at hok
  cases free with
  | nil =>
      have hnone : z.pool.pfree = none := hrep.rep.pfree
      simp [allocLinearAny, hnone] at hok
  | cons pfree free =>
      have hsome : z.pool.pfree = some pfree := hrep.rep.pfree.head_eq
      have hff := firstFit_eq linearHoles hrep.rep.phead hrep.holes_le (roundUp 0x200000 size)
      have hlocked : firstFit linearHoles z.pool.spinLock (roundUp 0x200000 size) = _ := hff
      simp only [allocLinearAny, hsome, hlocked] at hok
      rw [hff]
      cases hfind : holes.find? (fun i => !((z.pool.nodes i).size < roundUp 0x200000 size)) with
      | none =>
          simp only [hfind, Except.ok.injEq, Prod.mk.injEq] at hok
          obtain ⟨rfl, rfl⟩ := hok
          exact .inl ⟨rfl, rfl, rfl⟩
      | some i =>
          simp only [hfind] at hok
          have hi' := List.mem_of_find?_eq_some hfind
          have hle : roundUp 0x200000 size ≤ (z.pool.nodes i).size := by
            simpa using List.find?_some hfind
          have hin := hz.inside i hi'
          obtain ⟨z₁, hok₁, ht⟩ := takeLinear_spec hrep.lock (hz.congr fun i _ => ⟨rfl, rfl⟩)
            hhi hi' hle 0 size
          obtain ⟨hret, rfl⟩ := Prod.mk.inj (Except.ok.inj (hok.symm.trans hok₁))
          have hp : p = (z.pool.nodes i).addr := by
            rw [hret]
            show wadd (z.pool.nodes i).addr (0 % 0x200000) = _
            rw [wadd_eq (by omega)]
            rfl
          subst hp
          exact .inr ⟨pfree, free, i, rfl, hi', rfl, hle, rfl, hok, ht⟩

/-- There is no hole that fits, or the block is the front of the first one that does. -/
theorem OffHoles.alloc (h : OffHoles lo hi z busy) (hhi : hi < 2 ^ 64)
    (hok : allocLinearZoneImpl z 0 size = .ok (p, z')) :
    (p = 0 ∧ (∀ i, firstFit linearHoles z.pool (roundUp 0x200000 size) ≠ some (some i)) ∧
      OffHoles lo hi z' busy) ∨
    ∃ i, firstFit linearHoles z.pool (roundUp 0x200000 size) = some (some i) ∧
      p = (z.pool.nodes i).addr ∧ lo ≤ p ∧ p + roundUp 0x200000 size ≤ hi ∧
      Disjoint busy (Set.Ico p (p + roundUp 0x200000 size)) ∧
      OffHoles lo hi z' (busy ∪ Set.Ico p (p + roundUp 0x200000 size)) := by
  obtain ⟨free, holes, recs, hrep, hz, hd⟩ := h
  rcases allocLinearUnhinted_cases hrep hz hhi hok with
    ⟨rfl, hfit, rfl⟩ | ⟨pfree, free, i, rfl, hi', hfit, hle, rfl, -, ht⟩
  · rw [hfit]
    exact .inl ⟨rfl, by simp, _, _, _, hrep.lock.unlock, hz.congr fun i _ => ⟨rfl, rfl⟩, hd⟩
  · have hin := hz.inside i hi'
    obtain ⟨free', holes', hrep', hz', hcover'⟩ := ht.lists
    refine .inr ⟨i, hfit, rfl, hin.1, by omega, hd.mono_right ht.wasFree, _, _, _, hrep', hz', ?_⟩
    rw [hcover', Set.disjoint_union_left]
    exact ⟨hd.mono_right Set.sdiff_subset, Set.disjoint_sdiff_right⟩

/-- Freeing a block gives its addresses back to the holes. -/
theorem OffHoles.free (h : OffHoles lo hi z (busy ∪ Set.Ico p (p + roundUp 0x200000 size)))
    (hd : Disjoint busy (Set.Ico p (p + roundUp 0x200000 size))) (hhi : hi < 2 ^ 64) (hlo : lo ≤ p)
    (hend : p + roundUp 0x200000 size ≤ hi) (hok : freeLinearZone z p size = .ok z') :
    OffHoles lo hi z' busy := by
  obtain ⟨free, holes, recs, hrep, hz, hoff⟩ := h
  obtain ⟨hal, hok⟩ := assert_bind_eq_ok.1 hok
  obtain ⟨pool', hfree, hres⟩ := bind_eq_ok.1 hok
  obtain rfl := Except.ok.inj hres
  rw [Set.disjoint_union_left] at hoff
  have hround : roundUp 0x200000 size % 0x200000 = 0 := roundUp_2M_mod size
  obtain ⟨free', holes', hrep', hz', hcover', -⟩ := freeHole_zone hrep hz hhi hlo hend
    (by omega) hoff.2 hfree
  refine ⟨_, _, _, hrep', hz', ?_⟩
  rw [hcover', Set.disjoint_union_right]
  exact ⟨hoff.1, hd⟩

end Yaos
