import Yaos.Alloc.HolePool.Pool

set_option autoImplicit false

/-! # Pools whose holes share no address

What is left of `PoolInv` where the list need not be sorted and holes may be empty. -/

namespace Yaos

open Chains Word HolePool

/-- Every node is on exactly one list, and no two holes share an address. -/
def Parted (c : HoleConfig) (s : HolePool) : Prop :=
  ∃ free holes, s.Rep free holes ∧ (free ++ holes).Perm (List.range c.capacity) ∧
    (∀ i ∈ holes, (s.nodes i).addr + (s.nodes i).size < 2 ^ 64) ∧ Apart s holes

/-- A range went on the list. -/
structure Added (c : HoleConfig) (s s' : HolePool) (addr size : Nat) : Prop where
  parted : Parted c s'
  freeSet_eq : s'.freeSet = s.freeSet ∪ Set.Ico addr (addr + size)
  room : s'.HasRoom size

/-- A block at the front of the hole `p` left the list, with the rest of the hole where that is dropped. -/
structure Removed (c : HoleConfig) (s s' : HolePool) (p size : Nat) : Prop where
  parted : Parted c s'
  bound : (s.nodes p).addr + size < 2 ^ 64
  subset : Set.Ico (s.nodes p).addr ((s.nodes p).addr + size) ⊆ s.freeSet
  freeSet_subset : s'.freeSet ⊆ s.freeSet \ Set.Ico (s.nodes p).addr ((s.nodes p).addr + size)

section Lists

variable {c : HoleConfig} {s t s' : HolePool} {free holes : List Nat} {p addr size : Nat}

theorem initHoles_parted (c : HoleConfig) : Parted c (initHoles c.capacity) :=
  ⟨List.range c.capacity, [], initHoles_rep _, by simp, by simp, by simp [Apart]⟩

theorem Parted.congr (h : Parted c s) (hsame : SameHoles s t) : Parted c t := by
  obtain ⟨free, holes, hrep, hperm, hbound, hapart⟩ := h
  refine ⟨free, holes, ⟨?_, ?_, hrep.disj⟩, hperm, ?_, ?_⟩
  · rw [hsame.next, hsame.pfree]
    exact hrep.pfree
  · rw [hsame.next, hsame.phead]
    exact hrep.phead
  · rw [hsame.nodes]
    exact hbound
  · intro i hi j hj hne
    simp only [range, hsame.nodes]
    exact hapart i hi j hj hne

theorem Merged.apart (hm : Merged s s' holes addr size p) (hapart : Apart s holes)
    (hbound : (s.nodes p).addr + (s.nodes p).size < 2 ^ 64) (hb : addr + size < 2 ^ 64)
    (hd : Disjoint (Set.Ico addr (addr + size)) (s.cover holes)) : Apart s' holes := by
  have hend := hm.ends
  rw [holeEnd_eq hbound] at hend
  have hself : s'.range p ⊆ s.range p ∪ Set.Ico addr (addr + size) := by
    intro a ha
    rw [mem_range, hm.self] at ha
    have hsize : wadd (s.nodes p).size size = (s.nodes p).size + size := wadd_eq (by omega)
    rw [show ({ s.nodes p with size := wadd (s.nodes p).size size } : HoleNode).size = _ from hsize] at ha
    by_cases hlt : a < addr
    · exact .inl ⟨ha.1, by omega⟩
    · exact .inr ⟨by omega, by have := ha.2; dsimp only at this; omega⟩
  have hgrown : ∀ j ∈ holes, j ≠ p → Disjoint (s'.range p) (s.range j) := by
    intro j hj hne
    refine Set.disjoint_of_subset_left hself (Set.disjoint_union_left.2 ⟨?_, ?_⟩)
    · exact hapart p hm.mem j hj hne.symm
    · exact disjoint_range_of_cover hd hj
  have hother : ∀ j, j ≠ p → s'.range j = s.range j := fun j hj => by
    rw [range, range, hm.others j hj]
  intro i hi j hj hne
  by_cases hip : i = p
  · subst hip
    rw [hother j hne.symm]
    exact hgrown j hj hne.symm
  by_cases hjp : j = p
  · subst hjp
    rw [hother i hne]
    exact (hgrown i hi hne).symm
  · rw [hother i hip, hother j hjp]
    exact hapart i hi j hj hne

/-- A new hole beside the old ones. -/
theorem apart_cons (hapart : Apart s holes) (hself : s'.range p = Set.Ico addr (addr + size))
    (hother : ∀ i ∈ holes, s'.range i = s.range i)
    (hd : Disjoint (Set.Ico addr (addr + size)) (s.cover holes)) : Apart s' (p :: holes) := by
  have hnew : ∀ i ∈ holes, Disjoint (s'.range p) (s'.range i) := by
    intro i hi
    rw [hself, hother i hi]
    exact disjoint_range_of_cover hd hi
  intro i hi j hj hne
  rcases List.mem_cons.1 hi with hip | hi'
  · rcases List.mem_cons.1 hj with hjp | hj'
    · exact absurd (hip.trans hjp.symm) hne
    · rw [hip]
      exact hnew j hj'
  · rcases List.mem_cons.1 hj with hjp | hj'
    · rw [hjp]
      exact (hnew i hi').symm
    · rw [hother i hi', hother j hj']
      exact hapart i hi' j hj' hne

theorem Apart.subset {holes' : List Nat} (h : Apart s holes) (hsub : holes' ⊆ holes) : Apart s holes' :=
  fun i hi j hj => h i (hsub hi) j (hsub hj)

/-- What a shorter hole, or none, leaves of the covered addresses. -/
theorem Carved.subset {holes' : List Nat} (hc : Carved s s' holes p size) (hp : p ∈ holes)
    (hsub : holes' ⊆ holes) (hapart : Apart s holes)
    (hbound : ∀ i ∈ holes, (s.nodes i).addr + (s.nodes i).size < 2 ^ 64) (hle : size ≤ (s.nodes p).size) :
    (∀ i ∈ holes', (s'.nodes i).addr + (s'.nodes i).size < 2 ^ 64) ∧ Apart s' holes' ∧
      s'.cover holes' ⊆ s.cover holes \ Set.Ico (s.nodes p).addr ((s.nodes p).addr + size) := by
  have hbp := hbound p hp
  have haddr : (s'.nodes p).addr = (s.nodes p).addr + size := by rw [hc.addr_eq, wadd_eq (by omega)]
  have hsize : (s'.nodes p).size = (s.nodes p).size - size := by rw [hc.size_eq, wsub_eq hle (by omega)]
  have hshrunk : s'.range p ⊆ s.range p \ Set.Ico (s.nodes p).addr ((s.nodes p).addr + size) := by
    intro a ha
    rw [mem_range, haddr, hsize] at ha
    exact ⟨⟨by omega, by omega⟩, fun hin => by have := hin.2; omega⟩
  have hother : ∀ i, i ≠ p → s'.range i = s.range i := fun i hi => (hc.ranges i hi).range_eq
  have hrange : ∀ i, s'.range i ⊆ s.range i := by
    intro i
    by_cases hip : i = p
    · subst hip
      exact hshrunk.trans Set.sdiff_subset
    · rw [hother i hip]
  refine ⟨fun i hi => ?_, fun i hi j hj hne => ?_, ?_⟩
  · by_cases hip : i = p
    · subst hip
      omega
    · rw [(hc.ranges i hip).1, (hc.ranges i hip).2]
      exact hbound i (hsub hi)
  · exact Set.disjoint_of_subset (hrange i) (hrange j) (hapart i (hsub hi) j (hsub hj) hne)
  · rintro a ⟨i, hi, ha⟩
    refine ⟨⟨i, hsub hi, hrange i ha⟩, fun hin => ?_⟩
    by_cases hip : i = p
    · subst hip
      exact (hshrunk ha).2 hin
    · refine Set.disjoint_left.1 (hapart i (hsub hi) p hp hip) (hrange i ha) ⟨hin.1, ?_⟩
      have := hin.2
      omega

end Lists

/-! ## The operations -/

section Ops

variable {c : HoleConfig} {s s' : HolePool} {p addr size : Nat}

theorem Parted.freed (h : Parted c s) (hb : addr + size < 2 ^ 64)
    (hd : Disjoint (Set.Ico addr (addr + size)) s.freeSet) (hok : freeHole c s addr size = .ok s') :
    Added c s s' addr size := by
  obtain ⟨free, holes, hrep, hperm, hbound, hapart⟩ := h
  rw [hrep.freeSet_eq] at hd
  rcases freeHole_spec c hrep (length_le_capacity hperm) addr size with
    ⟨-, herr⟩ | ⟨p, free', s₁, rfl, hok₁, hcases⟩
  · rw [herr] at hok
    cases hok
  rw [hok₁] at hok
  obtain rfl := Except.ok.inj hok
  rcases hcases with ⟨ph, hm⟩ | hins
  · have hrep' := hrep.merged hm
    have hbph := hbound ph hm.mem
    have hend := hm.ends
    rw [holeEnd_eq hbph] at hend
    have hsize : (s₁.nodes ph).size = (s.nodes ph).size + size := by
      rw [hm.self]
      exact wadd_eq (by omega)
    refine ⟨⟨_, holes, hrep', hperm, fun i hi => ?_, hm.apart hapart hbph hb hd⟩, ?_, ?_⟩
    · by_cases hip : i = ph
      · rw [hip, hsize, hm.self]
        dsimp only
        omega
      · rw [hm.others i hip]
        exact hbound i hi
    · rw [hrep.freeSet_eq, hrep'.freeSet_eq]
      exact hm.cover_eq hbph hb
    · exact (hrep'.hasRoom_iff size).2 ⟨ph, hm.mem, by omega⟩
  · have hp : p ∉ holes := hrep.disj p List.mem_cons_self
    have hperm' := insertPos_perm (fun i => (s.nodes i).addr) p addr holes
    have hold : ∀ i ∈ holes, SameRange s s₁ i := fun i hi => hins.ranges i fun he => hp (he ▸ hi)
    have hself : s₁.range p = Set.Ico addr (addr + size) := by rw [range, hins.addr_eq, hins.size_eq]
    refine ⟨⟨free', _, hins.rep, ?_, fun i hi => ?_, ?_⟩, ?_, ?_⟩
    · exact ((hperm'.append_left free').trans List.perm_middle).trans hperm
    · rcases List.mem_cons.1 (hperm'.mem_iff.1 hi) with rfl | hi
      · rw [hins.addr_eq, hins.size_eq]
        exact hb
      · rw [(hold i hi).1, (hold i hi).2]
        exact hbound i hi
    · exact (apart_cons hapart hself (fun i hi => (hold i hi).range_eq) hd).subset hperm'.subset
    · rw [hrep.freeSet_eq, hins.rep.freeSet_eq]
      exact hins.cover_eq hp
    · exact (hins.rep.hasRoom_iff size).2 ⟨p, hperm'.mem_iff.2 List.mem_cons_self, Nat.le_of_eq hins.size_eq.symm⟩

theorem Parted.carved (h : Parted c s) (drop : Nat) (hp : s.IsHole p) (hle : size ≤ (s.nodes p).size) :
    ∃ s', carveHole c drop s p size = .ok ((s.nodes p).addr, s') ∧ Removed c s s' p size := by
  obtain ⟨free, holes, hrep, hperm, hbound, hapart⟩ := h
  have hmem := (hrep.isHole_iff p).1 hp
  have hsub : Set.Ico (s.nodes p).addr ((s.nodes p).addr + size) ⊆ s.freeSet := by
    refine Set.Subset.trans (fun a ha => ?_) (hrep.range_subset hmem)
    exact ⟨ha.1, by have := ha.2; omega⟩
  have hb := hbound p hmem
  obtain ⟨pre, post, rfl⟩ := List.append_of_mem hmem
  obtain ⟨s', hok, hcarved, hrep'⟩ := carveHole_spec c drop hrep (length_le_capacity hperm) size
  by_cases hz : wsub (s.nodes p).size size ≤ drop
  · rw [if_pos hz] at hrep'
    have hsub' : pre ++ post ⊆ pre ++ p :: post :=
      ((List.Sublist.refl pre).append (List.sublist_cons_self p post)).subset
    obtain ⟨hbound', hapart', hcover⟩ := hcarved.subset hmem hsub' hapart hbound hle
    refine ⟨s', hok, ⟨p :: free, pre ++ post, hrep', ?_, hbound', hapart'⟩, by omega, hsub, ?_⟩
    · exact (List.perm_middle.symm.trans (List.Perm.append_left free List.perm_middle.symm)).trans hperm
    · rw [hrep.freeSet_eq, hrep'.freeSet_eq]
      exact hcover
  · rw [if_neg hz] at hrep'
    obtain ⟨hbound', hapart', hcover⟩ := hcarved.subset hmem (List.Subset.refl _) hapart hbound hle
    refine ⟨s', hok, ⟨free, _, hrep', hperm, hbound', hapart'⟩, by omega, hsub, ?_⟩
    rw [hrep.freeSet_eq, hrep'.freeSet_eq]
    exact hcover

/-- What the first search comes to. -/
theorem Parted.firstFit_cases (h : Parted c s) (size : Nat) :
    (¬ s.HasRoom size ∧ firstFit c s size = some none) ∨
    ∃ p, firstFit c s size = some (some p) ∧ s.IsHole p ∧ size ≤ (s.nodes p).size := by
  obtain ⟨free, holes, hrep, hperm, -⟩ := h
  exact hrep.firstFit_cases (length_le_capacity hperm) size

/-- With room somewhere, the search after a refill comes to a hole with room. -/
theorem Parted.firstFitOrLast_room (h : Parted c s) (hroom : s.HasRoom size) :
    ∃ p, firstFitOrLast c s size = some (some p) ∧ s.IsHole p ∧ size ≤ (s.nodes p).size := by
  obtain ⟨free, holes, hrep, hperm, -⟩ := h
  obtain ⟨i, hi, hle⟩ := (hrep.hasRoom_iff size).1 hroom
  obtain ⟨p, hp, hok, hfit⟩ := firstFitOrLast_fits c hrep.phead (length_le_capacity hperm) hi hle
  exact ⟨p, hok, (hrep.isHole_iff p).2 hp, hfit⟩

end Ops

end Yaos
