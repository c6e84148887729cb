import Yaos.Alloc.HolePool.Spin
import Yaos.Alloc.HolePool.Sorted

set_option autoImplicit false

/-! # A pool as a whole

`PoolInv` is what the operations keep: the nodes are split between the two lists and the holes are sorted.
A range that goes on the list must be `Loose`: not empty, not wrapping, not free already. -/

namespace Yaos

open Chains Word HolePool

/-- Every node is on exactly one list, and the holes are sorted. -/
def PoolInv (c : HoleConfig) (s : HolePool) : Prop :=
  ∃ free holes, s.Rep free holes ∧ (free ++ holes).Perm (List.range c.capacity) ∧ SortedHoles s holes

/-- The same two lists; the lock may differ. -/
structure SameHoles (s t : HolePool) : Prop where
  nodes : t.nodes = s.nodes
  pfree : t.pfree = s.pfree
  phead : t.phead = s.phead

/-- Some hole has at least `size` bytes. -/
def HolePool.HasRoom (s : HolePool) (size : Nat) : Prop := ∃ i, s.IsHole i ∧ size ≤ (s.nodes i).size

/-- No hole begins where another one ends. -/
def HolePool.Spread (s : HolePool) : Prop :=
  ∀ i j, s.IsHole i → s.IsHole j → (s.nodes i).addr + (s.nodes i).size ≠ (s.nodes j).addr

/-- A range that may go on the list. -/
structure Loose (s : HolePool) (addr size : Nat) : Prop where
  pos : 0 < size
  bound : addr + size < 2 ^ 64
  notFree : Disjoint (Set.Ico addr (addr + size)) s.freeSet

section Same

variable {c : HoleConfig} {s t : HolePool}

theorem SameHoles.lock (s : HolePool) : SameHoles s s.spinLock := ⟨rfl, rfl, rfl⟩

theorem SameHoles.unlock (s : HolePool) : SameHoles s s.spinUnlock := ⟨rfl, rfl, rfl⟩

theorem SameHoles.next (h : SameHoles s t) : t.next = s.next := by
  funext i
  rw [HolePool.next, HolePool.next, h.nodes]

theorem SameHoles.isHole_iff (h : SameHoles s t) (i : Nat) : t.IsHole i ↔ s.IsHole i := by
  rw [IsHole, IsHole, h.next, h.phead]

theorem SameHoles.freeSet_eq (h : SameHoles s t) : t.freeSet = s.freeSet := by
  simp only [freeSet, cover, range, h.next, h.phead, h.nodes]

theorem SameHoles.hasRoom_iff (h : SameHoles s t) (size : Nat) : t.HasRoom size ↔ s.HasRoom size := by
  simp only [HasRoom, h.isHole_iff, h.nodes]

theorem SameHoles.spread (h : SameHoles s t) (hs : s.Spread) : t.Spread := by
  intro i j hi hj
  rw [h.nodes]
  exact hs i j ((h.isHole_iff i).1 hi) ((h.isHole_iff j).1 hj)

theorem PoolInv.congr (h : PoolInv c s) (hsame : SameHoles s t) : PoolInv c t := by
  obtain ⟨free, holes, hrep, hperm, hsorted⟩ := h
  refine ⟨free, holes, ⟨?_, ?_, hrep.disj⟩, hperm, ⟨?_, ?_, ?_⟩⟩
  · rw [hsame.next, hsame.pfree]
    exact hrep.pfree
  · rw [hsame.next, hsame.phead]
    exact hrep.phead
  · rw [hsame.nodes]
    exact hsorted.pos
  · rw [hsame.nodes]
    exact hsorted.bound
  · rw [hsame.nodes]
    exact hsorted.sorted

theorem Loose.congr {addr size : Nat} (h : Loose s addr size) (hsame : SameHoles s t) :
    Loose t addr size :=
  ⟨h.pos, h.bound, by rw [hsame.freeSet_eq]; exact h.notFree⟩

end Same

/-! ## The two lists of a pool -/

section Lists

variable {c : HoleConfig} {s : HolePool} {free holes : List Nat}

theorem initHoles_inv (c : HoleConfig) : PoolInv c (initHoles c.capacity) :=
  ⟨List.range c.capacity, [], initHoles_rep _, by simp, ⟨by simp, by simp, by simp⟩⟩

theorem length_le_capacity {n : Nat} (h : (free ++ holes).Perm (List.range n)) : holes.length ≤ n := by
  have := h.length_eq
  rw [List.length_append, List.length_range] at this
  omega

theorem HolePool.Rep.isHole_iff (h : s.Rep free holes) (i : Nat) : s.IsHole i ↔ i ∈ holes :=
  h.phead.visits_iff

theorem HolePool.Rep.hasRoom_iff (h : s.Rep free holes) (size : Nat) :
    s.HasRoom size ↔ ∃ i ∈ holes, size ≤ (s.nodes i).size := by
  simp only [HasRoom, h.isHole_iff]

theorem HolePool.Rep.pfree_eq_none (h : s.Rep free holes) : s.pfree = none ↔ free = [] := by
  rw [h.pfree.head_eq]
  cases free <;> simp

/-- No two holes of a sorted list end at the same address. -/
theorem SortedHoles.end_inj (h : SortedHoles s holes) {i j : Nat} (hi : i ∈ holes) (hj : j ∈ holes)
    (heq : (s.nodes i).addr + (s.nodes i).size = (s.nodes j).addr + (s.nodes j).size) : i = j := by
  by_contra hne
  have hpi := h.pos i hi
  have hpj := h.pos j hj
  have hd := Set.disjoint_left.1 (h.apart i hi j hj hne)
  rcases Nat.le_total (s.nodes i).addr (s.nodes j).addr with hle | hle
  · exact hd (a := (s.nodes j).addr) ⟨hle, by omega⟩ ⟨Nat.le_refl _, by omega⟩
  · exact hd (a := (s.nodes i).addr) ⟨Nat.le_refl _, by omega⟩ ⟨hle, by omega⟩

/-- The addresses of a hole are free. -/
theorem HolePool.Rep.range_subset (h : s.Rep free holes) {i : Nat} (hi : i ∈ holes) :
    s.range i ⊆ s.freeSet := by
  rw [h.freeSet_eq]
  exact fun a ha => ⟨i, hi, ha⟩

end Lists

/-! ## Putting a range on the list -/

section Freeing

variable {c : HoleConfig} {s : HolePool} {addr size : Nat}

/-- A hole that ends at the range grows; where there is none, the range is a hole of its own. -/
structure PutBack (c : HoleConfig) (s s' : HolePool) (addr size : Nat) : Prop where
  inv : PoolInv c s'
  freeSet_eq : s'.freeSet = s.freeSet ∪ Set.Ico addr (addr + size)
  hasRoom_iff : ∀ need, s'.HasRoom need ↔ s.HasRoom need ∨ need ≤ size ∨
    ∃ i, s.IsHole i ∧ s.holeEnd i = addr ∧ need ≤ (s.nodes i).size + size
  spread : s.Spread → (∀ i, s.IsHole i → addr + size ≠ (s.nodes i).addr) → s'.Spread

theorem Merged.hasRoom_iff {s' : HolePool} {free holes : List Nat} {ph : Nat} (hrep : s.Rep free holes)
    (hsorted : SortedHoles s holes) (hm : Merged s s' holes addr size ph) (hb : addr + size < 2 ^ 64)
    (need : Nat) : s'.HasRoom need ↔ s.HasRoom need ∨ need ≤ size ∨
      ∃ i, s.IsHole i ∧ s.holeEnd i = addr ∧ need ≤ (s.nodes i).size + size := by
  have hbph := hsorted.bound ph hm.mem
  have hend := hm.ends
  rw [holeEnd_eq hbph] at hend
  have hsize : (s'.nodes ph).size = (s.nodes ph).size + size := by
    rw [hm.self]
    exact wadd_eq (by omega)
  rw [(hrep.merged hm).hasRoom_iff, hrep.hasRoom_iff]
  constructor
  · rintro ⟨i, hi, hle⟩
    by_cases hip : i = ph
    · subst hip
      rw [hsize] at hle
      exact .inr (.inr ⟨i, (hrep.isHole_iff i).2 hi, hm.ends, hle⟩)
    · rw [hm.others i hip] at hle
      exact .inl ⟨i, hi, hle⟩
  · rintro (⟨i, hi, hle⟩ | hle | ⟨i, hi, hiend, hle⟩)
    · refine ⟨i, hi, ?_⟩
      by_cases hip : i = ph
      · subst hip
        omega
      · rw [hm.others i hip]
        exact hle
    · exact ⟨ph, hm.mem, by omega⟩
    · have hi' := (hrep.isHole_iff i).1 hi
      rw [holeEnd_eq (hsorted.bound i hi')] at hiend
      obtain rfl := hsorted.end_inj hi' hm.mem (hiend.trans hend.symm)
      exact ⟨i, hi', by omega⟩

theorem Inserted.hasRoom_iff {s' : HolePool} {free free' holes : List Nat} {p : Nat}
    (hrep : s.Rep free holes) (hi : Inserted s s' free' holes addr size p) (hp : p ∉ holes) (need : Nat) :
    s'.HasRoom need ↔ s.HasRoom need ∨ need ≤ size ∨
      ∃ i, s.IsHole i ∧ s.holeEnd i = addr ∧ need ≤ (s.nodes i).size + size := by
  have hnone : ¬ ∃ i, s.IsHole i ∧ s.holeEnd i = addr ∧ need ≤ (s.nodes i).size + size := by
    rintro ⟨i, hmem, hend, -⟩
    exact hi.noEnd i ((hrep.isHole_iff i).1 hmem) hend
  rw [or_iff_left hnone, hi.rep.hasRoom_iff, hrep.hasRoom_iff]
  simp only [(insertPos_perm _ _ _ _).mem_iff, List.mem_cons, exists_eq_or_imp, hi.size_eq]
  rw [or_comm]
  refine or_congr_left (exists_congr fun i => and_congr_right fun hmem => ?_)
  rw [(hi.ranges i fun he => hp (he ▸ hmem)).2]

theorem Merged.spread {s' : HolePool} {free holes : List Nat} {ph : Nat} (hrep : s.Rep free holes)
    (hsorted : SortedHoles s holes) (hm : Merged s s' holes addr size ph) (hb : addr + size < 2 ^ 64)
    (hs : s.Spread) (habove : ∀ i, s.IsHole i → addr + size ≠ (s.nodes i).addr) : s'.Spread := by
  have hbph := hsorted.bound ph hm.mem
  have hend := hm.ends
  rw [holeEnd_eq hbph] at hend
  have hself : (s'.nodes ph).addr + (s'.nodes ph).size = addr + size := by
    rw [hm.self]
    show (s.nodes ph).addr + wadd (s.nodes ph).size size = addr + size
    rw [wadd_eq (by omega)]
    omega
  have haddr : ∀ j, (s'.nodes j).addr = (s.nodes j).addr := by
    intro j
    by_cases hj : j = ph
    · rw [hj, hm.self]
    · rw [hm.others j hj]
  intro i j hi hj
  have hi' : s.IsHole i := (hrep.isHole_iff i).2 (((hrep.merged hm).isHole_iff i).1 hi)
  have hj' : s.IsHole j := (hrep.isHole_iff j).2 (((hrep.merged hm).isHole_iff j).1 hj)
  rw [haddr j]
  by_cases hip : i = ph
  · rw [hip, hself]
    exact habove j hj'
  · rw [hm.others i hip]
    exact hs i j hi' hj'

theorem Inserted.spread {s' : HolePool} {free free' holes : List Nat} {p : Nat} (hrep : s.Rep free holes)
    (hsorted : SortedHoles s holes) (hi : Inserted s s' free' holes addr size p) (hp : p ∉ holes)
    (hsize : 0 < size) (hs : s.Spread) (habove : ∀ i, s.IsHole i → addr + size ≠ (s.nodes i).addr) :
    s'.Spread := by
  have hmem : ∀ i, s'.IsHole i → i = p ∨ i ∈ holes := fun i h =>
    List.mem_cons.1 ((insertPos_perm _ _ _ _).mem_iff.1 ((hi.rep.isHole_iff i).1 h))
  have hold : ∀ i ∈ holes, (s'.nodes i).addr = (s.nodes i).addr ∧ (s'.nodes i).size = (s.nodes i).size :=
    fun i h => hi.ranges i fun he => hp (he ▸ h)
  intro i j hi' hj'
  rcases hmem i hi' with rfl | hi'
  · rw [hi.addr_eq, hi.size_eq]
    rcases hmem j hj' with rfl | hj'
    · rw [hi.addr_eq]
      omega
    · rw [(hold j hj').1]
      exact habove j ((hrep.isHole_iff j).2 hj')
  · rw [(hold i hi').1, (hold i hi').2]
    rcases hmem j hj' with rfl | hj'
    · rw [hi.addr_eq, ← holeEnd_eq (hsorted.bound i hi')]
      exact hi.noEnd i hi'
    · rw [(hold j hj').1]
      exact hs i j ((hrep.isHole_iff i).2 hi') ((hrep.isHole_iff j).2 hj')

/-- **Freeing.** Without an unused node it panics; else the range is free afterwards. -/
theorem PoolInv.freed (h : PoolInv c s) (hl : Loose s addr size) :
    (s.pfree = none ∧ freeHole c s addr size = .error (.panic c.tooSmall)) ∨
    (s.pfree ≠ none ∧ ∃ s', freeHole c s addr size = .ok s' ∧ PutBack c s s' addr size) := by
  obtain ⟨free, holes, hrep, hperm, hsorted⟩ := h
  have hd := hl.notFree
  rw [hrep.freeSet_eq] at hd
  rcases freeHole_spec c hrep (length_le_capacity hperm) addr size with
    ⟨hnil, herr⟩ | ⟨p, free', s', rfl, hok, ⟨ph, hm⟩ | hins⟩
  · exact .inl ⟨hrep.pfree_eq_none.2 hnil, herr⟩
  · have hsome : s.pfree ≠ none := fun h => List.cons_ne_nil _ _ (hrep.pfree_eq_none.1 h)
    have hrep' := hrep.merged hm
    refine .inr ⟨hsome, s', hok, ⟨_, holes, hrep', hperm, hsorted.merged hm hl.pos hl.bound hd⟩, ?_,
      hm.hasRoom_iff hrep hsorted hl.bound, hm.spread hrep hsorted hl.bound⟩
    rw [hrep.freeSet_eq, hrep'.freeSet_eq]
    exact hm.cover_eq (hsorted.bound ph hm.mem) hl.bound
  · have hsome : s.pfree ≠ none := fun h => List.cons_ne_nil _ _ (hrep.pfree_eq_none.1 h)
    have hp : p ∉ holes := hrep.disj p List.mem_cons_self
    refine .inr ⟨hsome, s', hok,
      ⟨free', _, hins.rep, ?_, hsorted.inserted hins hp hl.pos hl.bound hd⟩, ?_,
      hins.hasRoom_iff hrep hp, hins.spread hrep hsorted hp hl.pos⟩
    · refine List.Perm.trans ?_ hperm
      exact ((insertPos_perm _ _ _ _).append_left free').trans List.perm_middle
    · rw [hrep.freeSet_eq, hins.rep.freeSet_eq]
      exact hins.cover_eq hp

end Freeing

/-! ## Taking from a hole -/

section Taking

variable {c : HoleConfig} {s : HolePool} {p size : Nat}

/-- A block at the front of the hole `p` was free and is not any more. -/
structure TakenFront (c : HoleConfig) (s s' : HolePool) (p size : Nat) : Prop where
  inv : PoolInv c s'
  subset : Set.Ico (s.nodes p).addr ((s.nodes p).addr + size) ⊆ s.freeSet
  freeSet_eq : s'.freeSet = s.freeSet \ Set.Ico (s.nodes p).addr ((s.nodes p).addr + size)
  spread : s.Spread → s'.Spread

/-- The front of a hole is no end of another one, so the shorter hole touches none either. -/
theorem Carved.spread {s' : HolePool} {free free' holes holes' : List Nat} (hrep : s.Rep free holes)
    (hsorted : SortedHoles s holes) (hc : Carved s s' holes p size) (hp : p ∈ holes)
    (hle : size ≤ (s.nodes p).size) (hrep' : s'.Rep free' holes') (hsorted' : SortedHoles s' holes')
    (hsub : holes' ⊆ holes) (hs : s.Spread) : s'.Spread := by
  have hb := hsorted.bound p hp
  have haddr : (s'.nodes p).addr = (s.nodes p).addr + size := by
    rw [hc.addr_eq, wadd_eq (by omega)]
  have hsize : (s'.nodes p).size = (s.nodes p).size - size := by
    rw [hc.size_eq, wsub_eq hle (by omega)]
  have hend : ∀ i, (s'.nodes i).addr + (s'.nodes i).size = (s.nodes i).addr + (s.nodes i).size := by
    intro i
    by_cases hip : i = p
    · subst hip
      omega
    · rw [(hc.ranges i hip).1, (hc.ranges i hip).2]
  intro i j hi hj
  have hi' := hsub ((hrep'.isHole_iff i).1 hi)
  have hj' := hsub ((hrep'.isHole_iff j).1 hj)
  have hold := hs i j ((hrep.isHole_iff i).2 hi') ((hrep.isHole_iff j).2 hj')
  have hpos := hsorted'.pos i ((hrep'.isHole_iff i).1 hi)
  rw [hend i]
  by_cases hjp : j = p
  · subst hjp
    rw [haddr]
    intro heq
    by_cases hij : i = j
    · subst hij
      omega
    · have hposi := hsorted.pos i hi'
      have hd := Set.disjoint_left.1 (hsorted.apart i hi' j hj' hij)
      exact hd (a := (s.nodes i).addr + (s.nodes i).size - 1) ⟨by omega, by omega⟩ ⟨by omega, by omega⟩
  · rw [(hc.ranges j hjp).1]
    exact hold

theorem PoolInv.carved (h : PoolInv c s) (hp : s.IsHole p) (hle : size ≤ (s.nodes p).size) :
    ∃ s', carveHole c 0 s p size = .ok ((s.nodes p).addr, s') ∧ TakenFront c s s' p size := by
  obtain ⟨free, holes, hrep, hperm, hsorted⟩ := h
  have hmem := (hrep.isHole_iff p).1 hp
  have hsub : Set.Ico (s.nodes p).addr ((s.nodes p).addr + size) ⊆ s.freeSet := by
    refine Set.Subset.trans (fun a ha => ?_) (hrep.range_subset hmem)
    exact ⟨ha.1, by have := ha.2; omega⟩
  have hbound := hsorted.bound p hmem
  obtain ⟨pre, post, rfl⟩ := List.append_of_mem hmem
  obtain ⟨s', hok, hcarved, hrep'⟩ := carveHole_spec c 0 hrep (length_le_capacity hperm) size
  by_cases hz : wsub (s.nodes p).size size ≤ 0
  · rw [if_pos hz] at hrep'
    have hsorted' := hsorted.carved hcarved hle (if_pos hz).symm
    have hsub' : pre ++ post ⊆ pre ++ p :: post :=
      ((List.Sublist.refl pre).append (List.sublist_cons_self p post)).subset
    refine ⟨s', hok, ⟨p :: free, pre ++ post, hrep', ?_, hsorted'⟩, hsub, ?_,
      hcarved.spread hrep hsorted hmem hle hrep' hsorted' hsub'⟩
    · exact (List.perm_middle.symm.trans (List.Perm.append_left free List.perm_middle.symm)).trans hperm
    · rw [hrep.freeSet_eq, hrep'.freeSet_eq]
      exact hcarved.cover_eq hrep.phead.nodup hsorted.apart hle hbound (if_pos hz).symm
  · rw [if_neg hz] at hrep'
    have hsorted' := hsorted.carved hcarved hle (if_neg hz).symm
    refine ⟨s', hok, ⟨free, _, hrep', hperm, hsorted'⟩, hsub, ?_,
      hcarved.spread hrep hsorted hmem hle hrep' hsorted' (List.Subset.refl _)⟩
    rw [hrep.freeSet_eq, hrep'.freeSet_eq]
    exact hcarved.cover_eq hrep.phead.nodup hsorted.apart hle hbound (if_neg hz).symm

/-- The first search finds a hole with room, if there is one. -/
theorem HolePool.Rep.firstFit_cases {free holes : List Nat} (hrep : s.Rep free holes)
    (hcap : holes.length ≤ c.capacity) (size : Nat) :
    (¬ s.HasRoom size ∧ firstFit c s size = some none) ∨
    ∃ p, firstFit c s size = some (some p) ∧ s.IsHole p ∧ size ≤ (s.nodes p).size := by
  have hfit := firstFit_eq c hrep.phead hcap size
  cases hfind : holes.find? (fun p => !((s.nodes p).size < size)) with
  | none =>
      refine .inl ⟨fun hroom => ?_, by rw [hfit, hfind]⟩
      obtain ⟨i, hi, hle⟩ := (hrep.hasRoom_iff size).1 hroom
      have := List.find?_eq_none.1 hfind i hi
      simp only [Bool.not_eq_true', decide_eq_false_iff_not] at this
      omega
  | some p =>
      refine .inr ⟨p, by rw [hfit, hfind], (hrep.isHole_iff p).2 (List.mem_of_find?_eq_some hfind), ?_⟩
      simpa using List.find?_some hfind

theorem PoolInv.firstFit_cases (h : PoolInv c s) (size : Nat) :
    (¬ s.HasRoom size ∧ firstFit c s size = some none) ∨
    ∃ p, firstFit c s size = some (some p) ∧ s.IsHole p ∧ size ≤ (s.nodes p).size := by
  obtain ⟨free, holes, hrep, hperm, -⟩ := h
  exact hrep.firstFit_cases (length_le_capacity hperm) size

/-- The search after a refill stops at a hole of a list that is not empty; it has room if any hole has. -/
theorem PoolInv.firstFitOrLast_cases (h : PoolInv c s) (hne : ∃ i, s.IsHole i) (size : Nat) :
    ∃ p, firstFitOrLast c s size = some (some p) ∧ s.IsHole p ∧
      (s.HasRoom size → size ≤ (s.nodes p).size) := by
  obtain ⟨free, holes, hrep, hperm, -⟩ := h
  have hcap := length_le_capacity hperm
  have hwalk : firstFitOrLast c s size
      = some (holes.find? fun p => (s.next p).isNone || !((s.nodes p).size < size)) :=
    walk_eq_find hrep.phead hcap
  cases hfind : holes.find? (fun p => (s.next p).isNone || !((s.nodes p).size < size)) with
  | none =>
      -- the last hole would have stopped the search
      obtain ⟨i, hi⟩ := hne
      have hholes : holes ≠ [] := List.ne_nil_of_mem ((hrep.isHole_iff i).1 hi)
      have hsplit := List.dropLast_append_getLast hholes
      have hchain := hrep.phead
      rw [← hsplit] at hchain
      have hlast : s.next (holes.getLast hholes) = none := hchain.after
      have := List.find?_eq_none.1 hfind _ (List.getLast_mem hholes)
      simp [hlast] at this
  | some p =>
      rw [hfind] at hwalk
      refine ⟨p, hwalk, (hrep.isHole_iff p).2 (List.mem_of_find?_eq_some hfind), fun hroom => ?_⟩
      obtain ⟨i, hi, hle⟩ := (hrep.hasRoom_iff size).1 hroom
      obtain ⟨q, -, hok, hfit⟩ := firstFitOrLast_fits c hrep.phead hcap hi hle
      rw [hwalk, Option.some.injEq, Option.some.injEq] at hok
      rwa [hok]

end Taking

end Yaos
