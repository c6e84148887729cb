import Mathlib.Order.CompletePartialOrder
import Yaos.Alloc.HolePool.Proofs
import Mathlib.Order.Interval.Set.Basic
import Mathlib.Data.Set.Lattice
import Mathlib.Data.List.TakeWhile

set_option autoImplicit false

/-! # The address set of a hole list, and sortedness

What a hole list is for is a set of free addresses: `freeSet`. Freeing adds a range to it and
taking from a hole removes one. `SortedHoles` is the shape the allocators mean to keep: holes are
non-empty, do not wrap around `2 ^ 64`, and each ends at or below the start of every later one. -/

namespace Yaos

open Chains Word HolePool

namespace HolePool

/-- The addresses of one hole. -/
def range (s : HolePool) (i : Nat) : Set Nat :=
  Set.Ico (s.nodes i).addr ((s.nodes i).addr + (s.nodes i).size)

/-- The addresses of a list of holes. -/
def cover (s : HolePool) (holes : List Nat) : Set Nat := { a | ∃ i ∈ holes, a ∈ s.range i }

/-- The addresses of all holes on the list. -/
def freeSet (s : HolePool) : Set Nat :=
  { a | ∃ holes, Chain s.next s.phead holes ∧ a ∈ s.cover holes }

theorem Rep.freeSet_eq {s : HolePool} {free holes : List Nat} (h : s.Rep free holes) :
    s.freeSet = s.cover holes := by
  ext a
  constructor
  · rintro ⟨holes', hc, ha⟩
    rwa [hc.unique h.phead] at ha
  · intro ha
    exact ⟨holes, h.phead, ha⟩

@[simp] theorem freeSet_spinLock (s : HolePool) : s.spinLock.freeSet = s.freeSet := rfl

@[simp] theorem freeSet_spinUnlock (s : HolePool) : s.spinUnlock.freeSet = s.freeSet := rfl

theorem mem_range {s : HolePool} {i a : Nat} :
    a ∈ s.range i ↔ (s.nodes i).addr ≤ a ∧ a < (s.nodes i).addr + (s.nodes i).size := Iff.rfl

theorem SameRange.range_eq {s t : HolePool} {i : Nat} (h : SameRange s t i) :
    t.range i = s.range i := by
  rw [range, range, h.1, h.2]

theorem holeEnd_eq {s : HolePool} {i : Nat}
    (h : (s.nodes i).addr + (s.nodes i).size < 2 ^ 64) :
    s.holeEnd i = (s.nodes i).addr + (s.nodes i).size := wadd_eq h

end HolePool

/-! ## The address set after each operation -/

theorem Merged.cover_eq {s s' : HolePool} {holes : List Nat} {addr size ph : Nat}
    (hm : Merged s s' holes addr size ph)
    (hbound : (s.nodes ph).addr + (s.nodes ph).size < 2 ^ 64)
    (hsize : addr + size < 2 ^ 64) :
    s'.cover holes = s.cover holes ∪ Set.Ico addr (addr + size) := by
  have hend := hm.ends
  rw [holeEnd_eq hbound] at hend
  have hself : (s'.nodes ph).addr = (s.nodes ph).addr ∧
      (s'.nodes ph).size = (s.nodes ph).size + size := by
    rw [hm.self]
    exact ⟨rfl, wadd_eq (by omega)⟩
  ext a
  simp only [cover, Set.mem_ofPred_eq, Set.mem_union, Set.mem_Ico, mem_range]
  constructor
  · rintro ⟨i, hi, ha⟩
    by_cases hiph : i = ph
    · subst hiph
      rw [hself.1, hself.2] at ha
      by_cases hlt : a < addr
      · exact .inl ⟨i, hi, by omega⟩
      · exact .inr (by omega)
    · rw [hm.others i hiph] at ha
      exact .inl ⟨i, hi, ha⟩
  · rintro (⟨i, hi, ha⟩ | ha)
    · refine ⟨i, hi, ?_⟩
      by_cases hiph : i = ph
      · subst hiph; rw [hself.1, hself.2]; omega
      · rw [hm.others i hiph]; exact ha
    · refine ⟨ph, hm.mem, ?_⟩
      rw [hself.1, hself.2]
      omega

theorem Inserted.cover_eq {s s' : HolePool} {free holes : List Nat} {addr size p : Nat}
    (hi : Inserted s s' free holes addr size p) (hp : p ∉ holes) :
    s'.cover (insertPos (fun i => (s.nodes i).addr) p addr holes)
      = s.cover holes ∪ Set.Ico addr (addr + size) := by
  ext a
  simp only [cover, Set.mem_ofPred_eq, Set.mem_union, (insertPos_perm _ _ _ _).mem_iff,
    List.mem_cons, exists_eq_or_imp]
  have hself : s'.range p = Set.Ico addr (addr + size) := by
    rw [HolePool.range, hi.addr_eq, hi.size_eq]
  have hothers : (∃ i ∈ holes, a ∈ s'.range i) ↔ ∃ i ∈ holes, a ∈ s.range i := by
    refine exists_congr fun i => and_congr_right fun hmem => ?_
    rw [(hi.ranges i fun he => hp (he ▸ hmem)).range_eq]
  rw [hself, hothers, or_comm]

/-- Holes that share no address with each other, before and after any change of order. -/
def Apart (s : HolePool) (holes : List Nat) : Prop :=
  ∀ i ∈ holes, ∀ j ∈ holes, i ≠ j → Disjoint (s.range i) (s.range j)

theorem Carved.cover_eq {s s' : HolePool} {pre post : List Nat} {p size : Nat}
    (hc : Carved s s' (pre ++ p :: post) p size) (hnd : (pre ++ p :: post).Nodup)
    (hapart : Apart s (pre ++ p :: post)) (hle : size ≤ (s.nodes p).size)
    (hbound : (s.nodes p).addr + (s.nodes p).size < 2 ^ 64) {holes : List Nat}
    (hholes : holes = if wsub (s.nodes p).size size ≤ 0 then pre ++ post else pre ++ p :: post) :
    s'.cover holes = s.cover (pre ++ p :: post)
      \ Set.Ico (s.nodes p).addr ((s.nodes p).addr + size) := by
  have hsize : wsub (s.nodes p).size size = (s.nodes p).size - size := wsub_eq hle (by omega)
  have hself : s'.range p
      = Set.Ico ((s.nodes p).addr + size) ((s.nodes p).addr + (s.nodes p).size) := by
    rw [HolePool.range, hc.addr_eq, hc.size_eq, hsize, wadd_eq (by omega)]
    congr 1
    omega
  have hother : ∀ i ∈ pre ++ p :: post, i ≠ p → s'.range i = s.range i ∧
      ∀ a ∈ s.range i, a ∉ Set.Ico (s.nodes p).addr ((s.nodes p).addr + size) := by
    intro i hi hip
    refine ⟨(hc.ranges i hip).range_eq, fun a ha hmem => ?_⟩
    refine Set.disjoint_left.1 (hapart i hi p (by simp) hip) ha ?_
    exact ⟨hmem.1, by have := hmem.2; omega⟩
  -- a hole that is used up is dropped, and covers nothing
  have hmem : ∀ i, i ∈ holes ↔ (i ∈ pre ++ p :: post ∧
      (i = p → ¬ wsub (s.nodes p).size size ≤ 0)) := by
    intro i
    have hnd' := List.nodup_append.1 hnd
    have hppre : p ∉ pre := fun hm => hnd'.2.2 p hm p (List.mem_cons_self ..) rfl
    have hppost : p ∉ post := (List.nodup_cons.1 hnd'.2.1).1
    rw [hholes]
    by_cases hz : wsub (s.nodes p).size size ≤ 0
    · simp only [hz, if_true, List.mem_append, List.mem_cons, not_true, imp_false]
      constructor
      · rintro (h | h)
        · exact ⟨.inl h, fun he => hppre (he ▸ h)⟩
        · exact ⟨.inr (.inr h), fun he => hppost (he ▸ h)⟩
      · rintro ⟨h | h | h, hne⟩
        · exact .inl h
        · exact absurd h hne
        · exact .inr h
    · simp [hz]
  ext a
  simp only [cover, Set.mem_ofPred_eq, Set.mem_sdiff]
  constructor
  · rintro ⟨i, hi, ha⟩
    obtain ⟨hi, hz⟩ := (hmem i).1 hi
    by_cases hip : i = p
    · subst hip
      rw [hself] at ha
      refine ⟨⟨i, hi, ?_⟩, fun hm => ?_⟩
      · exact ⟨by have := ha.1; omega, ha.2⟩
      · have := ha.1; have := hm.2; omega
    · obtain ⟨heq, hnot⟩ := hother i hi hip
      rw [heq] at ha
      exact ⟨⟨i, hi, ha⟩, hnot a ha⟩
  · rintro ⟨⟨i, hi, ha⟩, hnot⟩
    by_cases hip : i = p
    · subst hip
      have hge : (s.nodes i).addr + size ≤ a := by
        by_contra hlt
        exact hnot ⟨ha.1, by omega⟩
      have hlt := ha.2
      refine ⟨i, (hmem i).2 ⟨hi, fun _ => by omega⟩, ?_⟩
      rw [hself]
      exact ⟨hge, hlt⟩
    · obtain ⟨heq, -⟩ := hother i hi hip
      exact ⟨i, (hmem i).2 ⟨hi, fun he => absurd he hip⟩, by rw [heq]; exact ha⟩

/-! ## Sorted lists of holes -/

/-- Non-empty holes inside the word range, each ending at or below the start of the later ones. -/
structure SortedHoles (s : HolePool) (holes : List Nat) : Prop where
  pos : ∀ i ∈ holes, 0 < (s.nodes i).size
  bound : ∀ i ∈ holes, (s.nodes i).addr + (s.nodes i).size < 2 ^ 64
  sorted : holes.Pairwise fun i j => (s.nodes i).addr + (s.nodes i).size ≤ (s.nodes j).addr

theorem SortedHoles.apart {s : HolePool} {holes : List Nat} (h : SortedHoles s holes) :
    Apart s holes := by
  intro i hi j hj
  have hdisj : ∀ {x y : Nat}, (s.nodes x).addr + (s.nodes x).size ≤ (s.nodes y).addr →
      Disjoint (s.range x) (s.range y) := by
    intro x y hxy
    rw [Set.disjoint_left]
    intro a ha hb
    have := ha.2
    have := hb.1
    omega
  have hlater : holes.Pairwise fun i j => i ≠ j → Disjoint (s.range i) (s.range j) :=
    h.sorted.imp fun hxy => fun _ => hdisj hxy
  have hearlier : holes.Pairwise (flip fun i j => i ≠ j → Disjoint (s.range i) (s.range j)) :=
    h.sorted.imp fun hxy => fun _ => (hdisj hxy).symm
  exact List.Pairwise.forall_of_forall_of_flip (fun x _ hne => absurd rfl hne) hlater hearlier hi hj

/-- A hole that misses a non-empty range lies wholly below it or wholly above it. -/
theorem range_apart {s : HolePool} {i addr size : Nat} (hpos : 0 < (s.nodes i).size)
    (hsize : 0 < size) (hd : Disjoint (Set.Ico addr (addr + size)) (s.range i)) :
    (s.nodes i).addr + (s.nodes i).size ≤ addr ∨ addr + size ≤ (s.nodes i).addr := by
  by_contra hcon
  rw [not_or, Nat.not_le, Nat.not_le] at hcon
  rw [Set.disjoint_left] at hd
  rcases Nat.le_total addr (s.nodes i).addr with hle | hle
  · exact hd (a := (s.nodes i).addr) ⟨hle, hcon.2⟩ ⟨le_rfl, by omega⟩
  · exact hd (a := addr) ⟨le_rfl, by omega⟩ ⟨hle, hcon.1⟩

/-- A range outside a cover misses each of its holes. -/
theorem disjoint_range_of_cover {s : HolePool} {holes : List Nat} {r : Set Nat}
    (hd : Disjoint r (s.cover holes)) {i : Nat} (hi : i ∈ holes) : Disjoint r (s.range i) :=
  hd.mono_right fun a (ha : a ∈ s.range i) => show a ∈ s.cover holes from ⟨i, hi, ha⟩

theorem SortedHoles.merged {s s' : HolePool} {holes : List Nat} {addr size ph : Nat}
    (h : SortedHoles s holes) (hm : Merged s s' holes addr size ph) (hsize : 0 < size)
    (hb : addr + size < 2 ^ 64) (hd : Disjoint (Set.Ico addr (addr + size)) (s.cover holes)) :
    SortedHoles s' holes := by
  have hbph := h.bound ph hm.mem
  have hend := hm.ends
  rw [holeEnd_eq hbph] at hend
  have haddr : ∀ i, (s'.nodes i).addr = (s.nodes i).addr := by
    intro i
    by_cases hi : i = ph
    · subst hi; rw [hm.self]
    · rw [hm.others i hi]
  have hph : (s'.nodes ph).size = (s.nodes ph).size + size := by
    rw [hm.self]; exact wadd_eq (by omega)
  have hother : ∀ i, i ≠ ph → (s'.nodes i).size = (s.nodes i).size := fun i hi => by
    rw [hm.others i hi]
  refine ⟨?_, ?_, ?_⟩
  · intro i hi
    by_cases hip : i = ph
    · subst hip; omega
    · rw [hother i hip]; exact h.pos i hi
  · intro i hi
    rw [haddr]
    by_cases hip : i = ph
    · subst hip; omega
    · rw [hother i hip]; exact h.bound i hi
  · refine h.sorted.imp_of_mem fun {i j} hi hj hij => ?_
    rw [haddr, haddr]
    by_cases hip : i = ph
    · -- the freed range misses `j`, which starts at or above it
      subst hip
      have hpj := h.pos j hj
      rcases range_apart hpj hsize (disjoint_range_of_cover hd hj) with hle | hle <;> omega
    · rw [hother i hip]; exact hij

theorem SortedHoles.inserted {s s' : HolePool} {free holes : List Nat} {addr size p : Nat}
    (h : SortedHoles s holes) (hi : Inserted s s' free holes addr size p) (hp : p ∉ holes)
    (hsize : 0 < size) (hb : addr + size < 2 ^ 64)
    (hd : Disjoint (Set.Ico addr (addr + size)) (s.cover holes)) :
    SortedHoles s' (insertPos (fun i => (s.nodes i).addr) p addr holes) := by
  have hsame : ∀ i ∈ holes, SameRange s s' i := fun i hmem =>
    hi.ranges i fun he => hp (he ▸ hmem)
  have hsplit : ∀ i ∈ holes, (s.nodes i).addr + (s.nodes i).size ≤ addr ∨
      addr + size ≤ (s.nodes i).addr := fun i hmem =>
    range_apart (h.pos i hmem) hsize (disjoint_range_of_cover hd hmem)
  -- the new node goes between the holes below it and the holes above it
  have hpos : insertPos (fun i => (s.nodes i).addr) p addr holes
      = holes.takeWhile (fun i => decide ((s.nodes i).addr < addr)) ++
        p :: holes.dropWhile (fun i => decide ((s.nodes i).addr < addr)) := by
    cases holes with
    | nil => rfl
    | cons x t =>
        have hx := hsplit x (List.mem_cons_self ..)
        have hxpos := h.pos x (List.mem_cons_self ..)
        rw [insertPos]
        by_cases hgt : (s.nodes x).addr > addr
        · have hnlt : ¬ (s.nodes x).addr < addr := by omega
          simp [hgt, hnlt]
        · have hlt : (s.nodes x).addr < addr := by omega
          simp [hgt, hlt]
  have hlow : ∀ i ∈ holes.takeWhile (fun i => decide ((s.nodes i).addr < addr)),
      (s.nodes i).addr + (s.nodes i).size ≤ addr := by
    intro i hmem
    have hlt : (s.nodes i).addr < addr := by simpa using List.mem_takeWhile_imp hmem
    rcases hsplit i ((List.takeWhile_sublist _).subset hmem) with hle | hle <;> omega
  have hhigh : ∀ i ∈ holes.dropWhile (fun i => decide ((s.nodes i).addr < addr)),
      addr + size ≤ (s.nodes i).addr := by
    have hsub : (holes.dropWhile fun i => decide ((s.nodes i).addr < addr)).Sublist holes :=
      List.dropWhile_sublist _
    have hpw := h.sorted.sublist hsub
    cases hdw : holes.dropWhile (fun i => decide ((s.nodes i).addr < addr)) with
    | nil => simp
    | cons x t =>
        rw [hdw] at hsub hpw
        have hnlt : ¬ (s.nodes x).addr < addr := by
          have := List.head_dropWhile_not (fun i => decide ((s.nodes i).addr < addr))
            (by rw [hdw]; simp : holes.dropWhile (fun i => decide ((s.nodes i).addr < addr)) ≠ [])
          simpa [hdw] using this
        have hxmem := hsub.subset (List.mem_cons_self ..)
        have hx : addr + size ≤ (s.nodes x).addr := by
          have := h.pos x hxmem
          rcases hsplit x hxmem with hle | hle <;> omega
        intro i hmem
        rcases List.mem_cons.1 hmem with rfl | hmem
        · exact hx
        · have := (List.pairwise_cons.1 hpw).1 i hmem
          omega
  refine ⟨?_, ?_, ?_⟩
  · intro i hmem
    rcases List.mem_cons.1 ((insertPos_perm _ _ _ _).mem_iff.1 hmem) with rfl | hmem
    · rw [hi.size_eq]; exact hsize
    · rw [(hsame i hmem).2]; exact h.pos i hmem
  · intro i hmem
    rcases List.mem_cons.1 ((insertPos_perm _ _ _ _).mem_iff.1 hmem) with rfl | hmem
    · rw [hi.size_eq, hi.addr_eq]; exact hb
    · rw [(hsame i hmem).1, (hsame i hmem).2]; exact h.bound i hmem
  · have hold : holes.Pairwise fun i j => (s'.nodes i).addr + (s'.nodes i).size
        ≤ (s'.nodes j).addr := by
      refine h.sorted.imp_of_mem fun {i j} hi' hj' hij => ?_
      rw [(hsame i hi').1, (hsame i hi').2, (hsame j hj').1]
      exact hij
    have htk : ∀ i ∈ holes.takeWhile (fun i => decide ((s.nodes i).addr < addr)), i ∈ holes :=
      fun i hm => (List.takeWhile_sublist _).subset hm
    have hdk : ∀ i ∈ holes.dropWhile (fun i => decide ((s.nodes i).addr < addr)), i ∈ holes :=
      fun i hm => (List.dropWhile_sublist _).subset hm
    rw [hpos, List.pairwise_append]
    refine ⟨hold.sublist (List.takeWhile_sublist _), List.pairwise_cons.2 ⟨?_, hold.sublist
      (List.dropWhile_sublist _)⟩, ?_⟩
    · intro j hj
      rw [hi.addr_eq, hi.size_eq, (hsame j (hdk j hj)).1]
      exact hhigh j hj
    · intro i hi' j hj
      rw [(hsame i (htk i hi')).1, (hsame i (htk i hi')).2]
      have hlow' := hlow i hi'
      rcases List.mem_cons.1 hj with rfl | hj
      · rw [hi.addr_eq]; exact hlow'
      · rw [(hsame j (hdk j hj)).1]
        have := hhigh j hj
        omega

theorem SortedHoles.carved {s s' : HolePool} {pre post : List Nat} {p size : Nat}
    (h : SortedHoles s (pre ++ p :: post)) (hc : Carved s s' (pre ++ p :: post) p size)
    (hle : size ≤ (s.nodes p).size) {holes : List Nat}
    (hholes : holes = if wsub (s.nodes p).size size ≤ 0 then pre ++ post else pre ++ p :: post) :
    SortedHoles s' holes := by
  have hpmem : p ∈ pre ++ p :: post := by simp
  have hbp := h.bound p hpmem
  have hsz : wsub (s.nodes p).size size = (s.nodes p).size - size := wsub_eq hle (by omega)
  have haddr : (s'.nodes p).addr = (s.nodes p).addr + size := by
    rw [hc.addr_eq, wadd_eq (by omega)]
  have hsize : (s'.nodes p).size = (s.nodes p).size - size := by rw [hc.size_eq, hsz]
  have hsub : holes.Sublist (pre ++ p :: post) := by
    rw [hholes]
    split
    · exact (List.Sublist.refl pre).append (List.sublist_cons_self p post)
    · exact List.Sublist.refl _
  have hrest : p ∈ holes → 0 < (s.nodes p).size - size := by
    intro hmem
    by_contra hz
    have hnd : (pre ++ p :: post).Nodup := by
      refine (h.sorted.imp_of_mem (S := fun a b => a ≠ b) fun {i j} hi _ hij he => ?_)
      have := h.pos i hi
      subst he
      omega
    rw [hholes, if_pos (by omega)] at hmem
    have hnd' := List.nodup_append.1 hnd
    rcases List.mem_append.1 hmem with hm | hm
    · exact hnd'.2.2 p hm p (List.mem_cons_self ..) rfl
    · exact (List.nodup_cons.1 hnd'.2.1).1 hm
  refine ⟨?_, ?_, ?_⟩
  · intro i hi
    by_cases hip : i = p
    · subst hip; rw [hsize]; exact hrest hi
    · rw [(hc.ranges i hip).2]; exact h.pos i (hsub.subset hi)
  · intro i hi
    by_cases hip : i = p
    · subst hip; omega
    · rw [(hc.ranges i hip).1, (hc.ranges i hip).2]; exact h.bound i (hsub.subset hi)
  · refine (h.sorted.sublist hsub).imp_of_mem fun {i j} hi hj hij => ?_
    have hi' : (s'.nodes i).addr + (s'.nodes i).size = (s.nodes i).addr + (s.nodes i).size := by
      by_cases hip : i = p
      · subst hip; omega
      · rw [(hc.ranges i hip).1, (hc.ranges i hip).2]
    have hj' : (s.nodes j).addr ≤ (s'.nodes j).addr := by
      by_cases hjp : j = p
      · subst hjp; omega
      · rw [(hc.ranges j hjp).1]
    omega

end Yaos
