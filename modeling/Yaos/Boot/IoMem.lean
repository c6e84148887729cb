import Yaos.Boot.Pml4
import Mathlib.Data.List.Nodup

set_option autoImplicit false

/-! # The pages of device memory (`on_iomem` in `arch/x86_64/multiboot.c`)

What is no RAM in the memory map is recorded in `io_remap_pages`, by 2 MiB pages. Page `p` is recorded as
`p + 1`. A range that starts inside a page is taken apart behind that page, and what is left starts at one. -/

namespace Yaos

open Word

/-- `MAX_IO_REMAPS`. -/
def maxIoRemaps : Nat := 2000

/-- `maps` is the first `remaped` entries of `io_remap_pages`, as 64-bit words; `pg` is an `int`. -/
def addMap (maps : List Nat) (pg : Nat) : Except Fault (List Nat) :=
  if signExtend pg ∈ maps then .ok maps
  else if maps.length ≥ maxIoRemaps then .error (.panic "MAX_IO_REMAPS too small\n")
  else .ok (maps ++ [signExtend pg])

/-- The loop over whole pages, and the page of what is left behind them. -/
def addPages : Nat → List Nat → Nat → Nat → Except Fault (List Nat)
  | 0, _, _, _ => .error .hang
  | fuel + 1, maps, addr, size =>
      if size ≥ 0x200000 then do
        let maps ← addMap maps (wadd (addr / 0x200000) 1)
        addPages fuel maps (wadd addr 0x200000) (wsub size 0x200000)
      else if size = 0 then .ok maps
      else addMap maps (wadd (addr / 0x200000) 1)

/-- `fuel` bounds the recursion and the loop in it. -/
def onIomem : Nat → List Nat → Nat → Nat → Except Fault (List Nat)
  | 0, _, _, _ => .error .hang
  | fuel + 1, maps, addr, size =>
      let low := addr % 0x200000
      if addr = 0 then .ok maps
      else if low ≠ 0 then
        let lowsize := wsub 0x200000 low
        -- a start inside a page counts for the page behind it
        let pg := wsub (wadd addr 0x200000) 1 / 0x200000
        if lowsize ≥ size then addMap maps pg
        else do
          let maps ← addMap maps pg
          onIomem fuel maps (wadd addr lowsize) (wsub size lowsize)
      else addPages (fuel + 1) maps addr size

/-- The arguments of a call of `on_iomem`. -/
structure IoRange where
  addr : Nat
  size : Nat
deriving DecidableEq, Repr

/-- One call after the other. -/
def onIomems (fuel : Nat) (maps : List Nat) (ranges : List IoRange) : Except Fault (List Nat) :=
  ranges.foldlM (fun maps r => onIomem fuel maps r.addr r.size) maps

/-! ## The pages of a range -/

/-- The 2 MiB pages that overlap `[addr, addr + size)`. -/
def ioPages (addr size : Nat) : Set Nat := { p | ∃ a ∈ Set.Ico addr (addr + size), a / 0x200000 = p }

section Pages

variable {addr size : Nat}

theorem ioPages_zero (addr : Nat) : ioPages addr 0 = ∅ := by
  ext p
  simp [ioPages]

theorem ioPages_add (addr l m : Nat) : ioPages addr (l + m) = ioPages addr l ∪ ioPages (addr + l) m := by
  ext p
  constructor
  · rintro ⟨a, ha, rfl⟩
    have := ha.1
    have := ha.2
    by_cases hl : a < addr + l
    · exact .inl ⟨a, ⟨by omega, hl⟩, rfl⟩
    · exact .inr ⟨a, ⟨by omega, by omega⟩, rfl⟩
  · rintro (⟨a, ha, rfl⟩ | ⟨a, ha, rfl⟩)
    · exact ⟨a, ⟨ha.1, by have := ha.2; omega⟩, rfl⟩
    · exact ⟨a, ⟨by have := ha.1; omega, by have := ha.2; omega⟩, rfl⟩

/-- A range inside one page. -/
theorem ioPages_inside (hpos : 0 < size) (hin : addr % 0x200000 + size ≤ 0x200000) :
    ioPages addr size = {addr / 0x200000} := by
  ext p
  constructor
  · rintro ⟨a, ha, rfl⟩
    have := ha.1
    have := ha.2
    rw [Set.mem_singleton_iff]
    omega
  · rintro rfl
    exact ⟨addr, ⟨Nat.le_refl _, by omega⟩, rfl⟩

end Pages

/-! ## The pages recorded -/

/-- The entries are distinct, and they are the pages of `S`. -/
structure Recorded (maps : List Nat) (S : Set Nat) : Prop where
  nodup : maps.Nodup
  mem : ∀ e, e ∈ maps ↔ ∃ p ∈ S, e = p + 1

/-- The pages of `S` are recorded, or there are too many of them for the table. -/
def Records (out : Except Fault (List Nat)) (S : Set Nat) : Prop :=
  (∃ maps, out = .ok maps ∧ Recorded maps S) ∨
    out = .error (.panic "MAX_IO_REMAPS too small\n") ∧
      ∃ es : List Nat, es.Nodup ∧ maxIoRemaps < es.length ∧ ∀ e ∈ es, ∃ p ∈ S, e = p + 1

section Recorded

variable {maps : List Nat} {S T : Set Nat} {out : Except Fault (List Nat)} {fuel addr size p : Nat}

theorem recorded_nil : Recorded [] ∅ := ⟨List.nodup_nil, by simp⟩

theorem Recorded.records (h : Recorded maps S) : Records (.ok maps) S := .inl ⟨maps, rfl, h⟩

theorem Records.bind {f : List Nat → Except Fault (List Nat)} (h : Records out S) (hsub : S ⊆ T)
    (hf : ∀ maps, Recorded maps S → Records (f maps) T) : Records (out >>= f) T := by
  rcases h with ⟨maps, rfl, hmaps⟩ | ⟨rfl, es, hnodup, hlen, hin⟩
  · exact hf maps hmaps
  · refine .inr ⟨rfl, es, hnodup, hlen, fun e he => ?_⟩
    obtain ⟨p, hp, heq⟩ := hin e he
    exact ⟨p, hsub hp, heq⟩

theorem signExtend_eq {n : Nat} (h : n < 2 ^ 31) : signExtend n = n := by
  unfold signExtend
  rw [Nat.mod_eq_of_lt (by omega), if_pos h]

theorem addMap_records (h : Recorded maps S) (hp : p + 1 < 2 ^ 31) :
    Records (addMap maps (p + 1)) (S ∪ {p}) := by
  unfold addMap
  rw [signExtend_eq hp]
  by_cases hin : p + 1 ∈ maps
  · obtain ⟨q, hq, heq⟩ := (h.mem _).1 hin
    obtain rfl : p = q := by omega
    rw [if_pos hin, Set.union_eq_self_of_subset_right (Set.singleton_subset_iff.2 hq)]
    exact h.records
  have hnew : p ∉ S := fun hS => hin ((h.mem _).2 ⟨p, hS, rfl⟩)
  rw [if_neg hin]
  by_cases hfull : maps.length ≥ maxIoRemaps
  · rw [if_pos hfull]
    -- the entries and the new one are one more than the table holds
    refine .inr ⟨rfl, (p + 1) :: maps, List.nodup_cons.2 ⟨hin, h.nodup⟩, ?_, fun e he => ?_⟩
    · rw [List.length_cons]
      omega
    · rcases List.mem_cons.1 he with rfl | hmem
      · exact ⟨p, .inr rfl, rfl⟩
      · obtain ⟨q, hq, rfl⟩ := (h.mem e).1 hmem
        exact ⟨q, .inl hq, rfl⟩
  · rw [if_neg hfull]
    refine .inl ⟨_, rfl, List.nodup_append.2 ⟨h.nodup, List.nodup_singleton _, fun e he e' he' => ?_⟩,
      fun e => ?_⟩
    · rintro rfl
      rw [List.mem_singleton.1 he'] at he
      exact hin he
    · rw [List.mem_append, List.mem_singleton, h.mem]
      constructor
      · rintro (⟨q, hq, rfl⟩ | rfl)
        · exact ⟨q, .inl hq, rfl⟩
        · exact ⟨p, .inr rfl, rfl⟩
      · rintro ⟨q, hq | hq, rfl⟩
        · exact .inl ⟨q, hq, rfl⟩
        · rw [Set.mem_singleton_iff.1 hq]
          exact .inr rfl

theorem addPages_records (hfuel : size < fuel) (h : Recorded maps S) (halign : addr % 0x200000 = 0)
    (hb : addr + size < 2 ^ 51) : Records (addPages fuel maps addr size) (S ∪ ioPages addr size) := by
  induction fuel generalizing maps S addr size with
  | zero => omega
  | succ fuel ih =>
      rw [addPages, wadd_eq (by omega)]
      by_cases hwhole : size ≥ 0x200000
      · rw [if_pos hwhole, wadd_eq (by omega), wsub_eq hwhole (by omega)]
        have hpages : ioPages addr size =
            {addr / 0x200000} ∪ ioPages (addr + 0x200000) (size - 0x200000) := by
          rw [← @ioPages_inside addr 0x200000 (by decide) (by omega), ← ioPages_add,
            show 0x200000 + (size - 0x200000) = size by omega]
        rw [hpages, ← Set.union_assoc]
        exact (addMap_records h (by omega)).bind Set.subset_union_left fun maps' hmaps =>
          ih (by omega) hmaps (by omega) (by omega)
      rw [if_neg hwhole]
      by_cases hrest : size = 0
      · rw [if_pos hrest, hrest, ioPages_zero, Set.union_empty]
        exact h.records
      · rw [if_neg hrest, ioPages_inside (by omega) (by omega)]
        exact addMap_records h (by omega)

theorem onIomem_records (hfuel : size < fuel) (h : Recorded maps S) (haddr : 0 < addr) (hsize : 0 < size)
    (hb : addr + size < 2 ^ 51) : Records (onIomem fuel maps addr size) (S ∪ ioPages addr size) := by
  induction fuel generalizing maps S addr size with
  | zero => omega
  | succ fuel ih =>
      rw [onIomem]
      dsimp only
      rw [if_neg (Nat.ne_of_gt haddr)]
      by_cases hlow : addr % 0x200000 ≠ 0
      · -- inside a page rounding up comes to the next one, which is the number to record
        have hpg : wsub (wadd addr 0x200000) 1 / 0x200000 = addr / 0x200000 + 1 := by
          rw [wadd_eq (by omega), wsub_eq (by omega) (by omega)]
          omega
        rw [if_pos hlow, hpg, wsub_eq (by omega) (by decide)]
        by_cases hin : 0x200000 - addr % 0x200000 ≥ size
        · rw [if_pos hin, ioPages_inside hsize (by omega)]
          exact addMap_records h (by omega)
        · rw [if_neg hin, wadd_eq (by omega), wsub_eq (by omega) (by omega)]
          generalize hl : 0x200000 - addr % 0x200000 = lowsize at hin ⊢
          have hpages : ioPages addr size =
              {addr / 0x200000} ∪ ioPages (addr + lowsize) (size - lowsize) := by
            rw [← @ioPages_inside addr lowsize (by omega) (by omega), ← ioPages_add,
              show lowsize + (size - lowsize) = size by omega]
          rw [hpages, ← Set.union_assoc]
          exact (addMap_records h (by omega)).bind Set.subset_union_left fun maps' hmaps =>
            ih (by omega) hmaps (by omega) (by omega) (by omega)
      · rw [if_neg hlow]
        exact addPages_records hfuel h (by omega) hb

/-- The pages that overlap one of the ranges. -/
def allIoPages (ranges : List IoRange) : Set Nat := { p | ∃ r ∈ ranges, p ∈ ioPages r.addr r.size }

theorem allIoPages_cons (r : IoRange) (ranges : List IoRange) :
    allIoPages (r :: ranges) = ioPages r.addr r.size ∪ allIoPages ranges := by
  ext p
  simp [allIoPages]

theorem onIomems_records {ranges : List IoRange} (hfuel : ∀ r ∈ ranges, r.size < fuel)
    (hpos : ∀ r ∈ ranges, 0 < r.addr ∧ 0 < r.size) (hb : ∀ r ∈ ranges, r.addr + r.size < 2 ^ 51)
    (h : Recorded maps S) : Records (onIomems fuel maps ranges) (S ∪ allIoPages ranges) := by
  induction ranges generalizing maps S with
  | nil =>
      rw [show allIoPages [] = ∅ by simp [allIoPages], Set.union_empty]
      exact h.records
  | cons r ranges ih =>
      obtain ⟨hfuel, hfuels⟩ := List.forall_mem_cons.1 hfuel
      obtain ⟨hpos, hposs⟩ := List.forall_mem_cons.1 hpos
      obtain ⟨hb, hbs⟩ := List.forall_mem_cons.1 hb
      rw [onIomems, List.foldlM_cons, allIoPages_cons, ← Set.union_assoc]
      exact (onIomem_records hfuel h hpos.1 hpos.2 hb).bind Set.subset_union_left fun maps' hmaps =>
        ih hfuels hposs hbs hmaps

/-- **The recorded pages.** Calls of `on_iomem` record each page that overlaps one of their ranges, and no
    other, once. They panic only where there are over `MAX_IO_REMAPS` of these. -/
theorem onIomems_pages {ranges : List IoRange} (hfuel : ∀ r ∈ ranges, r.size < fuel)
    (hpos : ∀ r ∈ ranges, 0 < r.addr ∧ 0 < r.size) (hb : ∀ r ∈ ranges, r.addr + r.size < 2 ^ 51) :
    (∃ maps, onIomems fuel [] ranges = .ok maps ∧ maps.Nodup ∧
      ∀ e, e ∈ maps ↔ ∃ p ∈ allIoPages ranges, e = p + 1) ∨
    onIomems fuel [] ranges = .error (.panic "MAX_IO_REMAPS too small\n") ∧
      ∃ es : List Nat, es.Nodup ∧ maxIoRemaps < es.length ∧ ∀ e ∈ es, ∃ p ∈ allIoPages ranges, e = p + 1 := by
  have h := onIomems_records hfuel hpos hb recorded_nil
  rw [Set.empty_union] at h
  rcases h with ⟨maps, hok, hmaps⟩ | hfull
  · exact .inl ⟨maps, hok, hmaps.nodup, hmaps.mem⟩
  · exact .inr hfull

/-- Two ranges that share a page. -/
theorem onIomems_pages_shared :
    (∃ maps, onIomems 0x400000 [] [⟨0xc0100000, 0x300000⟩, ⟨0xc0300000, 0x1000⟩] = .ok maps ∧ maps.Nodup ∧
      ∀ e, e ∈ maps ↔ ∃ p ∈ allIoPages [⟨0xc0100000, 0x300000⟩, ⟨0xc0300000, 0x1000⟩], e = p + 1) ∨
    onIomems 0x400000 [] [⟨0xc0100000, 0x300000⟩, ⟨0xc0300000, 0x1000⟩] =
        .error (.panic "MAX_IO_REMAPS too small\n") ∧
      ∃ es : List Nat, es.Nodup ∧ maxIoRemaps < es.length ∧
        ∀ e ∈ es, ∃ p ∈ allIoPages [⟨0xc0100000, 0x300000⟩, ⟨0xc0300000, 0x1000⟩], e = p + 1 :=
  onIomems_pages (by decide) (by decide) (by decide)

end Recorded

end Yaos
