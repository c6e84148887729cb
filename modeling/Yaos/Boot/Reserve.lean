import Yaos.Fault
import Yaos.Lib.Word
import Mathlib.Order.CompletePartialOrder
import Mathlib.Order.Interval.Set.Basic
import Mathlib.Data.Set.Lattice

set_option autoImplicit false

/-! # The reserved ranges (`deal_reserve` in `arch/x86_64/multiboot.c`)

A range of the memory map is passed on to `on_mem` or `on_iomem` without what is recorded in `revmem`. The function
cuts the range at the first record that overlaps it and starts again with what is left on either side. -/

namespace Yaos

open Word

/-- `reserve_addr`. -/
structure ReserveAddr where
  addr : Nat
  size : Nat
deriving DecidableEq, Repr

/-- A call of `on_mem` or of `on_iomem`. -/
inductive RangeCall
  | onMem (addr size : Nat)
  | onIomem (addr size : Nat)
deriving DecidableEq, Repr

/-- `if (ismem) on_mem(addr, size); else on_iomem(addr, size);` -/
def passRange (ismem : Bool) (addr size : Nat) : RangeCall :=
  if ismem then .onMem addr size else .onIomem addr size

/-- The first record that the loop does not skip. -/
def firstOverlap (revmem : List ReserveAddr) (addr size : Nat) : Option ReserveAddr :=
  revmem.find? fun r => ¬ addr ≥ wadd r.addr r.size ∧ ¬ wadd addr size ≤ r.addr

/-- The calls that `deal_reserve` makes, in order, where it gets by with recursion of the depth `fuel`. -/
def dealReserve (revmem : List ReserveAddr) (maxReserveAddr : Nat) (ismem : Bool) :
    Nat → Nat → Nat → Except Fault (List RangeCall)
  | 0, _, _ => .error .hang
  | fuel + 1, addr, size =>
      if addr > maxReserveAddr then .ok [passRange ismem addr size]
      else
        match firstOverlap revmem addr size with
        | none => .ok [passRange ismem addr size]
        | some r =>
            let newaddr := wadd r.addr r.size
            let newsize := wsub (wadd size addr) newaddr
            -- all of it is reserved
            if addr ≥ r.addr ∧ wadd addr size ≤ newaddr then .ok []
            -- the record covers the lower end
            else if addr ≥ r.addr then dealReserve revmem maxReserveAddr ismem fuel newaddr newsize
            else do
              assert "addr <= rev_start" (addr ≤ r.addr)
              let low ← dealReserve revmem maxReserveAddr ismem fuel addr (wsub r.addr addr)
              -- something is left behind the record as well
              if wadd size addr > newaddr then do
                let high ← dealReserve revmem maxReserveAddr ismem fuel newaddr newsize
                .ok (low ++ high)
              else .ok low

/-- The addresses that a call is given. -/
def RangeCall.range : RangeCall → Set Nat
  | .onMem addr size => Set.Ico addr (addr + size)
  | .onIomem addr size => Set.Ico addr (addr + size)

/-- The range is memory, and not that of a device. -/
def RangeCall.ismem : RangeCall → Bool
  | .onMem _ _ => true
  | .onIomem _ _ => false

/-- The addresses that are recorded as reserved. -/
def reservedSet (revmem : List ReserveAddr) : Set Nat :=
  { a | ∃ r ∈ revmem, r.addr ≤ a ∧ a < r.addr + r.size }

/-- The calls share out `S`, each address once. -/
structure SharesOut (ismem : Bool) (calls : List RangeCall) (S : Set Nat) : Prop where
  kind : ∀ c ∈ calls, c.ismem = ismem
  apart : calls.Pairwise fun c d => Disjoint c.range d.range
  union : { a | ∃ c ∈ calls, a ∈ c.range } = S

section Proofs

variable {revmem : List ReserveAddr} {maxReserveAddr addr size : Nat} {ismem : Bool}

theorem passRange_range (ismem : Bool) (addr size : Nat) :
    (passRange ismem addr size).range = Set.Ico addr (addr + size) := by
  cases ismem <;> rfl

theorem passRange_ismem (ismem : Bool) (addr size : Nat) : (passRange ismem addr size).ismem = ismem := by
  cases ismem <;> rfl

theorem sharesOut_nil (ismem : Bool) : SharesOut ismem [] ∅ := ⟨by simp, .nil, by simp⟩

theorem sharesOut_passRange (ismem : Bool) (addr size : Nat) :
    SharesOut ismem [passRange ismem addr size] (Set.Ico addr (addr + size)) := by
  refine ⟨fun c hc => ?_, List.pairwise_singleton _ _, ?_⟩
  · rw [List.mem_singleton.1 hc, passRange_ismem]
  · ext a
    simp [passRange_range]

theorem SharesOut.append {low high : List RangeCall} {S T : Set Nat} (h : SharesOut ismem low S)
    (h' : SharesOut ismem high T) (hd : Disjoint S T) : SharesOut ismem (low ++ high) (S ∪ T) := by
  refine ⟨fun c hc => ?_, List.pairwise_append.2 ⟨h.apart, h'.apart, fun c hc d hd' => ?_⟩, ?_⟩
  · exact (List.mem_append.1 hc).elim (h.kind c) (h'.kind c)
  · refine Set.disjoint_of_subset ?_ ?_ hd
    · rw [← h.union]
      exact fun a ha => ⟨c, hc, ha⟩
    · rw [← h'.union]
      exact fun a ha => ⟨d, hd', ha⟩
  · rw [← h.union, ← h'.union]
    ext a
    simp only [Set.mem_ofPred_eq, Set.mem_union, List.mem_append, or_and_right, exists_or]

/-- A record that the range does not reach takes nothing of it. -/
theorem sdiff_reserved_of_apart (h : ∀ r ∈ revmem, r.addr + r.size ≤ addr ∨ addr + size ≤ r.addr) :
    Set.Ico addr (addr + size) \ reservedSet revmem = Set.Ico addr (addr + size) := by
  ext a
  refine ⟨fun ha => ha.1, fun ha => ⟨ha, ?_⟩⟩
  rintro ⟨r, hr, hlow, hhigh⟩
  have := ha.1
  have := ha.2
  rcases h r hr with hle | hle <;> omega

theorem firstOverlap_none (hend : ∀ r ∈ revmem, r.addr + r.size < 2 ^ 64) (hb : addr + size < 2 ^ 64)
    (h : firstOverlap revmem addr size = none) :
    ∀ r ∈ revmem, r.addr + r.size ≤ addr ∨ addr + size ≤ r.addr := by
  intro r hr
  have hskip := List.find?_eq_none.1 h r hr
  rw [wadd_eq (hend r hr), wadd_eq hb] at hskip
  simp only [decide_eq_true_eq] at hskip
  omega

theorem firstOverlap_some (hend : ∀ r ∈ revmem, r.addr + r.size < 2 ^ 64) (hb : addr + size < 2 ^ 64)
    {r : ReserveAddr} (h : firstOverlap revmem addr size = some r) :
    r ∈ revmem ∧ addr < r.addr + r.size ∧ r.addr < addr + size := by
  have hr := List.mem_of_find?_eq_some h
  have hstop := List.find?_some h
  rw [wadd_eq (hend r hr), wadd_eq hb] at hstop
  simp only [decide_eq_true_eq] at hstop
  exact ⟨hr, by omega, by omega⟩

/-- What a record that the range reaches leaves of it lies on either side of the record. -/
theorem sdiff_reserved_of_overlap {r : ReserveAddr} (hr : r ∈ revmem) (hlow : addr < r.addr + r.size)
    (hhigh : r.addr < addr + size) :
    Set.Ico addr (addr + size) \ reservedSet revmem =
      Set.Ico addr r.addr \ reservedSet revmem ∪
        Set.Ico (r.addr + r.size) (addr + size) \ reservedSet revmem := by
  rw [← Set.union_sdiff_distrib]
  ext a
  refine and_congr_left fun hres => ⟨fun ha => ?_, ?_⟩
  · have hout : ¬ (r.addr ≤ a ∧ a < r.addr + r.size) := fun hin => hres ⟨r, hr, hin⟩
    have := ha.1
    have := ha.2
    by_cases hlt : a < r.addr
    · exact .inl ⟨ha.1, hlt⟩
    · exact .inr ⟨by omega, ha.2⟩
  · rintro (ha | ha)
    · exact ⟨ha.1, ha.2.trans hhigh⟩
    · exact ⟨Nat.le_trans (Nat.le_of_lt hlow) ha.1, ha.2⟩

/-- **The reserved ranges are taken out exactly.** With recursion of a depth above the size of the range the
    function returns. The ranges it passes on share no address, and they are the range without what is
    reserved. -/
theorem dealReserve_exact (hmax : maxReserveAddr < 2 ^ 64)
    (hend : ∀ r ∈ revmem, r.addr + r.size ≤ maxReserveAddr) (ismem : Bool) {fuel : Nat}
    (hb : addr + size < 2 ^ 64) (hfuel : size < fuel) :
    ∃ calls, dealReserve revmem maxReserveAddr ismem fuel addr size = .ok calls ∧
      SharesOut ismem calls (Set.Ico addr (addr + size) \ reservedSet revmem) := by
  have hend' : ∀ r ∈ revmem, r.addr + r.size < 2 ^ 64 := fun r hr => Nat.lt_of_le_of_lt (hend r hr) hmax
  -- on the depth: what is left on either side of the record is a shorter range
  induction fuel generalizing addr size with
  | zero => omega
  | succ fuel ih =>
      rw [dealReserve]
      by_cases habove : addr > maxReserveAddr
      · have hbelow : ∀ r ∈ revmem, r.addr + r.size ≤ addr := fun r hr =>
          Nat.le_of_lt (Nat.lt_of_le_of_lt (hend r hr) habove)
        rw [if_pos habove, sdiff_reserved_of_apart fun r hr => .inl (hbelow r hr)]
        exact ⟨_, rfl, sharesOut_passRange ismem addr size⟩
      rw [if_neg habove]
      cases hfind : firstOverlap revmem addr size with
      | none =>
          rw [sdiff_reserved_of_apart (firstOverlap_none hend' hb hfind)]
          exact ⟨_, rfl, sharesOut_passRange ismem addr size⟩
      | some r =>
          obtain ⟨hr, hlow, hhigh⟩ := firstOverlap_some hend' hb hfind
          have hrend := hend' r hr
          have htotal : wadd size addr = addr + size := by rw [wadd_eq (by omega), Nat.add_comm]
          dsimp only
          rw [wadd_eq hrend, wadd_eq hb, htotal]
          rw [sdiff_reserved_of_overlap hr hlow hhigh]
          by_cases hin : addr ≥ r.addr ∧ addr + size ≤ r.addr + r.size
          · rw [if_pos hin, Set.Ico_eq_empty (by omega), Set.Ico_eq_empty (by omega), Set.empty_sdiff,
              Set.empty_union]
            exact ⟨[], rfl, sharesOut_nil ismem⟩
          rw [if_neg hin]
          by_cases hinside : addr ≥ r.addr
          · -- the record covers the lower end
            rw [if_pos hinside, wsub_eq (by omega) (by omega), Set.Ico_eq_empty (by omega), Set.empty_sdiff,
              Set.empty_union]
            obtain ⟨calls, hok, hshares⟩ := @ih (r.addr + r.size) (addr + size - (r.addr + r.size))
              (by omega) (by omega)
            rw [show r.addr + r.size + (addr + size - (r.addr + r.size)) = addr + size by omega] at hshares
            exact ⟨calls, hok, hshares⟩
          rw [if_neg hinside, wsub_eq (by omega) (by omega), assert_bind (by omega)]
          obtain ⟨low, hoklow, hslow⟩ := @ih addr (r.addr - addr) (by omega) (by omega)
          rw [show addr + (r.addr - addr) = r.addr by omega] at hslow
          rw [hoklow, ok_bind]
          by_cases hrest : addr + size > r.addr + r.size
          · -- something is left on either side of the record
            obtain ⟨high, hokhigh, hshigh⟩ := @ih (r.addr + r.size) (addr + size - (r.addr + r.size))
              (by omega) (by omega)
            rw [show r.addr + r.size + (addr + size - (r.addr + r.size)) = addr + size by omega] at hshigh
            rw [if_pos hrest, wsub_eq (by omega) (by omega), hokhigh, ok_bind]
            refine ⟨_, rfl, hslow.append hshigh (Set.disjoint_left.2 fun a ha ha' => ?_)⟩
            have := ha.1.2
            have := ha'.1.1
            omega
          · rw [if_neg hrest, Set.Ico_eq_empty (a := r.addr + r.size) (by omega), Set.empty_sdiff, Set.union_empty]
            exact ⟨_, rfl, hslow⟩

/-- Two records that overlap, and a range around them. -/
theorem dealReserve_exact_overlap : ∃ calls,
    dealReserve [⟨0x3000, 0x3000⟩, ⟨0x2000, 0x2000⟩] 0x6000 true 0x9001 0 0x9000 = .ok calls ∧
    SharesOut true calls (Set.Ico 0 (0 + 0x9000) \ reservedSet [⟨0x3000, 0x3000⟩, ⟨0x2000, 0x2000⟩]) :=
  dealReserve_exact (by decide) (by decide) true (by decide) (by decide)

end Proofs

end Yaos
