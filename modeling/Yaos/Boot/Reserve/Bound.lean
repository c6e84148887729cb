import Yaos.Boot.Reserve
import Yaos.DirectMap
import Yaos.Lib.Run

set_option autoImplicit false

/-! # The end of the reserved ranges (`add_reserve` in `arch/x86_64/multiboot.c`)

`deal_reserve` does not look at the records for a range above `max_reserve_addr`. `add_reserve` compares the
address in the kernel's space with it, and then stores the physical one. -/

namespace Yaos

open Word

/-- `MAX_REVERSE`: as many ranges can be recorded. -/
def maxReverse : Nat := 10

/-- `revmem`, with `reserved_nr` records, and `max_reserve_addr`. -/
structure Reserves where
  revmem : List ReserveAddr
  maxReserveAddr : Nat

/-- Before the first call. -/
def noReserves : Reserves where
  revmem := []
  maxReserveAddr := 0

/-- `add_reserve`. -/
def addReserve (s : Reserves) (r : ReserveAddr) : Except Fault Reserves :=
  if s.revmem.length ≥ maxReverse then .error (.panic "MAX_REVERSE too small")
  else .ok
    { revmem := s.revmem ++ [r]
      maxReserveAddr :=
        if wadd (P2K r.addr) r.size > s.maxReserveAddr then wadd r.addr r.size else s.maxReserveAddr }

/-- A range that does not wrap around. -/
structure FitRange extends ReserveAddr where
  fits : addr + size < 2 ^ 64

/-- A sequence of calls. -/
def addReserves (rs : List FitRange) : Except Fault Reserves :=
  rs.foldlM (fun s r => addReserve s r.toReserveAddr) noReserves

/-- No record ends above `max_reserve_addr`, and a range above it is passed on whole since nothing of it is
    reserved. -/
structure ReserveBound (s : Reserves) : Prop where
  covers : ∀ r ∈ s.revmem, r.addr + r.size ≤ s.maxReserveAddr
  shortcut : ∀ ismem fuel addr size, s.maxReserveAddr < addr →
    dealReserve s.revmem s.maxReserveAddr ismem (fuel + 1) addr size = .ok [passRange ismem addr size] ∧
      Disjoint (Set.Ico addr (addr + size)) (reservedSet s.revmem)

/-- A range that ends below 2G becomes the last one, so it has to end at the bound or above it (if the bound
    is not in the kernel's space itself); one that ends higher up is not looked at before it is 2G above the
    bound. -/
def Reserves.InOrder (s : Reserves) (r : FitRange) : Prop :=
  if r.addr + r.size < 0x80000000 then
    s.maxReserveAddr ≤ r.addr + r.size ∨ kernelBase + (r.addr + r.size) ≤ s.maxReserveAddr
  else r.addr + r.size ≤ s.maxReserveAddr ∨ s.maxReserveAddr + 0x80000000 < r.addr + r.size

instance (s : Reserves) (r : FitRange) : Decidable (s.InOrder r) :=
  inferInstanceAs (Decidable (ite _ _ _))

section Bound

variable {s s' : Reserves} {r : FitRange}

/-- The end of the range in the kernel's space, which wraps for a range that ends at 2G or above. -/
theorem kernel_end (r : FitRange) : wadd (P2K r.addr) r.size =
    if r.addr + r.size < 0x80000000 then kernelBase + (r.addr + r.size) else r.addr + r.size - 0x80000000 := by
  have hfits := r.fits
  unfold P2K wadd kernelBase
  split <;> omega

theorem addReserve_cases (h : addReserve s r.toReserveAddr = .ok s') :
    s'.revmem = s.revmem ++ [r.toReserveAddr] ∧
      (s.maxReserveAddr < wadd (P2K r.addr) r.size ∧ s'.maxReserveAddr = r.addr + r.size ∨
        wadd (P2K r.addr) r.size ≤ s.maxReserveAddr ∧ s'.maxReserveAddr = s.maxReserveAddr) := by
  rw [addReserve] at h
  split at h
  case isTrue => cases h
  case isFalse =>
      obtain rfl := Except.ok.inj h
      refine ⟨rfl, ?_⟩
      dsimp only
      split
      case isTrue htaken => exact .inl ⟨htaken, wadd_eq r.fits⟩
      case isFalse hkept => exact .inr ⟨Nat.le_of_not_lt hkept, rfl⟩

/-- What a bound that covers all records does to the shortcut. -/
theorem ReserveBound.of_covers (h : ∀ r ∈ s.revmem, r.addr + r.size ≤ s.maxReserveAddr) : ReserveBound s := by
  refine ⟨h, fun ismem fuel addr size habove => ⟨?_, Set.disjoint_left.2 ?_⟩⟩
  · rw [dealReserve, if_pos habove]
  · rintro a ⟨hle, -⟩ ⟨r, hr, -, hlt⟩
    have := h r hr
    omega

/-- The bound is the end of a record, and no record ends above it. -/
structure Topped (s : Reserves) : Prop where
  covers : ∀ r ∈ s.revmem, r.addr + r.size ≤ s.maxReserveAddr
  reached : s.maxReserveAddr ≠ 0 → ∃ r ∈ s.revmem, r.addr + r.size = s.maxReserveAddr

theorem topped_noReserves : Topped noReserves := ⟨fun r hr => (by cases hr), fun h => absurd rfl h⟩

/-- A range that is in order moves the bound up, or is covered by it. -/
theorem Topped.step (h : Topped s) (hstep : addReserve s r.toReserveAddr = .ok s') (hin : s.InOrder r) :
    Topped s' := by
  obtain ⟨hrevmem, hmax⟩ := addReserve_cases hstep
  rw [Reserves.InOrder] at hin
  rw [kernel_end] at hmax
  have hmem : ∀ x, x ∈ s'.revmem ↔ x ∈ s.revmem ∨ x = r.toReserveAddr := by
    intro x
    rw [hrevmem, List.mem_append, List.mem_singleton]
  rcases hmax with ⟨htaken, hnew⟩ | ⟨hkept, hold⟩
  · have hup : s.maxReserveAddr ≤ r.addr + r.size := by
      split at hin <;> split at htaken <;> omega
    refine ⟨fun x hx => ?_, fun _ => ⟨r.toReserveAddr, (hmem _).2 (.inr rfl), hnew.symm⟩⟩
    rw [hnew]
    rcases (hmem x).1 hx with hx | rfl
    · exact Nat.le_trans (h.covers x hx) hup
    · exact Nat.le_refl _
  · have hcovered : r.addr + r.size ≤ s.maxReserveAddr := by
      split at hin <;> split at hkept <;> omega
    refine ⟨fun x hx => ?_, fun hpos => ?_⟩
    · rw [hold]
      rcases (hmem x).1 hx with hx | rfl
      · exact h.covers x hx
      · exact hcovered
    · rw [hold] at hpos ⊢
      obtain ⟨x, hx, hend⟩ := h.reached hpos
      exact ⟨x, (hmem x).2 (.inl hx), hend⟩

/-- Any other range leaves a record that ends above the bound: the one that had reached it, or itself. -/
theorem Topped.inOrder (h : Topped s) (hstep : addReserve s r.toReserveAddr = .ok s') (hgood : ReserveBound s') :
    s.InOrder r := by
  obtain ⟨hrevmem, hmax⟩ := addReserve_cases hstep
  rw [kernel_end] at hmax
  rw [Reserves.InOrder]
  rcases hmax with ⟨htaken, hnew⟩ | ⟨hkept, hold⟩
  · -- the record that had reached the bound is still there
    have hup : s.maxReserveAddr ≤ r.addr + r.size := by
      by_cases hzero : s.maxReserveAddr = 0
      · exact hzero ▸ Nat.zero_le _
      · obtain ⟨x, hx, hend⟩ := h.reached hzero
        rw [← hend, ← hnew]
        exact hgood.covers x (hrevmem ▸ List.mem_append_left _ hx)
    split at htaken <;> split <;> omega
  · have hcovered : r.addr + r.size ≤ s.maxReserveAddr :=
      hold ▸ hgood.covers r.toReserveAddr (hrevmem ▸ List.mem_append_right _ List.mem_cons_self)
    split at hkept <;> split <;> omega

/-- `init_e820` records the low 64K and then the kernel, which is above them and below 2G. -/
theorem initE820_bound (hend : 0x10000 ≤ r.addr + r.size) (hlow : r.addr + r.size < 0x80000000) :
    ∃ s, addReserves [⟨⟨0, 0x10000⟩, by decide⟩, r] = .ok s ∧ ReserveBound s := by
  let low : Reserves := ⟨[⟨0, 0x10000⟩], 0x10000⟩
  have hfirst : addReserve noReserves ⟨0, 0x10000⟩ = .ok low := rfl
  obtain ⟨s, hsecond⟩ : ∃ s, addReserve low r.toReserveAddr = .ok s := ⟨_, if_neg (by decide)⟩
  have htopped : Topped low :=
    topped_noReserves.step (r := ⟨⟨0, 0x10000⟩, by decide⟩) hfirst (by decide)
  have hin : low.InOrder r := by
    rw [Reserves.InOrder, if_pos hlow]
    exact .inl hend
  refine ⟨s, ?_, .of_covers (htopped.step hsecond hin).covers⟩
  exact Run.cons_eq_ok.2 ⟨low, hfirst, Run.cons_eq_ok.2 ⟨s, hsecond, rfl⟩⟩

end Bound

/-- **The bound of the reserved ranges.** It covers all of them after each call of `add_reserve` exactly when
    each range is recorded in order. -/
theorem reserve_bound_iff (rs : List FitRange) :
    (∀ done, done <+: rs → ∀ s, addReserves done = .ok s → ReserveBound s) ↔
      Run.AllSafe (fun s r => addReserve s r.toReserveAddr) Reserves.InOrder noReserves rs :=
  Run.good_iff_allSafe (fun _ h => .of_covers h.covers) (fun _ _ _ h hstep hin => h.step hstep hin)
    (fun _ _ _ h hstep hgood => h.inOrder hstep hgood) topped_noReserves

/-- The low memory is recorded after the kernel, and the kernel's memory is handed to the allocator. -/
theorem reserve_not_bound : ∃ s,
    addReserves [⟨⟨0x100000, 0x400000⟩, by decide⟩, ⟨⟨0, 0x10000⟩, by decide⟩] = .ok s ∧ ¬ ReserveBound s ∧
      dealReserve s.revmem s.maxReserveAddr true 1 0x100000 0x400000 = .ok [.onMem 0x100000 0x400000] := by
  refine ⟨⟨[⟨0x100000, 0x400000⟩, ⟨0, 0x10000⟩], 0x10000⟩, rfl, fun h => ?_, rfl⟩
  have hkernel := h.covers ⟨0x100000, 0x400000⟩ List.mem_cons_self
  exact absurd hkernel (by decide)

end Yaos
