import Yaos.PageTable.SoftWalk

set_option autoImplicit false

/-! # Physical addresses for drivers (`yaos_v2p`)

Above `KERNEL_BASE` and in the direct map the physical address is a difference; anywhere else it is read
from the page tables, by a call through the call table. There `s_v2p` is declared to return an `int`,
and `yaos_v2p` takes the result as an `ulong`: the low half of the physical address arrives, and above it
what the call happens to leave in the register. -/

namespace Yaos

open Word TableTree

/-- The 32 bits of the `int` that `s_v2p` returns. -/
def sV2p (s : PgTables) (addr : Nat) : Nat := getPhyAddr s addr % 2 ^ 32

/-- `upper` is the upper half of the register after the call of `s_v2p`. -/
def yaosV2p (s : PgTables) (upper addr : Nat) : Except Fault Nat :=
  if kernelBase < addr then .ok (K2P addr)
  else if physVirtStart ≤ addr ∧ addr ≤ physVirtEnd then V2P addr
  else .ok (upper * 2 ^ 32 + sV2p s addr)

/-- In one of the two windows that `yaos_v2p` converts without a look at the tables. -/
def InFixedWindow (addr : Nat) : Prop := kernelBase < addr ∨ physVirtStart ≤ addr ∧ addr ≤ physVirtEnd

/-- Outside the windows, `addr` is reached over page directories with pages of 4 KiB and 2 MiB. -/
def PgTables.Walkable (s : PgTables) (addr : Nat) : Prop :=
  InFixedWindow addr ∨ s.OpenAt addr ∧ PdeShape (s.entry (pdePath addr))

/-- A mapping of `addr` to `pa` as `yaos_v2p` takes it to be: at its place in the window, or outside the
    windows with `upper` above the low half of `pa`. -/
def Convertible (upper addr pa : Nat) : Prop :=
  if kernelBase < addr then addr = kernelBase + pa
  else if physVirtStart ≤ addr ∧ addr ≤ physVirtEnd then addr = physVirtStart + pa
  else pa / 2 ^ 32 = upper

instance (upper addr pa : Nat) : Decidable (Convertible upper addr pa) := by
  delta Convertible
  infer_instance

section Walk

variable {s s₀ : PgTables} {upper addr pa : Nat}

theorem pgTables_run_walkable (hinit : s₀.Initial) (run : Relation.ReflTransGen PgStep s₀ s) (addr : Nat) :
    s.Walkable addr := by
  have h := pgTables_run_wellFormed hinit run
  exact .inr ⟨h.upper addr, h.pde addr⟩

/-- **`yaos_v2p` and the page tables.** At a mapped address `yaos_v2p` returns the physical address
    exactly when the mapping is `Convertible`. -/
theorem yaosV2p_eq_iff (hs : s.Sound) (hwalk : s.Walkable addr) (haddr : addr < 2 ^ 64)
    (htr : translate s addr = some pa) (hpa : pa < 2 ^ 52) :
    yaosV2p s upper addr = .ok pa ↔ Convertible upper addr pa := by
  unfold yaosV2p Convertible
  by_cases hkernel : kernelBase < addr
  · have hsub : K2P addr = addr - kernelBase := wsub_eq (Nat.le_of_lt hkernel) haddr
    rw [if_pos hkernel, if_pos hkernel, hsub, Except.ok.injEq]
    omega
  by_cases hdirect : physVirtStart ≤ addr ∧ addr ≤ physVirtEnd
  · rw [if_neg hkernel, if_neg hkernel, if_pos hdirect, if_pos hdirect, V2P_eq hdirect, Except.ok.injEq]
    omega
  · obtain ⟨hopen, hshape⟩ := hwalk.resolve_left (not_or.2 ⟨hkernel, hdirect⟩)
    have hphys : getPhyAddr s addr = pa := (mapPaddrFlagsAt_mapped hs hopen hshape htr (by omega)).1
    rw [if_neg hkernel, if_neg hkernel, if_neg hdirect, if_neg hdirect, sV2p, hphys, Except.ok.injEq]
    omega

end Walk

theorem onePage_initial (a : Nat) : (onePage a).Initial where
  cleared := fun _ => rfl
  root := show 0x1000 < 2 ^ 64 by decide
  frame := by
    intro f hf
    simp only [onePage, List.cons_append, List.nil_append, List.mem_cons, List.not_mem_nil,
      or_false] at hf ⊢
    rcases hf with rfl | rfl | rfl <;> exact ⟨⟨by decide, by decide, by decide⟩, by decide⟩
  nodup := show [0x2000, 0x3000, 0x4000].Nodup by decide

/-- A page in the low 4 GiB, with nothing above the 32 bits of the result. -/
theorem yaosV2p_eq_iff_low : ∃ s, mapPageP2V (onePage 0x5000) 0x200000 0xffffc90000000000 0x83 = .ok (OK, s) ∧
    yaosV2p s 0 0xffffc90000000123 = .ok 0x200123 := by
  obtain ⟨s, hrun, htr⟩ : ∃ s, mapPageP2V (onePage 0x5000) 0x200000 0xffffc90000000000 0x83 = .ok (OK, s) ∧
      translate s 0xffffc90000000123 = some 0x200123 := ⟨_, rfl, by decide⟩
  have step : PgStep (onePage 0x5000) s :=
    .mapPage (by decide) (by decide) (by decide) (by decide) hrun
  have hsound := (pgTables_run_wellFormed (onePage_initial 0x5000) (.single step)).sound
  exact ⟨s, hrun, (yaosV2p_eq_iff hsound (pgTables_run_walkable (onePage_initial 0x5000) (.single step) _)
    (by decide) htr (by decide)).2 (by decide)⟩

/-- The page at 4 GiB: the bit above the 32 bits of the result is lost. -/
theorem yaosV2p_high_page : (onePage 0x5000).Initial ∧
    ∃ s, mapPageP2V (onePage 0x5000) 0x100000000 0xffffc90000000000 0x83 = .ok (OK, s) ∧
      translate s 0xffffc90000000000 = some 0x100000000 ∧
      yaosV2p s 0 0xffffc90000000000 = .ok 0 ∧
      yaosV2p s 0 0xffffc90000000000 ≠ .ok 0x100000000 := by
  refine ⟨onePage_initial 0x5000, _, rfl, by decide, by decide +kernel, ?_⟩
  decide +kernel

end Yaos
