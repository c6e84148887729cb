import Yaos.Stack
import Yaos.Alloc.LinearZone.Blocks
import Yaos.Lib.Run
import Mathlib.Data.List.Pairwise

set_option autoImplicit false

/-! # The guards below the stacks

The range test of `check_stack` includes the first address behind a stack. Stacks never overlap, and
each has its guard inside the range the zone gave it, so that one address is all that can go wrong: a
stack whose size is a multiple of 2 MiB may end where the guard of the next one begins. -/

namespace Yaos

open Word HolePool

/-- The 2 MiB below a stack. -/
def StackRange.guard (r : StackRange) : Set Nat := Set.Ico (r.start - 0x200000) r.start

/-- The addresses of a stack, as far as there are such addresses. -/
def StackRange.range (r : StackRange) : Set Nat := { a | a < 2 ^ 64 ∧ r.start ≤ a ∧ a < r.start + r.size }

/-- No guard is on a stack for `check_stack`, so the page fault handler does not come back from a fault
    there, and every address of a stack is. -/
structure StackRun.Guarded (st : StackRun) : Prop where
  unbacked : ∀ r ∈ st.live, ∀ a ∈ r.guard, checkStack st.kernel a = false ∧
    ∀ f paddr s', f.cr2 = a → pageFaultHandler st.kernel f paddr ≠ .ok s'
  found : ∀ r ∈ st.live, ∀ a ∈ r.range, checkStack st.kernel a = true

/-- The hole that a stack of `size` bytes is cut from. -/
def Stacks.holeFor (s : Stacks) (size : Nat) : Option (Option Nat) :=
  firstFit linearHoles s.zone.pool (roundUp 0x200000 (wadd size 0x200000))

/-- The top page of a stack of `size` bytes above a guard at `base` gets mapped. -/
def Stacks.TopMapped (s : Stacks) (base size : Nat) : Prop :=
  ∃ tables, mapAllocAt s.tables (wsub (wadd (wadd base 0x200000) size) 0x1000) 0x1000
    mapFlagsStack = .ok (OK, tables)

/-- A stack that gets its memory is smaller than 4 GiB, no stack ends where the hole it is cut from
    begins, and no guard begins where it ends. -/
def StackStep.Clear (st : StackRun) : StackStep → Prop
  | .create size _ _ => ∀ i, st.kernel.holeFor size = some (some i) →
      st.kernel.TopMapped (st.kernel.zone.pool.nodes i).addr size →
      size < 2 ^ 32 ∧ ∀ r ∈ st.live, r.start + r.size ≠ (st.kernel.zone.pool.nodes i).addr ∧
        (st.kernel.zone.pool.nodes i).addr + 0x200000 + size ≠ r.start - 0x200000
  | .fault .. => True

/-! ## The zone under the stacks -/

/-- `KERNEL_STACK_ZONE_END + 1`. -/
def kernelStackZoneEnd : Nat := kernelStackZoneStart + kernelStackZoneSize

theorem kernelStackZoneEnd_lt : kernelStackZoneEnd + 2 ^ 40 < 2 ^ 64 := by decide

/-- The lists of the zone are in order, and no hole has an address of `busy`. -/
def ZoneOff (z : LinearZone) (busy : Set Nat) : Prop :=
  ∃ free holes recs, ZoneRep z free holes recs ∧
    ZoneHoles kernelStackZoneStart kernelStackZoneEnd z.pool holes ∧
    Disjoint busy (z.pool.cover holes)

/-- What `alloc_linear` does for a stack: there is no hole that fits, or the block is the front of the
    first one that does. -/
theorem ZoneOff.alloc {z z' : LinearZone} {busy : Set Nat} {size p : Nat} (h : ZoneOff z busy)
    (hok : allocLinearZoneImpl z 0 size = .ok (p, z')) :
    (p = 0 ∧ (∀ i, firstFit linearHoles z.pool (roundUp 0x200000 size) ≠ some (some i)) ∧
      ZoneOff z' busy) ∨
    ∃ i, firstFit linearHoles z.pool (roundUp 0x200000 size) = some (some i) ∧
      p = (z.pool.nodes i).addr ∧ kernelStackZoneStart ≤ p ∧
      p + roundUp 0x200000 size ≤ kernelStackZoneEnd ∧
      Disjoint busy (Set.Ico p (p + roundUp 0x200000 size)) ∧
      ZoneOff z' (busy ∪ Set.Ico p (p + roundUp 0x200000 size)) :=
  OffHoles.alloc h (by decide) hok

theorem ZoneOff.free {z z' : LinearZone} {busy : Set Nat} {p size : Nat}
    (h : ZoneOff z (busy ∪ Set.Ico p (p + roundUp 0x200000 size)))
    (hd : Disjoint busy (Set.Ico p (p + roundUp 0x200000 size))) (hlo : kernelStackZoneStart ≤ p)
    (hhi : p + roundUp 0x200000 size ≤ kernelStackZoneEnd)
    (hok : freeLinearZone z p size = .ok z') : ZoneOff z' busy :=
  OffHoles.free h hd (by decide) hlo hhi hok

/-! ## What one call does -/

/-- The addresses that the zone gives out for a stack of `size` bytes with its guard at `base`. -/
def stackBlock (base size : Nat) : Set Nat :=
  Set.Ico base (base + roundUp 0x200000 (wadd size 0x200000))

/-- The stack of `size` bytes over a guard at `base`, the front of the hole `i`, got its memory. -/
structure Allocated (s : Stacks) (busy : Set Nat) (size i base : Nat) : Prop where
  hole : s.holeFor size = some (some i)
  base_eq : base = (s.zone.pool.nodes i).addr
  mapped : s.TopMapped base size
  low : kernelStackZoneStart ≤ base
  high : base + roundUp 0x200000 (wadd size 0x200000) ≤ kernelStackZoneEnd
  unused : Disjoint busy (stackBlock base size)

theorem allocVmStack_cases {s s' : Stacks} {busy : Set Nat} {size addr : Nat}
    (h : ZoneOff s.zone busy) (hok : allocVmStack s size = .ok (addr, s')) :
    s'.owners = s.owners ∧
      ((addr = 0 ∧ ZoneOff s'.zone busy ∧ ∀ i, s.holeFor size = some (some i) →
          ¬ s.TopMapped (s.zone.pool.nodes i).addr size) ∨
        ∃ i base, Allocated s busy size i base ∧ addr = base + 0x200000 ∧
          ZoneOff s'.zone (busy ∪ stackBlock base size)) := by
  obtain ⟨⟨p, zone⟩, halloc, hok⟩ := bind_eq_ok.1 hok
  have hend := kernelStackZoneEnd_lt
  rcases h.alloc halloc with ⟨rfl, hnone, hoff⟩ | ⟨i, hhole, hp, hlo, hhi, hd, hoff⟩
  · simp only [if_true, Except.ok.injEq, Prod.mk.injEq] at hok
    obtain ⟨rfl, rfl⟩ := hok
    exact ⟨rfl, .inl ⟨rfl, hoff, fun i hi => absurd hi (hnone i)⟩⟩
  · have hpos : p ≠ 0 := by
      have : 0 < kernelStackZoneStart := by decide
      omega
    have haddr : wadd p 0x200000 = p + 0x200000 := wadd_eq (by omega)
    simp only [if_neg hpos] at hok
    obtain ⟨⟨ret, tables⟩, hmap, hok⟩ := bind_eq_ok.1 hok
    by_cases hret : ret = OK
    · subst hret
      simp only [ne_eq, not_true, if_false, haddr] at hok
      obtain ⟨rfl, rfl⟩ := Prod.mk.inj (Except.ok.inj hok)
      exact ⟨rfl, .inr ⟨i, p, ⟨hhole, hp, ⟨tables, hmap⟩, hlo, hhi, hd⟩, rfl, hoff⟩⟩
    · -- the top page could not be mapped, and the range goes back to the zone
      simp only [if_pos hret] at hok
      obtain ⟨zone', hfree, hok⟩ := bind_eq_ok.1 hok
      obtain ⟨rfl, rfl⟩ := Prod.mk.inj (Except.ok.inj hok)
      have hback : wsub (wadd p 0x200000) 0x200000 = p := by
        rw [haddr, wsub_eq (by omega) (by omega)]
        omega
      rw [hback] at hfree
      refine ⟨rfl, .inl ⟨rfl, hoff.free hd hlo hhi hfree, fun j hj ⟨tables', hmap'⟩ => hret ?_⟩⟩
      obtain rfl : i = j := Option.some.inj (Option.some.inj (hhole.symm.trans hj))
      rw [← hp] at hmap'
      exact (Prod.mk.inj (Except.ok.inj (hmap.symm.trans hmap'))).1

theorem registerStack_eq {s s' : Stacks} {start end_ cpu : Nat} {name : String}
    (hok : registerStack s start end_ name cpu = .ok s') :
    s'.zone = s.zone ∧ s'.owners = ⟨start, wsub end_ start % 2 ^ 32, cpu, name⟩ :: s.owners := by
  obtain ⟨-, hok⟩ := assert_bind_eq_ok.1 hok
  obtain rfl := Except.ok.inj hok
  exact ⟨rfl, rfl⟩

theorem pageFaultHandler_eq {s s' : Stacks} {f : PageFault} {paddr : Nat}
    (hok : pageFaultHandler s f paddr = .ok s') :
    checkStack s f.cr2 = true ∧ s'.zone = s.zone ∧ s'.owners = s.owners := by
  have hmap : mapPage s f.cr2 paddr = .ok s' → s'.zone = s.zone ∧ s'.owners = s.owners := by
    intro hmap
    unfold mapPage at hmap
    split at hmap
    · cases hmap
    · obtain ⟨r, -, hmap⟩ := bind_eq_ok.1 hmap
      obtain rfl := Except.ok.inj hmap
      exact ⟨rfl, rfl⟩
  unfold pageFaultHandler at hok
  split at hok
  · cases hok
  · split at hok
    · rename_i hcheck
      exact ⟨hcheck.2, hmap hok⟩
    · obtain ⟨-, hok⟩ := assert_bind_eq_ok.1 hok
      split at hok
      · rename_i hcheck
        exact ⟨hcheck, hmap hok⟩
      · cases hok

/-! ## The invariant -/

/-- A stack and its guard. -/
def StackRange.span (r : StackRange) : Set Nat := Set.Ico (r.start - 0x200000) (r.start + r.size)

/-- The addresses of the ranges that have not been given back. -/
def StackRun.busy (st : StackRun) : Set Nat := { a | ∃ r ∈ st.live, a ∈ r.span }

/-- There is at least one byte between one of the stacks and the guard of the other. -/
def StackRange.Spaced (r r' : StackRange) : Prop :=
  r.start + r.size + 0x200000 < r'.start ∨ r'.start + r'.size + 0x200000 < r.start

instance : Std.Symm StackRange.Spaced := ⟨fun _ _ h => h.symm⟩

/-- The stacks lie in the zone with their guards and are registered as they are. -/
structure StackRun.Spaced (st : StackRun) : Prop where
  zone : ZoneOff st.kernel.zone st.busy
  owners : st.kernel.owners.map (fun o => ⟨o.start, o.size⟩) = st.live
  inside : ∀ r ∈ st.live, kernelStackZoneStart + 0x200000 ≤ r.start ∧
    r.start + r.size ≤ kernelStackZoneEnd ∧ r.size < 2 ^ 32
  spaced : st.live.Pairwise StackRange.Spaced

variable {st st' : StackRun}

theorem StackOwner.holds_iff {o : StackOwner} {a : Nat} (h : o.start + o.size < 2 ^ 64) :
    o.holds a = true ↔ o.start ≤ a ∧ a ≤ o.start + o.size := by
  rw [StackOwner.holds, wadd_eq h, Bool.and_eq_true, decide_eq_true_eq, decide_eq_true_eq]

theorem StackRun.Spaced.checkStack_iff (h : st.Spaced) {a : Nat} :
    checkStack st.kernel a = true ↔ ∃ r ∈ st.live, r.start ≤ a ∧ a ≤ r.start + r.size := by
  have hend := kernelStackZoneEnd_lt
  have hmem : ∀ o ∈ st.kernel.owners, (⟨o.start, o.size⟩ : StackRange) ∈ st.live := fun o ho =>
    h.owners ▸ List.mem_map_of_mem ho
  have hholds : ∀ o ∈ st.kernel.owners, (o.holds a = true ↔ o.start ≤ a ∧ a ≤ o.start + o.size) := by
    intro o ho
    obtain ⟨-, hin, -⟩ := h.inside _ (hmem o ho)
    simp only at hin
    exact StackOwner.holds_iff (by omega)
  rw [checkStack, List.any_eq_true]
  constructor
  · rintro ⟨o, ho, ha⟩
    exact ⟨_, hmem o ho, (hholds o ho).1 ha⟩
  · rintro ⟨r, hr, ha⟩
    rw [← h.owners] at hr
    obtain ⟨o, ho, rfl⟩ := List.mem_map.1 hr
    exact ⟨o, ho, (hholds o ho).2 ha⟩

theorem StackRun.Spaced.guarded (h : st.Spaced) : st.Guarded where
  unbacked r hr a ha := by
    obtain ⟨hlow, hhigh⟩ := ha
    have hno : ¬ checkStack st.kernel a = true := by
      rw [h.checkStack_iff]
      rintro ⟨r', hr', hge, hle⟩
      by_cases he : r' = r
      · subst he
        omega
      · have hin := (h.inside r hr).1
        have hspaced : r'.Spaced r := h.spaced.forall hr' hr he
        unfold StackRange.Spaced at hspaced
        omega
    refine ⟨by simpa using hno, fun f paddr s' hf hok => hno ?_⟩
    rw [← hf]
    exact (pageFaultHandler_eq hok).1
  found r hr a ha := h.checkStack_iff.2 ⟨r, hr, ha.2.1, ha.2.2.le⟩

/-- The block has room for the guard and the stack. -/
theorem stackBlock_ge {size : Nat} (h : size + 0x3fffff < 2 ^ 64) :
    size + 0x200000 ≤ roundUp 0x200000 (wadd size 0x200000) := by
  have hsum : wadd size 0x200000 = size + 0x200000 := wadd_eq (by omega)
  have hround := roundUp_2M_eq (n := wadd size 0x200000) (by omega)
  omega

/-- A block that was in the holes is off every stack and its guard. -/
theorem StackRun.off_of_disjoint {base size : Nat}
    (hd : Disjoint st.busy (stackBlock base size)) (hsize : size + 0x3fffff < 2 ^ 64)
    {r : StackRange} (hr : r ∈ st.live) :
    r.start + r.size ≤ base ∨ base + 0x200000 + size + 0x200000 ≤ r.start := by
  have hge := stackBlock_ge hsize
  by_contra hmeet
  have hspan : max base (r.start - 0x200000) ∈ r.span := ⟨by omega, by omega⟩
  exact Set.disjoint_left.1 hd ⟨r, hr, hspan⟩ ⟨by omega, by omega⟩

/-- What creating a stack does: nothing is handed out, or one stack is, and it is registered. -/
theorem StackRun.Spaced.create_cases (h : st.Spaced) {size cpu : Nat} {name : String}
    (hok : st.create size name cpu = .ok st') :
    (st'.live = st.live ∧ st'.kernel.owners = st.kernel.owners ∧ ZoneOff st'.kernel.zone st.busy ∧
      ∀ i, st.kernel.holeFor size = some (some i) →
        ¬ st.kernel.TopMapped (st.kernel.zone.pool.nodes i).addr size) ∨
    ∃ i base, Allocated st.kernel st.busy size i base ∧
      ZoneOff st'.kernel.zone (st.busy ∪ stackBlock base size) ∧
      st'.live = ⟨base + 0x200000, size⟩ :: st.live ∧
      st'.kernel.owners = ⟨base + 0x200000, size % 2 ^ 32, cpu, name⟩ :: st.kernel.owners := by
  have hend := kernelStackZoneEnd_lt
  obtain ⟨⟨addr, s⟩, halloc, hok⟩ := bind_eq_ok.1 hok
  obtain ⟨hsame, ⟨rfl, hoff, hnone⟩ | ⟨i, base, ha, rfl, hoff⟩⟩ := allocVmStack_cases h.zone halloc
  · simp only [if_true] at hok
    obtain rfl := Except.ok.inj hok
    exact .inl ⟨rfl, hsame, hoff, hnone⟩
  · simp only [Nat.add_eq_zero_iff, OfNat.ofNat_ne_zero, and_false, if_false] at hok
    obtain ⟨s', hreg, hok⟩ := bind_eq_ok.1 hok
    obtain rfl := Except.ok.inj hok
    obtain ⟨hzone, howners⟩ := registerStack_eq hreg
    have hhigh := ha.high
    have hsize : wsub (wadd (base + 0x200000) size) (base + 0x200000) % 2 ^ 32 = size % 2 ^ 32 := by
      unfold wsub wadd
      omega
    refine .inr ⟨i, base, ha, ?_, rfl, ?_⟩
    · simp only [hzone]
      exact hoff
    · simp only [howners, hsize, hsame]

/-- Nothing that stacks depend on changes. -/
theorem StackRun.Spaced.congr (h : st.Spaced) (hlive : st'.live = st.live)
    (howners : st'.kernel.owners = st.kernel.owners) (hzone : ZoneOff st'.kernel.zone st.busy) :
    st'.Spaced := by
  have hbusy : st'.busy = st.busy := by simp only [StackRun.busy, hlive]
  refine ⟨hbusy ▸ hzone, ?_, ?_, ?_⟩
  · rw [howners, hlive]
    exact h.owners
  · rw [hlive]
    exact h.inside
  · rw [hlive]
    exact h.spaced

/-- One more stack, smaller than 4 GiB, with a byte between it and each of the others. -/
theorem StackRun.Spaced.add (h : st.Spaced) {size i base cpu : Nat} {name : String}
    (ha : Allocated st.kernel st.busy size i base)
    (hzone : ZoneOff st'.kernel.zone (st.busy ∪ stackBlock base size))
    (hlive : st'.live = ⟨base + 0x200000, size⟩ :: st.live)
    (howners : st'.kernel.owners = ⟨base + 0x200000, size % 2 ^ 32, cpu, name⟩ :: st.kernel.owners)
    (hsize : size < 2 ^ 32) (hends : ∀ r ∈ st.live, r.start + r.size ≠ base ∧
      base + 0x200000 + size ≠ r.start - 0x200000) : st'.Spaced := by
  have hge : size + 0x200000 ≤ _ := stackBlock_ge (by omega)
  have hlow := ha.low
  have hhigh := ha.high
  refine ⟨?_, ?_, ?_, ?_⟩
  · obtain ⟨free, holes, recs, hrep, hz, hd⟩ := hzone
    refine ⟨free, holes, recs, hrep, hz, hd.mono_left ?_⟩
    rintro a ⟨r, hr, hra⟩
    rw [hlive] at hr
    rcases List.mem_cons.1 hr with rfl | hr
    · have h1 := hra.1
      have h2 := hra.2
      simp only at h2
      exact .inr ⟨by simpa using h1, by omega⟩
    · exact .inl ⟨r, hr, hra⟩
  · rw [howners, hlive, List.map_cons, h.owners, Nat.mod_eq_of_lt hsize]
  · intro r hr
    rw [hlive] at hr
    rcases List.mem_cons.1 hr with rfl | hr
    · have hstart : kernelStackZoneStart + 0x200000 ≤ base + 0x200000 := Nat.add_le_add_right hlow _
      have hstop : base + 0x200000 + size ≤ kernelStackZoneEnd := by omega
      exact ⟨hstart, hstop, hsize⟩
    · exact h.inside r hr
  · rw [hlive]
    refine List.pairwise_cons.2 ⟨fun r hr => ?_, h.spaced⟩
    have hoff := StackRun.off_of_disjoint ha.unused (by omega) hr
    obtain ⟨hne, hne'⟩ := hends r hr
    unfold StackRange.Spaced
    simp only
    omega

theorem StackRun.Spaced.step (h : st.Spaced) {c : StackStep} (hok : st.step c = .ok st')
    (hclear : c.Clear st) : st'.Spaced := by
  cases c with
  | create size name cpu =>
      rcases h.create_cases hok with ⟨hlive, howners, hzone, -⟩ | ⟨i, base, ha, hzone, hlive, howners⟩
      · exact h.congr hlive howners hzone
      · have hbase := ha.base_eq
        subst hbase
        obtain ⟨hsize, hends⟩ := hclear i ha.hole ha.mapped
        exact h.add ha hzone hlive howners hsize hends
  | fault f paddr =>
      obtain ⟨s', hfault, hok⟩ := bind_eq_ok.1 hok
      obtain rfl := Except.ok.inj hok
      obtain ⟨-, hzone, howners⟩ := pageFaultHandler_eq hfault
      exact h.congr rfl howners (by simp only [hzone]; exact h.zone)

/-! ## What breaks the guards -/

theorem checkStack_cons {s s' : Stacks} {o : StackOwner} (h : s'.owners = o :: s.owners) (a : Nat) :
    checkStack s' a = (o.holds a || checkStack s a) := by
  rw [checkStack, h, List.any_cons, checkStack]

/-- The last address of a stack of 4 GiB or more is behind what is registered of it. -/
theorem StackRun.Spaced.size_lt (h : st.Spaced) {size i base cpu : Nat} {name : String}
    (ha : Allocated st.kernel st.busy size i base)
    (hlive : st'.live = ⟨base + 0x200000, size⟩ :: st.live)
    (howners : st'.kernel.owners = ⟨base + 0x200000, size % 2 ^ 32, cpu, name⟩ :: st.kernel.owners)
    (hgood : st'.Guarded) : size < 2 ^ 32 := by
  by_contra hbig
  have hend := kernelStackZoneEnd_lt
  have hhigh := ha.high
  set a := min (base + 0x200000 + size - 1) (2 ^ 64 - 1) with hadef
  have ha64 : a < 2 ^ 64 := by omega
  have hrange : a ∈ (⟨base + 0x200000, size⟩ : StackRange).range := by
    refine ⟨ha64, ?_, ?_⟩
    · show base + 0x200000 ≤ a
      omega
    · show a < base + 0x200000 + size
      omega
  have hcheck := hgood.found _ (hlive ▸ List.mem_cons_self ..) a hrange
  rw [checkStack_cons howners, Bool.or_eq_true] at hcheck
  rcases hcheck with hnew | hold
  · have hle := ((StackOwner.holds_iff (by simp only; omega)).1 hnew).2
    simp only at hle
    omega
  · obtain ⟨r, hr, hge, hle⟩ := h.checkStack_iff.1 hold
    obtain ⟨-, hstop, -⟩ := h.inside r hr
    by_cases hwrap : base + 0x200000 + size < 2 ^ 64
    · have hoff := StackRun.off_of_disjoint ha.unused (by omega) hr
      omega
    · omega

theorem StackRun.Spaced.clear (h : st.Spaced) {c : StackStep} (hok : st.step c = .ok st')
    (hgood : st'.Guarded) : c.Clear st := by
  cases c with
  | fault f paddr => trivial
  | create size name cpu =>
      intro i hi hmapped
      rcases h.create_cases hok with ⟨-, -, -, hnone⟩ | ⟨j, base, ha, hzone, hlive, howners⟩
      · exact absurd hmapped (hnone i hi)
      · obtain rfl : i = j := Option.some.inj (Option.some.inj (hi.symm.trans ha.hole))
        have hbase := ha.base_eq
        subst hbase
        have hsize := h.size_lt ha hlive howners hgood
        have hend := kernelStackZoneEnd_lt
        have hhigh := ha.high
        set base := (st.kernel.zone.pool.nodes i).addr with hbase
        refine ⟨hsize, fun r hr => ⟨fun heq => ?_, fun heq => ?_⟩⟩
        · -- the first address of the new guard is the one behind `r`
          have hguard : base ∈ (⟨base + 0x200000, size⟩ : StackRange).guard := by
            refine ⟨?_, ?_⟩ <;> simp only <;> omega
          have hno := (hgood.unbacked _ (hlive ▸ List.mem_cons_self ..) base hguard).1
          rw [checkStack_cons howners, Bool.or_eq_false_iff] at hno
          have hyes := h.checkStack_iff.2 ⟨r, hr, by omega, heq.ge⟩
          rw [hno.2] at hyes
          cases hyes
        · -- the first address of the guard of `r` is the one behind the new stack
          have hin := h.inside r hr
          have hguard : r.start - 0x200000 ∈ r.guard := ⟨le_rfl, by omega⟩
          have hno := (hgood.unbacked r (hlive ▸ List.mem_cons_of_mem _ hr) _ hguard).1
          rw [checkStack_cons howners, Bool.or_eq_false_iff] at hno
          have hyes := (StackOwner.holds_iff (o := ⟨base + 0x200000, size % 2 ^ 32, cpu, name⟩)
            (a := r.start - 0x200000) (by simp only; omega)).2 (by
              simp only [Nat.mod_eq_of_lt hsize]
              omega)
          rw [hno.1] at hyes
          cases hyes

/-! ## Whole runs -/

theorem initStacks_spaced {tables : PgTables} {s : Stacks} (hinit : initStacks tables = .ok s) :
    (⟨s, []⟩ : StackRun).Spaced := by
  obtain ⟨zone, hzone, hinit⟩ := bind_eq_ok.1 hinit
  obtain rfl := Except.ok.inj hinit
  obtain ⟨free, holes, recs, top, hown⟩ := initVmZone_inv hzone (by decide)
  refine ⟨⟨free, holes, recs, hown.rep, hown.shape, ?_⟩, rfl, by simp, List.Pairwise.nil⟩
  simp [StackRun.busy, Set.disjoint_left]

/-- **The guards.** In a run from `init_vm`, over any page tables and any frames, the guards are off
    the stacks for `check_stack` in every state exactly when every stack created is `StackStep.Clear`. -/
theorem stacks_guarded_iff {tables : PgTables} {s : Stacks} (hinit : initStacks tables = .ok s)
    (steps : List StackStep) :
    (∀ pre, pre <+: steps → ∀ st, pre.foldlM StackRun.step ⟨s, []⟩ = .ok st → st.Guarded) ↔
      Run.AllSafe StackRun.step (fun st c => c.Clear st) ⟨s, []⟩ steps :=
  Run.good_iff_allSafe (fun _ h => h.guarded) (fun _ _ _ h hok hclear => h.step hok hclear)
    (fun _ _ _ h hok hgood => h.clear hok hgood) (initStacks_spaced hinit)

/-- Empty page tables, and frames for two stacks and a page of a third 2 MiB. -/
def stackTables : PgTables where
  frames := fun _ _ => 0
  pml4 := 0x1000
  data := [0x10000, 0x11000]
  pt := [0x4000, 0x5000, 0x6000]
  table := [0x2000, 0x3000]
  large := []
  freedSmall := []
  freedLarge := []

/-- The first stack is a page longer than 2 MiB, so the zone leaves a gap behind it. -/
theorem stacks_guarded_gap : ∃ s, initStacks stackTables = .ok s ∧
    ∀ pre, pre <+: [.create 0x201000 "a" 0, .create 0x200000 "b" 0] →
      ∀ st, pre.foldlM StackRun.step ⟨s, []⟩ = .ok st → st.Guarded := by
  have hobs : (do
      let s ← initStacks stackTables
      let st ← StackRun.step ⟨s, []⟩ (.create 0x201000 "a" 0)
      .ok (st.live, st.kernel.holeFor 0x200000, (st.kernel.zone.pool.nodes 0).addr)) =
      .ok ([⟨0xffff810000200000, 0x201000⟩], some (some 0), 0xffff810000600000) := by
    decide +kernel
  obtain ⟨s, hinit, hobs⟩ := bind_eq_ok.1 hobs
  refine ⟨s, hinit, (stacks_guarded_iff hinit _).2 fun st₁ h₁ => ⟨fun i _ _ => ?_, ?_⟩⟩
  · exact ⟨by decide, by simp⟩
  rw [h₁, ok_bind] at hobs
  obtain ⟨hlive, hrest⟩ := Prod.mk.inj (Except.ok.inj hobs)
  obtain ⟨hhole, haddr⟩ := Prod.mk.inj hrest
  refine fun st₂ _ => ⟨fun i hi _ => ⟨by decide, fun r hr => ?_⟩, trivial⟩
  obtain rfl : 0 = i := Option.some.inj (Option.some.inj (hhole.symm.trans hi))
  rw [hlive] at hr
  obtain rfl := List.mem_singleton.1 hr
  rw [haddr]
  decide +kernel

/-- Two stacks of 2 MiB, one behind the other: the first ends where the guard of the second begins. A
    fault at that address is taken for one on the first stack, and the handler maps a page there. -/
theorem guard_backed : ∃ s st, initStacks stackTables = .ok s ∧
    [StackStep.create 0x200000 "a" 0, .create 0x200000 "b" 0].foldlM StackRun.step ⟨s, []⟩
      = .ok st ∧
    (∃ r ∈ st.live, ∃ a ∈ r.guard, checkStack st.kernel a = true ∧
      pageFaultHandler st.kernel ⟨a, 0x300000, 0x400000, 0, 0xe⟩ 0x12000
        = mapPage st.kernel a 0x12000) ∧ ¬ st.Guarded := by
  have hobs : (do
      let s ← initStacks stackTables
      let st ← [StackStep.create 0x200000 "a" 0, .create 0x200000 "b" 0].foldlM StackRun.step ⟨s, []⟩
      .ok (st.live, checkStack st.kernel 0xffff810000400000)) =
      .ok ([⟨0xffff810000600000, 0x200000⟩, ⟨0xffff810000200000, 0x200000⟩], true) := by
    decide +kernel
  obtain ⟨s, hinit, hobs⟩ := bind_eq_ok.1 hobs
  obtain ⟨st, hrun, hobs⟩ := bind_eq_ok.1 hobs
  obtain ⟨hlive, hcheck⟩ := Prod.mk.inj (Except.ok.inj hobs)
  have hmem : ⟨0xffff810000600000, 0x200000⟩ ∈ st.live := by
    rw [hlive]
    exact List.mem_cons_self ..
  have hguard : 0xffff810000400000 ∈ (⟨0xffff810000600000, 0x200000⟩ : StackRange).guard := by
    simp [StackRange.guard]
  refine ⟨s, st, hinit, hrun, ⟨_, hmem, _, hguard, hcheck, ?_⟩, fun hgood => ?_⟩
  · simp [pageFaultHandler, hcheck, assert, wsub, bind, Except.bind]
  · have hno := (hgood.unbacked _ hmem _ hguard).1
    rw [hcheck] at hno
    cases hno

end Yaos
