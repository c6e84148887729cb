import Mathlib.Data.List.Nodup
import Mathlib.Logic.Function.Basic
import Yaos.Fault
import Yaos.Lib.Run

set_option autoImplicit false

/-! # The table of CPUs (`arch/x86_64/pm64.c`)

The scan of the MADT calls `init_cpu` for each local APIC it lists. The per-CPU area of the boot CPU is
linked into the kernel and goes to slot 0 of `cpu_base`; every other CPU gets a new area in the slot
that `nr_cpu` counts to. The boot CPU is told from the others by the APIC id in its area, which is 0
until `init_cpu_bp` writes it: the call of `init_cpu_bp` before the scan is commented out.

Area 0 is `__per_cpu_load`, the areas from 1 on are those of `kalloc`. The ids of the MADT are bytes and
differ, so the slots do not run out. -/

namespace Yaos

/-- `MAX_CPUS`. -/
def maxCpus : Nat := 1024

/-- Of a `struct cpu` the APIC id and the number. -/
structure PerCpu where
  apicId : Nat
  cpu : Nat

/-- The per-CPU areas and the table that finds them by their APIC id. -/
structure CpuTable where
  areas : Nat → PerCpu
  cpuBase : Nat → Option Nat
  nrCpu : Nat
  /-- The areas that `kalloc` has given. -/
  used : Nat

/-- Before the scan: `cpu_base[0]` is the area of the boot CPU, which is still all zero. -/
def initialCpus : CpuTable where
  areas _ := { apicId := 0, cpu := 0 }
  cpuBase i := if i = 0 then some 0 else none
  nrCpu := 0
  used := 0

/-- `kalloc` can give `avail` areas. The copy into one that it did not give faults. -/
def newPercpu (avail : Nat) (s : CpuTable) : Except Fault (Nat × CpuTable) :=
  let p := s.used + 1
  if s.used < avail then
    .ok (p, { s with areas := Function.update s.areas p (s.areas 0), used := p })
  else .error .null

/-- `boot` is what `cpuid` gives as the id of the running CPU. -/
def initCpuBp (boot : Nat) (s : CpuTable) : CpuTable :=
  { s with
    areas := Function.update s.areas 0 { apicId := boot, cpu := 0 }
    cpuBase := Function.update s.cpuBase 0 (some 0) }

/-- `init_cpu`. -/
def initCpu (avail boot : Nat) (s : CpuTable) (apicid : Nat) : Except Fault CpuTable :=
  if (s.areas 0).apicId = apicid then .ok (initCpuBp boot { s with nrCpu := s.nrCpu + 1 })
  else do
    let (ptr, s) ← newPercpu avail s
    if maxCpus < apicid then .error (.panic "apicid:%lx > MAX_CPUS:%lx\n")
    else
      .ok { s with
            cpuBase := Function.update s.cpuBase s.nrCpu (some ptr)
            areas := Function.update s.areas ptr { apicId := apicid, cpu := s.nrCpu }
            nrCpu := s.nrCpu + 1 }

/-- The scan, with the ids of the enabled local APICs in the order of the MADT. -/
def scanCpus (avail boot : Nat) (s : CpuTable) (ids : List Nat) : Except Fault CpuTable :=
  ids.foldlM (initCpu avail boot) s

/-- The loop of `apic_id_to_cpu` over the slots given. -/
def apicIdToCpuIn (s : CpuTable) (apicid : Nat) : List Nat → Except Fault (Option Nat)
  | [] => .ok none
  | i :: is =>
      match s.cpuBase i with
      | none => .error .null
      | some p => if (s.areas p).apicId = apicid then .ok (some p) else apicIdToCpuIn s apicid is

/-- `apic_id_to_cpu`. -/
def apicIdToCpu (s : CpuTable) (apicid : Nat) : Except Fault (Option Nat) :=
  apicIdToCpuIn s apicid (List.range s.nrCpu)

/-- What the table should be after the scan. -/
structure TableRight (s : CpuTable) (boot : Nat) (ids : List Nat) : Prop where
  nrCpu : s.nrCpu = ids.length
  filled : ∀ i, i < s.nrCpu → ∃ p, s.cpuBase i = some p ∧ (s.areas p).cpu = i
  distinct : ∀ i j, i < s.nrCpu → j < s.nrCpu → s.cpuBase i = s.cpuBase j → i = j
  found : ∀ id ∈ ids, ∃ i p, i < s.nrCpu ∧ s.cpuBase i = some p ∧ (s.areas p).apicId = id ∧
    apicIdToCpu s id = .ok (some p) ∧
    ∀ j q, j < s.nrCpu → s.cpuBase j = some q → (s.areas q).apicId = id → j = i
  boot : s.cpuBase 0 = some 0 ∧ (s.areas 0).apicId = boot

/-! ## The boot CPU is number 0 and comes first -/

/-- After the ids `done` each has its own slot and area, in order. -/
structure InOrder (s : CpuTable) (done : List Nat) : Prop where
  nrCpu : s.nrCpu = done.length
  used : s.used + 1 = done.length
  slot : ∀ i id, done[i]? = some id → s.cpuBase i = some i ∧ s.areas i = { apicId := id, cpu := i }

section Steps

variable {avail boot : Nat} {s s' : CpuTable}

/-- The two ways `init_cpu` comes back. -/
theorem initCpu_cases {id : Nat} (h : initCpu avail boot s id = .ok s') :
    ((s.areas 0).apicId = id ∧ s' = initCpuBp boot { s with nrCpu := s.nrCpu + 1 }) ∨
    ((s.areas 0).apicId ≠ id ∧ s'.nrCpu = s.nrCpu + 1 ∧ s'.used = s.used + 1 ∧
      s'.cpuBase = Function.update s.cpuBase s.nrCpu (some (s.used + 1)) ∧
      s'.areas (s.used + 1) = { apicId := id, cpu := s.nrCpu } ∧
      ∀ p, p ≠ s.used + 1 → s'.areas p = s.areas p) := by
  rw [initCpu] at h
  split at h
  case isTrue hid => exact .inl ⟨hid, (Except.ok.inj h).symm⟩
  case isFalse hid =>
      obtain ⟨⟨ptr, s₁⟩, hnew, h⟩ := bind_eq_ok.1 h
      rw [newPercpu] at hnew
      split at hnew
      · obtain ⟨rfl, rfl⟩ := Prod.mk.inj (Except.ok.inj hnew)
        dsimp only at h
        split at h
        · cases h
        · obtain rfl := Except.ok.inj h
          refine .inr ⟨hid, rfl, rfl, rfl, by simp, fun p hp => ?_⟩
          simp [Function.update_of_ne hp]
      · cases hnew

/-- Each call that comes back counts `nr_cpu` up. -/
theorem scanCpus_nrCpu {ids : List Nat} (h : scanCpus avail boot s ids = .ok s') :
    s'.nrCpu = s.nrCpu + ids.length := by
  induction ids generalizing s with
  | nil =>
      obtain rfl := Except.ok.inj h
      rfl
  | cons id ids ih =>
      rw [scanCpus, List.foldlM_cons] at h
      obtain ⟨s₁, hfirst, hrest⟩ := bind_eq_ok.1 h
      rw [ih hrest, List.length_cons]
      rcases initCpu_cases hfirst with ⟨-, rfl⟩ | ⟨-, hnr, -⟩
      · show s.nrCpu + 1 + ids.length = _
        omega
      · omega

theorem InOrder.step {done : List Nat} {id : Nat} (h : InOrder s done) (hid : id ∉ done)
    (hrun : initCpu avail boot s id = .ok s') : InOrder s' (done ++ [id]) := by
  have hpos : 0 < done.length := h.used ▸ Nat.succ_pos _
  have hboot : s.areas 0 = { apicId := done[0], cpu := 0 } :=
    (h.slot 0 done[0] (List.getElem?_eq_getElem hpos)).2
  rcases initCpu_cases hrun with ⟨heq, -⟩ | ⟨-, hnr, hused, hbase, hnew, hold⟩
  · rw [hboot] at heq
    exact absurd (heq ▸ List.getElem_mem hpos) hid
  · rw [h.used, h.nrCpu] at *
    refine ⟨by simp [hnr], by simp [hused], fun i id' hi => ?_⟩
    by_cases hlast : i = done.length
    · subst hlast
      rw [List.getElem?_concat_length] at hi
      obtain rfl := Option.some.inj hi
      exact ⟨by rw [hbase, Function.update_self], hnew⟩
    · rw [List.getElem?_append_left] at hi
      · rw [hbase, Function.update_of_ne hlast, hold i hlast]
        exact h.slot i id' hi
      · have hlt := (List.getElem?_eq_some_iff.1 hi).1
        rw [List.length_append, List.length_singleton] at hlt
        omega

theorem InOrder.scan {done ids : List Nat} (h : InOrder s done) (hdistinct : (done ++ ids).Nodup)
    (hrun : scanCpus avail boot s ids = .ok s') : InOrder s' (done ++ ids) := by
  have hstep : ∀ done id s s', (done.Nodup → InOrder s done) → initCpu avail boot s id = .ok s' →
      (done ++ [id]).Nodup → InOrder s' (done ++ [id]) := by
    intro done id s s' h hrun hdistinct
    obtain ⟨hdone, -, hdisjoint⟩ := List.nodup_append.1 hdistinct
    exact (h hdone).step (fun hmem => hdisjoint id hmem id (by simp) rfl) hrun
  exact Run.keeps_done hstep (fun _ => h) hrun hdistinct

end Steps

theorem apicIdToCpuIn_found {s : CpuTable} {id p i : Nat} {pre post : List Nat}
    (hpre : ∀ j ∈ pre, ∃ q, s.cpuBase j = some q ∧ (s.areas q).apicId ≠ id)
    (hi : s.cpuBase i = some p) (hid : (s.areas p).apicId = id) :
    apicIdToCpuIn s id (pre ++ i :: post) = .ok (some p) := by
  induction pre with
  | nil =>
      rw [List.nil_append, apicIdToCpuIn, hi]
      exact if_pos hid
  | cons j pre ih =>
      obtain ⟨q, hq, hne⟩ := hpre j (List.mem_cons_self ..)
      rw [List.cons_append, apicIdToCpuIn, hq]
      dsimp only
      rw [if_neg hne]
      exact ih fun k hk => hpre k (List.mem_cons_of_mem _ hk)

theorem InOrder.tableRight {s : CpuTable} {ids : List Nat} {boot : Nat} (h : InOrder s (boot :: ids))
    (hdistinct : (boot :: ids).Nodup) : TableRight s boot (boot :: ids) := by
  have hslot : ∀ i, i < s.nrCpu → ∃ id, (boot :: ids)[i]? = some id ∧ s.cpuBase i = some i ∧
      s.areas i = { apicId := id, cpu := i } := by
    intro i hi
    rw [h.nrCpu] at hi
    have hget := List.getElem?_eq_getElem hi
    exact ⟨_, hget, h.slot i _ hget⟩
  have hsame : ∀ i j id : Nat, (boot :: ids)[i]? = some id → (boot :: ids)[j]? = some id → i = j := by
    intro i j id hi hj
    exact (List.getElem?_inj (List.getElem?_eq_some_iff.1 hi).1 hdistinct).1 (hi.trans hj.symm)
  refine ⟨h.nrCpu, fun i hi => ?_, fun i j hi hj heq => ?_, fun id hid => ?_, ?_⟩
  · obtain ⟨id, -, hbase, harea⟩ := hslot i hi
    exact ⟨i, hbase, by rw [harea]⟩
  · obtain ⟨-, -, hbase, -⟩ := hslot i hi
    obtain ⟨-, -, hbase', -⟩ := hslot j hj
    rw [hbase, hbase'] at heq
    exact Option.some.inj heq
  · obtain ⟨i, hi, hget⟩ := List.mem_iff_getElem.1 hid
    have hget? : (boot :: ids)[i]? = some id := by rw [List.getElem?_eq_getElem hi, hget]
    obtain ⟨hbase, harea⟩ := h.slot i id hget?
    rw [← h.nrCpu] at hi
    refine ⟨i, i, hi, hbase, by rw [harea], ?_, fun j q hj hq hapic => ?_⟩
    · have hrange : List.range s.nrCpu =
          List.range i ++ i :: (List.range (s.nrCpu - (i + 1))).map (i + 1 + ·) := by
        have hsum : s.nrCpu = i + 1 + (s.nrCpu - (i + 1)) := by omega
        conv_lhs => rw [hsum, List.range_add, List.range_succ, List.append_assoc]
        rfl
      rw [apicIdToCpu, hrange]
      refine apicIdToCpuIn_found (fun j hj => ?_) hbase (by rw [harea])
      have hlt := List.mem_range.1 hj
      obtain ⟨id', hget', hbase', harea'⟩ := hslot j (Nat.lt_trans hlt hi)
      refine ⟨j, hbase', ?_⟩
      rw [harea']
      rintro rfl
      exact Nat.ne_of_lt hlt (hsame j i _ hget' hget?)
    · obtain ⟨id', hget', hbase', harea'⟩ := hslot j hj
      rw [hbase'] at hq
      obtain rfl := Option.some.inj hq
      rw [harea'] at hapic
      subst hapic
      exact hsame j i _ hget' hget?
  · obtain ⟨hbase, harea⟩ := h.slot 0 boot rfl
    exact ⟨hbase, by rw [harea]⟩

/-! ## The boot CPU is another one, or comes later -/

section Wrong

variable {avail boot : Nat} {s s' : CpuTable}

theorem initCpu_nrCpu {id : Nat} (h : initCpu avail boot s id = .ok s') : s'.nrCpu = s.nrCpu + 1 := by
  rcases initCpu_cases h with ⟨-, rfl⟩ | ⟨-, hnr, -⟩
  · rfl
  · exact hnr

/-- The slots that `nr_cpu` has passed are not written again, but for slot 0. -/
theorem initCpu_cpuBase {id i : Nat} (h : initCpu avail boot s id = .ok s') (hi : i ≠ 0)
    (hne : i ≠ s.nrCpu) : s'.cpuBase i = s.cpuBase i := by
  rcases initCpu_cases h with ⟨-, rfl⟩ | ⟨-, -, -, hbase, -⟩
  · exact Function.update_of_ne hi ..
  · rw [hbase, Function.update_of_ne hne]

theorem scanCpus_cpuBase {ids : List Nat} {i : Nat} (hrun : scanCpus avail boot s ids = .ok s')
    (hi : i ≠ 0) (hlt : i < s.nrCpu) : s'.cpuBase i = s.cpuBase i := by
  have hstep : ∀ id s₁ s₂, i < s₁.nrCpu ∧ s₁.cpuBase i = s.cpuBase i →
      initCpu avail boot s₁ id = .ok s₂ → i < s₂.nrCpu ∧ s₂.cpuBase i = s.cpuBase i := by
    rintro id s₁ s₂ ⟨hlt, heq⟩ hs₂
    rw [initCpu_nrCpu hs₂, initCpu_cpuBase hs₂ hi (Nat.ne_of_lt hlt)]
    exact ⟨Nat.lt_succ_of_lt hlt, heq⟩
  exact (Run.keeps hstep ⟨hlt, rfl⟩ hrun).2

/-- Before the boot CPU is recognised: its area is untouched, and the slots from `nr_cpu` on are
    empty. -/
structure Unrecognised (s : CpuTable) (done : List Nat) : Prop where
  nrCpu : s.nrCpu = done.length
  apicId : (s.areas 0).apicId = 0
  slots : ∀ i, i ≠ 0 → s.nrCpu ≤ i → s.cpuBase i = none
  first : 0 < s.nrCpu → s.cpuBase 0 ≠ some 0

theorem initialCpus_unrecognised : Unrecognised initialCpus [] :=
  ⟨rfl, rfl, fun _ hi _ => if_neg hi, fun h => absurd h (Nat.lt_irrefl 0)⟩

theorem Unrecognised.step {done : List Nat} {id : Nat} (h : Unrecognised s done) (hid : id ≠ 0)
    (hrun : initCpu avail boot s id = .ok s') : Unrecognised s' (done ++ [id]) := by
  rcases initCpu_cases hrun with ⟨heq, -⟩ | ⟨-, hnr, -, hbase, -, hold⟩
  · exact absurd (heq.symm.trans h.apicId) hid
  · refine ⟨by simp [hnr, h.nrCpu], ?_, fun i hi hle => ?_, fun _ => ?_⟩
    · rw [hold 0 (Nat.succ_ne_zero _).symm]
      exact h.apicId
    · rw [hnr] at hle
      rw [hbase, Function.update_of_ne (by omega)]
      exact h.slots i hi (by omega)
    · rw [hbase]
      by_cases hzero : 0 = s.nrCpu
      · rw [← hzero, Function.update_self]
        simp
      · rw [Function.update_of_ne hzero]
        exact h.first (by omega)

theorem Unrecognised.scan {done ids : List Nat} (h : Unrecognised s done) (hids : 0 ∉ done ++ ids)
    (hrun : scanCpus avail boot s ids = .ok s') : Unrecognised s' (done ++ ids) := by
  have hstep : ∀ done id s s', (0 ∉ done → Unrecognised s done) → initCpu avail boot s id = .ok s' →
      0 ∉ done ++ [id] → Unrecognised s' (done ++ [id]) := by
    intro done id s s' h hrun hmem
    rw [List.mem_append, List.mem_singleton, not_or] at hmem
    exact (h hmem.1).step (Ne.symm hmem.2) hrun
  exact Run.keeps_done hstep (fun _ => h) hrun hids

/-- No area of the table is one of id 0, but perhaps that of the boot CPU. -/
structure NoZero (s : CpuTable) : Prop where
  areas : ∀ p, 1 ≤ p → p ≤ s.used → (s.areas p).apicId ≠ 0
  slots : ∀ i p, s.cpuBase i = some p → p ≤ s.used

theorem initialCpus_noZero : NoZero initialCpus := by
  refine ⟨fun p hp hle => absurd (Nat.le_trans hp hle) (by decide), fun i p hi => ?_⟩
  rw [initialCpus] at hi
  dsimp only at hi
  split at hi
  · exact Nat.le_of_eq (Option.some.inj hi).symm
  · cases hi

theorem NoZero.step {id : Nat} (h : NoZero s) (hid : id ≠ 0 ∨ (s.areas 0).apicId = id)
    (hrun : initCpu avail boot s id = .ok s') : NoZero s' := by
  rcases initCpu_cases hrun with ⟨-, rfl⟩ | ⟨hne, -, hused, hbase, hnew, hold⟩
  · refine ⟨fun p hp hle => ?_, fun i p hi => ?_⟩
    · have hp0 : p ≠ 0 := by omega
      simpa [initCpuBp, Function.update_of_ne hp0] using h.areas p hp hle
    · by_cases hi0 : i = 0
      · subst hi0
        rw [initCpuBp] at hi
        dsimp only at hi
        rw [Function.update_self] at hi
        exact (Option.some.inj hi) ▸ Nat.zero_le _
      · rw [initCpuBp] at hi
        dsimp only at hi
        rw [Function.update_of_ne hi0] at hi
        exact h.slots i p hi
  · refine ⟨fun p hp hle => ?_, fun i p hi => ?_⟩
    · by_cases hlast : p = s.used + 1
      · rw [hlast, hnew]
        exact hid.resolve_right hne
      · rw [hold p hlast]
        exact h.areas p hp (by omega)
    · rw [hused]
      rw [hbase] at hi
      by_cases hnr : i = s.nrCpu
      · rw [hnr, Function.update_self] at hi
        exact Nat.le_of_eq (Option.some.inj hi).symm
      · rw [Function.update_of_ne hnr] at hi
        exact Nat.le_succ_of_le (h.slots i p hi)

theorem NoZero.scan {ids : List Nat} (h : NoZero s) (hids : 0 ∉ ids)
    (hrun : scanCpus avail boot s ids = .ok s') : NoZero s' := by
  have hstep : ∀ done id s s', (0 ∉ done → NoZero s) → initCpu avail boot s id = .ok s' →
      0 ∉ done ++ [id] → NoZero s' := by
    intro done id s s' h hrun hmem
    rw [List.mem_append, List.mem_singleton, not_or] at hmem
    exact (h hmem.1).step (.inl (Ne.symm hmem.2)) hrun
  exact Run.keeps_done hstep (fun _ : 0 ∉ [] => h) hrun hids

end Wrong

/-- The call of `init_cpu` that takes the running CPU for the one of id 0. -/
theorem Unrecognised.recognise {avail boot : Nat} {s s' : CpuTable} {done : List Nat}
    (h : Unrecognised s done) (hrun : initCpu avail boot s 0 = .ok s') :
    s' = initCpuBp boot { s with nrCpu := s.nrCpu + 1 } := by
  rcases initCpu_cases hrun with ⟨-, heq⟩ | ⟨hne, -⟩
  · exact heq
  · exact absurd h.apicId hne

/-- The scan leaves the table as it should be exactly when the boot CPU has the APIC id 0 and is
    listed first. -/
theorem cpu_table_iff (avail boot : Nat) (ids : List Nat) (s : CpuTable) (hdistinct : ids.Nodup)
    (hboot : boot ∈ ids) (hrun : scanCpus avail boot initialCpus ids = .ok s) :
    TableRight s boot ids ↔ boot = 0 ∧ ids.head? = some boot := by
  constructor
  · intro hright
    by_cases hzero : 0 ∈ ids
    · obtain ⟨pre, post, rfl⟩ := List.append_of_mem hzero
      obtain ⟨-, hpost, hdisjoint⟩ := List.nodup_append.1 hdistinct
      have hpre : 0 ∉ pre := fun hmem => hdisjoint 0 hmem 0 (by simp) rfl
      obtain ⟨s₁, hs₁, hrest⟩ := Run.append_eq_ok.1 hrun
      obtain ⟨s₂, hs₂, hs⟩ := Run.cons_eq_ok.1 hrest
      have hunrec : Unrecognised s₁ pre := initialCpus_unrecognised.scan hpre hs₁
      have hrec := hunrec.recognise hs₂
      -- a CPU listed before the one with id 0 leaves its row of `cpu_base` empty
      have hfirst : pre = [] := by
        by_contra hne
        have hk : s₁.nrCpu ≠ 0 := by
          rw [hunrec.nrCpu]
          exact fun hlen => hne (List.length_eq_zero_iff.1 hlen)
        have hlt : s₁.nrCpu < s₂.nrCpu := by
          rw [initCpu_nrCpu hs₂]
          exact Nat.lt_succ_self _
        have hnone : s.cpuBase s₁.nrCpu = none := by
          rw [scanCpus_cpuBase hs hk hlt, hrec]
          show Function.update s₁.cpuBase 0 (some 0) s₁.nrCpu = none
          rw [Function.update_of_ne hk]
          exact hunrec.slots _ hk (Nat.le_refl _)
        have hin : s₁.nrCpu < s.nrCpu := by
          rw [hright.nrCpu, hunrec.nrCpu]
          simp
        obtain ⟨p, hp, -⟩ := hright.filled _ hin
        rw [hnone] at hp
        cases hp
      subst hfirst
      have hzeroPost : 0 ∉ post := fun hmem => (List.nodup_cons.1 hdistinct).1 hmem
      have hnoZero : NoZero s :=
        ((initialCpus_noZero.scan hpre hs₁).step (.inr hunrec.apicId) hs₂).scan hzeroPost hs
      -- no area but the first holds the id 0, and that one is the boot CPU's
      obtain rfl : boot = 0 := by
        by_contra hne
        obtain ⟨i, p, -, hp, hid, -⟩ := hright.found 0 (by simp)
        by_cases hp0 : p = 0
        · rw [hp0, hright.boot.2] at hid
          exact hne hid
        · exact hnoZero.areas p (Nat.one_le_iff_ne_zero.2 hp0) (hnoZero.slots i p hp) hid
      exact ⟨rfl, rfl⟩
    -- no CPU has the id 0: the boot CPU was never recognised
    · have hunrec : Unrecognised s ids := initialCpus_unrecognised.scan hzero hrun
      refine absurd hright.boot.1 (hunrec.first ?_)
      rw [hunrec.nrCpu]
      exact List.length_pos_of_mem hboot
  · rintro ⟨rfl, hhead⟩
    obtain ⟨rest, rfl⟩ : ∃ rest, ids = 0 :: rest := List.head?_eq_some_iff.1 hhead
    obtain ⟨s₁, hs₁, hs⟩ := Run.cons_eq_ok.1 hrun
    have hrec := initialCpus_unrecognised.recognise hs₁
    have horder : InOrder s₁ [0] := by
      rw [hrec]
      refine ⟨rfl, rfl, fun i id hi => ?_⟩
      obtain ⟨hlt, heq⟩ := List.getElem?_eq_some_iff.1 hi
      obtain rfl : i = 0 := Nat.lt_one_iff.1 hlt
      obtain rfl : 0 = id := heq
      exact ⟨rfl, rfl⟩
    exact (horder.scan hdistinct hs).tableRight hdistinct

/-- Three CPUs, the boot CPU first. -/
theorem cpu_table_boot_first :
    ∃ s, scanCpus 8 0 initialCpus [0, 3, 1] = .ok s ∧ TableRight s 0 [0, 3, 1] := by
  obtain ⟨s, hs⟩ : ∃ s, scanCpus 8 0 initialCpus [0, 3, 1] = .ok s := ⟨_, rfl⟩
  exact ⟨s, hs, (cpu_table_iff 8 0 [0, 3, 1] s (by decide) (by decide) hs).2 ⟨rfl, rfl⟩⟩

/-- The same with the boot CPU second: it takes slot 0 from CPU 3, and slot 1 stays empty. -/
theorem cpu_table_boot_second :
    ∃ s, scanCpus 8 0 initialCpus [3, 0, 1] = .ok s ∧ ¬ TableRight s 0 [3, 0, 1] := by
  refine ⟨_, rfl, fun hright => ?_⟩
  obtain ⟨p, hp, -⟩ := hright.filled 1 (by decide)
  cases hp

end Yaos
