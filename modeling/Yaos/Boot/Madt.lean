import Yaos.Boot.Cpus
import Yaos.Boot.IoMem.Remap
import Yaos.Lib.Records

set_option autoImplicit false

/-! # The scan of the MADT (`acpi_config_smp` in `arch/x86_64/acpi.c`)

The firmware lists the CPUs in a table of entries of several types. An entry begins with a byte for its type and
one for its length, and the scan goes from each to the next by that length. It stops at the end of the table and
at an entry that reaches over it. Neither stops it at an entry of length 0. -/

namespace Yaos

open Word

/-- What the scan sets. -/
structure AcpiGlobals where
  nrCpu : Nat
  ismp : Nat
  lapicBase : Nat
  ioapicid : Nat

/-- The state of the scan, with the ids that `init_cpu` was called with and the offsets that were read. -/
structure MadtScan where
  globals : AcpiGlobals
  nioapic : Nat
  calls : List Nat
  reads : List Nat

/-- `n` bytes from the offset `i` on are read. -/
def MadtScan.look (st : MadtScan) (i n : Nat) : MadtScan := { st with reads := st.reads ++ List.range' i n }

/-- `init_cpu` counts `nr_cpu` up. -/
def MadtScan.initCpu (st : MadtScan) (apicid : Nat) : MadtScan :=
  { st with globals := { st.globals with nrCpu := st.globals.nrCpu + 1 }, calls := st.calls ++ [apicid] }

/-- The size of the header of the table. -/
def sizeofMadt : Nat := 44

/-- The size of the entry for a local APIC. -/
def sizeofLapic : Nat := 8

/-- The size of the entry for an I/O APIC. -/
def sizeofIoapic : Nat := 12

/-- Four bytes, the low one first. -/
def read32 (mem : Nat → UInt8) (i : Nat) : Nat :=
  (mem i).toNat + 2 ^ 8 * (mem (i + 1)).toNat + 2 ^ 16 * (mem (i + 2)).toNat + 2 ^ 24 * (mem (i + 3)).toNat

/-- `header.length`. -/
def madtLength (mem : Nat → UInt8) : Nat := read32 mem 4

/-- The length field of an entry. -/
def entryLen (mem : Nat → UInt8) (p : Nat) : Nat := (mem (p + 1)).toNat

/-- `lapic->flags & APIC_LAPIC_ENABLED`. -/
def lapicEnabled (mem : Nat → UInt8) (p : Nat) : Prop := read32 mem (p + 4) &&& 1 ≠ 0

instance (mem : Nat → UInt8) (p : Nat) : Decidable (lapicEnabled mem p) := inferInstanceAs (Decidable (_ ≠ _))

/-- The field with the APIC id. -/
def apicId (mem : Nat → UInt8) (p : Nat) : Nat := (mem (p + 3)).toNat

/-- `case TYPE_LAPIC`. -/
def onLapic (mem : Nat → UInt8) (p : Nat) (st : MadtScan) : MadtScan :=
  if entryLen mem p < sizeofLapic then st
  else if ¬ lapicEnabled mem p then st.look (p + 4) 4
  else ((st.look (p + 4) 4).look (p + 3) 1).initCpu (apicId mem p)

/-- `case TYPE_IOAPIC`: the first one counts. -/
def onIoapic (mem : Nat → UInt8) (p : Nat) (st : MadtScan) : MadtScan :=
  if entryLen mem p < sizeofIoapic then st
  else
    let st := ((st.look (p + 4) 4).look (p + 2) 1).look (p + 8) 4
    { st with
      globals := if st.nioapic ≠ 0 then st.globals else { st.globals with ioapicid := (mem (p + 2)).toNat }
      nioapic := st.nioapic + 1 }

/-- `switch (p[0]) { … }`. -/
def onEntry (mem : Nat → UInt8) (p : Nat) (st : MadtScan) : MadtScan :=
  if mem p = 0 then onLapic mem p st
  else if mem p = 1 then onIoapic mem p st
  else st

/-- `while (p < e) { … }`, with `e` the end of the table. -/
def scanMadt (mem : Nat → UInt8) (e : Nat) : Nat → Nat → MadtScan → Except Fault MadtScan
  | 0, _, _ => .error .hang
  | fuel + 1, p, st =>
      if p < e then
        -- the two bytes of the head, then the length they give, have to fit
        if e - p < 2 then .ok st
        else if e - p < entryLen mem p then .ok (st.look (p + 1) 1)
        else scanMadt mem e fuel (p + entryLen mem p) (onEntry mem p ((st.look (p + 1) 1).look p 1))
      else .ok st

/-- `acpi_config_smp`. -/
def acpiConfigSmp (fuel : Nat) (madt : Option (Nat → UInt8)) (g : AcpiGlobals) :
    Except Fault (Int × MadtScan) :=
  let st : MadtScan := { globals := g, nioapic := 0, calls := [], reads := [] }
  match madt with
  | none => .ok (-1, st)
  | some mem =>
      let st := st.look 4 4
      if madtLength mem < sizeofMadt then .ok (-1, st)
      else do
        let lapicAddr := read32 mem 36
        let st ← scanMadt mem (madtLength mem) fuel sizeofMadt ((st.look 36 4).look 4 4)
        if st.globals.nrCpu ≠ 0 then
          .ok (0, { st with globals := { st.globals with ismp := 1, lapicBase := wadd lapicAddr ioMemBase } })
        else .ok (-1, st)

/-! ## The entries of the table -/

/-- The entry at `p` ends in the table. -/
def entryFits (mem : Nat → UInt8) (p : Nat) : Prop :=
  p + 2 ≤ madtLength mem ∧ p + entryLen mem p ≤ madtLength mem

/-- A complete entry of an enabled local APIC. -/
def IsCpu (mem : Nat → UInt8) (p : Nat) : Prop :=
  mem p = 0 ∧ sizeofLapic ≤ entryLen mem p ∧ lapicEnabled mem p

instance (mem : Nat → UInt8) (p : Nat) : Decidable (IsCpu mem p) := inferInstanceAs (Decidable (_ ∧ _ ∧ _))

/-- Nothing behind the table was read, and `init_cpu` was called for the CPUs of the table, in its order. -/
structure MadtExact (mem : Nat → UInt8) (st : MadtScan) : Prop where
  bounded : ∀ i ∈ st.reads, i < madtLength mem
  calls : ∃ ps, Records.From (entryLen mem) (entryFits mem) sizeofMadt ps ∧ ps.Pairwise (· < ·) ∧
    st.calls = (ps.filter (IsCpu mem ·)).map (apicId mem)

/-- The scan has gone over the entries `ps`. -/
structure Scanned (mem : Nat → UInt8) (st out : MadtScan) (ps : List Nat) : Prop where
  calls : out.calls = st.calls ++ (ps.filter (IsCpu mem ·)).map (apicId mem)
  reads : ∀ i ∈ out.reads, i ∈ st.reads ∨ i < madtLength mem
  counted : out.globals.nrCpu + st.calls.length = st.globals.nrCpu + out.calls.length

section Scan

variable {mem : Nat → UInt8} {st out : MadtScan} {fuel p : Nat} {ps : List Nat}

theorem MadtScan.mem_look {i j n : Nat} (h : i ∈ (st.look j n).reads) : i ∈ st.reads ∨ i < j + n := by
  rcases List.mem_append.1 h with h | h
  · exact .inl h
  · exact .inr (List.mem_range'_1.1 h).2

theorem Scanned.refl (mem : Nat → UInt8) (st : MadtScan) : Scanned mem st st [] :=
  ⟨(List.append_nil _).symm, fun _ => .inl, rfl⟩

theorem Scanned.look {j n : Nat} (h : Scanned mem st out ps) (hn : j + n ≤ madtLength mem) :
    Scanned mem st (out.look j n) ps := by
  refine ⟨h.calls, fun i hi => ?_, h.counted⟩
  rcases MadtScan.mem_look hi with hi | hi
  · exact h.reads i hi
  · exact .inr (Nat.lt_of_lt_of_le hi hn)

theorem Scanned.trans {st₁ : MadtScan} {qs : List Nat} (h : Scanned mem st st₁ ps) (h' : Scanned mem st₁ out qs) :
    Scanned mem st out (ps ++ qs) := by
  refine ⟨?_, fun i hi => ?_, ?_⟩
  · rw [h'.calls, h.calls, List.filter_append, List.map_append, List.append_assoc]
  · exact (h'.reads i hi).elim (h.reads i) .inr
  · have := h.counted
    have := h'.counted
    omega

/-- An entry that is no CPU. -/
theorem Scanned.skip (h : Scanned mem st out []) (hp : ¬ IsCpu mem p) : Scanned mem st out [p] := by
  refine ⟨?_, h.reads, h.counted⟩
  rw [h.calls, List.filter_cons_of_neg (by simpa using hp)]

theorem onLapic_scanned (htype : mem p = 0) (hend : p + entryLen mem p ≤ madtLength mem) :
    Scanned mem st (onLapic mem p st) [p] := by
  unfold onLapic
  split
  case isTrue hlen => exact (Scanned.refl mem st).skip fun h => absurd h.2.1 (Nat.not_le_of_lt hlen)
  case isFalse hlen =>
      have hflags := (Scanned.refl mem st).look (j := p + 4) (n := 4) (by unfold sizeofLapic at hlen; omega)
      split
      case isTrue hoff => exact hflags.skip fun h => hoff h.2.2
      case isFalse hon =>
          have hcpu : IsCpu mem p := ⟨htype, Nat.le_of_not_lt hlen, not_not.1 hon⟩
          have hid := hflags.look (j := p + 3) (n := 1) (by unfold sizeofLapic at hlen; omega)
          refine ⟨?_, hid.reads, ?_⟩
          · rw [List.filter_cons_of_pos (by simpa using hcpu)]
            rfl
          · show st.globals.nrCpu + 1 + _ = st.globals.nrCpu + (st.calls ++ [_]).length
            rw [List.length_append, List.length_singleton]
            omega

theorem onIoapic_scanned (htype : mem p = 1) (hend : p + entryLen mem p ≤ madtLength mem) :
    Scanned mem st (onIoapic mem p st) [p] := by
  have hno : ¬ IsCpu mem p := by
    intro h
    rw [h.1] at htype
    exact absurd htype (by decide)
  unfold onIoapic
  split
  case isTrue => exact (Scanned.refl mem st).skip hno
  case isFalse hlen =>
      unfold sizeofIoapic at hlen
      have haddr := (Scanned.refl mem st).look (j := p + 4) (n := 4) (by omega)
      have hid := haddr.look (j := p + 2) (n := 1) (by omega)
      have hbase := (hid.look (j := p + 8) (n := 4) (by omega)).skip hno
      refine ⟨hbase.calls, hbase.reads, ?_⟩
      dsimp only
      split
      · exact hbase.counted
      · exact hbase.counted

theorem onEntry_scanned (hfits : entryFits mem p) : Scanned mem st (onEntry mem p st) [p] := by
  unfold onEntry
  by_cases hlapic : mem p = 0
  · rw [if_pos hlapic]
    exact onLapic_scanned hlapic hfits.2
  rw [if_neg hlapic]
  by_cases hioapic : mem p = 1
  · rw [if_pos hioapic]
    exact onIoapic_scanned hioapic hfits.2
  · rw [if_neg hioapic]
    exact (Scanned.refl mem st).skip fun h => hlapic h.1

/-- The loop ends at an entry that does not fit, or goes over one that does. -/
theorem scanMadt_succ (mem : Nat → UInt8) (fuel p : Nat) (st : MadtScan) :
    (¬ entryFits mem p ∧ ∃ out, scanMadt mem (madtLength mem) (fuel + 1) p st = .ok out ∧ Scanned mem st out []) ∨
    entryFits mem p ∧ ∃ st₁, Scanned mem st st₁ [p] ∧
      scanMadt mem (madtLength mem) (fuel + 1) p st =
        scanMadt mem (madtLength mem) fuel (p + entryLen mem p) st₁ := by
  have hrefl := Scanned.refl mem st
  rw [scanMadt]
  by_cases hend : p < madtLength mem
  case neg =>
    rw [if_neg hend]
    exact .inl ⟨fun hfits => hend (by have := hfits.1; omega), st, rfl, hrefl⟩
  rw [if_pos hend]
  by_cases hhead : madtLength mem - p < 2
  · rw [if_pos hhead]
    exact .inl ⟨fun hfits => by have := hfits.1; omega, st, rfl, hrefl⟩
  rw [if_neg hhead]
  by_cases hover : madtLength mem - p < entryLen mem p
  · rw [if_pos hover]
    exact .inl ⟨fun hfits => by have := hfits.2; omega, _, rfl, hrefl.look (by omega)⟩
  · have hfits : entryFits mem p := ⟨by omega, by omega⟩
    have hlooked := (hrefl.look (j := p + 1) (n := 1) (by omega)).look (j := p) (n := 1) (by omega)
    rw [if_neg hover]
    exact .inr ⟨hfits, _, hlooked.trans (onEntry_scanned hfits), rfl⟩

theorem scanMadt_ok (h : scanMadt mem (madtLength mem) fuel p st = .ok out) :
    ∃ ps, Records.From (entryLen mem) (entryFits mem) p ps ∧ Scanned mem st out ps := by
  induction fuel generalizing p st with
  | zero => cases h
  | succ fuel ih =>
      rcases scanMadt_succ mem fuel p st with ⟨hstop, out', hok, hscanned⟩ | ⟨hfits, st₁, hscanned, hrun⟩
      · rw [hok] at h
        obtain rfl := Except.ok.inj h
        exact ⟨[], .stop hstop, hscanned⟩
      · rw [hrun] at h
        obtain ⟨ps, hfrom, hrest⟩ := ih h
        exact ⟨p :: ps, .next hfits hfrom, hscanned.trans hrest⟩

theorem scanMadt_returns (h : Records.From (entryLen mem) (entryFits mem) p ps) (hfuel : ps.length < fuel) :
    ∃ out, scanMadt mem (madtLength mem) fuel p st = .ok out := by
  induction h generalizing fuel st with
  | @stop p hstop =>
      obtain ⟨fuel, rfl⟩ : ∃ n, fuel = n + 1 := ⟨fuel - 1, by omega⟩
      rcases scanMadt_succ mem fuel p st with ⟨-, out, hok, -⟩ | ⟨hfits, -⟩
      · exact ⟨out, hok⟩
      · exact absurd hfits hstop
  | @next p ps hfits _ ih =>
      rw [List.length_cons] at hfuel
      obtain ⟨fuel, rfl⟩ : ∃ n, fuel = n + 1 := ⟨fuel - 1, by omega⟩
      rcases scanMadt_succ mem fuel p st with ⟨hstop, -⟩ | ⟨-, st₁, -, hrun⟩
      · exact absurd hfits hstop
      · rw [hrun]
        exact ih (by omega)

theorem Scanned.exact {g : AcpiGlobals} (h : Scanned mem ⟨g, 0, [], []⟩ out ps)
    (hfrom : Records.From (entryLen mem) (entryFits mem) sizeofMadt ps) : MadtExact mem out := by
  refine ⟨fun i hi => ?_, ps, hfrom, hfrom.ascending.1, h.calls⟩
  rcases h.reads i hi with hnil | hlt
  · cases hnil
  · exact hlt

/-- Where the calls of `init_cpu` come back, `nr_cpu` is the number of CPUs in their table. -/
theorem scanMadt_nrCpu {avail boot : Nat} {s s' : CpuTable}
    (h : scanMadt mem (madtLength mem) fuel p st = .ok out) (hstart : st.globals.nrCpu = s.nrCpu)
    (hnone : st.calls = []) (hcpus : scanCpus avail boot s out.calls = .ok s') :
    out.globals.nrCpu = s'.nrCpu := by
  obtain ⟨ps, -, hscanned⟩ := scanMadt_ok h
  have hcounted := hscanned.counted
  rw [hnone, List.length_nil] at hcounted
  have := scanCpus_nrCpu hcpus
  omega

/-- **The scan of the MADT.** It ends, reads nothing behind the table and calls `init_cpu` for the CPUs of the
    table in its order, exactly when the table holds its own length and no entry on the way has length 0. -/
theorem acpiConfigSmp_exact_iff (mem : Nat → UInt8) (g : AcpiGlobals) :
    (∃ fuel ret out, acpiConfigSmp fuel (some mem) g = .ok (ret, out) ∧ MadtExact mem out) ↔
      8 ≤ madtLength mem ∧ ∀ p, Records.Reached (entryLen mem) (entryFits mem) sizeofMadt p →
        entryFits mem p → entryLen mem p ≠ 0 := by
  constructor
  · rintro ⟨fuel, ret, out, hok, hexact⟩
    obtain ⟨ps, hfrom, -⟩ := hexact.calls
    refine ⟨?_, hfrom.len_ne⟩
    -- the length itself is read first, up to offset 7
    by_cases hshort : madtLength mem < sizeofMadt
    · rw [acpiConfigSmp] at hok
      dsimp only at hok
      rw [if_pos hshort] at hok
      obtain ⟨-, rfl⟩ := Prod.mk.inj (Except.ok.inj hok)
      exact hexact.bounded 7 (show 7 ∈ [] ++ List.range' 4 4 by decide)
    · unfold sizeofMadt at hshort
      omega
  · rintro ⟨hlen, hne⟩
    have hlength := (Scanned.refl mem ⟨g, 0, [], []⟩).look (j := 4) (n := 4) (by omega)
    by_cases hshort : madtLength mem < sizeofMadt
    · refine ⟨0, -1, _, ?_, hlength.exact (.stop fun hfits => ?_)⟩
      · rw [acpiConfigSmp]
        dsimp only
        rw [if_pos hshort]
      · have := hfits.1
        omega
    have hge : 44 ≤ madtLength mem := Nat.le_of_not_lt hshort
    obtain ⟨ps, hfrom⟩ := Records.From.of_len_ne (fun q hq => hq.2) hne
    obtain ⟨out, hscan⟩ := @scanMadt_returns mem _ _ _ _ hfrom (Nat.lt_succ_self _)
    obtain ⟨ps', hfrom', hscanned⟩ := scanMadt_ok hscan
    have hall := ((hlength.look (j := 36) (n := 4) (by omega)).look (j := 4) (n := 4) (by omega)).trans hscanned
    have hexact := hall.exact hfrom'
    by_cases hcpus : out.globals.nrCpu ≠ 0
    · refine ⟨ps.length + 1, 0, { out with
        globals := { out.globals with ismp := 1, lapicBase := wadd (read32 mem 36) ioMemBase } }, ?_,
        hexact.bounded, hexact.calls⟩
      rw [acpiConfigSmp]
      dsimp only
      rw [if_neg hshort, hscan, ok_bind, if_pos hcpus]
    · refine ⟨ps.length + 1, -1, out, ?_, hexact⟩
      rw [acpiConfigSmp]
      dsimp only
      rw [if_neg hshort, hscan, ok_bind, if_neg hcpus]

end Scan

/-- A table of 46 bytes, the last two of them an entry of length 0. -/
def emptyEntry : Nat → UInt8 := fun i => if i = 4 then 46 else 0

theorem acpiConfigSmp_endless :
    ¬ ∃ fuel ret out, acpiConfigSmp fuel (some emptyEntry) ⟨0, 0, 0, 0⟩ = .ok (ret, out) := by
  rintro ⟨fuel, ret, out, hok⟩
  rw [acpiConfigSmp] at hok
  dsimp only at hok
  rw [if_neg (by decide)] at hok
  obtain ⟨st, hscan, -⟩ := bind_eq_ok.1 hok
  obtain ⟨ps, hfrom, -⟩ := scanMadt_ok hscan
  exact hfrom.len_ne sizeofMadt .start ⟨by decide, by decide⟩ rfl

end Yaos
