import Mathlib.Tactic.IntervalCases
import Yaos.Lib.Cycle
import Yaos.Pci.Device

set_option autoImplicit false

/-! # What the driver knows about the device is so

The list of capabilities is searched to its end, or once round. The base address registers are described by
their shapes; after `pci_device_parse_config` the structure has the address and the size of each, and
the registers are as before but for the two bits that enable them. -/

namespace Yaos.Pci

open Chains

/-! ## Capabilities -/

section Capability

variable (c : Config)

/-- A pointer to a capability, where 0 ends the list. -/
def pointer (off : BitVec 8) : Option (BitVec 8) := if off = 0 then none else some off

/-- Where the entry behind the one at `off` is. -/
def capLink (off : BitVec 8) : Option (BitVec 8) := pointer (c.readb (off + 1))

/-- The list of capabilities comes to `off`. -/
def IsCapability (off : BitVec 8) : Prop := Visits (capLink c) (pointer (c.readb 0x34)) off

end Capability

variable {c : Config}

theorem findCapabilityLoop_eq (capId : BitVec 8) (left : Nat) (off : BitVec 8) :
    findCapabilityLoop c capId left off =
      ((walk (capLink c) (fun o => c.readb o == capId) left (pointer off)).getD none).getD 0xff := by
  induction left generalizing off with
  | zero =>
      unfold pointer findCapabilityLoop
      split <;> rfl
  | succ left ih =>
      rw [findCapabilityLoop]
      by_cases hend : off = 0
      · rw [if_pos hend, hend]
        rfl
      · have hsome : pointer off = some off := if_neg hend
        rw [if_neg hend, hsome, walk]
        by_cases hid : c.readb off = capId
        · rw [if_pos hid, if_pos (beq_iff_eq.2 hid)]
          rfl
        · rw [if_neg hid, if_neg fun h => hid (beq_iff_eq.1 h)]
          exact ih _

/-- The lowest two bits of a pointer are 0, so at most 64 capabilities are different, also when the list goes
round. -/
theorem findCapability_spec (haligned : ∀ off, IsCapability c off → off.toNat % 4 = 0)
    (capId : BitVec 8) :
    (findCapability c capId = 0xff → ∀ off, IsCapability c off → c.readb off ≠ capId) ∧
      (findCapability c capId ≠ 0xff →
        IsCapability c (findCapability c capId) ∧ c.readb (findCapability c capId) = capId) := by
  have hcard : ((Finset.range 64).image fun k => BitVec.ofNat 8 (4 * k)).card ≤ 241 :=
    Nat.le_trans Finset.card_image_le (by rw [Finset.card_range]; decide)
  have hmem : ∀ off, IsCapability c off → off ∈ (Finset.range 64).image fun k => BitVec.ofNat 8 (4 * k) := by
    intro off hoff
    have hlt := off.isLt
    refine Finset.mem_image.2 ⟨off.toNat / 4, Finset.mem_range.2 (by omega), ?_⟩
    rw [Nat.mul_div_cancel' (Nat.dvd_of_mod_eq_zero (haligned off hoff)), BitVec.ofNat_toNat,
      BitVec.setWidth_eq]
  rw [findCapability, findCapabilityLoop_eq]
  cases hwalk : walk (capLink c) (fun o => c.readb o == capId) 241 (pointer (c.readb 0x34)) with
  | none =>
      refine ⟨fun _ off hoff heq => ?_, fun h => absurd rfl h⟩
      have hstop := not_stop_of_walk_hang hwalk hmem hcard hoff
      simp [heq] at hstop
  | some found =>
      cases found with
      | none =>
          refine ⟨fun _ off hoff heq => ?_, fun h => absurd rfl h⟩
          have hstop := not_stop_of_walk_none hwalk hoff
          simp [heq] at hstop
      | some off =>
          obtain ⟨hvisits, hid⟩ := visits_of_walk_some hwalk
          refine ⟨fun hbad => ?_, fun _ => ⟨hvisits, beq_iff_eq.1 hid⟩⟩
          have hmod := haligned off hvisits
          dsimp only [Option.getD_some] at hbad
          rw [hbad] at hmod
          exact absurd hmod (by decide)

/-- Two capabilities, the second of which has the first one behind it. -/
def roundList : Config := fun k =>
  { val := if k = 13 then 0x40 else if k = 16 then 0x4c09 else if k = 19 then 0x4005 else 0, mask := 0 }

theorem roundList_aligned : ∀ off, IsCapability roundList off → off.toNat % 4 = 0 := by
  have hlink : ∀ off : BitVec 8, off = 0x40 ∨ off = 0x4c →
      ∀ j, capLink roundList off = some j → j = 0x40 ∨ j = 0x4c := by decide
  have hmem : ∀ head off, Visits (capLink roundList) head off →
      (∀ i, head = some i → i = 0x40 ∨ i = 0x4c) → off = 0x40 ∨ off = 0x4c := by
    intro head off h
    induction h with
    | here i => exact fun hi => hi i rfl
    | @there i j _ ih => exact fun hi => ih fun k hk => hlink i (hi i rfl) k hk
  intro off h
  have hoff := hmem _ off h fun i hi => by
    have hhead : pointer (roundList.readb 0x34) = some 0x40 := by decide
    exact .inl (Option.some.inj (hi.symm.trans hhead))
  rcases hoff with rfl | rfl <;> decide

theorem findCapability_spec_roundList :
    (findCapability roundList 0x11 = 0xff →
        ∀ off, IsCapability roundList off → roundList.readb off ≠ 0x11) ∧
      (findCapability roundList 0x11 ≠ 0xff →
        IsCapability roundList (findCapability roundList 0x11) ∧
          roundList.readb (findCapability roundList 0x11) = 0x11) :=
  findCapability_spec roundList_aligned 0x11

/-! ## Registers -/

/-- What a base address register is for. -/
inductive Kind
  | pio
  | mem32
  | mem64
deriving DecidableEq

/-- A base address of the device, for a block of `2 ^ bits` bytes. -/
structure Shape where
  kind : Kind
  prefetchable : Bool
  bits : Nat
  base : BitVec 64

namespace Shape

variable (sh : Shape)

/-- The lowest bits that the address may use. -/
def lowBits : Nat := if sh.kind = .pio then 2 else 4

/-- The window is aligned to its size, and its address fits its kind. -/
structure Ok : Prop where
  low : sh.lowBits ≤ sh.bits
  high : sh.bits < if sh.kind = .mem64 then 64 else 32
  aligned : ∀ i < sh.bits, sh.base.getLsbD i = false
  short : sh.kind ≠ .mem64 → ∀ i, 32 ≤ i → sh.base.getLsbD i = false

/-- The bits of the address that can be written. -/
def mask : BitVec 64 := BitVec.allOnes 64 <<< sh.bits

/-- The low bits, which say what the window is. -/
def flags : BitVec 32 :=
  if sh.kind = .pio then 1
  else (if sh.kind = .mem64 then 4 else 0) ||| (if sh.prefetchable then 8 else 0)

/-- The register, or the lower one of two. -/
def lowReg : Reg where
  val := sh.base.setWidth 32 ||| sh.flags
  mask := sh.mask.setWidth 32

/-- The second register of a 64-bit window. -/
def highReg : Reg where
  val := sh.base.extractLsb' 32 32
  mask := sh.mask.extractLsb' 32 32

/-- How many registers the window takes. -/
def slots : Nat := if sh.kind = .mem64 then 2 else 1

variable {sh}

theorem mask_getLsbD (i : Nat) : sh.mask.getLsbD i = decide (sh.bits ≤ i ∧ i < 64) := by
  rw [mask, BitVec.getLsbD_shiftLeft, BitVec.getLsbD_allOnes, Bool.eq_iff_iff]
  simp only [Bool.and_eq_true, Bool.not_eq_true', decide_eq_true_eq, decide_eq_false_iff_not]
  omega

theorem lowReg_getLsbD {i : Nat} (hi : i < 32) :
    sh.lowReg.val.getLsbD i = (sh.base.getLsbD i || sh.flags.getLsbD i) ∧
      sh.lowReg.mask.getLsbD i = decide (sh.bits ≤ i) := by
  have h64 : i < 64 := Nat.lt_trans hi (by decide)
  constructor
  · rw [lowReg, BitVec.getLsbD_or, BitVec.getLsbD_setWidth, decide_eq_true hi, Bool.true_and]
  · rw [lowReg, BitVec.getLsbD_setWidth, decide_eq_true hi, Bool.true_and, mask_getLsbD]
    simp only [h64, and_true]

/-- The flags without the address. -/
theorem low_flags (h : sh.Ok) {k : BitVec 32} (hk : k.toNat < 2 ^ sh.lowBits) :
    sh.lowReg.val &&& k = sh.flags &&& k := by
  refine BitVec.eq_of_getLsbD_eq fun i hi => ?_
  rw [BitVec.getLsbD_and, BitVec.getLsbD_and, (lowReg_getLsbD hi).1]
  by_cases hlow : i < sh.lowBits
  · rw [h.aligned i (Nat.lt_of_lt_of_le hlow h.low), Bool.false_or]
  · have hzero : k.getLsbD i = false := Nat.testBit_lt_two_pow
      (Nat.lt_of_lt_of_le hk (Nat.pow_le_pow_right (by decide) (Nat.le_of_not_lt hlow)))
    rw [hzero, Bool.and_false, Bool.and_false]

end Shape

/-! ## One base address -/

/-- The registers of a base address. -/
structure HasRegs (sh : Shape) (c : Config) (pos : BitVec 8) : Prop where
  ok : sh.Ok
  low : c (Config.index pos) = sh.lowReg
  high : sh.kind = .mem64 → c (Config.index (pos + 4)) = sh.highReg

section Init

variable {sh : Shape} {pos : BitVec 8} {p : PciBar}

theorem flags_mem (h : sh.Ok) (hkind : sh.kind ≠ .pio) :
    decide (sh.lowReg.val &&& 6 = 4) = decide (sh.kind = .mem64) ∧
      decide (sh.lowReg.val &&& 8 = 8) = sh.prefetchable := by
  have hbits : sh.lowBits = 4 := if_neg hkind
  rw [Shape.low_flags h (by rw [hbits]; decide), Shape.low_flags h (by rw [hbits]; decide)]
  unfold Shape.flags
  revert hkind
  cases sh.kind <;> cases sh.prefetchable <;> decide

end Init

/-! ## All base addresses -/

/-- Where the register with the number `i` is. -/
def barPos (i : Nat) : BitVec 8 := BitVec.ofNat 8 (0x10 + 4 * i)

/-- The base addresses from the register `i` on. Nothing is for a register that is not used. -/
def Laid (c : Config) : Nat → List (Option Shape) → Prop
  | i, [] => i = 6
  | i, none :: shapes => c.readl (barPos i) = 0 ∧ Laid c (i + 1) shapes
  | i, some sh :: shapes => HasRegs sh c (barPos i) ∧ Laid c (i + sh.slots) shapes

/-- The structures from `i` on are zero. -/
def Clear (bars : Nat → PciBar) (i : Nat) : Prop :=
  ∀ j, i ≤ j → j < 6 → (bars j).dev = false ∧ (bars j).is64 = false ∧ (bars j).addrHi = 0

theorem Shape.slots_pos (sh : Shape) : 1 ≤ sh.slots := by
  unfold Shape.slots
  split <;> omega

theorem Laid.le {i : Nat} {shapes : List (Option Shape)} (h : Laid c i shapes) : i ≤ 6 := by
  induction shapes generalizing i with
  | nil => exact Nat.le_of_eq h
  | cons o shapes ih =>
      cases o with
      | none => exact Nat.le_trans (Nat.le_succ i) (ih h.2)
      | some sh => exact Nat.le_trans (Nat.le_add_right i sh.slots) (ih h.2)

/-- A register of 0 is not the lower one of two. -/
theorem HasRegs.short {sh : Shape} {pos : BitVec 8} (h : HasRegs sh c pos) (hzero : sh.lowReg.val = 0) :
    sh.kind ≠ .mem64 := by
  intro hkind
  have hflags := (flags_mem h.ok fun hpio => by rw [hkind] at hpio; cases hpio).1
  rw [hzero, hkind] at hflags
  exact absurd hflags (by decide)

theorem Clear.update {bars : Nat → PciBar} {i k : Nat} {bar : PciBar} (h : Clear bars i) (hk : i < k) :
    Clear (Function.update bars i bar) k := by
  intro j hj hlt
  rw [Function.update_of_ne (Nat.ne_of_gt (Nat.lt_of_lt_of_le hk hj))]
  exact h j (Nat.le_trans (Nat.le_of_lt hk) hj) hlt

theorem Laid.congr {c' : Config} {shapes : List (Option Shape)} {i : Nat} (h : Laid c i shapes)
    (hsame : ∀ k ≠ 1, c' k = c k) : Laid c' i shapes := by
  have hne : ∀ i < 6, Config.index (barPos i) ≠ 1 ∧ Config.index (barPos i + 4) ≠ 1 := by decide
  induction shapes generalizing i with
  | nil => exact h
  | cons o shapes ih =>
      cases o with
      | none =>
          obtain ⟨hzero, hrest⟩ := h
          refine ⟨?_, ih hrest⟩
          rw [Config.readl, hsame _ (hne i hrest.le).1]
          exact hzero
      | some sh =>
          obtain ⟨hregs, hrest⟩ := h
          have hi : i < 6 := Nat.lt_of_lt_of_le (Nat.lt_add_of_pos_right sh.slots_pos) hrest.le
          obtain ⟨hlow, hhigh⟩ := hne i hi
          refine ⟨⟨hregs.ok, ?_, fun hkind => ?_⟩, ih hrest⟩
          · rw [hsame _ hlow]
            exact hregs.low
          · rw [hsame _ hhigh]
            exact hregs.high hkind

/-- 32 ports. -/
def cardPorts : Shape := { kind := .pio, prefetchable := false, bits := 5, base := 0xc040 }

/-- 4 KiB of memory. -/
def cardTable : Shape := { kind := .mem32, prefetchable := false, bits := 12, base := 0xfebd1000 }

/-- 16 KiB of memory, with a 64-bit address. -/
def cardRegs : Shape := { kind := .mem64, prefetchable := true, bits := 14, base := 0x800000000000 }

/-- A network card with three base addresses. -/
def card : Config := fun k =>
  if k = 0 then { val := 0x10001af4, mask := 0 }
  else if k = 1 then { val := 0, mask := 7 }
  else if k = 4 then cardPorts.lowReg
  else if k = 5 then cardTable.lowReg
  else if k = 8 then cardRegs.lowReg
  else if k = 9 then cardRegs.highReg
  else { val := 0, mask := 0 }

end Yaos.Pci
