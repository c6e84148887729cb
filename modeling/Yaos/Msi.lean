import Mathlib.Data.Finset.Card
import Mathlib.Logic.Function.Basic
import Mathlib.Order.Interval.Finset.Nat

set_option autoImplicit false

/-! # Message signalled interrupts (`arch/x86_64/msi.c`, `arch/x86_64/irq.c`, `libs/libpci/pci_device.c`)

`msi_register_arr` installs a handler for each of a device's interrupts: it searches a free interrupt
vector, and writes the message that raises it to the registers of the device. With MSI-X these are a
table of entries in the memory of the device, with MSI a few registers in its configuration space, which
lie differently for 32-bit and for 64-bit message addresses. -/

namespace Yaos.Msi

/-- What the functions read of a PCI device. -/
structure PciDevice where
  haveMsix : Bool
  msixMsgnum : Nat
  msixTableBar : Fin 6
  msixTableOffset : Nat
  haveMsi : Bool
  msiLocation : Nat
  is64Address : Bool
  isVectorMask : Bool
  /-- Where `pci_bar_map` maps a BAR, for those that the device has. -/
  bars : Fin 6 → Option Nat

/-- `msi_msgnum`. -/
def msiMsgnum : Nat := 1

/-- The interrupt vectors and the registers of a device. -/
structure State where
  /-- Nothing stands for `default_irq_handler`. -/
  irqVectors : Nat → Option Nat
  command : BitVec 16
  msiCtrl : BitVec 16
  msixCtrl : BitVec 16
  config : Nat → BitVec 32
  mmio : Nat → BitVec 32

/-- A register of the configuration space is written. -/
def State.writel (s : State) (reg : Nat) (val : BitVec 32) : State :=
  { s with config := Function.update s.config reg val }

/-- A word of the MSI-X table is written. -/
def State.setl (s : State) (addr : Nat) (val : BitVec 32) : State :=
  { s with mmio := Function.update s.mmio addr val }

/-- `pci_disable_intx`: bit 10 of the command register is set. -/
def disableIntx (s : State) : State := { s with command := s.command ||| 0x400 }

/-! ## Vectors and messages -/

/-- The result is the vector, or 0. -/
def registerIrqHandler (s : State) (p : Nat) : Nat × State :=
  match (List.range' 100 156).find? fun i => decide (s.irqVectors i = none) with
  | none => (0, s)
  | some i => (i, { s with irqVectors := Function.update s.irqVectors i (some p) })

/-- `msi_msg`. -/
structure MsiMsg where
  addressLo : BitVec 32
  addressHi : BitVec 32
  data : BitVec 32
deriving DecidableEq

/-- `msi_compose_msg`. -/
def msiComposeMsg (x2apic : Bool) (vector : Nat) (destid : BitVec 32) : MsiMsg where
  addressHi := if x2apic then destid &&& 0xffffff00 else 0
  addressLo := 0xfee00000 ||| ((destid <<< 12) &&& 0x00ffff0)
  data := (1 <<< 14) ||| (BitVec.ofNat 32 vector &&& 0xff)

section Device

variable (d : PciDevice)

/-! ## MSI -/

/-- `PCIR_MSI_MASK_64` or `PCIR_MSI_MASK_32`. -/
def PciDevice.msiMaskReg : Nat := d.msiLocation + if d.is64Address then 0x10 else 0x0c

/-- What `msi_mask_entry` and `msi_unmask_entry` share. -/
def msiUpdateMask (update : BitVec 32 → BitVec 32) (entryId : Nat) (s : State) : Bool × State :=
  if d.haveMsi = false then (false, s)
  else if msiMsgnum ≤ entryId then (false, s)
  else if d.isVectorMask then (true, s.writel d.msiMaskReg (update (s.config d.msiMaskReg)))
  else (true, s)

/-- `msi_mask_entry`. -/
def msiMaskEntry (entryId : Nat) : State → Bool × State :=
  msiUpdateMask d (· ||| 1#32 <<< entryId) entryId

/-- `msi_unmask_entry`. -/
def msiUnmaskEntry (entryId : Nat) : State → Bool × State :=
  msiUpdateMask d (· &&& ~~~(1#32 <<< entryId)) entryId

/-- Both branches write the data to `PCIR_MSI_DATA_64`. -/
def pciMsiWriteEntry (entryId : Nat) (msg : MsiMsg) (s : State) : Bool × State :=
  if d.haveMsi = false then (false, s)
  else if msiMsgnum ≤ entryId then (false, s)
  else if d.is64Address then
    let s := s.writel (d.msiLocation + 0x4) msg.addressLo
    let s := s.writel (d.msiLocation + 0x8) msg.addressHi
    (true, s.writel (d.msiLocation + 0x0c) msg.data)
  else
    let s := s.writel (d.msiLocation + 0x4) msg.addressLo
    (true, s.writel (d.msiLocation + 0x0c) msg.data)

/-- `pci_msi_enable`: each vector is masked before MSI is switched on. -/
def pciMsiEnable (s : State) : State :=
  if d.haveMsi = false then s
  else
    let s := disableIntx s
    let ctrl := s.msiCtrl ||| 1
    let s := (List.range msiMsgnum).foldl (fun s i => (msiMaskEntry d i s).2) s
    { s with msiCtrl := ctrl }

/-! ## MSI-X -/

/-- `msix_get_table`. -/
def msixGetTable : Nat :=
  match d.bars d.msixTableBar with
  | none => 0
  | some mmio => mmio + d.msixTableOffset

/-- The address of an entry of the table. -/
def PciDevice.entryaddr (entry : Nat) : Nat := msixGetTable d + entry * 16

/-- What `msix_mask_entry` and `msix_unmask_entry` share. -/
def msixUpdateControl (update : BitVec 32 → BitVec 32) (entryId : Nat) (s : State) : Bool × State :=
  if d.haveMsix = false then (false, s)
  else if d.msixMsgnum ≤ entryId then (false, s)
  else
    let ctrl := d.entryaddr entryId + 12
    (true, s.setl ctrl (update (s.mmio ctrl)))

/-- `msix_mask_entry`. -/
def msixMaskEntry : Nat → State → Bool × State := msixUpdateControl d (· ||| 1#32 <<< 0)

/-- `msix_unmask_entry`. -/
def msixUnmaskEntry : Nat → State → Bool × State := msixUpdateControl d (· &&& ~~~(1#32 <<< 0))

/-- `pci_msix_write_entry`. -/
def pciMsixWriteEntry (entry : Nat) (msg : MsiMsg) (s : State) : Bool × State :=
  if d.haveMsix = false then (false, s)
  else if d.msixMsgnum ≤ entry then (false, s)
  else
    let s := s.setl (d.entryaddr entry) msg.addressLo
    let s := s.setl (d.entryaddr entry + 4) msg.addressHi
    (true, s.setl (d.entryaddr entry + 8) msg.data)

/-- `pci_msix_enable`. -/
def pciMsixEnable (s : State) : State :=
  if d.haveMsix = false then s
  else
    match d.bars d.msixTableBar with
    | none => s
    | some _ =>
        let s := disableIntx s
        let ctrl := s.msixCtrl ||| 0x8000 ||| 0x4000
        let s := { s with msixCtrl := ctrl }
        let s := (List.range d.msixMsgnum).foldl (fun s i => (msixMaskEntry d i s).2) s
        { s with msixCtrl := ctrl &&& ~~~0x4000 }

/-! ## `msi_register_arr` -/

/-- MSI-X where the device has it, else MSI. -/
def PciDevice.enable (s : State) : State := if d.haveMsix then pciMsixEnable d s else pciMsiEnable d s

/-- What the loop does for an entry; the results of the three calls are dropped. -/
def PciDevice.wire (i : Nat) (msg : MsiMsg) (s : State) : State :=
  if d.haveMsix then
    (msixUnmaskEntry d i (pciMsixWriteEntry d i msg (msixMaskEntry d i s).2).2).2
  else (msiUnmaskEntry d i (pciMsiWriteEntry d i msg (msiMaskEntry d i s).2).2).2

variable (x2apic : Bool) (destid : BitVec 32) (p : Nat → Nat)

/-- The loop from entry `i` on, for as many entries as the first argument says. -/
def msiRegisterLoop : Nat → Nat → State → Bool × State
  | 0, _, s => (true, s)
  | k + 1, i, s =>
      let (n, s) := registerIrqHandler s (p i)
      if n = 0 then (false, s)
      else msiRegisterLoop k (i + 1) (d.wire i (msiComposeMsg x2apic n destid) s)

/-- `msi_register_arr`. -/
def msiRegisterArr (nr : Int) (s : State) : Bool × State :=
  msiRegisterLoop d x2apic destid p nr.toNat 0 (d.enable s)

/-! ## What it is for -/

/-- The device has message registers for entry `i`, and they hold the message. -/
def PciDevice.Carries (s : State) (i : Nat) (msg : MsiMsg) : Prop :=
  if d.haveMsix then
    (d.bars d.msixTableBar).isSome ∧ i < d.msixMsgnum ∧ s.mmio (d.entryaddr i) = msg.addressLo ∧
      s.mmio (d.entryaddr i + 4) = msg.addressHi ∧ s.mmio (d.entryaddr i + 8) = msg.data
  else
    d.haveMsi = true ∧ i < msiMsgnum ∧ s.config (d.msiLocation + 0x4) = msg.addressLo ∧
      if d.is64Address then
        s.config (d.msiLocation + 0x8) = msg.addressHi ∧ s.config (d.msiLocation + 0x0c) = msg.data
      else s.config (d.msiLocation + 0x8) = msg.data

/-- Vector `i` of the device is not masked. -/
def PciDevice.Unmasked (s : State) (i : Nat) : Prop :=
  if d.haveMsix then s.msixCtrl &&& 0x4000 = 0 ∧ (s.mmio (d.entryaddr i + 12)).getLsbD 0 = false
  else d.isVectorMask = true → (s.config d.msiMaskReg).getLsbD i = false

/-- The first `nr` handlers are installed in vectors of their own, which were free and which the device
    raises. -/
def Installed (nr : Int) (s s' : State) : Prop :=
  ∃ v : Nat → Nat, (∀ i j : Nat, (i : Int) < nr → (j : Int) < nr → v i = v j → i = j) ∧
    ∀ i : Nat, (i : Int) < nr → 100 ≤ v i ∧ v i < 256 ∧ s.irqVectors (v i) = none ∧
      s'.irqVectors (v i) = some (p i) ∧ d.Carries s' i (msiComposeMsg x2apic (v i) destid) ∧
      d.Unmasked s' i

/-- All handlers are installed, or no vector is taken. -/
def AllOrNothing (nr : Int) (s : State) : Prop :=
  ((msiRegisterArr d x2apic destid p nr s).1 = true →
    Installed d x2apic destid p nr s (msiRegisterArr d x2apic destid p nr s).2) ∧
  ((msiRegisterArr d x2apic destid p nr s).1 = false →
    ∀ w, s.irqVectors w = none → (msiRegisterArr d x2apic destid p nr s).2.irqVectors w = none)

/-- The vectors that `register_irq_handler` can give out. -/
def State.freeVectors (s : State) : Finset Nat :=
  (Finset.Ico 100 256).filter fun i => s.irqVectors i = none

/-- The device has registers for `nr` entries where they are written. With 32-bit addresses the data
    register must hold the message of the first free vector already. -/
def PciDevice.Fits (nr : Int) (s : State) : Prop :=
  if d.haveMsix then (d.bars d.msixTableBar).isSome ∧ nr ≤ d.msixMsgnum
  else
    d.haveMsi = true ∧ nr ≤ msiMsgnum ∧ (d.is64Address = true ∨
      ∀ v ∈ s.freeVectors, (∀ w ∈ s.freeVectors, v ≤ w) →
        s.config (d.msiLocation + 0x8) = (msiComposeMsg x2apic v destid).data)

/-! ## The search for a vector -/

variable {d p} {s : State} {x2apic destid}

@[simp] theorem mem_freeVectors {v : Nat} :
    v ∈ s.freeVectors ↔ (100 ≤ v ∧ v < 256) ∧ s.irqVectors v = none := by
  simp [State.freeVectors]

/-- The search ends at the first free vector or, where there is none, leaves all as it is. -/
theorem registerIrqHandler_cases (s : State) (h : Nat) :
    (s.freeVectors = ∅ ∧ registerIrqHandler s h = (0, s)) ∨
      ∃ v ∈ s.freeVectors, (∀ w ∈ s.freeVectors, v ≤ w) ∧ registerIrqHandler s h =
        (v, { s with irqVectors := Function.update s.irqVectors v (some h) }) := by
  unfold registerIrqHandler
  cases hfind : (List.range' 100 156).find? fun i => decide (s.irqVectors i = none) with
  | none =>
      refine .inl ⟨Finset.eq_empty_of_forall_notMem fun v hv => ?_, rfl⟩
      obtain ⟨hrange, hfree⟩ := mem_freeVectors.1 hv
      have hno := List.find?_eq_none.1 hfind v (List.mem_range'_1.2 hrange)
      simp [hfree] at hno
  | some v =>
      obtain ⟨hfree, hmem, hbelow⟩ := List.find?_range'_eq_some.1 hfind
      refine .inr ⟨v, ?_, fun w hw => ?_, rfl⟩
      · exact mem_freeVectors.2 ⟨List.mem_range'_1.1 hmem, by simpa using hfree⟩
      · by_contra hlt
        obtain ⟨hrange, hw⟩ := mem_freeVectors.1 hw
        have hno := hbelow w hrange.1 (Nat.lt_of_not_le hlt)
        simp [hw] at hno

theorem freeVectors_update {v h : Nat} :
    { s with irqVectors := Function.update s.irqVectors v (some h) : State }.freeVectors =
      s.freeVectors.erase v := by
  ext w
  by_cases hw : w = v
  · simp [hw]
  · simp [hw]

theorem freeVectors_congr {s' : State} (h : s'.irqVectors = s.irqVectors) :
    s'.freeVectors = s.freeVectors := by
  rw [State.freeVectors, h, State.freeVectors]

/-! ## Writing the registers leaves the vectors alone -/

@[simp] theorem writel_irqVectors {reg : Nat} {val : BitVec 32} :
    (s.writel reg val).irqVectors = s.irqVectors := rfl

@[simp] theorem setl_irqVectors {addr : Nat} {val : BitVec 32} :
    (s.setl addr val).irqVectors = s.irqVectors := rfl

@[simp] theorem msiUpdateMask_irqVectors {u : BitVec 32 → BitVec 32} {i : Nat} :
    (msiUpdateMask d u i s).2.irqVectors = s.irqVectors := by
  unfold msiUpdateMask
  split
  · rfl
  · split
    · rfl
    · split <;> rfl

@[simp] theorem msixUpdateControl_irqVectors {u : BitVec 32 → BitVec 32} {i : Nat} :
    (msixUpdateControl d u i s).2.irqVectors = s.irqVectors := by
  unfold msixUpdateControl
  split
  · rfl
  · split <;> rfl

@[simp] theorem pciMsiWriteEntry_irqVectors {i : Nat} {msg : MsiMsg} :
    (pciMsiWriteEntry d i msg s).2.irqVectors = s.irqVectors := by
  unfold pciMsiWriteEntry
  split
  · rfl
  · split
    · rfl
    · split <;> rfl

@[simp] theorem pciMsixWriteEntry_irqVectors {i : Nat} {msg : MsiMsg} :
    (pciMsixWriteEntry d i msg s).2.irqVectors = s.irqVectors := by
  unfold pciMsixWriteEntry
  split
  · rfl
  · split <;> rfl

theorem wire_irqVectors {i : Nat} {msg : MsiMsg} : (d.wire i msg s).irqVectors = s.irqVectors := by
  unfold PciDevice.wire msixUnmaskEntry msixMaskEntry msiUnmaskEntry msiMaskEntry
  split <;> simp

/-- Masking one entry after the other. -/
theorem foldl_irqVectors {f : Nat → State → Bool × State}
    (hf : ∀ i s, (f i s).2.irqVectors = s.irqVectors) (is : List Nat) :
    (is.foldl (fun s i => (f i s).2) s).irqVectors = s.irqVectors := by
  induction is generalizing s with
  | nil => rfl
  | cons i is ih => rw [List.foldl_cons, ih, hf]

theorem enable_irqVectors : (d.enable s).irqVectors = s.irqVectors := by
  unfold PciDevice.enable pciMsixEnable pciMsiEnable
  split
  · split
    · rfl
    · split
      · rfl
      · exact foldl_irqVectors (fun i s => msixUpdateControl_irqVectors) _
  · split
    · rfl
    · exact foldl_irqVectors (fun i s => msiUpdateMask_irqVectors) _

/-! ## The loop -/

theorem msiRegisterLoop_succ {k i v : Nat}
    (hreg : registerIrqHandler s (p i) =
      (v, { s with irqVectors := Function.update s.irqVectors v (some (p i)) })) (hv : v ≠ 0) :
    msiRegisterLoop d x2apic destid p (k + 1) i s = msiRegisterLoop d x2apic destid p k (i + 1)
      (d.wire i (msiComposeMsg x2apic v destid)
        { s with irqVectors := Function.update s.irqVectors v (some (p i)) }) := by
  rw [msiRegisterLoop, hreg]
  exact if_neg hv

theorem msiRegisterLoop_full {k i : Nat} (hreg : registerIrqHandler s (p i) = (0, s)) :
    msiRegisterLoop d x2apic destid p (k + 1) i s = (false, s) := by
  rw [msiRegisterLoop, hreg]
  exact if_pos rfl

/-- A vector that is taken stays taken. -/
theorem msiRegisterLoop_taken {k i w h : Nat} (hw : s.irqVectors w = some h) :
    (msiRegisterLoop d x2apic destid p k i s).2.irqVectors w = some h := by
  induction k generalizing i s with
  | zero => exact hw
  | succ k ih =>
      rcases registerIrqHandler_cases s (p i) with ⟨-, hreg⟩ | ⟨v, hv, -, hreg⟩
      · rw [msiRegisterLoop_full hreg]
        exact hw
      · obtain ⟨hrange, hfree⟩ := mem_freeVectors.1 hv
        rw [msiRegisterLoop_succ hreg (by omega)]
        refine ih ?_
        have hne : w ≠ v := by
          rintro rfl
          rw [hfree] at hw
          cases hw
        rw [wire_irqVectors]
        simpa [hne] using hw

/-- The loop takes the first free vector, whatever comes after. -/
theorem msiRegisterLoop_first {k i v : Nat} (hv : v ∈ s.freeVectors)
    (hfirst : ∀ w ∈ s.freeVectors, v ≤ w) :
    (msiRegisterLoop d x2apic destid p (k + 1) i s).2.irqVectors v = some (p i) := by
  rcases registerIrqHandler_cases s (p i) with ⟨hnone, -⟩ | ⟨v', hv', hfirst', hreg⟩
  · rw [hnone] at hv
    simp at hv
  · obtain rfl : v = v' := Nat.le_antisymm (hfirst v' hv') (hfirst' v hv)
    have hrange := (mem_freeVectors.1 hv).1
    rw [msiRegisterLoop_succ hreg (by omega)]
    refine msiRegisterLoop_taken ?_
    rw [wire_irqVectors]
    simp

/-! ## MSI-X -/

theorem setl_mmio {a b : Nat} {val : BitVec 32} :
    (s.setl a val).mmio b = if b = a then val else s.mmio b := by
  simp [State.setl, Function.update_apply]

theorem entryaddr_succ (i : Nat) : d.entryaddr (i + 1) = d.entryaddr i + 16 := by
  unfold PciDevice.entryaddr
  omega

/-- Entry `i` of the table holds the message and is not masked. -/
structure PciDevice.Entry (d : PciDevice) (s : State) (i : Nat) (msg : MsiMsg) : Prop where
  lo : s.mmio (d.entryaddr i) = msg.addressLo
  hi : s.mmio (d.entryaddr i + 4) = msg.addressHi
  data : s.mmio (d.entryaddr i + 8) = msg.data
  mask : (s.mmio (d.entryaddr i + 12)).getLsbD 0 = false

theorem PciDevice.Entry.congr {s' : State} {i : Nat} {msg : MsiMsg} (h : d.Entry s i msg)
    (hsame : ∀ a < d.entryaddr (i + 1), s'.mmio a = s.mmio a) : d.Entry s' i msg := by
  rw [entryaddr_succ] at hsame
  refine ⟨?_, ?_, ?_, ?_⟩
  · rw [hsame _ (by omega), h.lo]
  · rw [hsame _ (by omega), h.hi]
  · rw [hsame _ (by omega), h.data]
  · rw [hsame _ (by omega), h.mask]

/-- An entry is written in full and unmasked, and nothing below it changes. -/
theorem wire_msix {i : Nat} (msg : MsiMsg) (s : State) (hmsix : d.haveMsix = true) (hi : i < d.msixMsgnum) :
    d.Entry (d.wire i msg s) i msg ∧ (∀ a < d.entryaddr i, (d.wire i msg s).mmio a = s.mmio a) ∧
      (d.wire i msg s).msixCtrl = s.msixCtrl := by
  have hon : ¬ d.haveMsix = false := by simp [hmsix]
  have hin : ¬ d.msixMsgnum ≤ i := Nat.not_le_of_lt hi
  simp only [PciDevice.wire, if_pos hmsix, msixUnmaskEntry, msixMaskEntry, msixUpdateControl,
    pciMsixWriteEntry, if_neg hon, if_neg hin]
  refine ⟨⟨?_, ?_, ?_, ?_⟩, fun a ha => ?_, rfl⟩
  all_goals simp only [setl_mmio]
  · simp
  · simp
  · simp
  · simp
  · have h0 : a ≠ d.entryaddr i := Nat.ne_of_lt ha
    have h4 : a ≠ d.entryaddr i + 4 := by omega
    have h8 : a ≠ d.entryaddr i + 8 := by omega
    have h12 : a ≠ d.entryaddr i + 12 := by omega
    simp [h0, h4, h8, h12]

/-- A run from `s` to `s'` gives the entries from `i` up to `m` the free vectors `v`. -/
structure PciDevice.Wires (d : PciDevice) (x2apic : Bool) (destid : BitVec 32) (p : Nat → Nat) (i m : Nat)
    (v : Nat → Nat) (s s' : State) : Prop where
  free : ∀ j, i ≤ j → j < m → v j ∈ s.freeVectors
  inj : ∀ j l, i ≤ j → j < m → i ≤ l → l < m → v j = v l → j = l
  installed : ∀ j, i ≤ j → j < m → s'.irqVectors (v j) = some (p j)
  entry : ∀ j, i ≤ j → j < m → d.Entry s' j (msiComposeMsg x2apic (v j) destid)
  below : ∀ a < d.entryaddr i, s'.mmio a = s.mmio a
  ctrl : s'.msixCtrl = s.msixCtrl

/-- One entry in front of those that are wired from the state after it. -/
theorem PciDevice.Wires.cons {s₁ s' : State} {i m n : Nat} {v : Nat → Nat}
    (h : d.Wires x2apic destid p (i + 1) m v s₁ s') (hn : n ∈ s.freeVectors)
    (hrest : s₁.freeVectors = s.freeVectors.erase n) (hown : s'.irqVectors n = some (p i))
    (hentry : d.Entry s₁ i (msiComposeMsg x2apic n destid))
    (hbelow : ∀ a < d.entryaddr i, s₁.mmio a = s.mmio a) (hctrl : s₁.msixCtrl = s.msixCtrl) :
    d.Wires x2apic destid p i m (Function.update v i n) s s' := by
  have hlater : ∀ j, i ≤ j → j ≠ i → i + 1 ≤ j := by omega
  have hmem : ∀ j, i + 1 ≤ j → j < m → v j ≠ n ∧ v j ∈ s.freeVectors := by
    intro j hj hjm
    have := h.free j hj hjm
    rw [hrest] at this
    exact Finset.mem_erase.1 this
  refine ⟨fun j hj hjm => ?_, fun j l hj hjm hl hlm he => ?_, fun j hj hjm => ?_, fun j hj hjm => ?_,
    fun a ha => ?_, h.ctrl.trans hctrl⟩
  · by_cases hji : j = i
    · simpa [hji] using hn
    · rw [Function.update_of_ne hji]
      exact (hmem j (hlater j hj hji) hjm).2
  · by_cases hji : j = i
    · by_cases hli : l = i
      · rw [hji, hli]
      · rw [hji, Function.update_self, Function.update_of_ne hli] at he
        exact absurd he.symm (hmem l (hlater l hl hli) hlm).1
    · by_cases hli : l = i
      · rw [hli, Function.update_self, Function.update_of_ne hji] at he
        exact absurd he (hmem j (hlater j hj hji) hjm).1
      · rw [Function.update_of_ne hji, Function.update_of_ne hli] at he
        exact h.inj j l (hlater j hj hji) hjm (hlater l hl hli) hlm he
  · by_cases hji : j = i
    · simpa [hji] using hown
    · rw [Function.update_of_ne hji]
      exact h.installed j (hlater j hj hji) hjm
  · by_cases hji : j = i
    · rw [hji, Function.update_self]
      exact hentry.congr h.below
    · rw [Function.update_of_ne hji]
      exact h.entry j (hlater j hj hji) hjm
  · rw [h.below a (by rw [entryaddr_succ]; omega), hbelow a ha]

/-- With enough free vectors the loop installs all handlers that have an entry. -/
theorem msiRegisterLoop_msix {k i : Nat} (hmsix : d.haveMsix = true) (hfits : i + k ≤ d.msixMsgnum)
    (hfree : k ≤ s.freeVectors.card) :
    (msiRegisterLoop d x2apic destid p k i s).1 = true ∧
      ∃ v, d.Wires x2apic destid p i (i + k) v s (msiRegisterLoop d x2apic destid p k i s).2 := by
  induction k generalizing i s with
  | zero =>
      refine ⟨rfl, fun j => j, fun j hj hjm => ?_, fun j l hj hjm => ?_, fun j hj hjm => ?_,
        fun j hj hjm => ?_, fun a ha => rfl, rfl⟩
      all_goals exact absurd hjm (Nat.not_lt_of_le hj)
  | succ k ih =>
      rcases registerIrqHandler_cases s (p i) with ⟨hnone, -⟩ | ⟨n, hn, hfirst, hreg⟩
      · rw [hnone] at hfree
        simp at hfree
      · have hrange := (mem_freeVectors.1 hn).1
        have hown : (msiRegisterLoop d x2apic destid p (k + 1) i s).2.irqVectors n = some (p i) :=
          msiRegisterLoop_first hn hfirst
        rw [msiRegisterLoop_succ hreg (by omega)] at hown ⊢
        obtain ⟨hentry, hbelow, hctrl⟩ := wire_msix (msiComposeMsg x2apic n destid)
          { s with irqVectors := Function.update s.irqVectors n (some (p i)) } hmsix
          (Nat.lt_of_lt_of_le (Nat.lt_add_of_pos_right (Nat.succ_pos k)) hfits)
        have hrest : (d.wire i (msiComposeMsg x2apic n destid)
            { s with irqVectors := Function.update s.irqVectors n (some (p i)) }).freeVectors =
              s.freeVectors.erase n := by
          rw [freeVectors_congr wire_irqVectors, freeVectors_update]
        have hmove : i + (k + 1) = i + 1 + k := by omega
        rw [hmove] at hfits ⊢
        obtain ⟨hok, v, hv⟩ := ih (i := i + 1) hfits
          (by rw [hrest, Finset.card_erase_of_mem hn]; exact Nat.le_sub_one_of_lt hfree)
        exact ⟨hok, _, hv.cons hn hrest hown hentry hbelow hctrl⟩

theorem enable_msix (hmsix : d.haveMsix = true) (hbar : (d.bars d.msixTableBar).isSome) :
    (d.enable s).msixCtrl &&& 0x4000 = 0 := by
  obtain ⟨mmio, hmmio⟩ := Option.isSome_iff_exists.1 hbar
  have hon : ¬ d.haveMsix = false := by simp [hmsix]
  rw [PciDevice.enable, if_pos hmsix, pciMsixEnable, if_neg hon, hmmio]
  dsimp only
  rw [BitVec.and_assoc]
  simp

/-! ## MSI -/

theorem writel_config {a b : Nat} {val : BitVec 32} :
    (s.writel a val).config b = if b = a then val else s.config b := by
  simp [State.writel, Function.update_apply]

theorem msiUpdateMask_config {u : BitVec 32 → BitVec 32} {i r : Nat} (hr : r ≠ d.msiMaskReg) :
    (msiUpdateMask d u i s).2.config r = s.config r := by
  unfold msiUpdateMask
  split
  · rfl
  · split
    · rfl
    · split
      · simp [writel_config, hr]
      · rfl

theorem enable_msi {r : Nat} (hmsix : d.haveMsix = false) (hr : r ≠ d.msiMaskReg) :
    (d.enable s).config r = s.config r := by
  have hoff : ¬ d.haveMsix = true := by simp [hmsix]
  rw [PciDevice.enable, if_neg hoff, pciMsiEnable]
  split
  · rfl
  · simp only [msiMsgnum, List.range_one, List.foldl_cons, List.foldl_nil]
    exact msiUpdateMask_config hr

/-- The write of entry 0, with the mask that is then left. -/
theorem wire_msi (msg : MsiMsg) (s : State) (hmsix : d.haveMsix = false) (hmsi : d.haveMsi = true) :
    (d.wire 0 msg s).config (d.msiLocation + 0x4) = msg.addressLo ∧
      (d.wire 0 msg s).config (d.msiLocation + 0x8) =
        (if d.is64Address then msg.addressHi else s.config (d.msiLocation + 0x8)) ∧
      (d.is64Address = true → (d.wire 0 msg s).config (d.msiLocation + 0x0c) = msg.data) ∧
      d.Unmasked (d.wire 0 msg s) 0 := by
  have hoff : ¬ d.haveMsix = true := by simp [hmsix]
  rw [PciDevice.Unmasked, if_neg hoff, PciDevice.wire, if_neg hoff]
  unfold msiUnmaskEntry msiMaskEntry msiUpdateMask pciMsiWriteEntry PciDevice.msiMaskReg
  cases d.is64Address with
  | true => cases d.isVectorMask <;> simp [hmsi, msiMsgnum, writel_config]
  | false => cases d.isVectorMask <;> simp [hmsi, msiMsgnum, writel_config]

/-! ## The result -/

theorem msiRegisterLoop_one {i v : Nat}
    (hreg : registerIrqHandler s (p i) =
      (v, { s with irqVectors := Function.update s.irqVectors v (some (p i)) })) (hv : v ≠ 0) :
    msiRegisterLoop d x2apic destid p 1 i s = (true, d.wire i (msiComposeMsg x2apic v destid)
      { s with irqVectors := Function.update s.irqVectors v (some (p i)) }) :=
  msiRegisterLoop_succ hreg hv

variable {nr : Int}

theorem enable_freeVectors : (d.enable s).freeVectors = s.freeVectors := freeVectors_congr enable_irqVectors

theorem allOrNothing_none (h : nr ≤ 0) : AllOrNothing d x2apic destid p nr s := by
  have hrun : msiRegisterArr d x2apic destid p nr s = (true, d.enable s) := by
    rw [msiRegisterArr, Int.toNat_of_nonpos h]
    rfl
  refine ⟨fun _ => ⟨fun i => i, fun i j hi => ?_, fun i hi => ?_⟩, fun hno => ?_⟩
  · omega
  · omega
  · rw [hrun] at hno
    cases hno

theorem allOrNothing_full (hnr : 0 < nr) (h : s.freeVectors = ∅) :
    AllOrNothing d x2apic destid p nr s := by
  obtain ⟨k, hk⟩ : ∃ k, nr.toNat = k + 1 := ⟨nr.toNat - 1, by omega⟩
  have hrun : msiRegisterArr d x2apic destid p nr s = (false, d.enable s) := by
    rw [msiRegisterArr, hk]
    refine msiRegisterLoop_full ?_
    rcases registerIrqHandler_cases (d.enable s) (p 0) with ⟨-, hreg⟩ | ⟨v, hv, -⟩
    · exact hreg
    · rw [enable_freeVectors, h] at hv
      simp at hv
  refine ⟨fun hyes => ?_, fun _ w hw => ?_⟩
  · rw [hrun] at hyes
    cases hyes
  · rw [hrun, enable_irqVectors]
    exact hw

theorem installed_of_msix (hmsix : d.haveMsix = true) (hfree : nr ≤ s.freeVectors.card)
    (hfits : d.Fits x2apic destid nr s) : (msiRegisterArr d x2apic destid p nr s).1 = true ∧
      Installed d x2apic destid p nr s (msiRegisterArr d x2apic destid p nr s).2 := by
  rw [PciDevice.Fits, if_pos hmsix] at hfits
  obtain ⟨hbar, hnum⟩ := hfits
  obtain ⟨hok, v, hv⟩ : (msiRegisterLoop d x2apic destid p nr.toNat 0 (d.enable s)).1 = true ∧
      ∃ v, d.Wires x2apic destid p 0 (0 + nr.toNat) v (d.enable s)
        (msiRegisterLoop d x2apic destid p nr.toNat 0 (d.enable s)).2 :=
    msiRegisterLoop_msix hmsix (by omega) (by rw [enable_freeVectors]; omega)
  refine ⟨hok, v, fun i j hi hj => hv.inj i j (Nat.zero_le i) (by omega) (Nat.zero_le j) (by omega),
    fun i hi => ?_⟩
  have hlt : i < 0 + nr.toNat := by omega
  have hentry := hv.entry i (Nat.zero_le i) hlt
  obtain ⟨hrange, hnone⟩ := mem_freeVectors.1 (hv.free i (Nat.zero_le i) hlt)
  rw [enable_irqVectors] at hnone
  refine ⟨hrange.1, hrange.2, hnone, hv.installed i (Nat.zero_le i) hlt, ?_, ?_⟩
  · rw [PciDevice.Carries, if_pos hmsix]
    exact ⟨hbar, by omega, hentry.lo, hentry.hi, hentry.data⟩
  · rw [PciDevice.Unmasked, if_pos hmsix]
    exact ⟨by rw [msiRegisterArr, hv.ctrl]; exact enable_msix hmsix hbar, hentry.mask⟩

theorem installed_of_msi (hmsix : d.haveMsix = false) (hnr : 0 < nr) (hfree : nr ≤ s.freeVectors.card)
    (hfits : d.Fits x2apic destid nr s) : (msiRegisterArr d x2apic destid p nr s).1 = true ∧
      Installed d x2apic destid p nr s (msiRegisterArr d x2apic destid p nr s).2 := by
  have hoff : ¬ d.haveMsix = true := by simp [hmsix]
  rw [PciDevice.Fits, if_neg hoff] at hfits
  obtain ⟨hmsi, hnum, hlayout⟩ := hfits
  obtain rfl : nr = 1 := by
    rw [msiMsgnum] at hnum
    omega
  rcases registerIrqHandler_cases (d.enable s) (p 0) with ⟨hnone, -⟩ | ⟨v, hv, hfirst, hreg⟩
  · rw [enable_freeVectors] at hnone
    rw [hnone] at hfree
    simp at hfree
  · rw [enable_freeVectors] at hv hfirst
    obtain ⟨hrange, hfree⟩ := mem_freeVectors.1 hv
    have hrun : msiRegisterArr d x2apic destid p 1 s = _ := msiRegisterLoop_one hreg (by omega)
    obtain ⟨hlo, hhi, hdata, hmask⟩ := wire_msi (msiComposeMsg x2apic v destid)
      { d.enable s with irqVectors := Function.update (d.enable s).irqVectors v (some (p 0)) } hmsix hmsi
    refine ⟨by rw [hrun], fun _ => v, fun i j hi hj _ => by omega, fun i hi => ?_⟩
    obtain rfl : i = 0 := by omega
    rw [hrun]
    refine ⟨hrange.1, hrange.2, hfree, ?_, ?_, hmask⟩
    · rw [wire_irqVectors]
      simp
    · rw [PciDevice.Carries, if_neg hoff]
      refine ⟨hmsi, by decide, hlo, ?_⟩
      by_cases h64 : d.is64Address = true
      · rw [if_pos h64] at hhi ⊢
        exact ⟨hhi, hdata h64⟩
      · rw [if_neg h64] at hhi ⊢
        rw [hhi]
        have hreg8 : d.msiLocation + 0x8 ≠ d.msiMaskReg := by
          simp [PciDevice.msiMaskReg, h64]
        have hheld := hlayout.resolve_left h64 v hv hfirst
        exact (enable_msi hmsix hreg8).trans hheld

theorem card_of_installed {s' : State} (h : Installed d x2apic destid p nr s s') :
    nr ≤ s.freeVectors.card := by
  obtain ⟨v, hinj, hv⟩ := h
  have hcard : (Finset.range nr.toNat).card ≤ s.freeVectors.card := by
    refine Finset.card_le_card_of_injOn v (fun i hi => ?_) fun i hi j hj he => ?_
    · have hi : i < nr.toNat := by simpa using hi
      obtain ⟨hlo, hhi, hfree, -⟩ := hv i (by omega)
      exact mem_freeVectors.2 ⟨⟨hlo, hhi⟩, hfree⟩
    · have hi : i < nr.toNat := by simpa using hi
      have hj : j < nr.toNat := by simpa using hj
      exact hinj i j (by omega) (by omega) he
  rw [Finset.card_range] at hcard
  omega

theorem fits_of_installed (hnr : 0 < nr)
    (h : Installed d x2apic destid p nr s (msiRegisterArr d x2apic destid p nr s).2) :
    d.Fits x2apic destid nr s := by
  obtain ⟨v, -, hv⟩ := h
  have hlast : ((nr.toNat - 1 : Nat) : Int) < nr := by omega
  by_cases hmsix : d.haveMsix = true
  · have hcarries := (hv _ hlast).2.2.2.2.1
    rw [PciDevice.Carries, if_pos hmsix] at hcarries
    rw [PciDevice.Fits, if_pos hmsix]
    exact ⟨hcarries.1, by have := hcarries.2.1; omega⟩
  · have hcarries := (hv _ hlast).2.2.2.2.1
    rw [PciDevice.Carries, if_neg hmsix] at hcarries
    obtain ⟨hmsi, hin, -⟩ := hcarries
    have hnum : nr ≤ msiMsgnum := by omega
    obtain rfl : nr = 1 := by
      rw [msiMsgnum] at hnum
      omega
    rw [PciDevice.Fits, if_neg hmsix]
    refine ⟨hmsi, hnum, ?_⟩
    by_cases h64 : d.is64Address = true
    · exact .inl h64
    · refine .inr fun w hw hfirst => ?_
      obtain ⟨hlo, hhi, hfree, htaken, hdata, -⟩ := hv 0 (by decide)
      rw [PciDevice.Carries, if_neg hmsix, if_neg h64] at hdata
      obtain ⟨-, -, -, hdata⟩ := hdata
      rcases registerIrqHandler_cases (d.enable s) (p 0) with ⟨hnone, -⟩ | ⟨u, hu, hfirst', hreg⟩
      · rw [enable_freeVectors] at hnone
        rw [hnone] at hw
        simp at hw
      · rw [enable_freeVectors] at hu hfirst'
        obtain rfl : w = u := Nat.le_antisymm (hfirst u hu) (hfirst' w hw)
        have hrange := (mem_freeVectors.1 hw).1
        have hrun : msiRegisterArr d x2apic destid p 1 s = _ := msiRegisterLoop_one hreg (by omega)
        rw [hrun] at htaken hdata
        -- the vector that is taken is the first free one
        have hv0 : v 0 = w := by
          by_contra hne
          rw [wire_irqVectors] at htaken
          simp only [Function.update_of_ne hne, enable_irqVectors, hfree] at htaken
          cases htaken
        rw [hv0] at hdata
        have hreg8 : d.msiLocation + 0x8 ≠ d.msiMaskReg := by
          simp [PciDevice.msiMaskReg, h64]
        rw [(wire_msi _ _ (by simpa using hmsix) hmsi).2.1, if_neg h64] at hdata
        exact (enable_msi (by simpa using hmsix) hreg8).symm.trans hdata

/-- **Interrupt wiring.** Either all handlers are installed or no vector is taken, exactly when there is
    nothing to install, or no vector is free at all, or enough vectors are free and the device has
    registers for all entries where they are written. -/
theorem interrupts_wired_iff (d : PciDevice) (x2apic : Bool) (destid : BitVec 32) (p : Nat → Nat)
    (nr : Int) (s : State) : AllOrNothing d x2apic destid p nr s ↔
      nr ≤ 0 ∨ s.freeVectors = ∅ ∨ nr ≤ s.freeVectors.card ∧ d.Fits x2apic destid nr s := by
  constructor
  · rintro ⟨hyes, hno⟩
    by_cases hnr : nr ≤ 0
    · exact .inl hnr
    · rcases s.freeVectors.eq_empty_or_nonempty with hempty | hne
      · exact .inr (.inl hempty)
      · cases hres : (msiRegisterArr d x2apic destid p nr s).1 with
        | true =>
            have hins := hyes hres
            exact .inr (.inr ⟨card_of_installed hins, fits_of_installed (by omega) hins⟩)
        | false =>
            -- the first handler has been installed and is left there
            obtain ⟨k, hk⟩ : ∃ k, nr.toNat = k + 1 := ⟨nr.toNat - 1, by omega⟩
            rcases registerIrqHandler_cases (d.enable s) (p 0) with ⟨hempty, -⟩ | ⟨v, hv, hfirst, -⟩
            · rw [enable_freeVectors] at hempty
              exact absurd hempty hne.ne_empty
            · have hfree := (mem_freeVectors.1 hv).2
              rw [enable_irqVectors] at hfree
              have hgone := hno hres v hfree
              rw [msiRegisterArr, hk, msiRegisterLoop_first hv hfirst] at hgone
              cases hgone
  · rintro (hnr | hempty | ⟨hfree, hfits⟩)
    · exact allOrNothing_none hnr
    · by_cases hnr : nr ≤ 0
      · exact allOrNothing_none hnr
      · exact allOrNothing_full (by omega) hempty
    · by_cases hnr : nr ≤ 0
      · exact allOrNothing_none hnr
      · have hins : (msiRegisterArr d x2apic destid p nr s).1 = true ∧
            Installed d x2apic destid p nr s (msiRegisterArr d x2apic destid p nr s).2 := by
          by_cases hmsix : d.haveMsix = true
          · exact installed_of_msix hmsix hfree hfits
          · exact installed_of_msi (by simpa using hmsix) (by omega) hfree hfits
        refine ⟨fun _ => hins.2, fun hno => ?_⟩
        rw [hins.1] at hno
        cases hno

end Device

/-- A device with MSI and 32-bit addresses, without a mask register. -/
def msi32 : PciDevice where
  haveMsix := false
  msixMsgnum := 0
  msixTableBar := 0
  msixTableOffset := 0
  haveMsi := true
  msiLocation := 0x50
  is64Address := false
  isVectorMask := false
  bars _ := none

/-- No vector is in use, and all registers are 0. -/
def allFree : State where
  irqVectors _ := none
  command := 0
  msiCtrl := 0
  msixCtrl := 0
  config _ := 0
  mmio _ := 0

/-- With 32-bit addresses the data goes to the register behind the one that the layout has for it. -/
theorem msi32_not_wired : ¬ AllOrNothing msi32 false 0 (fun _ => 7) 1 allFree := by
  rintro ⟨hyes, -⟩
  obtain ⟨v, -, hv⟩ := hyes (by decide)
  obtain ⟨-, -, -, -, hcarries, -⟩ := hv 0 (by decide)
  have hdata : (msiRegisterArr msi32 false 0 (fun _ => 7) 1 allFree).2.config 0x58 =
    (msiComposeMsg false (v 0) 0).data := hcarries.2.2.2
  have hheld : (msiRegisterArr msi32 false 0 (fun _ => 7) 1 allFree).2.config 0x58 = 0 := by decide
  rw [hheld] at hdata
  have hlevel := congrArg (·.getLsbD 14) hdata
  simp [msiComposeMsg] at hlevel

end Yaos.Msi
