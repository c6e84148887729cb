import Mathlib.Data.Finset.Card
import Mathlib.Logic.Function.Basic

set_option autoImplicit false

/-! # Bitmaps of 64-bit words

A bitmap is an array of words, given as a function of the index. Bit `i` is bit `i % 64` of word
`i / 64`, which is how the bit instructions of the processor address memory. -/

namespace Bitmap

variable {w : Nat → BitVec 64} {i j n : Nat}

/-- The bit with the number `i`. -/
def bit (w : Nat → BitVec 64) (i : Nat) : Bool := (w (i / 64)).getLsbD (i % 64)

/-- The bit `i` is set. -/
def setBit (w : Nat → BitVec 64) (i : Nat) : Nat → BitVec 64 :=
  Function.update w (i / 64) (w (i / 64) ||| 1#64 <<< (i % 64))

/-- The bit `i` is cleared. -/
def clearBit (w : Nat → BitVec 64) (i : Nat) : Nat → BitVec 64 :=
  Function.update w (i / 64) (w (i / 64) &&& ~~~(1#64 <<< (i % 64)))

/-- Two bits of one word are the same bit when they have the same place in it. -/
theorem decide_mod_eq (h : j / 64 = i / 64) : decide (j % 64 = i % 64) = decide (j = i) :=
  decide_eq_decide.2 (by omega)

theorem getLsbD_one_shiftLeft {a b : Nat} (ha : a < 64) :
    (1#64 <<< b).getLsbD a = decide (a = b) := by
  rw [← BitVec.twoPow_eq, BitVec.getLsbD_twoPow]
  by_cases hab : b = a
  · simp [hab, ha]
  · simp [hab, Ne.symm hab]

@[simp] theorem bit_setBit : bit (setBit w i) j = (bit w j || decide (j = i)) := by
  unfold bit setBit
  by_cases h : j / 64 = i / 64
  · rw [h, Function.update_self, BitVec.getLsbD_or,
      getLsbD_one_shiftLeft (Nat.mod_lt j (by decide)), decide_mod_eq h]
  · have hne : j ≠ i := fun he => h (by rw [he])
    rw [Function.update_of_ne h]
    simp [hne]

@[simp] theorem bit_clearBit : bit (clearBit w i) j = (bit w j && !decide (j = i)) := by
  unfold bit clearBit
  by_cases h : j / 64 = i / 64
  · have hlt : j % 64 < 64 := Nat.mod_lt j (by decide)
    rw [h, Function.update_self, BitVec.getLsbD_and, BitVec.getLsbD_not,
      getLsbD_one_shiftLeft hlt, decide_mod_eq h]
    simp [hlt]
  · have hne : j ≠ i := fun he => h (by rw [he])
    rw [Function.update_of_ne h]
    simp [hne]

/-! ## The first set bit of a word -/

/-- The instruction `bsf`: the index of the lowest set bit. -/
def ffs (x : BitVec 64) : Nat := ((List.range 64).find? (x.getLsbD ·)).getD 64

theorem exists_getLsbD {x : BitVec 64} (h : x ≠ 0) : ∃ a < 64, x.getLsbD a = true := by
  by_contra hno
  refine h (BitVec.eq_of_getLsbD_eq fun a ha => ?_)
  have : ¬ x.getLsbD a = true := fun hx => hno ⟨a, ha, hx⟩
  simpa using this

theorem ffs_spec {x : BitVec 64} (h : x ≠ 0) : ffs x < 64 ∧ x.getLsbD (ffs x) = true := by
  obtain ⟨a, ha, hx⟩ := exists_getLsbD h
  unfold ffs
  cases hfind : (List.range 64).find? (x.getLsbD ·) with
  | none => exact absurd hx (List.find?_eq_none.1 hfind a (List.mem_range.2 ha))
  | some b =>
      exact ⟨List.mem_range.1 (List.mem_of_find?_eq_some hfind), List.find?_some hfind⟩

theorem bit_ffs {k : Nat} (h : w k ≠ 0) :
    ffs (w k) < 64 ∧ bit w (ffs (w k) + k * 64) = true := by
  obtain ⟨hlt, hbit⟩ := ffs_spec h
  refine ⟨hlt, ?_⟩
  unfold bit
  rw [show (ffs (w k) + k * 64) / 64 = k by omega, show (ffs (w k) + k * 64) % 64 = ffs (w k) by omega]
  exact hbit

theorem word_ne_zero (h : bit w i = true) : w (i / 64) ≠ 0 := by
  intro hz
  rw [bit, hz] at h
  simp at h

/-! ## How many bits are set -/

/-- The bits set below `n`. -/
def setBits (w : Nat → BitVec 64) (n : Nat) : Finset Nat :=
  (Finset.range n).filter fun i => bit w i = true

@[simp] theorem mem_setBits : i ∈ setBits w n ↔ i < n ∧ bit w i = true := by
  simp [setBits]

theorem setBits_setBit (hi : i < n) : setBits (setBit w i) n = insert i (setBits w n) := by
  ext j
  simp only [mem_setBits, bit_setBit, Bool.or_eq_true, decide_eq_true_eq, Finset.mem_insert]
  constructor
  · rintro ⟨hj, hb | rfl⟩
    · exact .inr ⟨hj, hb⟩
    · exact .inl rfl
  · rintro (rfl | ⟨hj, hb⟩)
    · exact ⟨hi, .inr rfl⟩
    · exact ⟨hj, .inl hb⟩

theorem setBits_clearBit : setBits (clearBit w i) n = (setBits w n).erase i := by
  ext j
  simp only [mem_setBits, bit_clearBit, Bool.and_eq_true, Bool.not_eq_true', decide_eq_false_iff_not,
    Finset.mem_erase]
  constructor
  · rintro ⟨hj, hb, hne⟩
    exact ⟨hne, hj, hb⟩
  · rintro ⟨hne, hj, hb⟩
    exact ⟨hj, hb, hne⟩

theorem card_setBits_le : (setBits w n).card ≤ n := by
  have h := Finset.card_filter_le (Finset.range n) fun i => bit w i = true
  rwa [Finset.card_range] at h

end Bitmap
