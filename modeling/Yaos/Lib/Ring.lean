import Mathlib.Data.Nat.ModEq
import Mathlib.Logic.Function.Basic

set_option autoImplicit false

/-! # Circular buffers

A ring of `num` slots between a writer and a reader, each with an index that only grows. The slots
between the two indices hold the items written and not read yet. Only the residue of an index
matters, so an index may also wrap at a multiple of `num`. -/

namespace Ring

variable {α : Type} {ring : Nat → α} {num start start' : Nat} {items : List α} {x : α}

/-- The slots from the index `start` on hold `items`. -/
def Holds (ring : Nat → α) (num start : Nat) (items : List α) : Prop :=
  ∀ (k : Nat) (hk : k < items.length), ring ((start + k) % num) = items.get ⟨k, hk⟩

theorem Holds.nil : Holds ring num start [] := fun _ hk => absurd hk (Nat.not_lt_zero _)

/-- Two indices with the same residue read the same slots. -/
theorem Holds.congr (h : Holds ring num start items) (heq : start' ≡ start [MOD num]) :
    Holds ring num start' items := by
  intro k hk
  have hslot : (start' + k) % num = (start + k) % num := heq.add_right k
  rw [hslot]
  exact h k hk

/-- The reader finds the oldest item in its slot and goes on behind it. -/
theorem Holds.pop (h : Holds ring num start (x :: items)) :
    ring (start % num) = x ∧ Holds ring num (start + 1) items := by
  refine ⟨h 0 (by simp), fun k hk => ?_⟩
  have hslot := h (k + 1) (by simpa using hk)
  rw [Nat.add_assoc, Nat.add_comm 1 k]
  exact hslot

/-- Two indices less than a whole ring apart have different slots. -/
theorem slot_ne {k n : Nat} (hk : k < n) (hn : n < num) :
    (start + k) % num ≠ (start + n) % num := by
  intro heq
  have hmod : k ≡ n [MOD num] := Nat.ModEq.add_left_cancel' start heq
  have hlt : k < num := Nat.lt_trans hk hn
  have hkn : k = n := by
    rw [← Nat.mod_eq_of_lt hlt, ← Nat.mod_eq_of_lt hn]
    exact hmod
  omega

/-- The writer fills the next slot while the ring is not full. -/
theorem Holds.push (h : Holds ring num start items) (hlen : items.length < num) :
    Holds (Function.update ring ((start + items.length) % num) x) num start (items ++ [x]) := by
  intro k hk
  rw [List.length_append, List.length_singleton] at hk
  by_cases hnew : k = items.length
  · subst hnew
    simp
  · have hold : k < items.length := by omega
    rw [Function.update_of_ne (slot_ne hold hlen)]
    simp only [List.get_eq_getElem, List.getElem_append_left hold]
    exact h k hold

/-- Less than a whole ring apart, the two indices meet exactly when nothing is left to read. -/
theorem start_eq_iff {n : Nat} (hstart : start < num) (hn : n < num) :
    start = (start + n) % num ↔ n = 0 := by
  constructor
  · intro heq
    by_contra hne
    have hslot : (start + 0) % num ≠ (start + n) % num := slot_ne (Nat.pos_of_ne_zero hne) hn
    rw [Nat.add_zero, Nat.mod_eq_of_lt hstart] at hslot
    exact hslot heq
  · rintro rfl
    simp [Nat.mod_eq_of_lt hstart]

end Ring
