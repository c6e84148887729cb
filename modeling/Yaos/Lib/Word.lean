import Mathlib.Data.Nat.Bitwise
import Mathlib.Tactic.Ring

set_option autoImplicit false

/-! # Unsigned 64-bit words as natural numbers

A word is a natural number below `2 ^ 64`. Sums and differences are the machine's, modulo
`2 ^ 64`; rounding is the usual mask arithmetic, where `x & (m - 1)` is `x % m` and `x & ~(m - 1)`
is `x - x % m` for a power of two `m`. -/

namespace Word

/-- `a + b` on 64-bit words. -/
def wadd (a b : Nat) : Nat := (a + b) % 2 ^ 64

/-- `a - b` on 64-bit words. -/
def wsub (a b : Nat) : Nat := (a + 2 ^ 64 - b) % 2 ^ 64

/-- `x & ~(m - 1)` for a power of two `m`. -/
def alignDown (m x : Nat) : Nat := x - x % m

/-- `if (x & (m - 1)) x = (x & ~(m - 1)) + m;` for a power of two `m`. -/
def roundUp (m x : Nat) : Nat := if x % m ≠ 0 then wadd (alignDown m x) m else x

theorem wadd_eq {a b : Nat} (h : a + b < 2 ^ 64) : wadd a b = a + b := Nat.mod_eq_of_lt h

theorem wsub_eq {a b : Nat} (h : b ≤ a) (ha : a < 2 ^ 64) : wsub a b = a - b := by
  unfold wsub
  omega

theorem wadd_lt (a b : Nat) : wadd a b < 2 ^ 64 := Nat.mod_lt _ (by decide)

@[simp] theorem wsub_zero {a : Nat} (ha : a < 2 ^ 64) : wsub a 0 = a := by
  rw [wsub_eq (Nat.zero_le a) ha, Nat.sub_zero]

theorem alignDown_mod (m x : Nat) : alignDown m x % m = 0 := by
  unfold alignDown
  exact Nat.mod_eq_zero_of_dvd (Nat.dvd_sub_mod x)

theorem alignDown_le (m x : Nat) : alignDown m x ≤ x := Nat.sub_le ..

theorem alignDown_add_mod (m x : Nat) : alignDown m x + x % m = x :=
  Nat.sub_add_cancel (Nat.mod_le x m)

theorem alignDown_eq_self {m x : Nat} (h : x % m = 0) : alignDown m x = x := by
  simp [alignDown, h]

theorem roundUp_4K {x : Nat} (h : x ≤ 2 ^ 64 - 0x1000) :
    roundUp 0x1000 x = (x + 0xfff) / 0x1000 * 0x1000 % 2 ^ 64 := by
  unfold roundUp wadd alignDown
  split <;> omega

theorem roundUp_2M {x : Nat} (h : x ≤ 2 ^ 64 - 0x200000) :
    roundUp 0x200000 x = (x + 0x1fffff) / 0x200000 * 0x200000 % 2 ^ 64 := by
  unfold roundUp wadd alignDown
  split <;> omega

theorem roundUp_2M_mod (n : Nat) : roundUp 0x200000 n % 0x200000 = 0 := by
  unfold roundUp
  split
  · have := alignDown_mod 0x200000 n
    rw [wadd]
    omega
  · omega

end Word
