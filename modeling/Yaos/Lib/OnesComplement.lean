import Mathlib.Algebra.BigOperators.Group.List.Basic
import Mathlib.Algebra.Ring.Nat

set_option autoImplicit false

/-! # Ones-complement sums

Words are numbers up to `n`, a word of all ones. A carry out of a sum is added to it again, so that sums are
sums modulo `n` where 0 and `n` are not the same: only the sum of zeros is 0. -/

namespace OnesComplement

/-- Addition with the carry brought round. -/
def add (n a b : Nat) : Nat := if n < a + b then a + b - n else a + b

/-- The sum of a list. -/
def sum (n : Nat) (l : List Nat) : Nat := l.foldl (add n) 0

/-- The word that a sum leads to when all carries have been brought round. -/
def reduce (n s : Nat) : Nat := if s = 0 then 0 else (s - 1) % n + 1

section Reduce

variable {n s : Nat}

@[simp] theorem reduce_zero : reduce n 0 = 0 := rfl

theorem reduce_pos (hs : s ≠ 0) : reduce n s = (s - 1) % n + 1 := by
  rw [reduce, if_neg hs]

theorem reduce_le (hn : 0 < n) : reduce n s ≤ n := by
  rw [reduce]
  split
  · exact Nat.zero_le n
  · exact Nat.mod_lt _ hn

theorem reduce_eq_zero : reduce n s = 0 ↔ s = 0 := by
  rw [reduce]
  split
  case isTrue h => simp [h]
  case isFalse h => simp [h]

theorem reduce_of_le (hs : s ≤ n) : reduce n s = s := by
  by_cases h : s = 0
  · rw [h, reduce_zero]
  · rw [reduce_pos h, Nat.mod_eq_of_lt (by omega)]
    omega

/-- Each `n` in a sum is a carry that has been brought round. -/
theorem reduce_add_mul (hs : s ≠ 0) (k : Nat) : reduce n (s + n * k) = reduce n s := by
  have hmove : s + n * k - 1 = s - 1 + n * k := by omega
  rw [reduce_pos (by omega), reduce_pos hs, hmove, Nat.add_mul_mod_self_left]

theorem reduce_spec (hs : s ≠ 0) : ∃ k, s = reduce n s + n * k := by
  refine ⟨(s - 1) / n, ?_⟩
  have hdiv := Nat.mod_add_div (s - 1) n
  rw [reduce_pos hs]
  omega

theorem reduce_reduce_add (t : Nat) : reduce n (reduce n s + t) = reduce n (s + t) := by
  by_cases hs : s = 0
  · rw [hs, reduce_zero]
  · obtain ⟨k, hk⟩ := reduce_spec (n := n) hs
    have hne : reduce n s + t ≠ 0 := by
      intro h
      exact hs (reduce_eq_zero.1 (Nat.eq_zero_of_add_eq_zero_right h))
    have hmove : s + t = reduce n s + t + n * k := by omega
    rw [hmove, reduce_add_mul hne]

theorem reduce_eq_iff (hn : 0 < n) : reduce n s = n ↔ s ≠ 0 ∧ n ∣ s := by
  constructor
  · intro h
    have hs : s ≠ 0 := by
      rintro rfl
      rw [reduce_zero] at h
      omega
    obtain ⟨k, hk⟩ := reduce_spec (n := n) hs
    rw [h] at hk
    exact ⟨hs, k + 1, by rw [hk, Nat.mul_add, Nat.mul_one, Nat.add_comm]⟩
  · rintro ⟨hs, k, rfl⟩
    obtain ⟨j, rfl⟩ : ∃ j, k = j + 1 := Nat.exists_eq_succ_of_ne_zero (by rintro rfl; simp at hs)
    rw [Nat.mul_add, Nat.mul_one, Nat.add_comm, reduce_add_mul (Nat.ne_of_gt hn), reduce_of_le (Nat.le_refl n)]

/-- A sum and the complement of its word lead to all ones. -/
theorem reduce_add_complement (hn : 0 < n) : reduce n (s + (n - reduce n s)) = n := by
  have hle : reduce n s ≤ n := reduce_le hn
  rw [← reduce_reduce_add, Nat.add_sub_of_le hle, reduce_of_le (Nat.le_refl n)]

/-- The high part of a sum is added to its low part. -/
theorem reduce_carry : reduce n (s % (n + 1) + s / (n + 1)) = reduce n s := by
  have hdiv := Nat.mod_add_div s (n + 1)
  rw [Nat.add_mul, Nat.one_mul] at hdiv
  generalize s % (n + 1) = low at hdiv ⊢
  generalize s / (n + 1) = high at hdiv ⊢
  by_cases hzero : low + high = 0
  · obtain rfl : high = 0 := Nat.eq_zero_of_add_eq_zero_left hzero
    obtain rfl : low = 0 := Nat.eq_zero_of_add_eq_zero_right hzero
    rw [← hdiv, Nat.mul_zero]
  · have hmove : s = low + high + n * high := by omega
    rw [hmove, reduce_add_mul hzero]

end Reduce

/-! ## Sums of words -/

section Sum

variable {n a b : Nat} {l l' : List Nat}

theorem add_eq_reduce (ha : a ≤ n) (hb : b ≤ n) : add n a b = reduce n (a + b) := by
  rw [add]
  split
  case isTrue h =>
      have hmove : a + b = a + b - n + n * 1 := by omega
      rw [hmove, reduce_add_mul (by omega), reduce_of_le (by omega)]
      omega
  case isFalse h => rw [reduce_of_le (by omega)]

theorem foldl_add (hn : 0 < n) (ha : a ≤ n) (hl : ∀ w ∈ l, w ≤ n) :
    l.foldl (add n) a = reduce n (a + l.sum) := by
  induction l generalizing a with
  | nil => rw [List.foldl_nil, List.sum_nil, Nat.add_zero, reduce_of_le ha]
  | cons w l ih =>
      have hw : add n a w = reduce n (a + w) := add_eq_reduce ha (hl w List.mem_cons_self)
      rw [List.foldl_cons, hw, ih (reduce_le hn) fun x hx => hl x (List.mem_cons_of_mem w hx),
        reduce_reduce_add, List.sum_cons, Nat.add_assoc]

theorem sum_eq_reduce (hn : 0 < n) (hl : ∀ w ∈ l, w ≤ n) : sum n l = reduce n l.sum := by
  rw [sum, foldl_add hn (Nat.zero_le n) hl, Nat.zero_add]

end Sum

/-! ## The words of a packet -/

/-- Words of two bytes, the high one first; an odd byte at the end is the high one of a word. -/
def words : List UInt8 → List Nat
  | b :: b' :: l => (b.toNat * 256 + b'.toNat) :: words l
  | [b] => [b.toNat * 256]
  | [] => []

section Words

variable {l l' : List UInt8}

theorem words_le : ∀ w ∈ words l, w ≤ 65535 := by
  induction l using words.induct with
  | case1 b b' l ih =>
      intro w hw
      have hb := b.toNat_lt
      have hb' := b'.toNat_lt
      rcases List.mem_cons.1 hw with rfl | hw
      · omega
      · exact ih w hw
  | case2 b =>
      intro w hw
      have hb := b.toNat_lt
      obtain rfl := List.mem_singleton.1 hw
      omega
  | case3 => simp [words]

theorem words_append (heven : l.length % 2 = 0) : words (l ++ l') = words l ++ words l' := by
  induction l using words.induct with
  | case1 b b' l ih =>
      simp only [List.cons_append, words]
      rw [ih (by simpa [Nat.add_assoc] using heven)]
  | case2 b => simp at heven
  | case3 => rfl

theorem words_sum_le : (words l).sum ≤ 65535 * ((l.length + 1) / 2) := by
  induction l using words.induct with
  | case1 b b' l ih =>
      have hb := b.toNat_lt
      have hb' := b'.toNat_lt
      simp only [words, List.sum_cons, List.length_cons]
      omega
  | case2 b =>
      have hb := b.toNat_lt
      simp only [words, List.sum_cons, List.sum_nil, List.length_cons, List.length_nil]
      omega
  | case3 => simp [words]

/-- The ones-complement sum of the bytes of a packet. -/
theorem sum_words (l : List UInt8) : sum 65535 (words l) = reduce 65535 (words l).sum :=
  sum_eq_reduce (by decide) words_le

end Words

end OnesComplement
