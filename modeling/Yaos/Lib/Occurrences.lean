import Mathlib.Data.List.Basic

set_option autoImplicit false

/-! # The leftmost occurrences of a pattern, and the pieces between them

A pattern of length `s` occurs at some of the positions of a list. Its leftmost occurrences are found by
a walk that passes over each of them; no two of them overlap, and every other occurrence begins inside
one. -/

namespace Occurrences

/-- `ms` are the leftmost occurrences, in order. -/
structure Leftmost (hit : Nat → Prop) (s : Nat) (ms : List Nat) : Prop where
  occurs : ∀ m ∈ ms, hit m
  spaced : ms.Pairwise fun a b => a + s ≤ b
  covered : ∀ i, hit i → ∃ m ∈ ms, m ≤ i ∧ i < m + s

/-- The walk over the positions from `i` on. -/
def scan (hit : Nat → Bool) (s limit : Nat) : Nat → Nat → List Nat
  | 0, _ => []
  | fuel + 1, i =>
    if i < limit then
      if hit i then i :: scan hit s limit fuel (i + s) else scan hit s limit fuel (i + 1)
    else []

/-- What lies before the first occurrence, between each two, and after the last. -/
def cut {α : Type} (src : List α) (s : Nat) : Nat → List Nat → List (List α)
  | pos, [] => [src.drop pos]
  | pos, m :: ms => (src.drop pos).take (m - pos) :: cut src s (m + s) ms

section Leftmost

variable {hit : Nat → Prop} {s m : Nat} {ms ms' : List Nat}

/-- The first occurrence of all is the first of the list. -/
theorem Leftmost.head_le (h : Leftmost hit s (m :: ms)) {i : Nat} (hi : hit i) : m ≤ i := by
  obtain ⟨m', hm', hle, -⟩ := h.covered i hi
  rcases List.mem_cons.1 hm' with rfl | hm'
  · exact hle
  · have := (List.pairwise_cons.1 h.spaced).1 m' hm'
    omega

/-- Behind the first occurrence the others are the leftmost ones. -/
theorem Leftmost.tail (h : Leftmost hit s (m :: ms)) : Leftmost (fun i => m + s ≤ i ∧ hit i) s ms := by
  obtain ⟨hhead, htail⟩ := List.pairwise_cons.1 h.spaced
  refine ⟨fun m' hm' => ⟨hhead m' hm', h.occurs m' (List.mem_cons_of_mem _ hm')⟩, htail, ?_⟩
  intro i hi
  obtain ⟨m', hm', hle, hlt⟩ := h.covered i hi.2
  rcases List.mem_cons.1 hm' with rfl | hm'
  · omega
  · exact ⟨m', hm', hle, hlt⟩

theorem Leftmost.congr {hit' : Nat → Prop} (h : Leftmost hit s ms) (heq : ∀ i, hit i ↔ hit' i) :
    Leftmost hit' s ms :=
  ⟨fun m hm => (heq m).1 (h.occurs m hm), h.spaced, fun i hi => h.covered i ((heq i).2 hi)⟩

theorem Leftmost.unique (h : Leftmost hit s ms) (h' : Leftmost hit s ms') : ms = ms' := by
  induction ms generalizing hit ms' with
  | nil =>
    cases ms' with
    | nil => rfl
    | cons m' ms' =>
      obtain ⟨m, hm, -⟩ := h.covered m' (h'.occurs m' List.mem_cons_self)
      exact absurd hm List.not_mem_nil
  | cons m ms ih =>
    cases ms' with
    | nil =>
      obtain ⟨m', hm', -⟩ := h'.covered m (h.occurs m List.mem_cons_self)
      exact absurd hm' List.not_mem_nil
    | cons m' ms' =>
      have hle : m ≤ m' := h.head_le (h'.occurs m' List.mem_cons_self)
      have hge : m' ≤ m := h'.head_le (h.occurs m List.mem_cons_self)
      obtain rfl : m = m' := Nat.le_antisymm hle hge
      rw [ih h.tail h'.tail]

end Leftmost

section Scan

variable {hit : Nat → Bool} {s limit : Nat}

theorem scan_mem {fuel i m : Nat} (hm : m ∈ scan hit s limit fuel i) :
    i ≤ m ∧ m < limit ∧ hit m = true := by
  induction fuel generalizing i with
  | zero => simp [scan] at hm
  | succ fuel ih =>
    rw [scan] at hm
    split_ifs at hm with hlt hhit
    · rcases List.mem_cons.1 hm with rfl | hm
      · exact ⟨Nat.le_refl _, hlt, hhit⟩
      · obtain ⟨hle, hrest⟩ := ih hm
        exact ⟨by omega, hrest⟩
    · obtain ⟨hle, hrest⟩ := ih hm
      exact ⟨by omega, hrest⟩
    · exact absurd hm List.not_mem_nil

theorem scan_spaced (fuel i : Nat) : (scan hit s limit fuel i).Pairwise fun a b => a + s ≤ b := by
  induction fuel generalizing i with
  | zero => exact List.Pairwise.nil
  | succ fuel ih =>
    rw [scan]
    split_ifs
    · exact List.pairwise_cons.2 ⟨fun b hb => (scan_mem hb).1, ih _⟩
    · exact ih _
    · exact List.Pairwise.nil

/-- The walk goes past an occurrence only inside another: it moves on by one from a position that is no
    occurrence. -/
theorem scan_covered (hs : 1 ≤ s) {fuel i j : Nat} (hfuel : limit ≤ i + fuel) (hij : i ≤ j)
    (hj : j < limit) (hit_j : hit j = true) : ∃ m ∈ scan hit s limit fuel i, m ≤ j ∧ j < m + s := by
  induction fuel generalizing i with
  | zero => omega
  | succ fuel ih =>
    rw [scan, if_pos (by omega)]
    by_cases hhit : hit i = true
    · rw [if_pos hhit]
      by_cases hin : j < i + s
      · exact ⟨i, List.mem_cons_self, hij, hin⟩
      · obtain ⟨m, hm, hrest⟩ := ih (by omega) (Nat.le_of_not_lt hin)
        exact ⟨m, List.mem_cons_of_mem _ hm, hrest⟩
    · rw [if_neg hhit]
      have hne : i ≠ j := by
        intro heq
        exact hhit (heq ▸ hit_j)
      exact ih (by omega) (by omega)

/-- The walk finds the leftmost occurrences below the limit. -/
theorem scan_leftmost (hs : 1 ≤ s) {fuel : Nat} (hfuel : limit ≤ fuel) :
    Leftmost (fun i => i < limit ∧ hit i = true) s (scan hit s limit fuel 0) where
  occurs m hm := (scan_mem hm).2
  spaced := scan_spaced fuel 0
  covered j hj := scan_covered hs (by omega) (Nat.zero_le j) hj.1 hj.2

end Scan

section Cut

variable {α : Type} {src : List α} {s pos : Nat} {ms ms' : List Nat}

@[simp] theorem cut_length : (cut src s pos ms).length = ms.length + 1 := by
  induction ms generalizing pos with
  | nil => rfl
  | cons m ms ih => simp [cut, ih]

/-- Occurrences that begin at `pos` or later, in order, and in the list. -/
def InSource (src : List α) (s pos : Nat) (ms : List Nat) : Prop :=
  (∀ m ∈ ms, pos ≤ m ∧ m ≤ src.length) ∧ ms.Pairwise fun a b => a + s ≤ b

theorem InSource.tail {m : Nat} (h : InSource src s pos (m :: ms)) : InSource src s (m + s) ms := by
  obtain ⟨hhead, htail⟩ := List.pairwise_cons.1 h.2
  exact ⟨fun m' hm' => ⟨hhead m' hm', (h.1 m' (List.mem_cons_of_mem _ hm')).2⟩, htail⟩

/-- The lengths of the pieces tell where they were cut. -/
theorem cut_injective (h : InSource src s pos ms) (h' : InSource src s pos ms')
    (heq : cut src s pos ms = cut src s pos ms') : ms = ms' := by
  induction ms generalizing pos ms' with
  | nil =>
    have hlen := congrArg List.length heq
    simp only [cut_length, List.length_nil, Nat.add_right_cancel_iff] at hlen
    exact (List.length_eq_zero_iff.1 hlen.symm).symm
  | cons m ms ih =>
    cases ms' with
    | nil =>
      have hlen := congrArg List.length heq
      simp at hlen
    | cons m' ms' =>
      simp only [cut, List.cons.injEq] at heq
      have hpiece := congrArg List.length heq.1
      have hm := h.1 m List.mem_cons_self
      have hm' := h'.1 m' List.mem_cons_self
      simp only [List.length_take, List.length_drop] at hpiece
      obtain rfl : m = m' := by omega
      rw [ih h.tail h'.tail heq.2]

/-- With the pattern between each two, the pieces are the list again. -/
theorem cut_intercalate {sep : List α} (hocc : ∀ m ∈ ms, sep <+: src.drop m)
    (h : InSource src sep.length pos ms) :
    sep.intercalate (cut src sep.length pos ms) = src.drop pos := by
  induction ms generalizing pos with
  | nil => simp [cut]
  | cons m ms ih =>
    have hne : cut src sep.length (m + sep.length) ms ≠ [] := by
      intro hnil
      have hlen : (cut src sep.length (m + sep.length) ms).length = ms.length + 1 := cut_length
      simp [hnil] at hlen
    have hpos := (h.1 m List.mem_cons_self).1
    obtain ⟨rest, hrest⟩ := hocc m List.mem_cons_self
    have hafter : src.drop (m + sep.length) = rest := by
      rw [← List.drop_drop, ← hrest, List.drop_left]
    have hbefore : (src.drop pos).drop (m - pos) = src.drop m := by
      rw [List.drop_drop]
      congr 1
      omega
    rw [cut, List.intercalate_cons_of_ne_nil hne,
      ih (fun m' hm' => hocc m' (List.mem_cons_of_mem _ hm')) h.tail, hafter, List.append_assoc, hrest,
      ← hbefore, List.take_append_drop]

end Cut

end Occurrences
