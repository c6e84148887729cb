import Mathlib.Data.Finset.Card
import Mathlib.Logic.Function.Iterate
import Yaos.Lib.Chain

set_option autoImplicit false

/-! # Walks that go round

A walk that has made as many steps as there are nodes has visited all that it can come to, so one that is
given up then has missed nothing. -/

namespace Chains

variable {ι : Type} {next : ι → Option ι}

/-- One step. -/
def follow (next : ι → Option ι) (o : Option ι) : Option ι := o.bind next

theorem visits_iterate {n : Nat} {head : Option ι} {i : ι} (h : (follow next)^[n] head = some i) :
    Visits next head i := by
  induction n generalizing head with
  | zero =>
      rw [Function.iterate_zero_apply] at h
      subst h
      exact .here i
  | succ n ih =>
      rw [Function.iterate_succ_apply] at h
      have hv := ih h
      cases head with
      | none => cases hv
      | some j => exact .there hv

theorem Visits.iterate {head : Option ι} {i : ι} (h : Visits next head i) :
    ∃ n, (follow next)^[n] head = some i := by
  induction h with
  | here i => exact ⟨0, rfl⟩
  | there _ ih =>
      obtain ⟨n, hn⟩ := ih
      exact ⟨n + 1, hn⟩

/-- A walk that is given up has seen a node at each step, and none of them has stopped it. -/
theorem walk_hang {stop : ι → Bool} {fuel : Nat} {head : Option ι}
    (h : walk next stop fuel head = none) {n : Nat} (hn : n ≤ fuel) :
    ∃ i, (follow next)^[n] head = some i ∧ (n < fuel → stop i = false) := by
  induction fuel generalizing head n with
  | zero =>
      cases head with
      | none => cases h
      | some i =>
          obtain rfl := Nat.le_zero.1 hn
          exact ⟨i, rfl, fun hlt => absurd hlt (Nat.lt_irrefl 0)⟩
  | succ fuel ih =>
      cases head with
      | none => cases h
      | some i =>
          rw [walk] at h
          split at h
          · cases h
          · next hstop =>
              cases n with
              | zero => exact ⟨i, rfl, fun _ => Bool.eq_false_iff.2 hstop⟩
              | succ n =>
                  obtain ⟨j, hj, hlt⟩ := ih h (Nat.le_of_succ_le_succ hn)
                  exact ⟨j, hj, fun hn => hlt (Nat.lt_of_succ_lt_succ hn)⟩

/-- What comes after a repetition has come before. -/
theorem iterate_before {α : Type} {f : α → α} {x : α} {a b : Nat} (hab : a < b)
    (h : f^[a] x = f^[b] x) (n : Nat) : ∃ m < b, f^[n] x = f^[m] x := by
  induction n using Nat.strong_induction_on with
  | _ n ih =>
      by_cases hn : n < b
      · exact ⟨n, hn, rfl⟩
      · have hback : f^[n] x = f^[n - b + a] x := by
          rw [Function.iterate_add_apply, h, ← Function.iterate_add_apply,
            Nat.sub_add_cancel (Nat.not_lt.1 hn)]
        obtain ⟨m, hm, heq⟩ := ih (n - b + a) (by omega)
        exact ⟨m, hm, hback.trans heq⟩

theorem not_stop_of_walk_hang {stop : ι → Bool} {fuel : Nat} {head : Option ι} {nodes : Finset ι}
    (h : walk next stop fuel head = none) (hnodes : ∀ i, Visits next head i → i ∈ nodes)
    (hfuel : nodes.card ≤ fuel) {i : ι} (hi : Visits next head i) : stop i = false := by
  classical
  -- among the first `fuel + 1` nodes one is seen twice
  have hmaps : ∀ n ∈ Finset.range (fuel + 1), (follow next)^[n] head ∈ nodes.image some := by
    intro n hn
    obtain ⟨j, hj, -⟩ := walk_hang h (Nat.le_of_lt_succ (Finset.mem_range.1 hn))
    rw [hj]
    exact Finset.mem_image_of_mem some (hnodes j (visits_iterate hj))
  have hcard : (nodes.image some).card < (Finset.range (fuel + 1)).card := by
    rw [Finset.card_range]
    exact Nat.lt_succ_of_le (Nat.le_trans Finset.card_image_le hfuel)
  obtain ⟨a, ha, b, hb, hne, heq⟩ := Finset.exists_ne_map_eq_of_card_lt_of_maps_to hcard hmaps
  have ha := Nat.le_of_lt_succ (Finset.mem_range.1 ha)
  have hb := Nat.le_of_lt_succ (Finset.mem_range.1 hb)
  have hearly : ∀ n, ∃ m < fuel, (follow next)^[n] head = (follow next)^[m] head := by
    intro n
    rcases Nat.lt_or_gt_of_ne hne with hlt | hlt
    · obtain ⟨m, hm, hnm⟩ := iterate_before hlt heq n
      exact ⟨m, Nat.lt_of_lt_of_le hm hb, hnm⟩
    · obtain ⟨m, hm, hnm⟩ := iterate_before hlt heq.symm n
      exact ⟨m, Nat.lt_of_lt_of_le hm ha, hnm⟩
  obtain ⟨n, hn⟩ := hi.iterate
  obtain ⟨m, hm, hnm⟩ := hearly n
  obtain ⟨j, hj, hstop⟩ := walk_hang h (Nat.le_of_lt hm)
  rw [← hnm, hn] at hj
  obtain rfl := Option.some.inj hj
  exact hstop hm

end Chains
