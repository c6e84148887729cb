import Mathlib.Order.Defs.LinearOrder
import Mathlib.Order.Lattice
import Mathlib.Data.List.Nodup
import Mathlib.Data.List.Pairwise
import Mathlib.Data.Set.Basic

set_option autoImplicit false

/-! # Lists of intervals and the sets they cover

Half-open intervals over a linear order. `Ascending` intervals do not overlap but may touch; `Gapped` ones do not
touch, and are the maximal intervals of their union. A set has one such list, and an ascending list of the same
set is longer by the number of places where two of its intervals touch (`Ascending.length_eq`). -/

namespace Intervals

variable {α : Type} [LinearOrder α] {l m : List (α × α)} {a b : α}

/-- The union of the intervals `[r.1, r.2)`. -/
def cover (l : List (α × α)) : Set α := { a | ∃ r ∈ l, r.1 ≤ a ∧ a < r.2 }

/-- Non-empty intervals, each ending at or below the start of the later ones. -/
structure Ascending (l : List (α × α)) : Prop where
  proper : ∀ r ∈ l, r.1 < r.2
  sorted : l.Pairwise fun r q => r.2 ≤ q.1

/-- Non-empty intervals, each ending below the start of the later ones. -/
structure Gapped (l : List (α × α)) : Prop where
  proper : ∀ r ∈ l, r.1 < r.2
  gaps : l.Pairwise fun r q => r.2 < q.1

/-- The number of intervals that start where another one ends. -/
def touching (l : List (α × α)) : Nat := l.countP fun r => l.any fun q => q.2 == r.1

/-- An element of `S` that has elements outside `S` right below it. -/
def Starts (S : Set α) (a : α) : Prop := a ∈ S ∧ ∀ b < a, ∃ c, b ≤ c ∧ c < a ∧ c ∉ S

theorem Gapped.ascending (h : Gapped l) : Ascending l := ⟨h.proper, h.gaps.imp le_of_lt⟩

theorem Ascending.eq_or_apart (h : Ascending l) :
    ∀ r ∈ l, ∀ q ∈ l, r = q ∨ r.2 ≤ q.1 ∨ q.2 ≤ r.1 := by
  refine fun r hr q hq => List.Pairwise.forall_of_forall_of_flip
    (R := fun r q => r = q ∨ r.2 ≤ q.1 ∨ q.2 ≤ r.1) ?_ ?_ ?_ hr hq
  · exact fun r _ => .inl rfl
  · exact h.sorted.imp fun hle => .inr (.inl hle)
  · exact h.sorted.imp fun hle => .inr (.inr hle)

theorem Ascending.nodup_fst (h : Ascending l) : (l.map Prod.fst).Nodup := by
  rw [List.Nodup, List.pairwise_map]
  exact h.sorted.imp_of_mem fun hr _ hle => ne_of_lt ((h.proper _ hr).trans_le hle)

theorem Gapped.not_touching (h : Gapped l) : ∀ r ∈ l, ∀ q ∈ l, q.2 ≠ r.1 := by
  refine fun r hr q hq => List.Pairwise.forall_of_forall_of_flip (R := fun r q => q.2 ≠ r.1) ?_ ?_ ?_ hr hq
  · exact fun r hr => ne_of_gt (h.proper r hr)
  · exact h.gaps.imp_of_mem fun hr hq hlt => ne_of_gt
      (((h.proper _ hr).trans hlt).trans (h.proper _ hq))
  · exact h.gaps.imp ne_of_lt

/-- Below `a` there is an element that lies above `b` and above all the ends below `a`. -/
theorem exists_above_ends (l : List (α × α)) (hlt : b < a) :
    ∃ c, b ≤ c ∧ c < a ∧ ∀ q ∈ l, q.2 < a → q.2 ≤ c := by
  induction l with
  | nil => exact ⟨b, le_rfl, hlt, by simp⟩
  | cons r rest ih =>
      obtain ⟨c, hbc, hca, hends⟩ := ih
      by_cases hr : r.2 < a
      · refine ⟨max c r.2, hbc.trans (le_max_left c r.2), max_lt hca hr, fun q hq hqa => ?_⟩
        rcases List.mem_cons.1 hq with rfl | hq
        · exact le_max_right c q.2
        · exact (hends q hq hqa).trans (le_max_left c r.2)
      · refine ⟨c, hbc, hca, fun q hq hqa => ?_⟩
        rcases List.mem_cons.1 hq with rfl | hq
        · exact absurd hqa hr
        · exact hends q hq hqa

/-- The covered set starts at an interval that touches no end of another one. -/
theorem Ascending.starts_iff (h : Ascending l) :
    Starts (cover l) a ↔ ∃ r ∈ l, r.1 = a ∧ ∀ q ∈ l, q.2 ≠ a := by
  constructor
  · rintro ⟨⟨r, hr, hra, har⟩, hbelow⟩
    have hin : ∀ q ∈ l, q.1 < a → a ≤ q.2 → False := by
      intro q hq hqa haq
      obtain ⟨c, hqc, hca, hc⟩ := hbelow q.1 hqa
      exact hc ⟨q, hq, hqc, hca.trans_le haq⟩
    refine ⟨r, hr, le_antisymm hra (not_lt.1 fun hlt => hin r hr hlt har.le), fun q hq heq => ?_⟩
    exact hin q hq (heq ▸ h.proper q hq) heq.ge
  · rintro ⟨r, hr, rfl, hends⟩
    refine ⟨⟨r, hr, le_rfl, h.proper r hr⟩, fun b hb => ?_⟩
    obtain ⟨c, hbc, hca, hc⟩ := exists_above_ends l hb
    refine ⟨c, hbc, hca, ?_⟩
    rintro ⟨q, hq, hqc, hcq⟩
    -- `q` would reach over the start of `r`
    have hover : r.1 < q.2 := lt_of_not_ge fun hge =>
      absurd (hc q hq (lt_of_le_of_ne hge (hends q hq))) (not_le.2 hcq)
    rcases h.eq_or_apart r hr q hq with rfl | hle | hle
    · exact absurd hqc (not_le.2 hca)
    · exact absurd ((h.proper r hr).trans_le (hle.trans (hqc.trans hca.le))) (lt_irrefl _)
    · exact absurd hover (not_lt.2 hle)

/-- **Counting maximal intervals.** -/
theorem Ascending.length_eq (h : Ascending l) (hm : Gapped m) (hcover : cover m = cover l) :
    l.length = m.length + touching l := by
  set p : α × α → Bool := fun r => l.any fun q => q.2 == r.1 with hp
  have huntouched : ∀ a, a ∈ (l.filter fun r => !p r).map Prod.fst ↔ Starts (cover l) a := by
    intro a
    rw [h.starts_iff, List.mem_map]
    constructor
    · rintro ⟨r, hr, rfl⟩
      obtain ⟨hr, hends⟩ := List.mem_filter.1 hr
      exact ⟨r, hr, rfl, by simpa [hp] using hends⟩
    · rintro ⟨r, hr, rfl, hends⟩
      exact ⟨r, List.mem_filter.2 ⟨hr, by simpa [hp] using hends⟩, rfl⟩
  have hmaximal : ∀ a, a ∈ m.map Prod.fst ↔ Starts (cover m) a := by
    intro a
    rw [hm.ascending.starts_iff, List.mem_map]
    constructor
    · rintro ⟨r, hr, rfl⟩
      exact ⟨r, hr, rfl, hm.not_touching r hr⟩
    · rintro ⟨r, hr, rfl, -⟩
      exact ⟨r, hr, rfl⟩
  have hnodup : ((l.filter fun r => !p r).map Prod.fst).Nodup :=
    h.nodup_fst.sublist (List.filter_sublist.map _)
  have hperm : ((l.filter fun r => !p r).map Prod.fst).Perm (m.map Prod.fst) := by
    rw [List.perm_ext_iff_of_nodup hnodup hm.ascending.nodup_fst]
    intro a
    rw [huntouched, hmaximal, hcover]
  have hlen := hperm.length_eq
  rw [List.length_map, List.length_map, ← List.countP_eq_length_filter] at hlen
  rw [← hlen, List.length_eq_countP_add_countP p, Nat.add_comm]
  simp only [Bool.not_eq_true, Bool.decide_eq_false, touching, hp]

end Intervals
