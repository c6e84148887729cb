import Mathlib.Data.List.Nodup
import Mathlib.Data.List.Pairwise
import Mathlib.Data.List.Perm.Basic

set_option autoImplicit false

/-! # Memory taken from an allocator and given back

The calls made to an allocator are kept newest first, and what is allocated follows from them. An
`Allocator` may answer a request in any way, as long as it does not hand out memory that is still
allocated. `History` are the call sequences that it can take part in, and `History.free_perm` is the
rule for giving one region back. -/

namespace Regions

/-- The bytes from `base` on. -/
structure Region where
  base : Nat
  size : Nat
deriving DecidableEq, Repr

namespace Region

/-- The region `r` lies inside `s`. -/
def Within (r s : Region) : Prop := s.base ≤ r.base ∧ r.base + r.size ≤ s.base + s.size

/-- No byte in common. -/
def Apart (r s : Region) : Prop := r.base + r.size ≤ s.base ∨ s.base + s.size ≤ r.base

instance (r s : Region) : Decidable (r.Within s) := inferInstanceAs (Decidable (_ ∧ _))

instance (r s : Region) : Decidable (r.Apart s) := inferInstanceAs (Decidable (_ ∨ _))

theorem Within.refl (r : Region) : r.Within r := ⟨Nat.le_refl _, Nat.le_refl _⟩

theorem Apart.symm {r s : Region} (h : r.Apart s) : s.Apart r := Or.symm h

theorem Apart.mono {r r' s s' : Region} (h : r.Apart s) (hr : r'.Within r) (hs : s'.Within s) :
    r'.Apart s' := by
  rcases h with h | h
  · exact .inl (Nat.le_trans hr.2 (Nat.le_trans h hs.1))
  · exact .inr (Nat.le_trans hs.2 (Nat.le_trans h hr.1))

theorem Apart.base_ne {r s : Region} (h : r.Apart s) (hr : 0 < r.size) (hs : 0 < s.size) :
    r.base ≠ s.base := by
  intro heq
  rcases h with h | h <;> omega

end Region

/-- A region is taken or given back. -/
inductive Event
  | alloc (r : Region)
  | free (base : Nat)
deriving DecidableEq, Repr

/-- The regions that are allocated after the events. -/
def live : List Event → List Region
  | [] => []
  | .alloc r :: es => r :: live es
  | .free a :: es => (live es).filter fun r => r.base ≠ a

/-- Every `free` is of a region that is allocated at that time. -/
def FreesLive : List Event → Prop
  | [] => True
  | .alloc _ :: es => FreesLive es
  | .free a :: es => (∃ r ∈ live es, r.base = a) ∧ FreesLive es

/-- The address for a request of `n` bytes after some calls, with `none` for failure. -/
structure Allocator where
  answer : List Event → Nat → Option Nat
  ne_zero : ∀ {es n a}, answer es n = some a → a ≠ 0
  apart : ∀ {es n a}, answer es n = some a → ∀ r ∈ live es, Region.Apart ⟨a, n⟩ r

/-- Calls that the allocator `A` answered, with no request of zero bytes. -/
inductive History (A : Allocator) : List Event → Prop
  | nil : History A []
  | alloc {es : List Event} {n a : Nat} : History A es → 0 < n → A.answer es n = some a →
      History A (.alloc ⟨a, n⟩ :: es)
  | free {es : List Event} (a : Nat) : History A es → History A (.free a :: es)

namespace History

variable {A : Allocator} {es : List Event}

theorem size_pos (h : History A es) : ∀ r ∈ live es, 0 < r.size := by
  induction h with
  | nil => simp [live]
  | alloc _ hn _ ih => simpa [live, hn] using ih
  | free a _ ih => exact fun r hr => ih r (List.mem_of_mem_filter hr)

/-- What is allocated at one time does not overlap. -/
theorem pairwise (h : History A es) : (live es).Pairwise Region.Apart := by
  induction h with
  | nil => exact List.Pairwise.nil
  | alloc _ _ ha ih => exact List.pairwise_cons.2 ⟨A.apart ha, ih⟩
  | free a _ ih => exact ih.filter _

theorem nodup (h : History A es) : ((live es).map Region.base).Nodup := by
  rw [List.Nodup, List.pairwise_map]
  exact h.pairwise.imp_of_mem fun hr hs hap => hap.base_ne (h.size_pos _ hr) (h.size_pos _ hs)

/-- Giving back one of the allocated regions leaves the others. -/
theorem free_perm (h : History A es) {r : Region} {l : List Region} (hl : (live es).Perm (r :: l)) :
    (live (.free r.base :: es)).Perm l := by
  have hbases : ((r :: l).map Region.base).Nodup := (hl.map _).nodup_iff.1 h.nodup
  rw [List.map_cons, List.nodup_cons] at hbases
  have hkeep : (r :: l).filter (fun s => s.base ≠ r.base) = l := by
    rw [List.filter_cons_of_neg (by simp)]
    refine List.filter_eq_self.2 fun s hs => ?_
    have hne : s.base ≠ r.base := fun heq => hbases.1 (heq ▸ List.mem_map_of_mem hs)
    simpa using hne
  rw [← hkeep]
  exact hl.filter _

end History

/-- Regions given back one after the other, the first one of the list first. -/
def freeAll (bases : List Nat) (es : List Event) : List Event :=
  bases.foldl (fun es a => .free a :: es) es

theorem History.freeAll {A : Allocator} {es : List Event} (h : History A es) (bases : List Nat) :
    History A (freeAll bases es) := by
  induction bases generalizing es with
  | nil => exact h
  | cons a bases ih => exact ih (h.free a)

/-- Giving back a part of what is allocated leaves the rest, and every single call is in order. -/
theorem History.freeAll_perm {A : Allocator} {es : List Event} (h : History A es)
    (hfrees : FreesLive es) {bases : List Nat} {rs l : List Region}
    (hbases : bases.Perm (rs.map Region.base)) (hl : (live es).Perm (rs ++ l)) :
    (live (Regions.freeAll bases es)).Perm l ∧ FreesLive (Regions.freeAll bases es) := by
  induction bases generalizing es rs with
  | nil =>
      have hrs : rs = [] := List.map_eq_nil_iff.1 (List.nil_perm.1 hbases)
      rw [hrs] at hl
      exact ⟨hl, hfrees⟩
  | cons a bases ih =>
      obtain ⟨r, hr, rfl⟩ := List.mem_map.1 (hbases.mem_iff.1 List.mem_cons_self)
      have hrs : rs.Perm (r :: rs.erase r) := List.perm_cons_erase hr
      have hlive : (live es).Perm (r :: (rs.erase r ++ l)) := hl.trans (hrs.append_right l)
      have hmem : r ∈ live es := hlive.mem_iff.2 List.mem_cons_self
      refine ih (h.free r.base) ⟨⟨r, hmem, rfl⟩, hfrees⟩ ?_ (h.free_perm hlive)
      exact (List.perm_cons r.base).1 (hbases.trans (hrs.map Region.base))

end Regions
