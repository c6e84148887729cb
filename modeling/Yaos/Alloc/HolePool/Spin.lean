import Yaos.Alloc.HolePool.Proofs

set_option autoImplicit false

/-! # What the hole-list operations do with their lock

The lock operations of a pool are replayed on a lock: taking it while it is held, or releasing it
while it is free, is no state at all (`none`). `freeHole` is the only operation that may leave the
lock held, on the path that extends a hole. -/

namespace Yaos

open Chains Word

/-! ## Replaying lock operations -/

/-- One operation on a lock that is held (`true`) or free (`false`). -/
def spinStep : Bool → SpinOp → Option Bool
  | false, .lock => some true
  | true, .unlock => some false
  | _, _ => none

/-- The lock after all operations so far. -/
def HolePool.lockState (s : HolePool) : Option Bool := s.spin.foldlM spinStep false

/-- The lock is free, and has never been taken while it was held. -/
def HolePool.Released (s : HolePool) : Prop := s.lockState = some false

/-- The lock is held, and was free when it was taken. -/
def HolePool.Held (s : HolePool) : Prop := s.lockState = some true

instance (s : HolePool) : Decidable s.Held := inferInstanceAs (Decidable (_ = _))

namespace HolePool

variable {s s' : HolePool}

theorem lockState_congr (h : s'.spin = s.spin) : s'.lockState = s.lockState := by
  rw [lockState, h, lockState]

theorem lockState_append {op : SpinOp} (h : s'.spin = s.spin ++ [op]) :
    s'.lockState = s.lockState.bind (spinStep · op) := by
  rw [lockState, h, List.foldlM_append, lockState]
  cases s.spin.foldlM spinStep false with
  | none => rfl
  | some held => cases held <;> cases op <;> rfl

theorem Released.lock (h : s.Released) : s.spinLock.Held := by
  rw [Held, lockState_append (s := s) rfl, h]
  rfl

theorem Held.unlock (h : s.Held) : s.spinUnlock.Released := by
  rw [Released, lockState_append (s := s) rfl, h]
  rfl

/-- A lock that is taken while it is held is never released again. -/
theorem Held.lock_none (h : s.Held) : s.spinLock.lockState = none := by
  rw [lockState_append (s := s) rfl, h]
  rfl

theorem spinUnlock_none (h : s.lockState = none) : s.spinUnlock.lockState = none := by
  rw [lockState_append (s := s) rfl, h]
  rfl

theorem Held.not_released (h : s.Held) : ¬ s.Released := by
  intro hr
  rw [Released, h] at hr
  cases hr

theorem Held.congr (h : s.Held) (hspin : s'.spin = s.spin) : s'.Held :=
  (lockState_congr hspin).trans h

theorem Released.congr (h : s.Released) (hspin : s'.spin = s.spin) : s'.Released :=
  (lockState_congr hspin).trans h

end HolePool

theorem initHoles_released (capacity : Nat) : (initHoles capacity).Released := rfl

/-! ## The operations -/

/-- A node of the list of holes. -/
def HolePool.IsHole (s : HolePool) (i : Nat) : Prop := Visits s.next s.phead i

/-- Some hole ends at `addr`. -/
def HolePool.EndsAt (s : HolePool) (addr : Nat) : Prop := ∃ i, s.IsHole i ∧ s.holeEnd i = addr

section Ops

variable {c : HoleConfig} {s s' : HolePool} {p addr size : Nat}

theorem insertHole_spin (h : insertHole c s p addr size = .ok s') : s'.spin = s.spin ++ [.unlock] := by
  dsimp only [insertHole] at h
  split at h
  · rw [← Except.ok.inj h]
    rfl
  · split at h
    · rw [← Except.ok.inj h]
      rfl
    · split at h
      · cases h
      · rw [← Except.ok.inj h]
        rfl

/-- Freeing leaves the lock as the copy of the code does: held exactly when the range extends a hole
    and that path has no unlock. -/
theorem freeHole_locks (hs : s.Released) (h : freeHole c s addr size = .ok s') :
    (s.EndsAt addr ∧ c.unlockOnMerge = false ∧ s'.Held) ∨
      ((s.EndsAt addr → c.unlockOnMerge = true) ∧ s'.Released) := by
  dsimp only [freeHole] at h
  split at h
  · cases h
  · split at h
    · cases h
    · rename_i ph hwalk
      obtain ⟨hvisit, hend⟩ := visits_of_walk_some hwalk
      have hmerge : s.EndsAt addr := ⟨ph, hvisit, beq_iff_eq.1 hend⟩
      cases hc : c.unlockOnMerge with
      | false =>
          rw [hc] at h
          refine .inl ⟨hmerge, rfl, ?_⟩
          rw [← Except.ok.inj h]
          exact hs.lock.congr rfl
      | true =>
          rw [hc] at h
          refine .inr ⟨fun _ => rfl, ?_⟩
          rw [← Except.ok.inj h]
          have hmod : (s.spinLock.modify ph fun n => { n with size := wadd n.size size }).Held :=
            hs.lock.congr rfl
          exact hmod.unlock
    · rename_i hwalk
      have hno : ¬ s.EndsAt addr := by
        rintro ⟨i, hvisit, hend⟩
        have hstop := not_stop_of_walk_none hwalk hvisit
        exact beq_eq_false_iff_ne.1 hstop hend
      have hspin := insertHole_spin h
      exact .inr ⟨fun hm => absurd hm hno, hs.lock.unlock.congr hspin⟩

/-- After a free there is a hole. -/
theorem freeHole_phead (h : freeHole c s addr size = .ok s') : s'.phead ≠ none := by
  dsimp only [freeHole] at h
  split at h
  · cases h
  · split at h
    · cases h
    · rename_i ph hwalk
      have hne : s.phead ≠ none := fun hn => by
        have hvisit := (visits_of_walk_some hwalk).1
        rw [HolePool.spinLock_phead, hn] at hvisit
        cases hvisit
      rw [← Except.ok.inj h]
      split <;> exact hne
    · dsimp only [insertHole] at h
      split at h
      · rw [← Except.ok.inj h]
        exact Option.some_ne_none _
      · rename_i hhead
        split at h
        · rw [← Except.ok.inj h]
          exact Option.some_ne_none _
        · split at h
          · cases h
          · rw [← Except.ok.inj h]
            exact ne_of_eq_of_ne hhead (Option.some_ne_none _)

/-- The search after a refill finds a hole. -/
theorem firstFitOrLast_ne_none (hhead : s.phead ≠ none) : firstFitOrLast c s size ≠ some none := by
  intro h
  obtain ⟨i, hi⟩ := Option.ne_none_iff_exists'.1 hhead
  unfold firstFitOrLast at h
  rw [hi] at h
  obtain ⟨j, hj, hlast⟩ := exists_last_of_walk_none h
  have hstop := not_stop_of_walk_none h hj
  rw [hlast] at hstop
  cases hstop

theorem firstFit_some_iff {r : Option Nat} (h : firstFit c s size = some r) :
    r = none ↔ ∀ i, s.IsHole i → (s.nodes i).size < size := by
  cases r with
  | none =>
      refine iff_of_true rfl fun i hi => ?_
      simpa using not_stop_of_walk_none h hi
  | some p =>
      obtain ⟨hp, hfit⟩ := visits_of_walk_some h
      refine iff_of_false (Option.some_ne_none p) fun hall => ?_
      have := hall p hp
      simp only [Bool.not_eq_true', decide_eq_false_iff_not] at hfit
      exact hfit this

theorem unlinkHole_spin (h : unlinkHole c s p = .ok s') : s'.spin = s.spin := by
  dsimp only [unlinkHole] at h
  split at h
  · cases h
  · split at h
    · rw [← Except.ok.inj h]
    · split at h
      · rw [← Except.ok.inj h]
        rfl
      · split at h
        · cases h
        · split at h
          · cases h
          · rw [← Except.ok.inj h]
            rfl

theorem carveHole_spin {drop ret : Nat} (h : carveHole c drop s p size = .ok (ret, s')) :
    s'.spin = s.spin := by
  dsimp only [carveHole] at h
  split at h
  · obtain ⟨s₁, hunlink, h⟩ := bind_eq_ok.1 h
    rw [← (Prod.mk.inj (Except.ok.inj h)).2]
    have hspin := unlinkHole_spin hunlink
    exact hspin
  · rw [← (Prod.mk.inj (Except.ok.inj h)).2]
    rfl

end Ops

end Yaos
