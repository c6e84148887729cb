import Yaos.PhyMem.Runs

set_option autoImplicit false

/-! # When `alloc_phy_page` fails

The search looks at the words below `pmax` and at the one it starts from. `pmax` counts whole words of the bitmap,
and the frames behind them are counted in `pages` as all others are. -/

namespace Yaos

open Bitmap Word

section Exhausted

variable {s : PhyMem}

theorem PhyMem.Inv.fails_iff (h : s.Inv) :
    (∃ s', allocPhyPage s = .ok (0, s')) ↔ s.pages = 0 ∨ ∀ k, s.Searched k → s.pgbits k = 0 := by
  rcases allocPhyPage_cases h with ⟨hcause, pnow, -, hok⟩ | ⟨i, pnow, -, hi, hne, hsearched, hok⟩
  · exact iff_of_true ⟨_, hok⟩ hcause
  · refine iff_of_false ?_ ?_
    · rintro ⟨s', hzero⟩
      rw [hok] at hzero
      have := (Prod.mk.inj (Except.ok.inj hzero)).1
      omega
    · rintro (hpages | hall)
      · rw [h.count, Finset.card_eq_zero] at hpages
        rw [hpages] at hi
        exact Finset.notMem_empty i hi
      · exact word_ne_zero (mem_setBits.1 hi).2 (hall _ hsearched)

/-- A frame in a word that is searched. -/
def PhyMem.Reachable (s : PhyMem) : Prop := ∃ i ∈ s.freeFrames, s.Searched (i / 64)

theorem PhyMem.Inv.reachable_iff (h : s.Inv) :
    s.Reachable ↔ ¬ ∀ k, s.Searched k → s.pgbits k = 0 := by
  constructor
  · rintro ⟨i, hi, hsearched⟩ hall
    exact word_ne_zero (mem_setBits.1 hi).2 (hall _ hsearched)
  · intro hall
    obtain ⟨k, hk⟩ := not_forall.1 hall
    obtain ⟨hsearched, hne⟩ := Classical.not_imp.1 hk
    obtain ⟨hlt, hbit⟩ := bit_ffs hne
    have hle := h.pnow_le
    unfold Searched at hsearched
    refine ⟨_, mem_setBits.2 ⟨?_, hbit⟩, ?_⟩
    · omega
    · rw [show (ffs (s.pgbits k) + k * 64) / 64 = k by omega]
      exact hsearched

/-- Below 128 MiB, or at a multiple of them, every frame is in a word that is searched. -/
theorem PhyMem.Inv.reachable_of_whole (h : s.Inv)
    (hwhole : s.maxPhyAddr < 0x8000000 ∨ s.maxPhyAddr % 0x8000000 = 0) : s.pages = 0 ∨ s.Reachable := by
  by_cases hpages : s.pages = 0
  · exact .inl hpages
  rw [h.count] at hpages
  obtain ⟨i, hi⟩ := Finset.card_ne_zero.1 hpages
  have hin := h.inside i hi
  have hpmax := h.pmax_eq
  have hnow := h.pnow_le
  refine .inr ⟨i, hi, ?_⟩
  unfold Searched
  rcases hwhole with hlow | hmult
  · exact .inr (by omega)
  · exact .inl (by omega)

theorem freeBits_max (n pos : Nat) (s : PhyMem) : (freeBits n pos s).maxPhyAddr = s.maxPhyAddr := by
  induction n generalizing pos s with
  | zero => rfl
  | succ n ih => rw [freeBits, ih, freeBit_max]

theorem PhyMemStep.max_eq {s' : PhyMem} {e : PhyMemEvent} (step : PhyMemStep s e s') (h : s.Inv) :
    s'.maxPhyAddr = s.maxPhyAddr := by
  cases e with
  | alloc ret =>
      have hok : allocPhyPage s = .ok (ret, s') := step
      rcases allocPhyPage_spec h with ⟨pnow, -, heq⟩ | ⟨i, pnow, -, -, -, heq⟩
      · rw [hok] at heq
        obtain ⟨-, rfl⟩ := Prod.mk.inj (Except.ok.inj heq)
        rfl
      · rw [hok] at heq
        obtain ⟨-, rfl⟩ := Prod.mk.inj (Except.ok.inj heq)
        rfl
  | freeOne addr =>
      obtain ⟨-, hok⟩ := assert_bind_eq_ok.1 (step : freePhyOnePage s addr = .ok s')
      split at hok
      · rw [← Except.ok.inj (assert_bind_eq_ok.1 hok).2, freeBit_max]
      · rw [← Except.ok.inj hok]
  | freePages addr size =>
      obtain ⟨-, hok⟩ := assert_bind_eq_ok.1 step.2
      split at hok
      · obtain ⟨-, hok⟩ := assert_bind_eq_ok.1 (assert_bind_eq_ok.1 hok).2
        rw [← Except.ok.inj hok, freeBits_max]
      · rw [← Except.ok.inj hok]

theorem PhyMemRun.max_eq {s₀ : PhyMem} {es : List PhyMemEvent} (run : PhyMemRun s₀ es s) (h : s₀.Inv) :
    s.maxPhyAddr = s₀.maxPhyAddr := by
  induction run with
  | nil => rfl
  | snoc run step ih => exact (step.max_eq (run.inv h)).trans ih

/-- **When the frames are exhausted.** In every state that is reached `alloc_phy_page` returns. It fails only
    where no frame is free exactly if there is none or the search gets to one; and this is so in every state
    where the memory is below 128 MiB or a multiple of them. -/
theorem allocPhyPage_exhausted_iff {maxPhyAddr maxPhyMemAddr : Nat} {p : Nat → BitVec 64}
    {es : List PhyMemEvent} (hmax : maxPhyAddr < 2 ^ 64)
    (run : PhyMemRun (initPhyMem maxPhyAddr maxPhyMemAddr p) es s) :
    (∃ ret s', allocPhyPage s = .ok (ret, s') ∧ ((ret = 0 → s.pages = 0) ↔ s.pages = 0 ∨ s.Reachable)) ∧
      (maxPhyAddr < 0x8000000 ∨ maxPhyAddr % 0x8000000 = 0 → s.pages = 0 ∨ s.Reachable) := by
  have hinit : (initPhyMem maxPhyAddr maxPhyMemAddr p).Inv := initPhyMem_inv hmax
  have hinv : s.Inv := run.inv hinit
  refine ⟨?_, fun hwhole => hinv.reachable_of_whole ?_⟩
  · obtain ⟨ret, s', hok⟩ : ∃ ret s', allocPhyPage s = .ok (ret, s') := by
      rcases allocPhyPage_spec hinv with ⟨pnow, -, hok⟩ | ⟨i, pnow, -, -, -, hok⟩
      · exact ⟨_, _, hok⟩
      · exact ⟨_, _, hok⟩
    refine ⟨ret, s', hok, fun himp => ?_, fun hcond hzero => ?_⟩
    · by_cases hzero : ret = 0
      · exact .inl (himp hzero)
      · -- a frame was found, so the words searched are not all empty
        refine .inr (hinv.reachable_iff.2 fun hall => ?_)
        obtain ⟨s'', hfail⟩ := hinv.fails_iff.2 (.inr hall)
        rw [hok] at hfail
        exact hzero (Prod.mk.inj (Except.ok.inj hfail)).1
    · rcases hinv.fails_iff.1 ⟨s', hzero ▸ hok⟩ with hpages | hall
      · exact hpages
      · exact hcond.resolve_right fun hr => hinv.reachable_iff.1 hr hall
  · rw [run.max_eq hinit]
    exact hwhole

/-- 1 GiB, with one frame freed. -/
theorem allocPhyPage_exhausted_whole : ∃ s,
    PhyMemRun (initPhyMem 0x40000000 0x40000000 fun _ => 0) [.freeOne 0x200000] s ∧
    (s.pages = 0 ∨ s.Reachable) := by
  have hrun : PhyMemRun (initPhyMem 0x40000000 0x40000000 fun _ => 0) ([] ++ [.freeOne 0x200000]) _ :=
    .snoc (.nil _) rfl
  exact ⟨_, hrun, (allocPhyPage_exhausted_iff (by decide) hrun).2 (.inr (by decide))⟩

/-- 258 MiB: the last frame is in a word that is not searched. -/
theorem allocPhyPage_misses : ∃ s,
    PhyMemRun (initPhyMem 0x10200000 0x10200000 fun _ => 0) [.freePages 0x10000000 0x200000] s ∧
    s.pages = 1 ∧ ∃ s', allocPhyPage s = .ok (0, s') := by
  have hrun : PhyMemRun (initPhyMem 0x10200000 0x10200000 fun _ => 0) ([] ++ [.freePages 0x10000000 0x200000]) _ :=
    .snoc (.nil _) ⟨by decide, rfl⟩
  exact ⟨_, hrun, by decide +kernel, _, rfl⟩

end Exhausted

end Yaos
