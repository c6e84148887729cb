import Yaos.PhyMem

set_option autoImplicit false

/-! # Runs of the frame bitmap

The count is right and no frame is handed out twice, for every amount of memory. The search leaves
`pnow` at or below `pmax`: with one word or more below `pmax` because a search in vain ends at the
word it started from or at word 1, and with none because `pages` is not 0, so that word 0 has a bit
set and the search ends there. -/

namespace Yaos

open Bitmap Word

/-- The free frames, by number. -/
def PhyMem.freeFrames (s : PhyMem) : Finset Nat := setBits s.pgbits (64 * (s.pmax + 1))

/-- The counter is right, and only pages of the memory are free, page 0 never. -/
structure PhyMem.Inv (s : PhyMem) : Prop where
  count : s.pages = s.freeFrames.card
  first : bit s.pgbits 0 = false
  inside : ∀ i ∈ s.freeFrames, 0x200000 * i < s.maxPhyAddr
  pnow_le : s.pnow ≤ s.pmax
  pmax_eq : s.pmax = s.maxPhyAddr / 0x200000 / 64
  max_lt : s.maxPhyAddr < 2 ^ 64

/-! ## The search -/

theorem scanWords_spec {w : Nat → BitVec 64} {stop turns pnow : Nat} (ht : stop ≤ pnow + 1 + turns) :
    (∃ k, scanWords w stop turns pnow = (k, true) ∧ pnow < k ∧ k < stop ∧ w k ≠ 0) ∨
      (scanWords w stop turns pnow = (max (pnow + 1) stop, false) ∧
        ∀ k, pnow < k → k < stop → w k = 0) := by
  induction turns generalizing pnow with
  | zero =>
      refine .inr ⟨?_, fun k hk hs => ?_⟩
      · rw [scanWords, max_eq_left (by omega)]
      · omega
  | succ turns ih =>
      unfold scanWords
      by_cases hlt : pnow + 1 < stop
      · rw [if_pos hlt]
        by_cases hz : w (pnow + 1) = 0
        · rw [if_neg (not_not.2 hz)]
          rcases ih (show stop ≤ pnow + 1 + 1 + turns by omega) with ⟨k, hk, hlow, hhigh, hne⟩ | ⟨heq, hall⟩
          · exact .inl ⟨k, hk, by omega, hhigh, hne⟩
          · refine .inr ⟨?_, fun k hk hs => ?_⟩
            · rw [heq, max_eq_right (by omega), max_eq_right (by omega)]
            · by_cases he : k = pnow + 1
              · rw [he, hz]
              · exact hall k (by omega) hs
        · rw [if_pos hz]
          exact .inl ⟨pnow + 1, rfl, by omega, hlt, hz⟩
      · rw [if_neg hlt]
        exact .inr ⟨by rw [max_eq_left (by omega)], fun k hk hs => by omega⟩

/-- The search ends at a word with a bit set, or there is none below `stop` and where it started. -/
theorem searchWords_spec {w : Nat → BitVec 64} {stop pos : Nat} (hle : pos ≤ stop) :
    (∃ p, searchWords w stop pos = (some p, p) ∧ (p < stop ∨ p = pos) ∧ w p ≠ 0) ∨
      (searchWords w stop pos = (none, max 1 pos) ∧ ∀ k, k < stop ∨ k = pos → w k = 0) := by
  unfold searchWords
  by_cases hnow : w pos = 0
  · rw [if_neg (not_not.2 hnow)]
    dsimp only
    have hup : stop ≤ pos + 1 + (stop - pos) := by omega
    have hround : pos ≤ 0 + 1 + pos := by omega
    rcases scanWords_spec hup with ⟨k, hk, -, hhigh, hne⟩ | ⟨heq, habove⟩
    · rw [hk]
      exact .inl ⟨k, rfl, .inl hhigh, hne⟩
    · rw [heq]
      by_cases hzero : w 0 = 0
      · rw [if_neg Bool.false_ne_true, if_neg (not_not.2 hzero)]
        rcases scanWords_spec hround with ⟨k, hk, -, hhigh, hne⟩ | ⟨heq, hbelow⟩
        · rw [hk]
          exact .inl ⟨k, rfl, .inl (by omega), hne⟩
        · rw [heq]
          refine .inr ⟨rfl, fun k hk => ?_⟩
          -- `k` is in one of the two scans, or it is where one of them began
          by_cases hk0 : k = 0
          · rw [hk0, hzero]
          by_cases hkpos : k = pos
          · rw [hkpos, hnow]
          by_cases hlt : k < pos
          · exact hbelow k (by omega) hlt
          · exact habove k (by omega) (by omega)
      · rw [if_neg Bool.false_ne_true, if_pos hzero]
        have hpos : pos ≠ 0 := fun h => hzero (h ▸ hnow)
        exact .inl ⟨0, rfl, .inl (by omega), hzero⟩
  · rw [if_pos hnow]
    exact .inl ⟨pos, rfl, .inr rfl, hnow⟩

theorem getNoneZero_eq (s : PhyMem) : getNoneZero s =
    ((searchWords s.pgbits s.pmax s.pnow).1, { s with pnow := (searchWords s.pgbits s.pmax s.pnow).2 }) := by
  unfold getNoneZero searchWords
  by_cases hnow : s.pgbits s.pnow = 0
  · rw [if_neg (not_not.2 hnow), if_neg (not_not.2 hnow)]
    dsimp only
    generalize scanWords s.pgbits s.pmax (s.pmax - s.pnow) s.pnow = up
    generalize scanWords s.pgbits s.pnow s.pnow 0 = round
    obtain ⟨p, _ | _⟩ := up
    · rw [if_neg Bool.false_ne_true, if_neg Bool.false_ne_true]
      by_cases hzero : s.pgbits 0 = 0
      · rw [if_neg (not_not.2 hzero), if_neg (not_not.2 hzero)]
        obtain ⟨q, _ | _⟩ := round
        · rfl
        · rfl
      · rw [if_pos hzero, if_pos hzero]
    · rfl
  · rw [if_pos hnow, if_pos hnow]

/-- The words that a search looks at. -/
def PhyMem.Searched (s : PhyMem) (k : Nat) : Prop := k < s.pmax ∨ k = s.pnow

theorem getNoneZero_spec {s : PhyMem} (hle : s.pnow ≤ s.pmax) :
    (∃ p, s.Searched p ∧ getNoneZero s = (some p, { s with pnow := p }) ∧ s.pgbits p ≠ 0) ∨
      (getNoneZero s = (none, { s with pnow := max 1 s.pnow }) ∧ ∀ k, s.Searched k → s.pgbits k = 0) := by
  rw [getNoneZero_eq]
  rcases searchWords_spec (w := s.pgbits) hle with ⟨p, heq, hp, hne⟩ | ⟨heq, hall⟩
  · rw [heq]
    exact .inl ⟨p, hp, rfl, hne⟩
  · rw [heq]
    exact .inr ⟨rfl, hall⟩

/-! ## One call -/

/-- What `alloc_phy_page` does: it fails, no frame being free in the words searched, or it takes one of
    these. -/
theorem allocPhyPage_cases {s : PhyMem} (h : s.Inv) :
    ((s.pages = 0 ∨ ∀ k, s.Searched k → s.pgbits k = 0) ∧
      ∃ pnow ≤ s.pmax, allocPhyPage s = .ok (0, { s with pnow := pnow })) ∨
      ∃ i pnow, pnow ≤ s.pmax ∧ i ∈ s.freeFrames ∧ i ≠ 0 ∧ s.Searched (i / 64) ∧
        allocPhyPage s = .ok (0x200000 * i,
          { s with pgbits := clearBit s.pgbits i, pages := s.pages - 1, pnow := pnow }) := by
  unfold allocPhyPage
  rw [allocPhyPageLoop]
  by_cases hpages : s.pages = 0
  · rw [if_pos hpages]
    exact .inl ⟨.inl hpages, s.pnow, h.pnow_le, rfl⟩
  · rw [if_neg hpages]
    have hnow := h.pnow_le
    rcases getNoneZero_spec h.pnow_le with ⟨p, hp, heq, hne⟩ | ⟨heq, hall⟩
    · obtain ⟨hffs, hbit⟩ := bit_ffs hne
      have hple : p ≤ s.pmax := by
        unfold PhyMem.Searched at hp
        omega
      have hmem : ffs (s.pgbits p) + p * 64 ∈ s.freeFrames :=
        mem_setBits.2 ⟨by omega, hbit⟩
      have hword : (ffs (s.pgbits p) + p * 64) / 64 = p := by omega
      have hin := h.inside _ hmem
      have hmax := h.max_lt
      have hle : s.pages ≤ 64 * (s.pmax + 1) := h.count ▸ card_setBits_le
      have hpm := h.pmax_eq
      refine .inr ⟨ffs (s.pgbits p) + p * 64, p, hple, hmem, fun hz => ?_, by rw [hword]; exact hp, ?_⟩
      · rw [hz, h.first] at hbit
        cases hbit
      · rw [heq]
        dsimp only
        rw [if_neg hne, if_pos hbit, Nat.mod_eq_of_lt (by omega), wsub_eq (by omega) (by omega)]
    · -- in vain although frames are free: there is a word below `pmax`
      rw [heq]
      refine .inl ⟨.inr hall, max 1 s.pnow, max_le ?_ hnow, rfl⟩
      by_contra hlt
      have hcard : s.freeFrames.card ≠ 0 := h.count ▸ hpages
      obtain ⟨i, hi⟩ := Finset.card_ne_zero.1 hcard
      obtain ⟨hi64, hbit⟩ := mem_setBits.1 hi
      have hword := word_ne_zero hbit
      rw [show i / 64 = 0 by omega] at hword
      exact hword (hall 0 (.inr (by omega)))

theorem allocPhyPage_spec {s : PhyMem} (h : s.Inv) :
    (∃ pnow ≤ s.pmax, allocPhyPage s = .ok (0, { s with pnow := pnow })) ∨
      ∃ i pnow, pnow ≤ s.pmax ∧ i ∈ s.freeFrames ∧ i ≠ 0 ∧
        allocPhyPage s = .ok (0x200000 * i,
          { s with pgbits := clearBit s.pgbits i, pages := s.pages - 1, pnow := pnow }) := by
  rcases allocPhyPage_cases h with ⟨-, hfail⟩ | ⟨i, pnow, hle, hi, hne, -, hok⟩
  · exact .inl hfail
  · exact .inr ⟨i, pnow, hle, hi, hne, hok⟩

/-- Freeing one frame of the bitmap. -/
theorem freeBit_inv {s : PhyMem} (h : s.Inv) {pos : Nat} (hpos : pos ≠ 0)
    (hin : 0x200000 * pos < s.maxPhyAddr) : (freeBit pos s).Inv := by
  unfold freeBit
  split
  · exact h
  · rename_i hbit
    have hpm := h.pmax_eq
    have hmax := h.max_lt
    have hlt : pos < 64 * (s.pmax + 1) := by omega
    have hle : s.pages ≤ 64 * (s.pmax + 1) := h.count ▸ card_setBits_le
    have hframes : setBits (setBit s.pgbits pos) (64 * (s.pmax + 1)) = insert pos s.freeFrames :=
      setBits_setBit hlt
    have hnot : pos ∉ s.freeFrames := fun hm => hbit (mem_setBits.1 hm).2
    refine ⟨?_, ?_, fun i hi => ?_, h.pnow_le, hpm, hmax⟩
    · show wadd s.pages 1 = (setBits (setBit s.pgbits pos) (64 * (s.pmax + 1))).card
      rw [hframes, Finset.card_insert_of_notMem hnot, ← h.count, wadd_eq (by omega)]
    · show bit (setBit s.pgbits pos) 0 = false
      rw [bit_setBit, h.first, decide_eq_false hpos.symm]
      rfl
    · have hi' : i ∈ insert pos s.freeFrames := hframes ▸ hi
      rcases Finset.mem_insert.1 hi' with rfl | hi'
      · exact hin
      · exact h.inside i hi'

theorem freeBit_bit {s : PhyMem} {pos i : Nat} :
    bit (freeBit pos s).pgbits i = (bit s.pgbits i || decide (i = pos)) := by
  unfold freeBit
  split
  · rename_i hbit
    by_cases hi : i = pos
    · rw [hi, hbit]
      rfl
    · simp [hi]
  · exact bit_setBit

theorem freeBit_max (pos : Nat) (s : PhyMem) : (freeBit pos s).maxPhyAddr = s.maxPhyAddr := by
  unfold freeBit
  split <;> rfl

theorem freeBits_inv {n pos : Nat} {s : PhyMem} (h : s.Inv) (hpos : pos ≠ 0)
    (hin : 0x200000 * (pos + n) ≤ s.maxPhyAddr) : (freeBits n pos s).Inv := by
  induction n generalizing pos s with
  | zero => exact h
  | succ n ih =>
      refine ih (freeBit_inv h hpos (by omega)) (Nat.succ_ne_zero pos) ?_
      rw [freeBit_max]
      omega

/-- Only the bits of the range are set. -/
theorem freeBits_bit {n pos i : Nat} {s : PhyMem} (hi : i < pos ∨ pos + n ≤ i) :
    bit (freeBits n pos s).pgbits i = bit s.pgbits i := by
  induction n generalizing pos s with
  | zero => rfl
  | succ n ih =>
      rw [freeBits, ih (by omega), freeBit_bit, decide_eq_false (by omega), Bool.or_false]

theorem freeBits_of_free {n pos : Nat} {s : PhyMem}
    (hall : ∀ i, pos ≤ i → i < pos + n → bit s.pgbits i = true) : freeBits n pos s = s := by
  induction n generalizing pos with
  | zero => rfl
  | succ n ih =>
      have hfirst : freeBit pos s = s := if_pos (hall pos le_rfl (by omega))
      rw [freeBits, hfirst]
      exact ih fun i hlow hhigh => hall i (by omega) (by omega)

theorem initPhyMem_inv {maxPhyAddr maxPhyMemAddr : Nat} {p : Nat → BitVec 64}
    (hmax : maxPhyAddr < 2 ^ 64) : (initPhyMem maxPhyAddr maxPhyMemAddr p).Inv := by
  -- every word up to `pmax` is cleared
  have hbit : ∀ i < 64 * (maxPhyAddr / 0x200000 / 64 + 1),
      bit (clearBytes p (maxPhyAddr / 0x200000 / 8 + 8)) i = false := by
    intro i hi
    have hwhole : min 8 (maxPhyAddr / 0x200000 / 8 + 8 - 8 * (i / 64)) = 8 := by omega
    unfold bit clearBytes
    rw [hwhole]
    simp
  have hempty : (initPhyMem maxPhyAddr maxPhyMemAddr p).freeFrames = ∅ := by
    refine Finset.eq_empty_of_forall_notMem fun i hi => ?_
    obtain ⟨hlt, hb⟩ := mem_setBits.1 hi
    rw [initPhyMem, hbit i hlt] at hb
    cases hb
  refine ⟨?_, hbit 0 (by omega), fun i hi => ?_, Nat.zero_le _, rfl, hmax⟩
  · rw [hempty]
    rfl
  · rw [hempty] at hi
    exact absurd hi (Finset.notMem_empty i)

/-! ## Whole runs -/

theorem PhyMemStep.inv {s s' : PhyMem} {e : PhyMemEvent} (step : PhyMemStep s e s') (h : s.Inv) :
    s'.Inv := by
  cases e with
  | alloc ret =>
      have hok : allocPhyPage s = .ok (ret, s') := step
      rcases allocPhyPage_spec h with ⟨pnow, hle, heq⟩ | ⟨i, pnow, hle, hi, -, heq⟩
      · rw [hok] at heq
        obtain ⟨-, rfl⟩ := Prod.mk.inj (Except.ok.inj heq)
        exact ⟨h.count, h.first, h.inside, hle, h.pmax_eq, h.max_lt⟩
      · rw [hok] at heq
        obtain ⟨-, rfl⟩ := Prod.mk.inj (Except.ok.inj heq)
        have hframes : setBits (clearBit s.pgbits i) (64 * (s.pmax + 1)) = s.freeFrames.erase i :=
          setBits_clearBit
        refine ⟨?_, ?_, fun j hj => ?_, hle, h.pmax_eq, h.max_lt⟩
        · show s.pages - 1 = (setBits (clearBit s.pgbits i) (64 * (s.pmax + 1))).card
          rw [hframes, Finset.card_erase_of_mem hi, h.count]
        · show bit (clearBit s.pgbits i) 0 = false
          rw [bit_clearBit, h.first]
          rfl
        · have hj' : j ∈ s.freeFrames.erase i := hframes ▸ hj
          exact h.inside j (Finset.mem_of_mem_erase hj')
  | freeOne addr =>
      obtain ⟨-, hok⟩ := assert_bind_eq_ok.1 (step : freePhyOnePage s addr = .ok s')
      split at hok
      · obtain ⟨⟨hal, hin⟩, hok⟩ := assert_bind_eq_ok.1 hok
        rw [← Except.ok.inj hok]
        exact freeBit_inv h (by omega) (by omega)
      · rw [← Except.ok.inj hok]
        exact h
  | freePages addr size =>
      obtain ⟨hrange, hok⟩ := step
      obtain ⟨-, hok⟩ := assert_bind_eq_ok.1 hok
      split at hok
      · obtain ⟨⟨hal, -⟩, hok⟩ := assert_bind_eq_ok.1 hok
        obtain ⟨hsize, hok⟩ := assert_bind_eq_ok.1 hok
        rw [← Except.ok.inj hok]
        exact freeBits_inv h (by omega) (by omega)
      · rw [← Except.ok.inj hok]
        exact h

theorem PhyMemRun.inv {s s' : PhyMem} {es : List PhyMemEvent} (run : PhyMemRun s es s')
    (h : s.Inv) : s'.Inv := by
  induction run with
  | nil => exact h
  | snoc _ step ih => exact step.inv ih

/-- A frame that is not free stays so until it is freed. -/
theorem PhyMemStep.taken {s s' : PhyMem} {e : PhyMemEvent} (step : PhyMemStep s e s') (h : s.Inv)
    {i : Nat} (hi : bit s.pgbits i = false) (hno : ¬ e.frees (0x200000 * i)) :
    bit s'.pgbits i = false := by
  cases e with
  | alloc ret =>
      have hok : allocPhyPage s = .ok (ret, s') := step
      rcases allocPhyPage_spec h with ⟨pnow, -, heq⟩ | ⟨j, pnow, -, -, -, heq⟩
      · rw [hok] at heq
        obtain ⟨-, rfl⟩ := Prod.mk.inj (Except.ok.inj heq)
        exact hi
      · rw [hok] at heq
        obtain ⟨-, rfl⟩ := Prod.mk.inj (Except.ok.inj heq)
        show bit (clearBit s.pgbits j) i = false
        rw [bit_clearBit, hi]
        rfl
  | freeOne addr =>
      obtain ⟨-, hok⟩ := assert_bind_eq_ok.1 (step : freePhyOnePage s addr = .ok s')
      split at hok
      · obtain ⟨⟨hal, -⟩, hok⟩ := assert_bind_eq_ok.1 hok
        have hne : i ≠ addr / 0x200000 := fun he => hno (show addr = _ by omega)
        rw [← Except.ok.inj hok, freeBit_bit, hi, decide_eq_false hne]
        rfl
      · rw [← Except.ok.inj hok]
        exact hi
  | freePages addr size =>
      obtain ⟨-, hok⟩ := assert_bind_eq_ok.1 step.2
      split at hok
      · rename_i hne
        obtain ⟨⟨hal, -⟩, hok⟩ := assert_bind_eq_ok.1 hok
        obtain ⟨hsize, hok⟩ := assert_bind_eq_ok.1 hok
        have hout : i < addr / 0x200000 ∨ addr / 0x200000 + size / 0x200000 ≤ i := by
          by_contra hin
          exact hno ⟨hne, by omega, by omega⟩
        rw [← Except.ok.inj hok, freeBits_bit hout, hi]
      · rw [← Except.ok.inj hok]
        exact hi

theorem PhyMemRun.taken {s s' : PhyMem} {es : List PhyMemEvent} (run : PhyMemRun s es s')
    (h : s.Inv) {i : Nat} (hi : bit s.pgbits i = false)
    (hno : ∀ e ∈ es, ¬ e.frees (0x200000 * i)) : bit s'.pgbits i = false := by
  induction run with
  | nil => exact hi
  | snoc run step ih =>
      exact step.taken (run.inv h) (ih fun e he => hno e (List.mem_append_left _ he))
        (hno _ (by simp))

theorem PhyMemRun.split {s s' : PhyMem} {es es' : List PhyMemEvent}
    (run : PhyMemRun s (es ++ es') s') : ∃ s₁, PhyMemRun s es s₁ ∧ PhyMemRun s₁ es' s' := by
  induction es' using List.reverseRecOn generalizing s' with
  | nil =>
      rw [List.append_nil] at run
      exact ⟨s', run, .nil s'⟩
  | append_singleton es' e ih =>
      generalize hall : es ++ (es' ++ [e]) = all at run
      cases run with
      | nil => simp at hall
      | snoc run step =>
          rw [← List.append_assoc] at hall
          obtain ⟨rfl, he⟩ := List.append_inj' hall rfl
          obtain ⟨s₁, run₁, run₂⟩ := ih run
          exact ⟨s₁, run₁, (List.singleton_inj.1 he) ▸ run₂.snoc step⟩

/-- The frame that an allocation returns was free and is so no longer. -/
theorem PhyMemStep.alloc_bit {s s' : PhyMem} {ret : Nat} (step : PhyMemStep s (.alloc ret) s')
    (h : s.Inv) (hret : ret ≠ 0) :
    ∃ i, ret = 0x200000 * i ∧ bit s.pgbits i = true ∧ bit s'.pgbits i = false := by
  have hok : allocPhyPage s = .ok (ret, s') := step
  rcases allocPhyPage_spec h with ⟨pnow, -, heq⟩ | ⟨i, pnow, -, hi, -, heq⟩
  · rw [hok] at heq
    exact absurd (Prod.mk.inj (Except.ok.inj heq)).1 hret
  · rw [hok] at heq
    obtain ⟨hr, rfl⟩ := Prod.mk.inj (Except.ok.inj heq)
    refine ⟨i, hr, (mem_setBits.1 hi).2, ?_⟩
    show bit (clearBit s.pgbits i) i = false
    rw [bit_clearBit, decide_eq_true rfl, Bool.not_true, Bool.and_false]

theorem PhyMemRun.last {s s' : PhyMem} {e : PhyMemEvent} (run : PhyMemRun s [e] s') :
    PhyMemStep s e s' := by
  generalize hes : [e] = es at run
  cases run with
  | nil => cases hes
  | @snoc s₁ _ es e' run step =>
      have hsplit : ([] : List PhyMemEvent) ++ [e] = es ++ [e'] := hes
      obtain ⟨hnil, he⟩ := List.append_inj' hsplit rfl
      rw [← List.singleton_inj.1 he] at step
      subst hnil
      generalize hnil : ([] : List PhyMemEvent) = es at run
      cases run with
      | nil => exact step
      | snoc => simp at hnil

/-- Between two allocations of the same frame it is freed. -/
theorem PhyMemRun.freed_between {s s' : PhyMem} {es es' : List PhyMemEvent} {ret : Nat}
    (run : PhyMemRun s (es ++ [.alloc ret] ++ es' ++ [.alloc ret]) s') (h : s.Inv) (hret : ret ≠ 0) :
    ∃ e ∈ es', e.frees ret := by
  by_contra hno
  obtain ⟨s₃, run, last⟩ := run.split
  obtain ⟨s₂, run, between⟩ := run.split
  obtain ⟨s₁, run, first⟩ := run.split
  have hinv₁ := run.inv h
  obtain ⟨i, hi, -, hclear⟩ := first.last.alloc_bit hinv₁ hret
  have hinv₂ := first.last.inv hinv₁
  have htaken := between.taken hinv₂ hclear fun e he hf => hno ⟨e, he, hi ▸ hf⟩
  obtain ⟨j, hj, hset, -⟩ := last.last.alloc_bit (between.inv hinv₂) hret
  have hij : j = i := by omega
  rw [hij, htaken] at hset
  cases hset

/-- What is kept over every run: `pages` counts the set bits; `alloc_phy_page` returns, and it either
    fails or clears exactly one set bit, which is not bit 0, and returns the address of that frame;
    freeing what is free already changes nothing. -/
structure PhyMem.Sound (s : PhyMem) : Prop where
  count : s.pages = s.freeFrames.card
  alloc : ∃ ret s', allocPhyPage s = .ok (ret, s') ∧
    (ret = 0 ∧ s'.pgbits = s.pgbits ∧ s'.pages = s.pages ∨
      ∃ i ∈ s.freeFrames, i ≠ 0 ∧ ret = 0x200000 * i ∧ s'.pgbits = clearBit s.pgbits i ∧
        s'.freeFrames = s.freeFrames.erase i)
  freeOne : ∀ addr s', bit s.pgbits (addr / 0x200000) = true →
    freePhyOnePage s addr = .ok s' → s' = s
  freePages : ∀ addr size s', (∀ a, addr ≤ a → a < addr + size →
    bit s.pgbits (a / 0x200000) = true) → freePhyPages s addr size = .ok s' → s' = s

theorem PhyMem.Inv.sound {s : PhyMem} (h : s.Inv) : s.Sound where
  count := h.count
  alloc := by
    rcases allocPhyPage_spec h with ⟨pnow, -, heq⟩ | ⟨i, pnow, -, hi, hne, heq⟩
    · exact ⟨0, _, heq, .inl ⟨rfl, rfl, rfl⟩⟩
    · exact ⟨_, _, heq, .inr ⟨i, hi, hne, rfl, rfl, setBits_clearBit⟩⟩
  freeOne := fun addr s' hbit hok => by
    obtain ⟨-, hok⟩ := assert_bind_eq_ok.1 hok
    split at hok
    · obtain ⟨-, hok⟩ := assert_bind_eq_ok.1 hok
      rw [← Except.ok.inj hok, freeBit, if_pos hbit]
    · exact (Except.ok.inj hok).symm
  freePages := fun addr size s' hbit hok => by
    obtain ⟨-, hok⟩ := assert_bind_eq_ok.1 hok
    split at hok
    · obtain ⟨⟨hal, -⟩, hok⟩ := assert_bind_eq_ok.1 hok
      obtain ⟨hsize, hok⟩ := assert_bind_eq_ok.1 hok
      rw [← Except.ok.inj hok]
      refine freeBits_of_free fun i hlow hhigh => ?_
      have := hbit (0x200000 * i) (by omega) (by omega)
      rwa [Nat.mul_div_cancel_left i (by decide)] at this
    · exact (Except.ok.inj hok).symm

/-- **The frame bitmap is sound** after every run from `init_phy_mem`, for every amount of memory and
    whatever `kalloc` returned, and between two allocations of a frame it is freed. -/
theorem phyMem_run_sound {maxPhyAddr maxPhyMemAddr : Nat} {p : Nat → BitVec 64} {s : PhyMem}
    {es : List PhyMemEvent} (hmax : maxPhyAddr < 2 ^ 64)
    (run : PhyMemRun (initPhyMem maxPhyAddr maxPhyMemAddr p) es s) :
    s.Sound ∧ ∀ es₁ es₂ ret, es = es₁ ++ [.alloc ret] ++ es₂ ++ [.alloc ret] → ret ≠ 0 →
      ∃ e ∈ es₂, e.frees ret := by
  have hinv : (initPhyMem maxPhyAddr maxPhyMemAddr p).Inv := initPhyMem_inv hmax
  refine ⟨(run.inv hinv).sound, fun es₁ es₂ ret hes hret => ?_⟩
  subst hes
  exact run.freed_between hinv hret

/-- 1 GiB: two frames are freed, one of them is taken, freed and taken again. -/
theorem phyMem_run_sound_reuse : ∃ s,
    PhyMemRun (initPhyMem 0x40000000 0x40000000 fun _ => 0)
      [.freePages 0x200000 0x400000, .alloc 0x200000, .freeOne 0x200000, .alloc 0x200000] s ∧
    s.Sound ∧ ∃ e ∈ [.freeOne 0x200000], PhyMemEvent.frees 0x200000 e := by
  have h₁ : PhyMemRun (initPhyMem 0x40000000 0x40000000 fun _ => 0) [.freePages 0x200000 0x400000] _ :=
    .snoc (.nil _) ⟨by decide, rfl⟩
  have h₂ := h₁.snoc (e := .alloc 0x200000) rfl
  have h₃ := h₂.snoc (e := .freeOne 0x200000) rfl
  have h₄ := h₃.snoc (e := .alloc 0x200000) rfl
  obtain ⟨hs, hfreed⟩ := phyMem_run_sound (by decide) h₄
  exact ⟨_, h₄, hs, hfreed [.freePages 0x200000 0x400000] [.freeOne 0x200000] 0x200000 rfl (by decide)⟩

end Yaos
