import Yaos.PageTable.Giant
import Yaos.PageTable.Runs

set_option autoImplicit false

/-! # The walk in software

`map_flags_at`, `map_paddr_flags_at` and `get_phy_addr` walk the tables as the processor does, but by
other tests: at the two upper levels an entry leads on when it holds an address, whether it is present
or a 1 GiB page or not, and a PDE that is not a large page is followed even when it is empty. They also
take all bits of an entry from bit 12 on for its address, and the processor only those up to bit 51. While
the entries on the way have none of the upper bits set, both walks read the same words, and they are
compared word by word. -/

namespace Yaos

open Word TableTree

/-- The words that a walk reads for `vaddr`. -/
structure WalkWords where
  pml4e : Nat
  pdpte : Nat
  pde : Nat
  pte : Nat
deriving DecidableEq, Repr

/-- The words that the code reads, at the addresses the entries hold, whether or not the entries are
    present. -/
def PgTables.walkWords (s : PgTables) (vaddr : Nat) : WalkWords :=
  let pml4e := s.frames s.pml4 (tableIndex pml4Shift vaddr)
  let pdpte := s.frames (alignDown 0x1000 pml4e) (tableIndex pdpShift vaddr)
  let pde := s.frames (alignDown 0x1000 pdpte) (tableIndex pdShift vaddr)
  ⟨pml4e, pdpte, pde, s.frames (alignDown 0x1000 pde) (tableIndex pteShift vaddr)⟩

/-- The frame in the bits 12 to 51 of an entry. -/
def frameBits (e : Nat) : Nat := alignDown 0x1000 (e % 2 ^ 52)

/-- The words that the processor reads. -/
def PgTables.mmuWords (s : PgTables) (vaddr : Nat) : WalkWords :=
  let pml4e := s.frames s.pml4 (tableIndex pml4Shift vaddr)
  let pdpte := s.frames (frameBits pml4e) (tableIndex pdpShift vaddr)
  let pde := s.frames (frameBits pdpte) (tableIndex pdShift vaddr)
  ⟨pml4e, pdpte, pde, s.frames (frameBits pde) (tableIndex pteShift vaddr)⟩

/-- The address in a page of `size` bytes, and the low 12 bits of the entry `e` that maps the page. -/
def mmuPage (size e vaddr : Nat) : Nat × Nat :=
  (alignDown size (e % 2 ^ 52) + vaddr % size, e % 0x1000)

/-- No bit between PAT, bit 12, and the address of a large page is set: they are reserved. -/
abbrev Unreserved (size e : Nat) : Prop := e % size < 0x2000

/-- What the processor makes of the words. A reserved bit ends the walk as a fault: PS in a PML4E, or a bit
    below the address of a large page. -/
def WalkWords.page (w : WalkWords) (vaddr : Nat) : Option (Nat × Nat) :=
  if Present w.pml4e ∧ ¬ Large w.pml4e ∧ Present w.pdpte then
    if Large w.pdpte then
      if Unreserved 0x40000000 w.pdpte then some (mmuPage 0x40000000 w.pdpte vaddr) else none
    else if Present w.pde then
      if Large w.pde then
        if Unreserved 0x200000 w.pde then some (mmuPage 0x200000 w.pde vaddr) else none
      else if Present w.pte then some (mmuPage 0x1000 w.pte vaddr) else none
    else none
  else none

/-- The walk of the processor, with physical addresses of 52 bits. -/
def mmuWalk (s : PgTables) (vaddr : Nat) : Option (Nat × Nat) := (s.mmuWords vaddr).page vaddr

/-- Memory holds 64-bit words. -/
structure PgTables.Words (s : PgTables) : Prop where
  root : s.pml4 < 2 ^ 64
  word : ∀ f n, s.frames f n < 2 ^ 64

/-- The address and the selected flags of a page; `(0, 0)` where there is none. -/
def walkAnswer : Option (Nat × Nat) → Nat × Nat
  | none => (0, 0)
  | some (paddr, flags) => (paddr, flags &&& walkFlags)

/-- The three functions agree with the processor at `vaddr`. -/
def WalksAgree (s : PgTables) (vaddr : Nat) : Prop :=
  mapPaddrFlagsAt s vaddr = walkAnswer (mmuWalk s vaddr) ∧
    mapFlagsAt s vaddr = (walkAnswer (mmuWalk s vaddr)).2 ∧
    getPhyAddr s vaddr = (walkAnswer (mmuWalk s vaddr)).1

/-! ## What the code computes from the words -/

/-- Both upper entries hold an address. -/
def WalkWords.HasDirectory (w : WalkWords) : Prop :=
  alignDown 0x1000 w.pml4e ≠ 0 ∧ alignDown 0x1000 w.pdpte ≠ 0

instance (w : WalkWords) : Decidable w.HasDirectory := inferInstanceAs (Decidable (_ ∧ _))

theorem load_word {s : PgTables} {q : Nat} (n : Fin 512) (hq : q < 2 ^ 64) :
    s.load (P2V q) n = s.frames q n := by
  rw [PgTables.load, wsub_P2V hq]

theorem alignDown_lt {m e : Nat} (he : e < 2 ^ 64) : alignDown m e < 2 ^ 64 :=
  (alignDown_le m e).trans_lt he

theorem alignDown_P2V_word {e : Nat} (he : e < 2 ^ 64) :
    alignDown 0x1000 (P2V e) = P2V (alignDown 0x1000 e) := by
  unfold P2V wadd alignDown physVirtStart
  omega

section Words

variable {s : PgTables} {vaddr : Nat}

theorem getPteWithAddr_words (h : s.Words) :
    getPteWithAddr s (alignDown 0x200000 vaddr) =
      if (s.walkWords vaddr).HasDirectory then
        some (P2V (alignDown 0x1000 (s.walkWords vaddr).pdpte), tableIndex pdShift vaddr)
      else none := by
  rw [getPteWithAddr_alignDown]
  dsimp only [getPteWithAddr]
  rw [load_word _ h.root, load_word _ (alignDown_lt (h.word _ _))]
  change (if alignDown 0x1000 (s.walkWords vaddr).pml4e = 0 then none
    else if alignDown 0x1000 (s.walkWords vaddr).pdpte = 0 then none
    else some (P2V (alignDown 0x1000 (s.walkWords vaddr).pdpte), tableIndex pdShift vaddr)) = _
  by_cases hpdp : alignDown 0x1000 (s.walkWords vaddr).pml4e = 0
  · rw [if_pos hpdp, if_neg fun hdir : WalkWords.HasDirectory _ => hdir.1 hpdp]
  · by_cases hpd : alignDown 0x1000 (s.walkWords vaddr).pdpte = 0
    · rw [if_neg hpdp, if_pos hpd, if_neg fun hdir : WalkWords.HasDirectory _ => hdir.2 hpd]
    · rw [if_neg hpdp, if_neg hpd, if_pos (show WalkWords.HasDirectory _ from ⟨hpdp, hpd⟩)]

theorem load_pde (h : s.Words) :
    s.load (P2V (alignDown 0x1000 (s.walkWords vaddr).pdpte)) (tableIndex pdShift vaddr)
      = (s.walkWords vaddr).pde :=
  load_word _ (alignDown_lt (h.word _ _))

theorem load_pte (h : s.Words) :
    s.load (alignDown 0x1000 (P2V (s.walkWords vaddr).pde)) (tableIndex pteShift vaddr)
      = (s.walkWords vaddr).pte := by
  have hpde : (s.walkWords vaddr).pde < 2 ^ 64 := h.word _ _
  rw [alignDown_P2V_word hpde]
  exact load_word _ (alignDown_lt hpde)

theorem mapPaddrFlagsAt_words (h : s.Words) :
    mapPaddrFlagsAt s vaddr =
      let w := s.walkWords vaddr
      if w.HasDirectory then
        if isLargePage w.pde then
          (wadd (alignDown 0x1000 w.pde) (vaddr % 0x200000), w.pde &&& walkFlags)
        else (alignDown 0x1000 w.pte + vaddr % 0x1000, w.pte &&& walkFlags)
      else (0, 0) := by
  rw [mapPaddrFlagsAt, getPteWithAddr_words h]
  by_cases hdir : (s.walkWords vaddr).HasDirectory
  · have hpte : (s.walkWords vaddr).pte < 2 ^ 64 := h.word _ _
    have hsum : wadd (alignDown 0x1000 (s.walkWords vaddr).pte) (vaddr % 0x1000)
        = alignDown 0x1000 (s.walkWords vaddr).pte + vaddr % 0x1000 := by
      refine wadd_eq ?_
      unfold alignDown
      omega
    simp only [if_pos hdir, load_pde h, load_pte h, hsum]
  · simp only [if_neg hdir]

theorem mapFlagsAt_words (h : s.Words) :
    mapFlagsAt s vaddr =
      let w := s.walkWords vaddr
      if w.HasDirectory then
        if Large w.pde then w.pde &&& walkFlags else w.pte &&& walkFlags
      else 0 := by
  rw [mapFlagsAt, getPteWithAddr_words h]
  by_cases hdir : (s.walkWords vaddr).HasDirectory
  · simp only [if_pos hdir, load_pde h, load_pte h, and_ptePS_ne_zero]
  · simp only [if_neg hdir]

end Words

/-! ## When the answers are the same -/

/-- What the code is led to happens to give the address `page.1` and the flags `page.2`. -/
def WalkWords.Repeats (w : WalkWords) (page : Nat × Nat) (vaddr : Nat) : Prop :=
  w.HasDirectory ∧
    if isLargePage w.pde then
      wadd (alignDown 0x1000 w.pde) (vaddr % 0x200000) = page.1 ∧
        w.pde &&& walkFlags = page.2 &&& walkFlags
    else ¬ Large w.pde ∧
      alignDown 0x1000 w.pte + vaddr % 0x1000 = page.1 ∧ w.pte &&& walkFlags = page.2 &&& walkFlags

/-- Nothing is found: there is no page directory, or the code is led to an empty entry by an address at
    the start of a page. -/
def WalkWords.Silent (w : WalkWords) (vaddr : Nat) : Prop :=
  ¬ w.HasDirectory ∨
    ¬ Large w.pde ∧ w.pte < 0x1000 ∧ w.pte &&& walkFlags = 0 ∧ vaddr % 0x1000 = 0

/-- No entry above the page directory has a bit above its address. -/
abbrev WalkWords.Straight (w : WalkWords) : Prop := w.pml4e < 2 ^ 52 ∧ w.pdpte < 2 ^ 52

/-- The code, which reads `w`, makes the same of the address as the processor, which reads `m`. A mapped
    address lies in a 4 KiB page, or in a 2 MiB page whose entry has no bit set between its flags and its
    address; it is reached over tables in frames other than 0; and no entry on the way has a bit above 51
    set. From a 1 GiB page, or past such a bit, the code is led to other words, which are right only if they
    happen to repeat the entry of the page. -/
def WalkWords.Faithful (w m : WalkWords) (vaddr : Nat) : Prop :=
  if Present m.pml4e ∧ ¬ Large m.pml4e ∧ Present m.pdpte then
    if Large m.pdpte then
      if Unreserved 0x40000000 m.pdpte then w.Repeats (mmuPage 0x40000000 m.pdpte vaddr) vaddr
      else w.Silent vaddr
    else if Present m.pde ∧ Large m.pde then
      if Unreserved 0x200000 m.pde then
        if m.Straight then m.HasDirectory ∧ m.pde < 2 ^ 52 ∧ m.pde % 0x200000 < 0x1000
        else w.Repeats (mmuPage 0x200000 m.pde vaddr) vaddr
      else w.Silent vaddr
    else if Present m.pde ∧ Present m.pte then
      if m.Straight ∧ m.pde < 2 ^ 52 then m.HasDirectory ∧ m.pte < 2 ^ 52
      else w.Repeats (mmuPage 0x1000 m.pte vaddr) vaddr
    else w.Silent vaddr
  else w.Silent vaddr

instance (w : WalkWords) (page : Nat × Nat) (vaddr : Nat) : Decidable (w.Repeats page vaddr) := by
  delta WalkWords.Repeats
  infer_instance

instance (w : WalkWords) (vaddr : Nat) : Decidable (w.Silent vaddr) :=
  inferInstanceAs (Decidable (_ ∨ _))

instance (w m : WalkWords) (vaddr : Nat) : Decidable (w.Faithful m vaddr) := by
  delta WalkWords.Faithful
  infer_instance

theorem flags_and_walkFlags (e : Nat) : e % 0x1000 &&& walkFlags = e &&& walkFlags := by
  have hmod : (e &&& walkFlags) % 2 ^ 12 = e % 2 ^ 12 &&& walkFlags % 2 ^ 12 :=
    Nat.and_mod_two_pow
  have hlt : e &&& walkFlags < 2 ^ 12 := Nat.and_le_right.trans_lt (by decide)
  rw [Nat.mod_eq_of_lt hlt, Nat.mod_eq_of_lt (by decide : walkFlags < 2 ^ 12)] at hmod
  exact hmod.symm

theorem present_and_walkFlags (e : Nat) : Present (e &&& walkFlags) ↔ Present e := by
  rw [present_iff_testBit, present_iff_testBit, Nat.testBit_and]
  simp [walkFlags]

theorem large_and_walkFlags (e : Nat) : Large (e &&& walkFlags) ↔ Large e := by
  rw [large_iff_testBit, large_iff_testBit, Nat.testBit_and]
  simp [walkFlags, Nat.testBit]

section Compare

variable {s : PgTables} {vaddr : Nat}

/-- What the code answers, as the three functions together. -/
theorem walksAgree_iff {v e : Nat} (hanswer : walkAnswer (mmuWalk s vaddr) = (v, e)) :
    WalksAgree s vaddr ↔ mapPaddrFlagsAt s vaddr = (v, e) ∧ mapFlagsAt s vaddr = e := by
  unfold WalksAgree getPhyAddr
  rw [hanswer]
  constructor
  · rintro ⟨hpair, hflags, -⟩
    exact ⟨hpair, hflags⟩
  · rintro ⟨hpair, hflags⟩
    exact ⟨hpair, hflags, by rw [hpair]⟩

/-- With no page, the answer has to be nothing. -/
theorem walksAgree_unmapped (h : s.Words) (hwalk : mmuWalk s vaddr = none) :
    WalksAgree s vaddr ↔ (s.walkWords vaddr).Silent vaddr := by
  have hanswer : walkAnswer (mmuWalk s vaddr) = (0, 0) := by rw [hwalk, walkAnswer]
  rw [walksAgree_iff hanswer, mapPaddrFlagsAt_words h, mapFlagsAt_words h]
  dsimp only
  generalize s.walkWords vaddr = w
  by_cases hdir : w.HasDirectory
  · rw [if_pos hdir, if_pos hdir]
    by_cases hlarge : Large w.pde
    · -- the flags of a large page include the bit that makes it one
      have hbit := (large_and_walkFlags w.pde).2 hlarge
      rw [if_pos hlarge]
      refine iff_of_false (fun hzero => ?_) ?_
      · rw [hzero.2] at hbit
        exact absurd hbit (by decide)
      · rintro (hno | ⟨hno, -⟩)
        · exact hno hdir
        · exact hno hlarge
    · rw [if_neg hlarge, if_neg fun hl => hlarge (isLargePage_iff.1 hl).2]
      unfold WalkWords.Silent
      simp only [Prod.mk.injEq, hdir, not_true, false_or, hlarge, not_false_iff, true_and]
      have hpage : alignDown 0x1000 w.pte = 0 ↔ w.pte < 0x1000 := by
        unfold alignDown
        omega
      rw [Nat.add_eq_zero_iff, hpage]
      tauto
  · rw [if_neg hdir, if_neg hdir]
    exact iff_of_true ⟨rfl, rfl⟩ (.inl hdir)

/-- With a page, the code has to end at an entry with the same address and flags. -/
theorem walksAgree_mapped (h : s.Words) {size e : Nat}
    (hwalk : mmuWalk s vaddr = some (mmuPage size e vaddr)) (he : Present e) :
    WalksAgree s vaddr ↔ (s.walkWords vaddr).Repeats (mmuPage size e vaddr) vaddr := by
  have hanswer : walkAnswer (mmuWalk s vaddr) =
      ((mmuPage size e vaddr).1, (mmuPage size e vaddr).2 &&& walkFlags) := by rw [hwalk, walkAnswer]
  have hflag : Present ((mmuPage size e vaddr).2 &&& walkFlags) := by
    rw [mmuPage, flags_and_walkFlags, present_and_walkFlags]
    exact he
  rw [walksAgree_iff hanswer, mapPaddrFlagsAt_words h, mapFlagsAt_words h]
  unfold WalkWords.Repeats
  dsimp only
  generalize mmuPage size e vaddr = page at hflag ⊢
  generalize s.walkWords vaddr = w
  by_cases hdir : w.HasDirectory
  · rw [if_pos hdir, if_pos hdir]
    by_cases hpage : isLargePage w.pde = true
    · rw [if_pos hpage, if_pos hpage, if_pos (isLargePage_iff.1 hpage).2, Prod.mk.injEq]
      tauto
    · rw [if_neg hpage, if_neg hpage, Prod.mk.injEq]
      by_cases hlarge : Large w.pde
      · -- a large entry that is not present: the flags lack the present bit
        rw [if_pos hlarge]
        refine iff_of_false (fun hall => ?_) fun hall => hall.2.1 hlarge
        have hpres := (present_and_walkFlags w.pde).1 (hall.2 ▸ hflag)
        exact hpage (isLargePage_iff.2 ⟨hpres, hlarge⟩)
      · rw [if_neg hlarge]
        tauto
  · rw [if_neg hdir, if_neg hdir]
    refine iff_of_false (fun hall => ?_) fun hall => hdir hall.1
    rw [← hall.2] at hflag
    exact absurd hflag (by decide)

/-! ## The same words -/

theorem frameBits_eq {e : Nat} (he : e < 2 ^ 52) : frameBits e = alignDown 0x1000 e := by
  rw [frameBits, Nat.mod_eq_of_lt he]

theorem walkWords_pml4e (s : PgTables) (vaddr : Nat) :
    (s.walkWords vaddr).pml4e = (s.mmuWords vaddr).pml4e := rfl

theorem walkWords_pdpte (h : (s.mmuWords vaddr).pml4e < 2 ^ 52) :
    (s.walkWords vaddr).pdpte = (s.mmuWords vaddr).pdpte := by
  show s.frames (alignDown 0x1000 (s.mmuWords vaddr).pml4e) _ = s.frames (frameBits (s.mmuWords vaddr).pml4e) _
  rw [frameBits_eq h]

theorem walkWords_pde (h : (s.mmuWords vaddr).Straight) :
    (s.walkWords vaddr).pde = (s.mmuWords vaddr).pde := by
  show s.frames (alignDown 0x1000 (s.walkWords vaddr).pdpte) _ =
    s.frames (frameBits (s.mmuWords vaddr).pdpte) _
  rw [walkWords_pdpte h.1, frameBits_eq h.2]

theorem walkWords_pte (h : (s.mmuWords vaddr).Straight) (hpde : (s.mmuWords vaddr).pde < 2 ^ 52) :
    (s.walkWords vaddr).pte = (s.mmuWords vaddr).pte := by
  show s.frames (alignDown 0x1000 (s.walkWords vaddr).pde) _ = s.frames (frameBits (s.mmuWords vaddr).pde) _
  rw [walkWords_pde h, frameBits_eq hpde]

theorem hasDirectory_congr (h : (s.mmuWords vaddr).pml4e < 2 ^ 52) :
    (s.walkWords vaddr).HasDirectory ↔ (s.mmuWords vaddr).HasDirectory := by
  unfold WalkWords.HasDirectory
  rw [walkWords_pml4e, walkWords_pdpte h]

/-- Adding the offset to the address bits of a 2 MiB entry, with and without the bits in between and those
    above. -/
theorem large_address_iff {e : Nat} (he : e < 2 ^ 64) :
    wadd (alignDown 0x1000 e) (vaddr % 0x200000) = alignDown 0x200000 (e % 2 ^ 52) + vaddr % 0x200000 ↔
      e < 2 ^ 52 ∧ e % 0x200000 < 0x1000 := by
  unfold wadd alignDown
  omega

theorem small_address_iff {e : Nat} (he : e < 2 ^ 64) :
    alignDown 0x1000 e + vaddr % 0x1000 = alignDown 0x1000 (e % 2 ^ 52) + vaddr % 0x1000 ↔
      e < 2 ^ 52 := by
  unfold alignDown
  omega

/-- From a 2 MiB page, the code reads its entry. -/
theorem repeats_large (h : s.Words) (hw : (s.mmuWords vaddr).Straight)
    (hpage : isLargePage (s.mmuWords vaddr).pde) :
    (s.walkWords vaddr).Repeats (mmuPage 0x200000 (s.mmuWords vaddr).pde vaddr) vaddr ↔
      (s.mmuWords vaddr).HasDirectory ∧ (s.mmuWords vaddr).pde < 2 ^ 52 ∧
        (s.mmuWords vaddr).pde % 0x200000 < 0x1000 := by
  have hpde : (s.mmuWords vaddr).pde < 2 ^ 64 := h.word _ _
  unfold WalkWords.Repeats
  rw [hasDirectory_congr hw.1, walkWords_pde hw, if_pos hpage, mmuPage, flags_and_walkFlags,
    large_address_iff hpde]
  tauto

/-- From a 4 KiB page, the code reads its entry. -/
theorem repeats_small (h : s.Words) (hw : (s.mmuWords vaddr).Straight)
    (hpde : (s.mmuWords vaddr).pde < 2 ^ 52) (hlarge : ¬ Large (s.mmuWords vaddr).pde) :
    (s.walkWords vaddr).Repeats (mmuPage 0x1000 (s.mmuWords vaddr).pte vaddr) vaddr ↔
      (s.mmuWords vaddr).HasDirectory ∧ (s.mmuWords vaddr).pte < 2 ^ 52 := by
  have hpte : (s.mmuWords vaddr).pte < 2 ^ 64 := h.word _ _
  unfold WalkWords.Repeats
  rw [hasDirectory_congr hw.1, walkWords_pde hw, walkWords_pte hw hpde,
    if_neg fun hpage => hlarge (isLargePage_iff.1 hpage).2, mmuPage, flags_and_walkFlags,
    small_address_iff hpte]
  tauto

/-- **The software walk.** The three functions agree with the processor at an address exactly when the
    words on the way to it are `Faithful`. -/
theorem softwareWalk_iff (h : s.Words) (vaddr : Nat) :
    WalksAgree s vaddr ↔ (s.walkWords vaddr).Faithful (s.mmuWords vaddr) vaddr := by
  have hwalk : mmuWalk s vaddr = (s.mmuWords vaddr).page vaddr := rfl
  unfold WalkWords.page at hwalk
  unfold WalkWords.Faithful
  by_cases hup : Present (s.mmuWords vaddr).pml4e ∧ ¬ Large (s.mmuWords vaddr).pml4e ∧
      Present (s.mmuWords vaddr).pdpte
  case neg =>
    rw [if_neg hup] at hwalk
    rw [if_neg hup, walksAgree_unmapped h hwalk]
  rw [if_pos hup] at hwalk ⊢
  by_cases hgiant : Large (s.mmuWords vaddr).pdpte
  · -- a 1 GiB page
    rw [if_pos hgiant] at hwalk ⊢
    by_cases hfree : Unreserved 0x40000000 (s.mmuWords vaddr).pdpte
    · rw [if_pos hfree] at hwalk ⊢
      exact walksAgree_mapped h hwalk hup.2.2
    · rw [if_neg hfree] at hwalk ⊢
      exact walksAgree_unmapped h hwalk
  rw [if_neg hgiant] at hwalk ⊢
  by_cases hpd : Present (s.mmuWords vaddr).pde
  case neg =>
    rw [if_neg hpd] at hwalk
    rw [if_neg (by tauto), if_neg (by tauto), walksAgree_unmapped h hwalk]
  rw [if_pos hpd] at hwalk
  by_cases hlarge : Large (s.mmuWords vaddr).pde
  · -- a 2 MiB page
    rw [if_pos hlarge] at hwalk
    rw [if_pos ⟨hpd, hlarge⟩]
    by_cases hfree : Unreserved 0x200000 (s.mmuWords vaddr).pde
    · rw [if_pos hfree] at hwalk ⊢
      rw [walksAgree_mapped h hwalk hpd]
      split
      · next hw => exact repeats_large h hw (isLargePage_iff.2 ⟨hpd, hlarge⟩)
      · rfl
    · rw [if_neg hfree] at hwalk ⊢
      exact walksAgree_unmapped h hwalk
  rw [if_neg hlarge] at hwalk
  rw [if_neg (by tauto)]
  by_cases hpt : Present (s.mmuWords vaddr).pte
  · -- a 4 KiB page
    rw [if_pos hpt] at hwalk
    rw [if_pos ⟨hpd, hpt⟩, walksAgree_mapped h hwalk hpt]
    split
    · next hw => exact repeats_small h hw.1 hw.2 hlarge
    · rfl
  · rw [if_neg hpt] at hwalk
    rw [if_neg (by tauto), walksAgree_unmapped h hwalk]

end Compare

/-! ## Over entries without other bits -/

/-- No bit above the address of an entry is set, and no reserved one. -/
structure WalkWords.Plain (w : WalkWords) : Prop where
  straight : w.Straight
  pde : w.pde < 2 ^ 52
  pte : w.pte < 2 ^ 52
  giant : Large w.pdpte → Unreserved 0x40000000 w.pdpte
  large : Large w.pde → Unreserved 0x200000 w.pde

/-- There `pageView` is the walk of the processor. -/
theorem mmuWalk_eq_pageView {s : PgTables} {vaddr : Nat} (h : (s.mmuWords vaddr).Plain) :
    mmuWalk s vaddr = (pageView s vaddr).map fun v => (v.paddr, v.flags) := by
  have hpage : ∀ (way : List Nat) (size e : Nat), e < 2 ^ 52 → some (mmuPage size e vaddr) =
      (some (viewOf way e size vaddr)).map fun v => (v.paddr, v.flags) := by
    intro way size e he
    rw [mmuPage, Nat.mod_eq_of_lt he, Option.map_some, viewOf]
  have hpdpte : s.frames (alignDown 0x1000 (s.mmuWords vaddr).pml4e) (tableIndex pdpShift vaddr) =
      (s.mmuWords vaddr).pdpte := walkWords_pdpte h.straight.1
  have hpde : s.frames (alignDown 0x1000 (s.mmuWords vaddr).pdpte) (tableIndex pdShift vaddr) =
      (s.mmuWords vaddr).pde := by
    rw [← walkWords_pde h.straight, ← walkWords_pdpte h.straight.1]
    rfl
  have hpte : s.frames (alignDown 0x1000 (s.mmuWords vaddr).pde) (tableIndex pteShift vaddr) =
      (s.mmuWords vaddr).pte := by
    rw [← walkWords_pte h.straight h.pde, ← walkWords_pde h.straight]
    rfl
  unfold pageView mmuWalk WalkWords.page
  dsimp only
  rw [show s.frames s.pml4 (tableIndex pml4Shift vaddr) = (s.mmuWords vaddr).pml4e from rfl, hpdpte, hpde,
    hpte]
  obtain ⟨⟨-, hgiga⟩, hpd, hpt, hgiant, hlarge⟩ := h
  by_cases hup : Present (s.mmuWords vaddr).pml4e ∧ ¬ Large (s.mmuWords vaddr).pml4e
  case neg => rw [if_neg hup, if_neg fun hall => hup ⟨hall.1, hall.2.1⟩, Option.map_none]
  by_cases hpres : Present (s.mmuWords vaddr).pdpte
  case neg => rw [if_pos hup, if_neg hpres, if_neg fun hall => hpres hall.2.2, Option.map_none]
  rw [if_pos hup, if_pos hpres, if_pos ⟨hup.1, hup.2, hpres⟩]
  by_cases hbig : Large (s.mmuWords vaddr).pdpte
  · rw [if_pos hbig, if_pos hbig, if_pos (hgiant hbig)]
    exact hpage _ _ _ hgiga
  rw [if_neg hbig, if_neg hbig]
  by_cases hdir : Present (s.mmuWords vaddr).pde
  case neg => rw [if_neg hdir, if_neg hdir, Option.map_none]
  rw [if_pos hdir, if_pos hdir]
  by_cases hpiece : Large (s.mmuWords vaddr).pde
  · rw [if_pos hpiece, if_pos hpiece, if_pos (hlarge hpiece)]
    exact hpage _ _ _ hpd
  rw [if_neg hpiece, if_neg hpiece]
  by_cases hsmall : Present (s.mmuWords vaddr).pte
  · rw [if_pos hsmall, if_pos hsmall]
    exact hpage _ _ _ hpt
  · rw [if_neg hsmall, if_neg hsmall, Option.map_none]

/-! ## At a mapped address -/

section AtMapped

variable {s : PgTables} {vaddr a : Nat}

/-- Over an empty page directory entry nothing is mapped. -/
theorem pde_ne_of_translate (hopen : s.OpenAt vaddr) (htr : translate s vaddr = some a) :
    s.entry (pdePath vaddr) ≠ 0 := by
  intro hzero
  have hpte : s.entry (ptePath vaddr) = 0 :=
    PgTables.entry_cons_none (PgTables.tableOf_zero (by simp) hzero) _
  rw [translate_eq, hzero, hpte, readEntries_none hopen.pdpte.not_page (by omega) (by omega)] at htr
  cases htr

/-- Over page directories with pages of 4 KiB and 2 MiB `map_paddr_flags_at` finds the page that is there. -/
theorem mapPaddrFlagsAt_mapped (hs : s.Sound) (hopen : s.OpenAt vaddr)
    (hshape : PdeShape (s.entry (pdePath vaddr))) (htr : translate s vaddr = some a) (ha : a < 2 ^ 64) :
    (mapPaddrFlagsAt s vaddr).1 = a ∧ (mapPaddrFlagsAt s vaddr).2 < 0x1000 ∧
      Present (mapPaddrFlagsAt s vaddr).2 := by
  have hne := pde_ne_of_translate hopen htr
  obtain ⟨hget, hload⟩ := getPteWithAddr_link hs hopen hne
  have hflags : ∀ e, e &&& walkFlags < 0x1000 := fun e => Nat.and_le_right.trans_lt (by decide)
  rw [translate_eq, readEntries, if_neg hopen.pdpte.not_page] at htr
  rw [mapPaddrFlagsAt, hget]
  dsimp only
  rw [hload]
  rcases hshape with (hzero | hlink) | ⟨hlarge, hbits, -⟩
  · exact absurd hzero hne
  · rw [if_neg hlink.not_largePage, alignDown_P2V hlink.frame,
      PgTables.load_P2V _ (PgTables.tableOf_link (q := pdePath vaddr) (by simp) hlink) hlink.frame.lt,
      ← ptePath]
    rw [if_neg hlink.not_page] at htr
    by_cases hpte : Present (s.entry (ptePath vaddr))
    · rw [if_pos hpte, Option.some.injEq] at htr
      exact ⟨(wadd_eq (by omega)).trans htr, hflags _, (present_and_walkFlags _).2 hpte⟩
    · rw [if_neg hpte] at htr
      cases htr
  · rw [if_pos hlarge]
    rw [if_pos (isLargePage_iff.1 hlarge), Option.some.injEq] at htr
    refine ⟨?_, hflags _, (present_and_walkFlags _).2 (isLargePage_iff.1 hlarge).1⟩
    -- no bit of a 2 MiB entry between its flags and its address is set
    have hdown : alignDown 0x1000 (s.entry (pdePath vaddr)) =
        alignDown 0x200000 (s.entry (pdePath vaddr)) := by
      unfold alignDown
      omega
    show wadd _ _ = a
    rw [hdown, wadd_eq (by omega), htr]

end AtMapped

/-- A PML4, a PDP and a page directory with a page table under its entry 0, nothing at its entry 1 and a
    2 MiB page at its entry 2. The second entry of the page table has bit 52 set. -/
def smallWalkTables : PgTables where
  frames := fun f n =>
    if f = 0x1000 ∧ n = 0 then 0x2003
    else if f = 0x2000 ∧ n = 0 then 0x3003
    else if f = 0x3000 ∧ n = 0 then 0x4003
    else if f = 0x3000 ∧ n = 2 then 0x600083
    else if f = 0x4000 ∧ n = 0 then 0x9003
    else if f = 0x4000 ∧ n = 1 then 0x0010000000009003
    else 0
  pml4 := 0x1000
  data := []
  pt := []
  table := []
  large := []
  freedSmall := []
  freedLarge := []

theorem smallWalkTables_words : smallWalkTables.Words := by
  refine ⟨by decide, fun f n => ?_⟩
  simp only [smallWalkTables]
  split_ifs <;> omega

/-- An address in a 4 KiB page and one in a 2 MiB page. -/
theorem softwareWalk_mapped :
    (WalksAgree smallWalkTables 0x123 ∧ walkAnswer (mmuWalk smallWalkTables 0x123) = (0x9123, 0x3)) ∧
    WalksAgree smallWalkTables 0x412345 ∧
      walkAnswer (mmuWalk smallWalkTables 0x412345) = (0x612345, 0x83) :=
  ⟨⟨(softwareWalk_iff smallWalkTables_words 0x123).2 (by decide), by decide⟩,
    (softwareWalk_iff smallWalkTables_words 0x412345).2 (by decide), by decide⟩

/-- Entry 1 of the page directory has no page table: the code reads its entry in frame 0, and adds the offset
    to an empty entry. Where bit 52 of a PTE is set, the code makes it part of the address. -/
theorem softwareWalk_unmapped :
    (mmuWalk smallWalkTables 0x200001 = none ∧ getPhyAddr smallWalkTables 0x200001 = 1 ∧
      ¬ WalksAgree smallWalkTables 0x200001) ∧
    mmuWalk smallWalkTables 0x1123 = some (0x9123, 0x3) ∧
      getPhyAddr smallWalkTables 0x1123 = 0x0010000000009123 ∧ ¬ WalksAgree smallWalkTables 0x1123 := by
  have hno : mmuWalk smallWalkTables 0x200001 = none := by decide
  have haddr : getPhyAddr smallWalkTables 0x200001 = 1 := by decide
  have hpage : mmuWalk smallWalkTables 0x1123 = some (0x9123, 0x3) := by decide
  have hhigh : getPhyAddr smallWalkTables 0x1123 = 0x0010000000009123 := by decide
  refine ⟨⟨hno, haddr, fun hagree => ?_⟩, hpage, hhigh, fun hagree => ?_⟩
  · have hzero := hagree.2.2
    rw [hno, haddr] at hzero
    exact absurd hzero (by decide)
  · have hsame := hagree.2.2
    rw [hpage, hhigh] at hsame
    exact absurd hsame (by decide)

end Yaos
