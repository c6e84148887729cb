import Yaos.PageTable.Map

set_option autoImplicit false

/-! # Unmapping a range

`unmap_free_at_impl` finds out from the tables what is mapped. `unmapRegions_freed` says what it does to
a range that holds 4 KiB pages up to the first 2 MiB boundary, then 2 MiB pages, then 4 KiB pages: it
clears them all, frees each frame once, and changes nothing else. -/

namespace Yaos

open Word TableTree

/-! ## Finding the page directory entry -/

theorem getPteWithAddr_alignDown (s : PgTables) (vaddr : Nat) :
    getPteWithAddr s (alignDown 0x200000 vaddr) = getPteWithAddr s vaddr := by
  unfold getPteWithAddr
  rw [tableIndex_alignDown pml4Shift vaddr (by decide),
    tableIndex_alignDown pdpShift vaddr (by decide),
    tableIndex_alignDown pdShift vaddr (by decide)]

/-- The entries above the page directory of `vaddr` hold nothing or links. -/
structure PgTables.OpenAt (s : PgTables) (vaddr : Nat) : Prop where
  pml4e : Opens (s.entry (pml4ePath vaddr))
  pdpte : Opens (s.entry (pdptePath vaddr))

section Get

variable {s : PgTables} {vaddr : Nat}

theorem getPteWithAddr_eq (hs : s.Sound) (ho : s.OpenAt vaddr) :
    getPteWithAddr s vaddr =
      if s.entry (pdptePath vaddr) = 0 then none
      else some (P2V (alignDown 0x1000 (s.entry (pdptePath vaddr))), tableIndex pdShift vaddr) := by
  dsimp only [getPteWithAddr]
  rw [PgTables.load_P2V _ (p := []) rfl hs.root, ← pml4ePath]
  rcases ho.pml4e with hzero | hlink
  · have hnone : s.tableOf (pml4ePath vaddr) = none := PgTables.tableOf_zero (by simp) hzero
    rw [hzero, if_pos (by decide), pdptePath, PgTables.entry_cons_none hnone, if_pos rfl]
  · rw [if_neg hlink.frame.nonzero,
      PgTables.load_P2V _ (PgTables.tableOf_link (by simp) hlink) hlink.frame.lt, ← pdptePath]
    rcases ho.pdpte with hzero | hlink
    · rw [hzero, if_pos (by decide), if_pos rfl]
    · rw [if_neg hlink.frame.nonzero, if_neg hlink.ne_zero]

/-- An entry below a table that is missing reads 0. -/
theorem PgTables.OpenAt.pdpte_link (ho : s.OpenAt vaddr) (h : s.entry (pdePath vaddr) ≠ 0) :
    IsLink (s.entry (pdptePath vaddr)) := by
  rcases ho.pdpte with hzero | hlink
  · exact absurd (PgTables.entry_cons_none (PgTables.tableOf_zero (by simp) hzero) _) h
  · exact hlink

end Get

/-! ## The entries of one page table -/

section Free

variable {s : PgTables} {isfree : Bool} {a : Nat}

theorem PgTables.freePhyPageSmall_eq :
    s.freePhyPageSmall isfree a =
      { s with freedSmall := s.freedSmall ++ if isfree then [a] else [] } := by
  cases isfree <;> simp [PgTables.freePhyPageSmall]

theorem PgTables.freePhyOnePage_eq :
    s.freePhyOnePage isfree a =
      { s with freedLarge := s.freedLarge ++ if isfree then [a] else [] } := by
  cases isfree <;> simp [PgTables.freePhyOnePage]

/-- The logs of freed frames play no part in what is sound. -/
theorem PgTables.Sound.logged (hs : s.Sound) (small large : List Nat) :
    PgTables.Sound { s with freedSmall := small, freedLarge := large } :=
  ⟨hs.tree, hs.root, hs.frame, hs.unused, hs.nodup⟩

end Free

/-- The index of the next entry when `left` entries are left. -/
def nextIndex (left : Nat) : Fin 512 := Fin.ofNat 512 (512 - left)

theorem nextIndex_succ (left : Nat) : nextIndex (left + 1) = Fin.ofNat 512 (511 - left) := by
  unfold nextIndex
  congr 1
  omega

section Ptes

variable {isfree : Bool} {size : Nat} {p : List (Fin 512)} {t : Nat}

/-- One entry of the loop: the frame is freed, the entry cleared. -/
def clearPte (isfree : Bool) (s : PgTables) (t : Nat) (n : Fin 512) : PgTables :=
  (s.freePhyPageSmall isfree (alignDown 0x1000 (s.load (P2V t) n))).store (P2V t) n 0

variable {s : PgTables} {n : Fin 512}

theorem clearPte_sound (hs : s.Sound) (ht : s.tableOf p = some t) (hb : t < 2 ^ 64) :
    (clearPte isfree s t n).Sound := by
  rw [clearPte, PgTables.freePhyPageSmall_eq]
  exact (hs.logged _ s.freedLarge).store ht hb (pgLink_zero _)

theorem clearPte_same (hb : t < 2 ^ 64) :
    clearPte isfree s t n =
      { s with
        frames := (clearPte isfree s t n).frames
        freedSmall :=
          s.freedSmall ++ if isfree then [alignDown 0x1000 (s.load (P2V t) n)] else [] } := by
  rw [clearPte, PgTables.freePhyPageSmall_eq, PgTables.store_P2V _ _ hb]

theorem clearPte_entry_off (hs : s.Sound) (ht : s.tableOf p = some t) (hb : t < 2 ^ 64)
    {q : List (Fin 512)} (hq : ¬ (n :: p) <:+ q) : (clearPte isfree s t n).entry q = s.entry q := by
  rw [clearPte, PgTables.freePhyPageSmall_eq]
  exact PgTables.entry_store_off (hs.logged _ s.freedLarge) ht hb hq

theorem clearPte_entry_self (hs : s.Sound) (ht : s.tableOf p = some t) (hb : t < 2 ^ 64) :
    (clearPte isfree s t n).entry (n :: p) = 0 := by
  rw [clearPte, PgTables.freePhyPageSmall_eq]
  exact PgTables.entry_store_self (hs.logged _ s.freedLarge) ht hb

theorem clearPte_tableOf (hs : s.Sound) (ht : s.tableOf p = some t) (hb : t < 2 ^ 64) :
    (clearPte isfree s t n).tableOf p = some t := by
  rw [clearPte, PgTables.freePhyPageSmall_eq, PgTables.store_P2V _ _ hb]
  exact tableAt_setEntry_parent hs.tree ht

/-- What the loop keeps, whatever it finds in the page table; it stops short of `size` only at the end
    of the table. -/
theorem unmapPtes_keeps (hp : p.length = 3) (hb : t < 2 ^ 64) {left len len' : Nat}
    {s s' : PgTables} (hs : s.Sound) (ht : s.tableOf p = some t)
    (h : unmapPtes isfree (P2V t) size left len s = .ok (len', s')) :
    s'.Sound ∧ s' = { s with frames := s'.frames, freedSmall := s'.freedSmall } ∧
      (∀ q : List (Fin 512), q.length ≤ 3 → s'.entry q = s.entry q) ∧
      (len' < size → len' = len + 0x1000 * left) := by
  induction left generalizing len s with
  | zero =>
      cases h
      exact ⟨hs, rfl, fun _ _ => rfl, fun _ => rfl⟩
  | succ left ih =>
      unfold unmapPtes at h
      split at h
      case isFalse hlen =>
        cases h
        exact ⟨hs, rfl, fun _ _ => rfl, fun h => absurd h hlen⟩
      case isTrue hlen =>
        dsimp only at h
        split at h
        · cases h
        · have hs₁ : (clearPte isfree s t (Fin.ofNat 512 (511 - left))).Sound :=
            clearPte_sound hs ht hb
          have ht₁ : (clearPte isfree s t (Fin.ofNat 512 (511 - left))).tableOf p = some t :=
            clearPte_tableOf hs ht hb
          obtain ⟨hsound, hsame, hent, hlen'⟩ := ih hs₁ ht₁ h
          refine ⟨hsound, ?_, ?_, fun hlt => ?_⟩
          · rw [hsame, clearPte_same hb]
          · intro q hq
            refine (hent q hq).trans (clearPte_entry_off hs ht hb (not_suffix_of_length ?_))
            rw [List.length_cons]
            omega
          · rw [hlen' hlt]
            ring

theorem clearPte_entry_ne (hp : p.length = 3) (hs : s.Sound) (ht : s.tableOf p = some t)
    (hb : t < 2 ^ 64) {q : List (Fin 512)} (hq : q ≠ n :: p) :
    (clearPte isfree s t n).entry q = s.entry q := by
  by_cases hsuf : (n :: p) <:+ q
  · have hlen : 4 < q.length := by
      have hle := hsuf.length_le
      have hne : (n :: p).length ≠ q.length := fun h => hq (hsuf.eq_of_length h).symm
      rw [List.length_cons, hp] at hle hne
      omega
    rw [PgTables.entry_deep _ hlen, PgTables.entry_deep _ hlen]
  · exact clearPte_entry_off hs ht hb hsuf

theorem nextIndex_ne {left j : Nat} (hleft : left ≤ 512) (hj : 0 < j) (hlt : j < left) :
    nextIndex (left - j) ≠ nextIndex left := by
  intro h
  have hval := congrArg Fin.val h
  simp only [nextIndex, Fin.ofNat] at hval
  omega

/-- The loop over entries that map the frames `as`: it ends at the end of the table or of the range,
    and frees these frames in order. -/
theorem unmapPtes_freed (hp : p.length = 3) (hb : t < 2 ^ 64) {as : List Nat} {left len : Nat}
    {s : PgTables} (hs : s.Sound) (ht : s.tableOf p = some t) (hleft : left ≤ 512)
    (hfit : as.length ≤ left) (hstop : as.length = left ∨ size ≤ len + 0x1000 * as.length)
    (hgo : as ≠ [] → len + 0x1000 * as.length < size + 0x1000)
    (hpte : ∀ j a, as[j]? = some a →
      a ≠ 0 ∧ alignDown 0x1000 (s.entry (nextIndex (left - j) :: p)) = a) :
    ∃ s', unmapPtes true (P2V t) size left len s = .ok (len + 0x1000 * as.length, s') ∧ s'.Sound ∧
      s' = { s with frames := s'.frames, freedSmall := s.freedSmall ++ as } ∧
      (∀ j < as.length, s'.entry (nextIndex (left - j) :: p) = 0) ∧
      ∀ q, (∀ j < as.length, q ≠ nextIndex (left - j) :: p) → s'.entry q = s.entry q := by
  -- on the pages that are mapped; the entry of the first is `512 - left`, and none is cleared twice
  induction as generalizing left len s with
  | nil =>
      refine ⟨s, ?_, hs, ?_, ?_, fun _ _ => rfl⟩
      · cases left with
        | zero => rfl
        | succ left =>
            rcases hstop with h | h
            · exact absurd h (by simp)
            · unfold unmapPtes
              rw [if_neg (by simpa using h)]
              rfl
      · rw [List.append_nil]
      · intro j hj
        exact absurd hj (Nat.not_lt_zero j)
  | cons a as ih =>
      obtain ⟨left, rfl⟩ : ∃ l, left = l + 1 := ⟨left - 1, by simp at hfit; omega⟩
      rw [List.length_cons] at hfit hstop hgo
      have hgo := hgo (List.cons_ne_nil a as)
      have hn : nextIndex (left + 1) = Fin.ofNat 512 (511 - left) := nextIndex_succ left
      obtain ⟨hne, ha⟩ := hpte 0 a rfl
      rw [Nat.sub_zero] at ha
      have hload : alignDown 0x1000 (s.load (P2V t) (nextIndex (left + 1))) = a := by
        rw [PgTables.load_P2V _ ht hb, ha]
      have hs₁ : (clearPte true s t (nextIndex (left + 1))).Sound := clearPte_sound hs ht hb
      have ht₁ : (clearPte true s t (nextIndex (left + 1))).tableOf p = some t :=
        clearPte_tableOf hs ht hb
      have hkeep : ∀ j, j < as.length →
          (clearPte true s t (nextIndex (left + 1))).entry (nextIndex (left - j) :: p) =
            s.entry (nextIndex (left + 1 - (j + 1)) :: p) := by
        intro j hj
        rw [show left + 1 - (j + 1) = left - j by omega]
        refine clearPte_entry_ne hp hs ht hb fun h => ?_
        refine nextIndex_ne (j := j + 1) hleft (Nat.succ_pos j) (by omega) ?_
        rw [show left + 1 - (j + 1) = left - j by omega]
        exact (List.cons.inj h).1
      have hpte₁ : ∀ j b, as[j]? = some b → b ≠ 0 ∧ alignDown 0x1000
          ((clearPte true s t (nextIndex (left + 1))).entry (nextIndex (left - j) :: p)) = b := by
        intro j b hb'
        rw [hkeep j (List.getElem?_eq_some_iff.1 hb').1]
        exact hpte (j + 1) b (by rwa [List.getElem?_cons_succ])
      obtain ⟨s', hrun, hsound, hsame, hclear, hoff⟩ := ih hs₁ ht₁ (by omega) (by omega)
        (by omega : as.length = left ∨ size ≤ len + 0x1000 + 0x1000 * as.length)
        (by intro; omega) hpte₁
      refine ⟨s', ?_, hsound, ?_, ?_, ?_⟩
      · unfold unmapPtes
        dsimp only
        rw [if_pos (by omega), ← hn, hload, if_neg hne]
        have hclr : (s.freePhyPageSmall true a).store (P2V t) (nextIndex (left + 1)) 0 =
            clearPte true s t (nextIndex (left + 1)) := by
          rw [clearPte, hload]
        rw [hclr, hrun, List.length_cons]
        congr 2
        ring
      · rw [hsame, clearPte_same hb, hload]
        simp
      · intro j hj
        cases j with
        | zero =>
            rw [Nat.sub_zero, hoff]
            · exact clearPte_entry_self hs ht hb
            · intro j hj h
              refine nextIndex_ne (j := j + 1) hleft (Nat.succ_pos j) (by omega) ?_
              rw [show left + 1 - (j + 1) = left - j by omega]
              exact (List.cons.inj h).1.symm
        | succ j =>
            rw [show left + 1 - (j + 1) = left - j by omega]
            exact hclear j (by simpa using hj)
      · intro q hq
        rw [hoff]
        · exact clearPte_entry_ne hp hs ht hb (hq 0 (by simp))
        · intro j hj
          have := hq (j + 1) (by simpa using hj)
          rwa [show left + 1 - (j + 1) = left - j by omega] at this

end Ptes

/-! ## One page directory entry -/

section Region

variable {s : PgTables} {vaddr size fuel : Nat} {isfree : Bool}

theorem PgTables.OpenAt.congr {s' : PgTables} {v w : Nat} (h : s.OpenAt v)
    (hvw : v % 2 ^ 48 = w % 2 ^ 48) (he : ∀ q : List (Fin 512), q.length < 3 → s'.entry q = s.entry q) :
    s'.OpenAt w := by
  refine ⟨?_, ?_⟩
  · rw [← pml4ePath_congr hvw, he _ (by simp)]
    exact h.pml4e
  · rw [← pdptePath_congr hvw, he _ (by simp)]
    exact h.pdpte

/-- The 2 MiB page of `vaddr` is freed and its entry cleared. -/
def clearPde (isfree : Bool) (s : PgTables) (vaddr : Nat) : PgTables :=
  (s.freePhyOnePage isfree (alignDown 0x200000 (s.entry (pdePath vaddr)))).store
    (P2V (alignDown 0x1000 (s.entry (pdptePath vaddr)))) (tableIndex pdShift vaddr) 0

theorem clearPde_sound (hs : s.Sound) (hlink : IsLink (s.entry (pdptePath vaddr))) :
    (clearPde isfree s vaddr).Sound := by
  rw [clearPde, PgTables.freePhyOnePage_eq]
  exact (hs.logged s.freedSmall _).store (PgTables.tableOf_link (q := pdptePath vaddr) (by simp) hlink)
    hlink.frame.lt (pgLink_zero _)

theorem clearPde_same (hlink : IsLink (s.entry (pdptePath vaddr))) :
    clearPde isfree s vaddr =
      { s with
        frames := (clearPde isfree s vaddr).frames
        freedLarge :=
          s.freedLarge ++
            if isfree then [alignDown 0x200000 (s.entry (pdePath vaddr))] else [] } := by
  rw [clearPde, PgTables.freePhyOnePage_eq, PgTables.store_P2V _ _ hlink.frame.lt]

theorem clearPde_entry_self (hs : s.Sound) (hlink : IsLink (s.entry (pdptePath vaddr))) :
    (clearPde isfree s vaddr).entry (pdePath vaddr) = 0 := by
  rw [clearPde, PgTables.freePhyOnePage_eq]
  exact PgTables.entry_store_self (hs.logged s.freedSmall _)
    (PgTables.tableOf_link (q := pdptePath vaddr) (by simp) hlink) hlink.frame.lt

theorem clearPde_entry_off (hs : s.Sound) (hlink : IsLink (s.entry (pdptePath vaddr)))
    {q : List (Fin 512)} (hq : ¬ pdePath vaddr <:+ q) :
    (clearPde isfree s vaddr).entry q = s.entry q := by
  rw [clearPde, PgTables.freePhyOnePage_eq]
  exact PgTables.entry_store_off (hs.logged s.freedSmall _)
    (PgTables.tableOf_link (q := pdptePath vaddr) (by simp) hlink) hlink.frame.lt hq

/-- The pointer to the PDE and the entry behind it. -/
theorem getPteWithAddr_link (hs : s.Sound) (ho : s.OpenAt vaddr)
    (hpde : s.entry (pdePath vaddr) ≠ 0) :
    getPteWithAddr s (alignDown 0x200000 vaddr) =
        some (P2V (alignDown 0x1000 (s.entry (pdptePath vaddr))), tableIndex pdShift vaddr) ∧
      s.load (P2V (alignDown 0x1000 (s.entry (pdptePath vaddr)))) (tableIndex pdShift vaddr) =
        s.entry (pdePath vaddr) := by
  have hlink := ho.pdpte_link hpde
  refine ⟨?_, ?_⟩
  · rw [getPteWithAddr_alignDown, getPteWithAddr_eq hs ho, if_neg hlink.ne_zero]
  · exact PgTables.load_P2V _ (PgTables.tableOf_link (q := pdptePath vaddr) (by simp) hlink)
      hlink.frame.lt

theorem unmapRegions_large (hs : s.Sound) (ho : s.OpenAt vaddr)
    (hlarge : isLargePage (s.entry (pdePath vaddr)) = true) (hv : vaddr % 0x200000 = 0)
    (hsize : 0x200000 ≤ size) :
    unmapRegions isfree (fuel + 1) vaddr size s =
      unmapRegions isfree fuel (wadd vaddr 0x200000) (size - 0x200000)
        (clearPde isfree s vaddr) := by
  have hpde : s.entry (pdePath vaddr) ≠ 0 := fun h => isLargePage_zero (h ▸ hlarge)
  obtain ⟨hget, hload⟩ := getPteWithAddr_link hs ho hpde
  conv_lhs => unfold unmapRegions
  rw [if_neg (by omega), hget]
  dsimp only
  rw [hload, if_neg hpde, if_pos ⟨hlarge, alignDown_eq_self hv, hsize⟩, clearPde]

/-- A page directory entry that is not a whole 2 MiB page of the range. -/
theorem unmapRegions_table {pte : Nat} {s₁ : PgTables} (hs : s.Sound) (ho : s.OpenAt vaddr)
    (hpde : s.entry (pdePath vaddr) ≠ 0) (hsize : size ≠ 0)
    (hpart : ¬ (isLargePage (s.entry (pdePath vaddr)) = true ∧ vaddr % 0x200000 = 0 ∧
      0x200000 ≤ size))
    (htable : tableToUnmap s (P2V (alignDown 0x1000 (s.entry (pdptePath vaddr))))
      (tableIndex pdShift vaddr) = .ok (some pte, s₁)) :
    unmapRegions isfree (fuel + 1) vaddr size s =
      (do
        let (len, s₂) ← unmapPtes isfree pte size (512 - tableIndex pteShift vaddr) 0 s₁
        if len < size then unmapRegions isfree fuel (wadd vaddr len) (size - len) s₂
        else .ok s₂) := by
  obtain ⟨hget, hload⟩ := getPteWithAddr_link hs ho hpde
  have hnot : ¬ (isLargePage (s.entry (pdePath vaddr)) = true ∧ alignDown 0x200000 vaddr = vaddr ∧
      0x200000 ≤ size) := by
    rintro ⟨hl, hv, hsz⟩
    refine hpart ⟨hl, ?_, hsz⟩
    rw [← hv]
    exact alignDown_mod _ _
  conv_lhs => unfold unmapRegions
  rw [if_neg hsize, hget]
  dsimp only
  rw [hload, if_neg hpde, if_neg hnot, htable, ok_bind]

end Region

/-! ## A range of known pages -/

/-- From `vaddr` on, the pages map the frames `as`, through page tables. -/
def HoldsSmall (s : PgTables) (vaddr : Nat) (as : List Nat) : Prop :=
  ∀ j a, as[j]? = some a → a ≠ 0 ∧ s.OpenAt (vaddr + 0x1000 * j) ∧
    IsLink (s.entry (pdePath (vaddr + 0x1000 * j))) ∧
    alignDown 0x1000 (s.entry (ptePath (vaddr + 0x1000 * j))) = a

/-- From `vaddr` on, the 2 MiB pages map the frames `ls`. -/
def HoldsLarge (s : PgTables) (vaddr : Nat) (ls : List Nat) : Prop :=
  ∀ i a, ls[i]? = some a → s.OpenAt (vaddr + 0x200000 * i) ∧
    isLargePage (s.entry (pdePath (vaddr + 0x200000 * i))) = true ∧
    alignDown 0x200000 (s.entry (pdePath (vaddr + 0x200000 * i))) = a

/-- The paths of the entries that map `n` pages from `vaddr` on. -/
def SmallPaths (vaddr n : Nat) (q : List (Fin 512)) : Prop :=
  ∃ j < n, q = ptePath (vaddr + 0x1000 * j)

/-- The paths through the entries that map `n` 2 MiB pages from `vaddr` on. -/
def LargePaths (vaddr n : Nat) (q : List (Fin 512)) : Prop :=
  ∃ i < n, pdePath (vaddr + 0x200000 * i) <:+ q

theorem ptePath_next {vaddr j : Nat} (h : vaddr / 0x1000 % 512 + j < 512) :
    ptePath (vaddr + 0x1000 * j) =
      nextIndex (512 - tableIndex pteShift vaddr - j) :: pdePath vaddr := by
  rw [ptePath, List.cons.injEq, pdePath_eq_iff]
  simp only [nextIndex, tableIndex, Fin.ofNat, Fin.mk.injEq, virtRegion, pteShift]
  omega

section Freed

variable {s : PgTables} {vaddr size fuel : Nat}

theorem tableToUnmap_link (hs : s.Sound) (ho : s.OpenAt vaddr)
    (hlink : IsLink (s.entry (pdePath vaddr))) :
    tableToUnmap s (P2V (alignDown 0x1000 (s.entry (pdptePath vaddr)))) (tableIndex pdShift vaddr) =
      .ok (some (P2V (alignDown 0x1000 (s.entry (pdePath vaddr)))), s) := by
  dsimp only [tableToUnmap]
  rw [(getPteWithAddr_link hs ho hlink.ne_zero).2, if_neg hlink.not_largePage]

/-- The pages of one page table. -/
theorem unmapRegions_small {as : List Nat} (hs : s.Sound) (hne : as ≠ [])
    (hfit : vaddr / 0x1000 % 512 + as.length ≤ 512)
    (hstop : vaddr / 0x1000 % 512 + as.length = 512 ∨ size ≤ 0x1000 * as.length)
    (hgo : 0x1000 * as.length < size + 0x1000) (hholds : HoldsSmall s vaddr as) :
    ∃ s₁, unmapRegions true (fuel + 1) vaddr size s =
        (if 0x1000 * as.length < size then
          unmapRegions true fuel (wadd vaddr (0x1000 * as.length)) (size - 0x1000 * as.length) s₁
        else .ok s₁) ∧
      s₁.Sound ∧ s₁ = { s with frames := s₁.frames, freedSmall := s.freedSmall ++ as } ∧
      (∀ j < as.length, s₁.entry (ptePath (vaddr + 0x1000 * j)) = 0) ∧
      ∀ q, ¬ SmallPaths vaddr as.length q → s₁.entry q = s.entry q := by
  obtain ⟨a, as', rfl⟩ := List.exists_cons_of_ne_nil hne
  obtain ⟨-, ho, hlink, -⟩ := hholds 0 a rfl
  rw [Nat.mul_zero, Nat.add_zero] at ho hlink
  have hpaths : ∀ j, j < (a :: as').length → ptePath (vaddr + 0x1000 * j) =
      nextIndex (512 - tableIndex pteShift vaddr - j) :: pdePath vaddr :=
    fun j hj => ptePath_next (by omega)
  have hptes : ∀ j b, (a :: as')[j]? = some b → b ≠ 0 ∧ alignDown 0x1000
      (s.entry (nextIndex (512 - tableIndex pteShift vaddr - j) :: pdePath vaddr)) = b := by
    intro j b hb
    rw [← hpaths j (List.getElem?_eq_some_iff.1 hb).1]
    exact ⟨(hholds j b hb).1, (hholds j b hb).2.2.2⟩
  have hk : (tableIndex pteShift vaddr : Nat) = vaddr / 0x1000 % 512 := rfl
  have htable := PgTables.tableOf_link (by simp) hlink
  obtain ⟨s₁, hrun, hs₁, hsame, hclear, hoff⟩ := @unmapPtes_freed size (pdePath vaddr) _ (by simp)
    hlink.frame.lt (a :: as') (512 - tableIndex pteShift vaddr) 0 s hs htable (by omega) (by omega)
    (by omega) (fun _ => by rwa [Nat.zero_add]) hptes
  refine ⟨s₁, ?_, hs₁, hsame, ?_, ?_⟩
  · rw [unmapRegions_table hs ho hlink.ne_zero (by rw [List.length_cons] at hgo; omega)
      (fun h => hlink.not_largePage h.1) (tableToUnmap_link hs ho hlink), hrun, ok_bind,
      Nat.zero_add]
  · intro j hj
    rw [hpaths j hj]
    exact hclear j hj
  · intro q hq
    refine hoff q fun j hj h => hq ⟨j, hj, ?_⟩
    rw [h, hpaths j hj]

/-- The 2 MiB pages `ls` from `vaddr` on and the pages `ds` after them are unmapped and freed, and
    nothing else changed. -/
structure Freed (s s' : PgTables) (vaddr : Nat) (ls ds : List Nat) : Prop where
  sound : s'.Sound
  same : s' = { s with
    frames := s'.frames, freedSmall := s.freedSmall ++ ds, freedLarge := s.freedLarge ++ ls }
  large : ∀ i < ls.length, s'.entry (pdePath (vaddr + 0x200000 * i)) = 0
  small : ∀ j < ds.length, s'.entry (ptePath (vaddr + 0x200000 * ls.length + 0x1000 * j)) = 0
  off : ∀ q, ¬ LargePaths vaddr ls.length q →
    ¬ SmallPaths (vaddr + 0x200000 * ls.length) ds.length q → s'.entry q = s.entry q

theorem pdePath_wadd (v i : Nat) :
    pdePath (wadd v 0x200000 + 0x200000 * i) = pdePath (v + 0x200000 * (i + 1)) :=
  pdePath_congr (by unfold wadd; omega)

theorem ptePath_wadd (v l j : Nat) :
    ptePath (wadd v 0x200000 + 0x200000 * l + 0x1000 * j) =
      ptePath (v + 0x200000 * (l + 1) + 0x1000 * j) :=
  ptePath_congr (by unfold wadd; omega)

/-- The regions of a range below 2^48 bytes are different. -/
theorem pdePath_ne {v x : Nat} (hv : v % 0x200000 = 0) (hx : 0x200000 ≤ x) (hlt : x < 2 ^ 48) :
    pdePath v ≠ pdePath (v + x) := by
  rw [Ne, pdePath_eq_iff]
  unfold virtRegion
  omega

theorem clearPde_entry_later (hs : s.Sound) (hlink : IsLink (s.entry (pdptePath vaddr)))
    (hv : vaddr % 0x200000 = 0) {x : Nat} (hx : 0x200000 ≤ x) (hlt : x < 2 ^ 48) :
    (clearPde true s vaddr).entry (pdePath (vaddr + x)) = s.entry (pdePath (vaddr + x)) ∧
      (clearPde true s vaddr).entry (ptePath (vaddr + x)) = s.entry (ptePath (vaddr + x)) := by
  have hne := pdePath_ne hv hx hlt
  refine ⟨clearPde_entry_off hs hlink fun h => hne (h.eq_of_length (by simp)),
    clearPde_entry_off hs hlink fun h => hne ?_⟩
  rwa [pdePath_eq_iff, ← pdePath_suffix_ptePath]

theorem unmapRegions_freed {ls ds : List Nat} (hs : s.Sound)
    (hv : vaddr % 0x200000 = 0 ∨ size = 0)
    (hsize : size = 0x200000 * ls.length + 0x1000 * ds.length) (hds : ds.length ≤ 512)
    (hbound : size ≤ 2 ^ 48) (hfuel : size / 0x1000 < fuel) (hl : HoldsLarge s vaddr ls)
    (hd : HoldsSmall s (vaddr + 0x200000 * ls.length) ds) :
    ∃ s', unmapRegions true fuel vaddr size s = .ok s' ∧ Freed s s' vaddr ls ds := by
  -- on the 2 MiB pages; the 4 KiB pages come behind the last of them
  induction ls generalizing vaddr size fuel s with
  | nil =>
      obtain ⟨fuel, rfl⟩ : ∃ f, fuel = f + 1 := ⟨fuel - 1, by omega⟩
      rw [List.length_nil, Nat.mul_zero, Nat.add_zero] at hd
      by_cases hnil : ds = []
      · subst hnil
        refine ⟨s, ?_, hs, ?_, ?_, ?_, fun _ _ _ => rfl⟩
        · unfold unmapRegions
          rw [if_pos (by simpa using hsize)]
        · rw [List.append_nil, List.append_nil]
        · exact fun i hi => absurd hi (Nat.not_lt_zero i)
        · exact fun j hj => absurd hj (Nat.not_lt_zero j)
      · rw [List.length_nil] at hsize
        have hpos := List.length_pos_iff.2 hnil
        obtain ⟨s₁, hrun, hs₁, hsame, hclear, hoff⟩ := @unmapRegions_small s vaddr size
          fuel ds hs hnil (by omega) (by omega) (by omega) hd
        rw [if_neg (by omega)] at hrun
        refine ⟨s₁, hrun, hs₁, ?_, ?_, ?_, ?_⟩
        · rw [hsame, List.append_nil]
        · exact fun i hi => absurd hi (Nat.not_lt_zero i)
        · simpa using hclear
        · intro q _ hq
          exact hoff q (by simpa using hq)
  | cons a ls ih =>
      obtain ⟨fuel, rfl⟩ : ∃ f, fuel = f + 1 := ⟨fuel - 1, by omega⟩
      rw [List.length_cons] at hsize hd
      have hv : vaddr % 0x200000 = 0 := by omega
      obtain ⟨ho, hlarge, ha⟩ := hl 0 a rfl
      rw [Nat.mul_zero, Nat.add_zero] at ho hlarge ha
      have hpde : s.entry (pdePath vaddr) ≠ 0 := fun h => isLargePage_zero (h ▸ hlarge)
      have hlink := ho.pdpte_link hpde
      have hs₁ : (clearPde true s vaddr).Sound := clearPde_sound hs hlink
      have hupper : ∀ q : List (Fin 512), q.length < 3 →
          (clearPde true s vaddr).entry q = s.entry q :=
        fun q hq => clearPde_entry_off hs hlink (not_suffix_of_length (by simpa using hq))
      -- what is cleared here is away from every later page of the range
      have hlater := fun {x : Nat} => clearPde_entry_later (x := x) hs hlink hv
      have hl₁ : HoldsLarge (clearPde true s vaddr) (wadd vaddr 0x200000) ls := by
        intro i b hb
        have hi := (List.getElem?_eq_some_iff.1 hb).1
        obtain ⟨ho', hlarge', hb'⟩ := hl (i + 1) b (by rwa [List.getElem?_cons_succ])
        rw [pdePath_wadd, (hlater (by omega) (by omega)).1]
        exact ⟨ho'.congr (by unfold wadd; omega) hupper, hlarge', hb'⟩
      have hd₁ : HoldsSmall (clearPde true s vaddr)
          (wadd vaddr 0x200000 + 0x200000 * ls.length) ds := by
        intro j b hb
        have hj := (List.getElem?_eq_some_iff.1 hb).1
        obtain ⟨hb0, ho', hlink', hb'⟩ := hd j b hb
        have hmod : (vaddr + 0x200000 * (ls.length + 1) + 0x1000 * j) % 2 ^ 48 =
            (wadd vaddr 0x200000 + 0x200000 * ls.length + 0x1000 * j) % 2 ^ 48 := by
          unfold wadd
          omega
        rw [← pdePath_congr hmod, ← ptePath_congr hmod, Nat.add_assoc vaddr,
          (hlater (by omega) (by omega)).1, (hlater (by omega) (by omega)).2, ← Nat.add_assoc vaddr]
        exact ⟨hb0, ho'.congr hmod hupper, hlink', hb'⟩
      obtain ⟨s', hrun, hfreed⟩ := ih hs₁ (.inl (by unfold wadd; omega))
        (by omega : size - 0x200000 = 0x200000 * ls.length + 0x1000 * ds.length) (by omega)
        (by omega : (size - 0x200000) / 0x1000 < fuel) hl₁ hd₁
      refine ⟨s', ?_, hfreed.sound, ?_, ?_, ?_, ?_⟩
      · rw [unmapRegions_large hs ho hlarge hv (by omega), hrun]
      · rw [hfreed.same, clearPde_same hlink, ha]
        simp
      · intro i hi
        cases i with
        | zero =>
            rw [Nat.mul_zero, Nat.add_zero, hfreed.off]
            · exact clearPde_entry_self hs hlink
            · rintro ⟨i, hi, hsuf⟩
              rw [pdePath_wadd] at hsuf
              exact pdePath_ne hv (by omega) (by omega) (hsuf.eq_of_length (by simp)).symm
            · rintro ⟨j, _, h⟩
              simpa using congrArg List.length h
        | succ i =>
            rw [← pdePath_wadd]
            exact hfreed.large i (by simpa using hi)
      · intro j hj
        rw [List.length_cons, ← ptePath_wadd]
        exact hfreed.small j hj
      · intro q hql hqs
        rw [hfreed.off]
        · exact clearPde_entry_off hs hlink fun h => hql ⟨0, by simp, by simpa using h⟩
        · rintro ⟨i, hi, hsuf⟩
          rw [pdePath_wadd] at hsuf
          exact hql ⟨i + 1, by simpa using hi, hsuf⟩
        · rintro ⟨j, hj, h⟩
          rw [ptePath_wadd] at h
          exact hqs ⟨j, hj, by rw [List.length_cons]; exact h⟩

/-- Where the three parts of a range from `vaddr` on lie: `h` pages up to a 2 MiB boundary, `l` 2 MiB
    pages, `d` pages in one page table. -/
structure Parts (vaddr h l d : Nat) : Prop where
  aligned : vaddr % 0x1000 = 0
  tail : d ≤ 512
  head : vaddr / 0x1000 % 512 + h ≤ 512
  boundary : h = 0 ∧ vaddr % 0x200000 = 0 ∨ vaddr / 0x1000 % 512 + h = 512 ∨ l = 0 ∧ d = 0
  bound : 0x1000 * h + 0x200000 * l + 0x1000 * d < 2 ^ 48

/-- The three parts map the frames `hs`, `ls` and `ds`. -/
structure HoldsParts (s : PgTables) (vaddr : Nat) (hs ls ds : List Nat) : Prop where
  head : HoldsSmall s vaddr hs
  large : HoldsLarge s (vaddr + 0x1000 * hs.length) ls
  small : HoldsSmall s (vaddr + 0x1000 * hs.length + 0x200000 * ls.length) ds

/-- The entries that map the three parts, with what is below them. -/
def PartPaths (vaddr h l d : Nat) (q : List (Fin 512)) : Prop :=
  SmallPaths vaddr h q ∨ LargePaths (vaddr + 0x1000 * h) l q ∨
    SmallPaths (vaddr + 0x1000 * h + 0x200000 * l) d q

/-- The three parts are unmapped and their frames freed, and nothing else changed. -/
structure FreedParts (s s' : PgTables) (vaddr : Nat) (hs ls ds : List Nat) : Prop where
  sound : s'.Sound
  same : s' = { s with
    frames := s'.frames
    freedSmall := s.freedSmall ++ (hs ++ ds)
    freedLarge := s.freedLarge ++ ls }
  head : ∀ j < hs.length, s'.entry (ptePath (vaddr + 0x1000 * j)) = 0
  large : ∀ i < ls.length, s'.entry (pdePath (vaddr + 0x1000 * hs.length + 0x200000 * i)) = 0
  small : ∀ j < ds.length,
    s'.entry (ptePath (vaddr + 0x1000 * hs.length + 0x200000 * ls.length + 0x1000 * j)) = 0
  off : ∀ q, ¬ PartPaths vaddr hs.length ls.length ds.length q → s'.entry q = s.entry q

/-- Pages of a range at different places are different pages. -/
theorem ptePath_ne {v x y : Nat} (hv : v % 0x1000 = 0) (hxy : x + 0x1000 ≤ y) (hlt : y < 2 ^ 48) :
    ptePath (v + x) ≠ ptePath (v + y) := by
  rw [Ne, ptePath_eq_iff]
  unfold virtPage
  omega

theorem not_smallPaths_of_length {v n : Nat} {q : List (Fin 512)} (hq : q.length ≠ 4) :
    ¬ SmallPaths v n q := by
  rintro ⟨j, -, rfl⟩
  exact hq (by simp)

/-- A page after the first `n` pages of a range is none of them. -/
theorem not_smallPaths_later {v x n : Nat} (hv : v % 0x1000 = 0) (hn : 0x1000 * n ≤ x)
    (hlt : x < 2 ^ 48) : ¬ SmallPaths v n (ptePath (v + x)) := by
  rintro ⟨j, hj, h⟩
  exact ptePath_ne hv (by omega) hlt h.symm

/-- What follows the head of the range is untouched while the head is unmapped. -/
theorem HoldsParts.rest {s₁ : PgTables} {hs ls ds : List Nat}
    (hparts : Parts vaddr hs.length ls.length ds.length) (h : HoldsParts s vaddr hs ls ds)
    (hoff : ∀ q, ¬ SmallPaths vaddr hs.length q → s₁.entry q = s.entry q) :
    HoldsLarge s₁ (wadd vaddr (0x1000 * hs.length)) ls ∧
      HoldsSmall s₁ (wadd vaddr (0x1000 * hs.length) + 0x200000 * ls.length) ds := by
  have hbound := hparts.bound
  have hshort : ∀ q : List (Fin 512), q.length < 4 → s₁.entry q = s.entry q :=
    fun q hq => hoff q (not_smallPaths_of_length (by omega))
  refine ⟨?_, ?_⟩
  · intro i a ha
    have hi := (List.getElem?_eq_some_iff.1 ha).1
    have hmod : (vaddr + 0x1000 * hs.length + 0x200000 * i) % 2 ^ 48 =
        (wadd vaddr (0x1000 * hs.length) + 0x200000 * i) % 2 ^ 48 := by
      unfold wadd
      omega
    obtain ⟨ho, hlarge, ha'⟩ := h.large i a ha
    rw [← pdePath_congr hmod, hshort _ (by simp)]
    exact ⟨ho.congr hmod fun q hq => hshort q (by omega), hlarge, ha'⟩
  · intro j a ha
    have hj := (List.getElem?_eq_some_iff.1 ha).1
    have hmod : (vaddr + 0x1000 * hs.length + 0x200000 * ls.length + 0x1000 * j) % 2 ^ 48 =
        (wadd vaddr (0x1000 * hs.length) + 0x200000 * ls.length + 0x1000 * j) % 2 ^ 48 := by
      unfold wadd
      omega
    have hpte : s₁.entry (ptePath (vaddr + 0x1000 * hs.length + 0x200000 * ls.length + 0x1000 * j)) =
        s.entry (ptePath (vaddr + 0x1000 * hs.length + 0x200000 * ls.length + 0x1000 * j)) := by
      refine hoff _ ?_
      rw [Nat.add_assoc, Nat.add_assoc]
      exact not_smallPaths_later hparts.aligned (by omega) (by omega)
    obtain ⟨ha0, ho, hlink, ha'⟩ := h.small j a ha
    rw [← pdePath_congr hmod, ← ptePath_congr hmod, hshort _ (by simp), hpte]
    exact ⟨ha0, ho.congr hmod fun q hq => hshort q (by omega), hlink, ha'⟩

theorem largePaths_congr {v w n : Nat} (h : v % 2 ^ 48 = w % 2 ^ 48) {q : List (Fin 512)} :
    LargePaths v n q ↔ LargePaths w n q := by
  have hmod : ∀ i, pdePath (v + 0x200000 * i) = pdePath (w + 0x200000 * i) :=
    fun i => pdePath_congr (by omega)
  simp only [LargePaths, hmod]

theorem smallPaths_congr {v w n : Nat} (h : v % 2 ^ 48 = w % 2 ^ 48) {q : List (Fin 512)} :
    SmallPaths v n q ↔ SmallPaths w n q := by
  have hmod : ∀ j, ptePath (v + 0x1000 * j) = ptePath (w + 0x1000 * j) :=
    fun j => ptePath_congr (by omega)
  simp only [SmallPaths, hmod]

/-- The head is unmapped first, then the rest. -/
theorem FreedParts.of_head {s₁ s' : PgTables} {hs ls ds : List Nat} {w : Nat}
    (hparts : Parts vaddr hs.length ls.length ds.length)
    (hw : w % 2 ^ 48 = (vaddr + 0x1000 * hs.length) % 2 ^ 48)
    (hsame : s₁ = { s with frames := s₁.frames, freedSmall := s.freedSmall ++ hs })
    (hclear : ∀ j < hs.length, s₁.entry (ptePath (vaddr + 0x1000 * j)) = 0)
    (hoff : ∀ q, ¬ SmallPaths vaddr hs.length q → s₁.entry q = s.entry q)
    (hrest : Freed s₁ s' w ls ds) : FreedParts s s' vaddr hs ls ds := by
  have hbound := hparts.bound
  refine ⟨hrest.sound, ?_, ?_, ?_, ?_, ?_⟩
  · rw [hrest.same, hsame]
    simp
  · intro j hj
    rw [hrest.off, hclear j hj]
    · rw [largePaths_congr hw]
      rintro ⟨i, hi, hsuf⟩
      rw [pdePath_suffix_ptePath] at hsuf
      have hal := hparts.aligned
      have hbd := hparts.boundary
      unfold virtRegion at hsuf
      omega
    · rw [smallPaths_congr (w := vaddr + (0x1000 * hs.length + 0x200000 * ls.length)) (by omega)]
      rintro ⟨i, hi, heq⟩
      rw [Nat.add_assoc] at heq
      exact ptePath_ne hparts.aligned (by omega) (by omega) heq
  · intro i hi
    rw [← pdePath_congr (a := w + 0x200000 * i) (by omega)]
    exact hrest.large i hi
  · intro j hj
    rw [← ptePath_congr (a := w + 0x200000 * ls.length + 0x1000 * j) (by omega)]
    exact hrest.small j hj
  · intro q hq
    simp only [PartPaths, not_or] at hq
    rw [hrest.off q _ _, hoff q hq.1]
    · rw [largePaths_congr hw]
      exact hq.2.1
    · rw [smallPaths_congr (w := vaddr + 0x1000 * hs.length + 0x200000 * ls.length) (by omega)]
      exact hq.2.2

theorem unmapFreeAt_freed {hs ls ds : List Nat} (hsound : s.Sound)
    (hparts : Parts vaddr hs.length ls.length ds.length)
    (hsize : size = 0x1000 * hs.length + 0x200000 * ls.length + 0x1000 * ds.length)
    (h : HoldsParts s vaddr hs ls ds) :
    ∃ s', unmapFreeAt s vaddr size = .ok s' ∧ FreedParts s s' vaddr hs ls ds := by
  have hbound := hparts.bound
  have haligned := hparts.aligned
  have hboundary := hparts.boundary
  have htail := hparts.tail
  unfold unmapFreeAt unmapFreeAtImpl
  by_cases hnil : hs = []
  · subst hnil
    have hl := h.large
    have hd := h.small
    simp only [List.length_nil, Nat.mul_zero, Nat.add_zero, Nat.zero_add] at hl hd hsize hboundary
    obtain ⟨s', hrun, hfreed⟩ := @unmapRegions_freed s vaddr size (size / 0x1000 + 1) ls ds
      hsound (by omega) hsize htail (by omega) (by omega) hl hd
    refine ⟨s', hrun, .of_head hparts rfl ?_ ?_ (fun _ _ => rfl) hfreed⟩
    · rw [List.append_nil]
    · exact fun j hj => absurd hj (Nat.not_lt_zero j)
  · have hpos := List.length_pos_iff.2 hnil
    obtain ⟨s₁, hrun, hs₁, hsame, hclear, hoff⟩ := @unmapRegions_small s vaddr size
      (size / 0x1000) hs hsound hnil hparts.head (by omega) (by omega) h.head
    obtain ⟨hl₁, hd₁⟩ := h.rest hparts hoff
    by_cases hmore : 0x1000 * hs.length < size
    · obtain ⟨s', hrun', hfreed⟩ := @unmapRegions_freed s₁ (wadd vaddr (0x1000 * hs.length))
        (size - 0x1000 * hs.length) (size / 0x1000) ls ds hs₁ (by unfold wadd; omega) (by omega) htail (by omega)
        (by omega) hl₁ hd₁
      refine ⟨s', ?_, .of_head hparts (by unfold wadd; omega) hsame hclear hoff hfreed⟩
      rw [hrun, if_pos hmore, hrun']
    · have hls : ls = [] := List.length_eq_zero_iff.1 (by omega)
      have hds : ds = [] := List.length_eq_zero_iff.1 (by omega)
      subst hls hds
      refine ⟨s₁, ?_, .of_head hparts rfl hsame hclear hoff ?_⟩
      · rw [hrun, if_neg hmore]
      · exact ⟨hs₁, by rw [List.append_nil, List.append_nil],
          fun i hi => absurd hi (Nat.not_lt_zero i), fun j hj => absurd hj (Nat.not_lt_zero j),
          fun _ _ _ => rfl⟩

end Freed

end Yaos
