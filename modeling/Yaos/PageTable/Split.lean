import Yaos.PageTable.Giant

set_option autoImplicit false

/-! # Splitting a 2 MiB page

`map_4k_page_p2v` and `unmap_free_at_impl` each have a loop that replaces a 2 MiB page by a page table
with 512 entries. They differ in the flags: unmapping hands the flags of the page on to its pieces,
mapping gives all pieces the same ones. Here the pages next to the one that is mapped or unmapped are
looked at, with the permissions the processor computes from all entries on the way. -/

namespace Yaos

open Word TableTree

/-- What must stay: the physical address, whether the page can be written to and is open to the user,
    and `PTE_PWT`, `PTE_PCD` and `PTE_G`. -/
def PageView.bits (v : PageView) : Nat × Bool × Bool × Nat :=
  (v.paddr, v.writable, v.user, v.flags &&& 0x118)

/-- The other pages of the 2 MiB region of `vaddr` are seen alike. -/
def NeighboursAlike (s s' : PgTables) (vaddr : Nat) : Prop :=
  ∀ x, virtRegion x = virtRegion vaddr → virtPage x ≠ virtPage vaddr →
    (pageView s' x).map PageView.bits = (pageView s x).map PageView.bits

/-- Mapping the page at `vaddr`, and likewise unmapping it, comes back and leaves its neighbours alone;
    so the two ways to split give the same neighbours. -/
structure SplitsAlike (s : PgTables) (paddr vaddr flag : Nat) : Prop where
  map : ∃ s', map4kPageP2V s paddr vaddr flag = .ok (OK, s') ∧ NeighboursAlike s s' vaddr
  unmap : ∃ s', unmapAt s vaddr 0x1000 = .ok s' ∧ NeighboursAlike s s' vaddr
  same : ∀ s₁ s₂, map4kPageP2V s paddr vaddr flag = .ok (OK, s₁) → unmapAt s vaddr 0x1000 = .ok s₂ →
    NeighboursAlike s₁ s₂ vaddr

/-- `vaddr` lies in a 2 MiB page, and there is a frame for a page table. -/
structure PgTables.LargeAt (s : PgTables) (vaddr : Nat) : Prop where
  sound : s.Sound
  pml4e : IsLink (s.entry (pml4ePath vaddr))
  pdpte : IsLink (s.entry (pdptePath vaddr))
  pde : isLargePage (s.entry (pdePath vaddr)) = true
  word : s.entry (pdePath vaddr) < 2 ^ 64
  frame : s.table ≠ []

/-! ## The new page table -/

/-- The 2 MiB page of `vaddr` is replaced by a page table linked with `flags`, whose entries but the one
    of `vaddr` are `v`. -/
structure SplitAround (s s' : PgTables) (vaddr : Nat) (v : Fin 512 → Nat) (flags : Nat) : Prop where
  link : ∃ f, Frame f ∧ s'.entry (pdePath vaddr) = f + flags
  pieces : ∀ m, m ≠ tableIndex pteShift vaddr → s'.entry (m :: pdePath vaddr) = v m
  off : ∀ q, ¬ pdePath vaddr <:+ q → s'.entry q = s.entry q

section Table

variable {s : PgTables} {vaddr flags : Nat} {v : Fin 512 → Nat}

/-- The table is made and linked, and one of its entries is written. -/
theorem linkNewTable_splitAround (h : s.LargeAt vaddr) (hflags : LinkFlags flags) (text : String) :
    ∃ s₁ t, linkNewTable s text v flags (P2V (alignDown 0x1000 (s.entry (pdptePath vaddr))))
        (tableIndex pdShift vaddr) = .ok (some (P2V t), s₁) ∧
      s₁.load (P2V t) (tableIndex pteShift vaddr) = v (tableIndex pteShift vaddr) ∧
      ∀ e, SplitAround s (s₁.store (P2V t) (tableIndex pteShift vaddr) e) vaddr v flags := by
  obtain ⟨f, rest, htable⟩ := List.exists_cons_of_ne_nil h.frame
  have ht : s.tableOf (pdptePath vaddr) = some (alignDown 0x1000 (s.entry (pdptePath vaddr))) :=
    PgTables.tableOf_link (by simp) h.pdpte
  obtain ⟨hl, hlink, hrun⟩ := linkNewTable_links (n := tableIndex pdShift vaddr) (v := v) h.sound ht
    h.pdpte.frame.lt (by simp) htable hflags (fun _ => pgLink_pte _) text
  have hself := hl.entry_self (n := tableIndex pdShift vaddr)
  rw [← pdePath] at hself
  have hsound := hl.sound_after (n := tableIndex pdShift vaddr)
  set s₁ := PgTables.linkFrame { s with table := rest } f v
    (alignDown 0x1000 (s.entry (pdptePath vaddr))) (tableIndex pdShift vaddr) (f ||| flags) with hs₁
  have ht₁ : s₁.tableOf (pdePath vaddr) = some (alignDown 0x1000 (f ||| flags)) := by
    rw [← hself]
    exact PgTables.tableOf_link (by simp) (hself ▸ hlink)
  have hb₁ := hlink.frame.lt
  refine ⟨s₁, _, hrun, ?_, fun e => ⟨⟨f, hl.taken.frame, ?_⟩, fun m hm => ?_, fun q hq => ?_⟩⟩
  · rw [PgTables.load_P2V _ ht₁ hb₁]
    exact hl.entry_new _
  · rw [PgTables.entry_store_off hsound ht₁ hb₁ (not_suffix_of_length (by simp)), hself,
      or_flags hl.taken.frame.aligned hflags.lt]
  · have hne : ¬ ptePath vaddr <:+ (m :: pdePath vaddr) := fun hs =>
      hm (List.cons.inj (hs.eq_of_length (by simp))).1.symm
    rw [PgTables.entry_store_off hsound ht₁ hb₁ hne]
    exact hl.entry_new m
  · have hne : ¬ ptePath vaddr <:+ q := fun hs => hq ((List.suffix_cons _ _).trans hs)
    rw [PgTables.entry_store_off hsound ht₁ hb₁ hne]
    exact hl.entry_off hq

theorem PgTables.LargeAt.openAt (h : s.LargeAt vaddr) : s.OpenAt vaddr :=
  ⟨.inr h.pml4e, .inr h.pdpte⟩

theorem PgTables.LargeAt.load_pde (h : s.LargeAt vaddr) :
    s.load (P2V (alignDown 0x1000 (s.entry (pdptePath vaddr)))) (tableIndex pdShift vaddr) =
      s.entry (pdePath vaddr) :=
  PgTables.load_P2V _ (PgTables.tableOf_link (by simp) h.pdpte) h.pdpte.frame.lt

theorem buildPteWithAddr_large (h : s.LargeAt vaddr) :
    buildPteWithAddr s (alignDown 0x200000 vaddr) =
      .ok (some (P2V (alignDown 0x1000 (s.entry (pdptePath vaddr))), tableIndex pdShift vaddr), s) := by
  have hpml4e : s.load (P2V s.pml4) (tableIndex pml4Shift vaddr) = s.entry (pml4ePath vaddr) :=
    PgTables.load_P2V _ (p := []) rfl h.sound.root
  have hpdpte : s.load (P2V (alignDown 0x1000 (s.entry (pml4ePath vaddr)))) (tableIndex pdpShift vaddr)
      = s.entry (pdptePath vaddr) :=
    PgTables.load_P2V _ (PgTables.tableOf_link (by simp) h.pml4e) h.pml4e.frame.lt
  rw [buildPteWithAddr_alignDown]
  unfold buildPteWithAddr nextTable
  simp only [hpml4e, if_neg h.pml4e.frame.nonzero, ok_bind, hpdpte, if_neg h.pdpte.frame.nonzero]

/-- The pieces `map_4k_page_p2v` makes. -/
def mapPieces (s : PgTables) (vaddr : Nat) : Fin 512 → Nat :=
  splitEntries (alignDown 0x1000 (s.entry (pdePath vaddr))) 0x1000 (pteP ||| pteW ||| pteG)

/-- The pieces `unmap_free_at_impl` makes. -/
def unmapPieces (s : PgTables) (vaddr : Nat) : Fin 512 → Nat :=
  splitEntries (alignDown 0x1000 (s.entry (pdePath vaddr))) 0x1000
    (s.entry (pdePath vaddr) &&& 0xfff &&& notPS)

theorem map4kPageP2V_splits (h : s.LargeAt vaddr) {paddr flag : Nat} (hp : paddr % 0x1000 = 0)
    (hv : vaddr % 0x1000 = 0) (hf : flag < 0x1000) :
    ∃ s', map4kPageP2V s paddr vaddr flag = .ok (OK, s') ∧
      SplitAround s s' vaddr (mapPieces s vaddr) (pteP ||| pteW) := by
  obtain ⟨s₁, t, hrun, -, hsplit⟩ := linkNewTable_splitAround (v := mapPieces s vaddr) h linkFlags_rw
    "((ulong) p & 0xfff) == 0"
  refine ⟨_, ?_, hsplit (pteFor paddr flag)⟩
  unfold map4kPageP2V
  rw [assert_bind hp, assert_bind hv, assert_bind (by unfold alignDown; omega),
    buildPteWithAddr_large h, ok_bind]
  dsimp only [pageTableFor]
  rw [h.load_pde, if_pos h.pde]
  unfold mapPieces at hrun
  rw [hrun, ok_bind]
  rfl

/-- `unmap_at` on one page comes back unless the frame of the page is 0. -/
theorem unmapAt_splits (h : s.LargeAt vaddr) :
    if alignDown 0x1000 (unmapPieces s vaddr (tableIndex pteShift vaddr)) = 0 then
      unmapAt s vaddr 0x1000 = .error (.panic "unmap free at none exist page:%lx\n")
    else ∃ s', unmapAt s vaddr 0x1000 = .ok s' ∧
      SplitAround s s' vaddr (unmapPieces s vaddr) (pteP ||| pteW ||| pteU) := by
  obtain ⟨s₁, t, hrun, hload, hsplit⟩ := linkNewTable_splitAround (v := unmapPieces s vaddr) h
    linkFlags_user "((ulong) pte & 0xfff) == 0"
  have hne : s.entry (pdePath vaddr) ≠ 0 := fun h0 => isLargePage_zero (h0 ▸ h.pde)
  have htable : tableToUnmap s (P2V (alignDown 0x1000 (s.entry (pdptePath vaddr))))
      (tableIndex pdShift vaddr) = .ok (some (P2V t), s₁) := by
    dsimp only [tableToUnmap]
    rw [h.load_pde, if_pos h.pde]
    exact hrun
  have hregion := @unmapRegions_table _ _ 0x1000 1 false _ _ h.sound h.openAt
    hne (by decide) (fun hall => absurd hall.2.2 (by decide)) htable
  have hk := (tableIndex pteShift vaddr).isLt
  obtain ⟨left, hleft⟩ : ∃ l, 512 - (tableIndex pteShift vaddr : Nat) = l + 1 :=
    ⟨511 - tableIndex pteShift vaddr, by omega⟩
  have hidx : Fin.ofNat 512 (511 - left) = tableIndex pteShift vaddr := by
    rw [Fin.ext_iff, Fin.val_ofNat]
    omega
  have hunmap : unmapAt s vaddr 0x1000 = unmapRegions false 2 vaddr 0x1000 s := rfl
  rw [hleft] at hregion
  unfold unmapPtes at hregion
  simp only [Nat.ofNat_pos, if_true, hidx, hload] at hregion
  split
  case isTrue hzero =>
    rw [hunmap, hregion, if_pos hzero]
    rfl
  case isFalse hzero =>
    refine ⟨_, ?_, hsplit 0⟩
    rw [hunmap, hregion, if_neg hzero]
    cases left with
    | zero => rfl
    | succ left => rfl

end Table

/-! ## The neighbours -/

section Neighbours

variable {s s' : PgTables} {vaddr flags x : Nat} {v : Fin 512 → Nat}

/-- A neighbour as it is seen before. -/
theorem PgTables.LargeAt.view (h : s.LargeAt vaddr) (hregion : virtRegion x = virtRegion vaddr) :
    pageView s x = some (viewOf [s.entry (pml4ePath vaddr), s.entry (pdptePath vaddr)]
      (s.entry (pdePath vaddr)) 0x200000 x) := by
  have hpde : pdePath x = pdePath vaddr := pdePath_eq_iff.2 hregion
  have hpdpte : pdptePath x = pdptePath vaddr := (List.cons.inj hpde).2
  have hpml4e : pml4ePath x = pml4ePath vaddr := (List.cons.inj hpdpte).2
  rw [pageView_eq, hpde, hpdpte, hpml4e, viewEntries, if_neg h.pdpte.not_page,
    if_pos (isLargePage_iff.1 h.pde)]

/-- A neighbour as it is seen after. -/
theorem SplitAround.view (h : SplitAround s s' vaddr v flags) (hl : s.LargeAt vaddr)
    (hflags : LinkFlags flags) (hregion : virtRegion x = virtRegion vaddr)
    (hpage : virtPage x ≠ virtPage vaddr) (hpres : Present (v (tableIndex pteShift x))) :
    ∃ link, (Writable link ↔ Writable flags) ∧ (User link ↔ User flags) ∧
      pageView s' x = some (viewOf [s.entry (pml4ePath vaddr), s.entry (pdptePath vaddr), link]
        (v (tableIndex pteShift x)) 0x1000 x) := by
  obtain ⟨f, hframe, hlink⟩ := h.link
  have hal := hframe.aligned
  have hlt := hflags.lt
  have hsmall := hflags.small
  have hpde : pdePath x = pdePath vaddr := pdePath_eq_iff.2 hregion
  have hpdpte : pdptePath x = pdptePath vaddr := (List.cons.inj hpde).2
  have hpml4e : pml4ePath x = pml4ePath vaddr := (List.cons.inj hpdpte).2
  have hidx : tableIndex pteShift x ≠ tableIndex pteShift vaddr := by
    intro heq
    refine hpage (ptePath_eq_iff.1 ?_)
    rw [ptePath, ptePath, heq, hpde]
  have hpte : s'.entry (ptePath x) = v (tableIndex pteShift x) := by
    rw [ptePath, hpde]
    exact h.pieces _ hidx
  refine ⟨f + flags, by omega, by omega, ?_⟩
  rw [pageView_eq, hpte, hpde, hpdpte, hpml4e, hlink, h.off _ (not_suffix_of_length (by simp)),
    h.off _ (not_suffix_of_length (by simp)), viewEntries, if_neg hl.pdpte.not_page,
    if_neg (by omega), if_pos hpres]

/-- A piece with the flags `fl`. -/
theorem splitEntries_small {e fl : Nat} (hfl : fl < 0x1000) (m : Fin 512) :
    splitEntries (alignDown 0x1000 e) 0x1000 fl m
      = wadd (alignDown 0x1000 e) (m * 0x1000) + fl := by
  rw [splitEntries, or_flags _ hfl]
  unfold wadd alignDown
  omega

theorem all_way_iff (P : Nat → Prop) [DecidablePred P] (a pml4e pdpte link e : Nat) :
    ([a, pml4e, pdpte, link].all fun e => decide (P e)) = ([e, pml4e, pdpte].all fun e => decide (P e)) ↔
      (P a ∧ P link ∧ P pml4e ∧ P pdpte ↔ P e ∧ P pml4e ∧ P pdpte) := by
  rw [Bool.eq_iff_iff]
  simp only [List.all_cons, List.all_nil, Bool.and_true, Bool.and_eq_true, decide_eq_true_eq]
  tauto

/-- A piece with the flags `fl`, below an entry with the flags `link`, is like the 2 MiB page `e`. -/
structure PieceAlike (pml4e pdpte e link fl : Nat) : Prop where
  address : e % 0x200000 < 0x1000
  write : Writable fl ∧ Writable link ∧ Writable pml4e ∧ Writable pdpte ↔
    Writable e ∧ Writable pml4e ∧ Writable pdpte
  user : User fl ∧ User link ∧ User pml4e ∧ User pdpte ↔ User e ∧ User pml4e ∧ User pdpte
  caching : fl &&& 0x118 = e &&& 0x118

/-- When a piece is seen as the 2 MiB page `e` was. -/
theorem bits_piece_iff {pml4e pdpte e link fl : Nat} (he : e < 2 ^ 64) (hfl : fl < 0x1000) :
    (viewOf [pml4e, pdpte, link] (splitEntries (alignDown 0x1000 e) 0x1000 fl (tableIndex pteShift x))
        0x1000 x).bits = (viewOf [pml4e, pdpte] e 0x200000 x).bits ↔
      PieceAlike pml4e pdpte e link fl := by
  have hidx : (tableIndex pteShift x : Nat) = x / 0x1000 % 512 := rfl
  rw [splitEntries_small hfl, hidx]
  set base := wadd (alignDown 0x1000 e) (x / 0x1000 % 512 * 0x1000) with hbase
  have hmod : base % 0x1000 = 0 := by
    rw [hbase]
    unfold wadd alignDown
    omega
  have haddr : alignDown 0x1000 (base + fl) + x % 0x1000 = alignDown 0x200000 e + x % 0x200000 ↔
      e % 0x200000 < 0x1000 := by
    have hdown : alignDown 0x1000 (base + fl) = base := by
      unfold alignDown
      omega
    rw [hdown, hbase]
    unfold wadd alignDown
    omega
  have hflags : (base + fl) % 0x1000 = fl := by omega
  have hmask : e % 0x1000 &&& 0x118 = e &&& 0x118 := by
    have hand : (e &&& 0x118) % 2 ^ 12 = e % 2 ^ 12 &&& 0x118 % 2 ^ 12 := Nat.and_mod_two_pow
    rw [Nat.mod_eq_of_lt (Nat.and_le_right.trans_lt (by decide))] at hand
    exact hand.symm
  have hw : Writable (base + fl) ↔ Writable fl := by omega
  have hu : User (base + fl) ↔ User fl := by omega
  rw [PageView.bits, PageView.bits, viewOf, viewOf, Prod.mk.injEq, Prod.mk.injEq, Prod.mk.injEq,
    haddr, all_way_iff Writable, all_way_iff User, hflags, hmask, hw, hu]
  exact ⟨fun h => ⟨h.1, h.2.1, h.2.2.1, h.2.2.2⟩, fun h => ⟨h.address, h.write, h.user, h.caching⟩⟩

/-- Every page of a 2 MiB region has a neighbour. -/
theorem exists_neighbour (vaddr : Nat) :
    ∃ x, virtRegion x = virtRegion vaddr ∧ virtPage x ≠ virtPage vaddr := by
  refine ⟨alignDown 0x200000 vaddr + (vaddr / 0x1000 + 1) % 512 * 0x1000, ?_, ?_⟩
  · unfold virtRegion alignDown
    omega
  · unfold virtPage alignDown
    omega

/-- The neighbours of the pieces with the flags `fl`, all at once. -/
theorem SplitAround.alike_iff {fl : Nat}
    (h : SplitAround s s' vaddr
      (splitEntries (alignDown 0x1000 (s.entry (pdePath vaddr))) 0x1000 fl) flags)
    (hl : s.LargeAt vaddr) (hflags : LinkFlags flags) (hfl : fl < 0x1000) (hpres : Present fl) :
    NeighboursAlike s s' vaddr ↔ PieceAlike (s.entry (pml4ePath vaddr)) (s.entry (pdptePath vaddr))
      (s.entry (pdePath vaddr)) flags fl := by
  have hpiece : ∀ m, Present (splitEntries (alignDown 0x1000 (s.entry (pdePath vaddr))) 0x1000 fl m) := by
    intro m
    rw [splitEntries_small hfl]
    unfold wadd alignDown
    omega
  have hone : ∀ x, virtRegion x = virtRegion vaddr → virtPage x ≠ virtPage vaddr →
      ((pageView s' x).map PageView.bits = (pageView s x).map PageView.bits ↔
        PieceAlike (s.entry (pml4ePath vaddr)) (s.entry (pdptePath vaddr)) (s.entry (pdePath vaddr))
          flags fl) := by
    intro x hregion hpage
    obtain ⟨link, hw, hu, hview⟩ := h.view hl hflags hregion hpage (hpiece _)
    rw [hview, hl.view hregion, Option.map_some, Option.map_some, Option.some.injEq,
      bits_piece_iff hl.word hfl]
    exact ⟨fun h => ⟨h.address, by rw [← hw]; exact h.write, by rw [← hu]; exact h.user, h.caching⟩,
      fun h => ⟨h.address, by rw [hw]; exact h.write, by rw [hu]; exact h.user, h.caching⟩⟩
  constructor
  · intro hall
    obtain ⟨x, hregion, hpage⟩ := exists_neighbour vaddr
    exact (hone x hregion hpage).1 (hall x hregion hpage)
  · intro hall x hregion hpage
    exact (hone x hregion hpage).2 hall

end Neighbours

/-! ## Both ways to split -/

/-- When both ways to split leave the neighbours of `vaddr` alone: the entry of the 2 MiB page has no
    bit set between its flags and its address, the page is global, cached and written back, it is
    writable if the entries above it are, and not open to the user; and it is not the page at physical
    address 0, split at its first 4 KiB. -/
structure SplitKept (pml4e pdpte pde vaddr : Nat) : Prop where
  address : pde % 0x200000 < 0x1000
  write : Writable pml4e → Writable pdpte → Writable pde
  user : ¬ (User pde ∧ User pml4e ∧ User pdpte)
  caching : pde &&& 0x118 = 0x100
  nonzero : 0x200000 ≤ pde ∨ 0x1000 ≤ vaddr % 0x200000

section Both

variable {s : PgTables} {paddr vaddr flag : Nat}

theorem writable_iff_testBit (e : Nat) : Writable e ↔ e.testBit 1 = true := by
  simp [Nat.testBit_eq_decide_div_mod_eq]

theorem user_iff_testBit (e : Nat) : User e ↔ e.testBit 2 = true := by
  simp [Nat.testBit_eq_decide_div_mod_eq]

/-- The flags of a page are handed on by `unmap_free_at_impl`, but for `PTE_PS`. -/
theorem handedOn (e : Nat) :
    e &&& 0xfff &&& notPS < 0x1000 ∧ (Present (e &&& 0xfff &&& notPS) ↔ Present e) ∧
      (Writable (e &&& 0xfff &&& notPS) ↔ Writable e) ∧ (User (e &&& 0xfff &&& notPS) ↔ User e) ∧
      (e &&& 0xfff &&& notPS) &&& 0x118 = e &&& 0x118 := by
  have hbit : ∀ i, (e &&& 0xfff &&& notPS).testBit i
      = (e.testBit i && (0xfff &&& notPS).testBit i) := fun i => by
    rw [Nat.and_assoc, Nat.testBit_and]
  refine ⟨?_, ?_, ?_, ?_, ?_⟩
  · rw [Nat.and_assoc]
    exact Nat.and_le_right.trans_lt (by decide)
  · rw [present_iff_testBit, present_iff_testBit, hbit, show (0xfff &&& notPS).testBit 0 = true by decide,
      Bool.and_true]
  · rw [writable_iff_testBit, writable_iff_testBit, hbit,
      show (0xfff &&& notPS).testBit 1 = true by decide, Bool.and_true]
  · rw [user_iff_testBit, user_iff_testBit, hbit, show (0xfff &&& notPS).testBit 2 = true by decide,
      Bool.and_true]
  · rw [Nat.and_assoc, Nat.and_assoc]
    rfl

theorem NeighboursAlike.trans {s₁ s₂ : PgTables} (h₁ : NeighboursAlike s s₁ vaddr)
    (h₂ : NeighboursAlike s s₂ vaddr) : NeighboursAlike s₁ s₂ vaddr := fun x hregion hpage =>
  (h₂ x hregion hpage).trans (h₁ x hregion hpage).symm

/-- **Splitting a 2 MiB page.** -/
theorem splits_alike_iff (h : s.LargeAt vaddr) (hp : paddr % 0x1000 = 0) (hv : vaddr % 0x1000 = 0)
    (hf : flag < 0x1000) :
    SplitsAlike s paddr vaddr flag ↔
      SplitKept (s.entry (pml4ePath vaddr)) (s.entry (pdptePath vaddr)) (s.entry (pdePath vaddr))
        vaddr := by
  obtain ⟨s₁, hmap, hsplit₁⟩ := map4kPageP2V_splits h hp hv hf
  have hmapIff := hsplit₁.alike_iff h linkFlags_rw (by decide) (by decide)
  have hunmap := unmapAt_splits h
  obtain ⟨hlt, hpres, hwrite, huser, hbits⟩ := handedOn (s.entry (pdePath vaddr))
  have hword := h.word
  have hlarge := isLargePage_iff.1 h.pde
  -- `unmap` takes an entry with frame 0 for one that is not there
  have hframe : s.entry (pdePath vaddr) % 0x200000 < 0x1000 →
      (alignDown 0x1000 (unmapPieces s vaddr (tableIndex pteShift vaddr)) = 0 ↔
        ¬ (0x200000 ≤ s.entry (pdePath vaddr) ∨ 0x1000 ≤ vaddr % 0x200000)) := by
    intro haddr
    have hidx : (tableIndex pteShift vaddr : Nat) = vaddr / 0x1000 % 512 := rfl
    rw [unmapPieces, splitEntries_small hlt, hidx]
    generalize s.entry (pdePath vaddr) &&& 0xfff &&& notPS = fl at hlt
    unfold wadd alignDown
    omega
  constructor
  · intro hall
    obtain ⟨s₁', hmap', halike⟩ := hall.map
    obtain rfl : s₁ = s₁' := (Prod.mk.inj (Except.ok.inj (hmap.symm.trans hmap'))).2
    obtain ⟨haddr, hw, hu, hfl⟩ := hmapIff.1 halike
    refine ⟨haddr, fun h₄ h₃ => (hw.1 ⟨by decide, by decide, h₄, h₃⟩).1, fun hall => ?_, hfl.symm, ?_⟩
    · exact absurd (hu.2 hall).1 (by decide)
    · by_contra hzero
      rw [if_pos ((hframe haddr).2 hzero)] at hunmap
      obtain ⟨s₂, hunmap', -⟩ := hall.unmap
      rw [hunmap] at hunmap'
      cases hunmap'
  · intro hkept
    have halike₁ : NeighboursAlike s s₁ vaddr := by
      refine hmapIff.2 ⟨hkept.address, ?_, ?_, hkept.caching.symm⟩
      · exact ⟨fun hall => ⟨hkept.write hall.2.2.1 hall.2.2.2, hall.2.2⟩,
          fun hall => ⟨by decide, by decide, hall.2⟩⟩
      · exact iff_of_false (fun hall => absurd hall.1 (by decide)) hkept.user
    rw [if_neg fun hzero => (hframe hkept.address).1 hzero hkept.nonzero] at hunmap
    obtain ⟨s₂, hrun₂, hsplit₂⟩ := hunmap
    have halike₂ : NeighboursAlike s s₂ vaddr := by
      refine (hsplit₂.alike_iff h linkFlags_user hlt (hpres.2 hlarge.1)).2
        ⟨hkept.address, ?_, ?_, hbits⟩
      · rw [hwrite]
        exact and_congr_right fun _ => and_iff_right (by decide)
      · rw [huser]
        exact and_congr_right fun _ => and_iff_right (by decide)
    refine ⟨⟨s₁, hmap, halike₁⟩, ⟨s₂, hrun₂, halike₂⟩, fun t₁ t₂ ht₁ ht₂ => ?_⟩
    obtain rfl : s₁ = t₁ := (Prod.mk.inj (Except.ok.inj (hmap.symm.trans ht₁))).2
    obtain rfl : s₂ = t₂ := Except.ok.inj (hrun₂.symm.trans ht₂)
    exact halike₁.trans halike₂

end Both

/-- A global, writable page of the kernel. -/
theorem splits_alike_global : ∃ s, mapPageP2V clearedTables 0x200000 0 0x183 = .ok (OK, s) ∧
    SplitsAlike s 0x5000 0x1000 0x3 := by
  obtain ⟨s, hrun, hmap⟩ := @mapPageP2V_largeMap _ 0x200000 0 0x183
    clearedTables_mixed (tablesFor2M_le clearedTables 0 |>.trans (by decide)) (by decide) (by decide)
    (by decide) (by decide) (by decide)
  have hobs : (mapPageP2V clearedTables 0x200000 0 0x183).map (fun r =>
      (r.2.entry (pml4ePath 0x1000), r.2.entry (pdptePath 0x1000), r.2.entry (pdePath 0x1000),
        r.2.table)) = .ok (0x2007, 0x3007, 0x200183, [0x4000]) := by
    decide +kernel
  rw [hrun] at hobs
  obtain ⟨hpml4e, hobs⟩ := Prod.mk.inj (Except.ok.inj hobs)
  obtain ⟨hpdpte, hobs⟩ := Prod.mk.inj hobs
  obtain ⟨hpde, htable⟩ := Prod.mk.inj hobs
  have hat : s.LargeAt 0x1000 := by
    refine ⟨hmap.mixed.sound, ?_, ?_, ?_, ?_, ?_⟩
    · rw [hpml4e]
      exact ⟨by decide, by decide, ⟨by decide, by decide, by decide⟩⟩
    · rw [hpdpte]
      exact ⟨by decide, by decide, ⟨by decide, by decide, by decide⟩⟩
    · rw [hpde]
      decide
    · rw [hpde]
      decide
    · simp only at htable
      rw [htable]
      decide
  refine ⟨s, hrun, (splits_alike_iff hat (by decide) (by decide) (by decide)).2 ?_⟩
  rw [hpml4e, hpdpte, hpde]
  exact ⟨by decide, by decide, by decide, by decide, by decide⟩

/-- A page that is only read: after its second 4 KiB are mapped elsewhere, the first can be written. -/
theorem split_makes_writable : ∃ s s', mapPageP2V clearedTables 0x200000 0 0x181 = .ok (OK, s) ∧
    map4kPageP2V s 0x5000 0x1000 0x3 = .ok (OK, s') ∧
    pageView s 0 = some ⟨0x200000, 0x181, false, false⟩ ∧
    pageView s' 0 = some ⟨0x200000, 0x103, true, false⟩ ∧ ¬ SplitsAlike s 0x5000 0x1000 0x3 := by
  have hobs : (do
      let r ← mapPageP2V clearedTables 0x200000 0 0x181
      let r' ← map4kPageP2V r.2 0x5000 0x1000 0x3
      .ok (r'.1, pageView r.2 0, pageView r'.2 0)) =
      .ok (OK, some ⟨0x200000, 0x181, false, false⟩, some ⟨0x200000, 0x103, true, false⟩) := by
    decide +kernel
  have hfirst : (mapPageP2V clearedTables 0x200000 0 0x181).map Prod.fst = .ok OK := by decide +kernel
  obtain ⟨⟨r, s⟩, hrun, hobs⟩ := bind_eq_ok.1 hobs
  obtain ⟨⟨ret, s'⟩, hrun', hobs⟩ := bind_eq_ok.1 hobs
  obtain ⟨hret, hviews⟩ := Prod.mk.inj (Except.ok.inj hobs)
  obtain rfl : ret = OK := hret
  obtain ⟨hbefore, hafter⟩ := Prod.mk.inj hviews
  obtain rfl : r = OK := of_map_eq_ok hfirst hrun
  refine ⟨s, s', hrun, hrun', hbefore, hafter, fun hall => ?_⟩
  obtain ⟨t, hrun'', halike⟩ := hall.map
  obtain rfl : s' = t := (Prod.mk.inj (Except.ok.inj (hrun'.symm.trans hrun''))).2
  have hsame := halike 0 (by decide) (by decide)
  rw [hbefore, hafter] at hsame
  exact absurd hsame (by decide)

end Yaos
