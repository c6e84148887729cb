import Yaos.PageTable.Range

set_option autoImplicit false

/-! # 2 MiB mappings among pages of all sizes

`map_page_p2v` may find a 1 GiB page where it needs a page directory. It then makes one, with 512 entries
that map the pieces where they were, and links it in place of the page. `pageView` is what the processor
makes of an address: besides the physical address the flags of the entry that maps the page, and whether
all entries on the way allow writing and user access. Each write of `map_page_p2v` is looked at for all
addresses, and the views outside the 2 MiB mapped are the same before and after. -/

namespace Yaos

open Word TableTree

/-! ## Pages with their flags -/

/-- `PTE_W` is set. -/
abbrev Writable (e : Nat) : Prop := e / 2 % 2 = 1

/-- `PTE_U` is set. -/
abbrev User (e : Nat) : Prop := e / 4 % 2 = 1

/-- A page as the processor sees it. -/
structure PageView where
  paddr : Nat
  /-- The low 12 bits of the entry that maps the page. -/
  flags : Nat
  writable : Bool
  user : Bool
deriving DecidableEq, Repr

/-- The page of `size` bytes that `e` maps, reached through the entries `way`. Its address is all that `e` has
    from bit 12 on, as in the entries that the kernel makes: these have no bit above 51. -/
def viewOf (way : List Nat) (e size vaddr : Nat) : PageView where
  paddr := alignDown size e + vaddr % size
  flags := e % 0x1000
  writable := (e :: way).all fun e => decide (Writable e)
  user := (e :: way).all fun e => decide (User e)

/-- The walk of the processor, over entries that have no bit above 51; `mmuWalk` is for any entries. -/
def pageView (s : PgTables) (vaddr : Nat) : Option PageView :=
  let pml4e := s.frames s.pml4 (tableIndex pml4Shift vaddr)
  if Present pml4e ∧ ¬ Large pml4e then
    let pdpte := s.frames (alignDown 0x1000 pml4e) (tableIndex pdpShift vaddr)
    if Present pdpte then
      if Large pdpte then some (viewOf [pml4e] pdpte 0x40000000 vaddr)
      else
        let pde := s.frames (alignDown 0x1000 pdpte) (tableIndex pdShift vaddr)
        if Present pde then
          if Large pde then some (viewOf [pml4e, pdpte] pde 0x200000 vaddr)
          else
            let pte := s.frames (alignDown 0x1000 pde) (tableIndex pteShift vaddr)
            if Present pte then some (viewOf [pml4e, pdpte, pde] pte 0x1000 vaddr) else none
        else none
    else none
  else none

/-- It is the walk of `translate`. -/
theorem translate_eq_pageView (s : PgTables) (vaddr : Nat) :
    translate s vaddr = (pageView s vaddr).map PageView.paddr := by
  unfold translate pageView walkLevel
  dsimp only
  split_ifs <;> rfl

/-- What the processor makes of the four entries of `vaddr`. -/
def viewEntries (pml4e pdpte pde pte vaddr : Nat) : Option PageView :=
  if Present pdpte ∧ Large pdpte then some (viewOf [pml4e] pdpte 0x40000000 vaddr)
  else if Present pde ∧ Large pde then some (viewOf [pml4e, pdpte] pde 0x200000 vaddr)
  else if Present pte then some (viewOf [pml4e, pdpte, pde] pte 0x1000 vaddr)
  else none

theorem viewEntries_zero (pml4e vaddr : Nat) : viewEntries pml4e 0 0 0 vaddr = none := by
  rw [viewEntries, if_neg (by omega), if_neg (by omega), if_neg (by omega)]

section Below

variable {s : PgTables} {vaddr : Nat}

/-- Below an entry that leads nowhere there are only zeros. -/
theorem PgTables.entries_of_pml4e (h : s.tableOf (pml4ePath vaddr) = none) :
    s.entry (pdptePath vaddr) = 0 ∧ s.entry (pdePath vaddr) = 0 ∧ s.entry (ptePath vaddr) = 0 := by
  have hpd : s.tableOf (pdptePath vaddr) = none := tableAt_none_of_suffix (List.suffix_cons _ _) h
  have hpt : s.tableOf (pdePath vaddr) = none := tableAt_none_of_suffix (List.suffix_cons _ _) hpd
  exact ⟨PgTables.entry_cons_none h _, PgTables.entry_cons_none hpd _,
    PgTables.entry_cons_none hpt _⟩

theorem PgTables.entries_of_pdpte (h : s.tableOf (pdptePath vaddr) = none) :
    s.entry (pdePath vaddr) = 0 ∧ s.entry (ptePath vaddr) = 0 := by
  have hpt : s.tableOf (pdePath vaddr) = none := tableAt_none_of_suffix (List.suffix_cons _ _) h
  exact ⟨PgTables.entry_cons_none h _, PgTables.entry_cons_none hpt _⟩

theorem PgTables.tableOf_linked {n : Fin 512} {p : List (Fin 512)} (hp : p.length < 3)
    (hpres : Present (s.entry (n :: p))) (hsmall : ¬ Large (s.entry (n :: p))) :
    s.tableOf (n :: p) = some (alignDown 0x1000 (s.entry (n :: p))) := by
  rw [PgTables.tableOf_cons, pgLink_link hp hpres hsmall]

theorem PgTables.tableOf_unlinked {n : Fin 512} {p : List (Fin 512)}
    (h : ¬ (Present (s.entry (n :: p)) ∧ ¬ Large (s.entry (n :: p)))) :
    s.tableOf (n :: p) = none := by
  rw [PgTables.tableOf_cons, pgLink, if_neg fun hl => h hl.2]

end Below

/-- An entry is not present, a page, or a link. -/
theorem entry_cases (e : Nat) :
    ¬ Present e ∨ (Present e ∧ Large e) ∨ (Present e ∧ ¬ Large e) := by
  omega

theorem pageView_eq (s : PgTables) (vaddr : Nat) :
    pageView s vaddr =
      viewEntries (s.entry (pml4ePath vaddr)) (s.entry (pdptePath vaddr)) (s.entry (pdePath vaddr))
        (s.entry (ptePath vaddr)) vaddr := by
  unfold pageView
  rw [← PgTables.entry_pml4e]
  dsimp only
  by_cases h₄ : Present (s.entry (pml4ePath vaddr)) ∧ ¬ Large (s.entry (pml4ePath vaddr))
  case neg =>
    obtain ⟨hpdpte, hpde, hpte⟩ := PgTables.entries_of_pml4e (PgTables.tableOf_unlinked h₄)
    rw [if_neg h₄, hpdpte, hpde, hpte, viewEntries_zero]
  have hpdp : s.tableOf (pml4ePath vaddr) = some (alignDown 0x1000 (s.entry (pml4ePath vaddr))) :=
    PgTables.tableOf_linked (by simp) h₄.1 h₄.2
  rw [if_pos h₄, ← PgTables.entry_cons hpdp, ← pdptePath, viewEntries]
  rcases entry_cases (s.entry (pdptePath vaddr)) with h₃ | h₃ | h₃
  · -- no page directory
    obtain ⟨hpde, hpte⟩ := PgTables.entries_of_pdpte (PgTables.tableOf_unlinked fun h => h₃ h.1)
    rw [if_neg h₃, if_neg fun h => h₃ h.1, hpde, hpte, if_neg (by omega), if_neg (by omega)]
  · rw [if_pos h₃.1, if_pos h₃.2, if_pos h₃]
  · have hpd : s.tableOf (pdptePath vaddr) = some (alignDown 0x1000 (s.entry (pdptePath vaddr))) :=
      PgTables.tableOf_linked (by simp) h₃.1 h₃.2
    have hno : ¬ (Present (s.entry (pdptePath vaddr)) ∧ Large (s.entry (pdptePath vaddr))) :=
      fun h => h₃.2 h.2
    rw [if_pos h₃.1, if_neg h₃.2, if_neg hno, ← PgTables.entry_cons hpd, ← pdePath]
    rcases entry_cases (s.entry (pdePath vaddr)) with h₂ | h₂ | h₂
    · -- no page table
      have hpte : s.entry (ptePath vaddr) = 0 :=
        PgTables.entry_cons_none (PgTables.tableOf_unlinked fun h => h₂ h.1) _
      rw [if_neg h₂, if_neg fun h => h₂ h.1, hpte, if_neg (by omega)]
    · rw [if_pos h₂.1, if_pos h₂.2, if_pos h₂]
    · have hpt : s.tableOf (pdePath vaddr) = some (alignDown 0x1000 (s.entry (pdePath vaddr))) :=
        PgTables.tableOf_linked (by simp) h₂.1 h₂.2
      have hno : ¬ (Present (s.entry (pdePath vaddr)) ∧ Large (s.entry (pdePath vaddr))) :=
        fun h => h₂.2 h.2
      rw [if_pos h₂.1, if_neg h₂.2, if_neg hno, ← PgTables.entry_cons hpt, ← ptePath]

theorem pageView_congr {s s' : PgTables} {vaddr : Nat}
    (hpml4e : s'.entry (pml4ePath vaddr) = s.entry (pml4ePath vaddr))
    (hpdpte : s'.entry (pdptePath vaddr) = s.entry (pdptePath vaddr))
    (hpde : s'.entry (pdePath vaddr) = s.entry (pdePath vaddr))
    (hpte : s'.entry (ptePath vaddr) = s.entry (ptePath vaddr)) :
    pageView s' vaddr = pageView s vaddr := by
  rw [pageView_eq, pageView_eq, hpml4e, hpdpte, hpde, hpte]

/-! ## The way to the page directory -/

/-- An entry of a PDP: nothing, a page directory, or an aligned 1 GiB page. Bits 12 to 20 of a page are
    not part of its address. -/
def PdpteShape (e : Nat) : Prop :=
  Opens e ∨ isLargePage e = true ∧ e % 0x40000000 < 0x200000 ∧ e < 2 ^ 64

/-- Page tables with pages of all sizes: the tables form a tree, and the frame source offers frames that
    are no tables. Page directories and page tables hold anything. -/
structure PgTables.Mixed (s : PgTables) : Prop where
  sound : s.Sound
  pml4e : ∀ x, Opens (s.entry (pml4ePath x))
  pdpte : ∀ x, PdpteShape (s.entry (pdptePath x))

section Views

variable {s s' : PgTables} {vaddr x : Nat}

theorem viewEntries_link {pml4e pdpte : Nat} (h : IsLink pdpte) (x : Nat) :
    viewEntries pml4e pdpte 0 0 x = none := by
  rw [viewEntries, if_neg h.not_page, if_neg (by omega), if_neg (by omega)]

/-- A table that was missing comes with no pages. -/
theorem Opened.pageView_eq {q : List (Fin 512)} (h : Opened s s' q) (hq : q.length < 3) (x : Nat) :
    pageView s' x = pageView s x := by
  have hpde : s'.entry (pdePath x) = s.entry (pdePath x) :=
    h.off _ fun he => absurd hq (by simp [← he])
  have hpte : s'.entry (ptePath x) = s.entry (ptePath x) :=
    h.off _ fun he => absurd hq (by simp [← he])
  rcases h.entries (pml4ePath x) with hpml4e | ⟨he, hzero, -⟩
  · rcases h.entries (pdptePath x) with hpdpte | ⟨-, hzero, hlink⟩
    · exact pageView_congr hpml4e hpdpte hpde hpte
    · -- a new page directory: all its entries read 0, as they did before
      obtain ⟨hpde₀, hpte₀⟩ := PgTables.entries_of_pdpte (PgTables.tableOf_zero (by simp) hzero)
      rw [Yaos.pageView_eq, Yaos.pageView_eq, hpde, hpte, hzero, hpde₀, hpte₀, viewEntries_zero,
        viewEntries_link hlink]
  · have hpdpte : s'.entry (pdptePath x) = s.entry (pdptePath x) :=
      h.off _ fun hq' => pml4ePath_ne_pdptePath x x (he.trans hq'.symm)
    obtain ⟨hpdpte₀, hpde₀, hpte₀⟩ :=
      PgTables.entries_of_pml4e (PgTables.tableOf_zero (by simp) hzero)
    rw [Yaos.pageView_eq, Yaos.pageView_eq, hpdpte, hpde, hpte, hpdpte₀, hpde₀, hpte₀,
      viewEntries_zero, viewEntries_zero]

/-- The 1 GiB page at `q` is replaced by a page directory that holds `v`. -/
structure SplitPage (s s' : PgTables) (q : List (Fin 512)) (v : Fin 512 → Nat) : Prop where
  same : s' = { s with frames := s'.frames, table := s.table.tail }
  link : IsLink (s'.entry q)
  allows : Writable (s'.entry q) ∧ User (s'.entry q)
  pieces : ∀ m, s'.entry (m :: q) = v m
  off : ∀ q', ¬ q <:+ q' → s'.entry q' = s.entry q'

/-- A piece of a 1 GiB page. -/
theorem splitEntries_piece {e : Nat} (halign : e % 0x40000000 < 0x200000) (hlt : e < 2 ^ 64)
    (m : Fin 512) :
    splitEntries (alignDown 0x1000 e) 0x200000 (e &&& 0xfff) m = e + 0x200000 * m := by
  have hm := m.isLt
  have hmask : e &&& 0xfff = e % 0x1000 := Nat.and_two_pow_sub_one_eq_mod e 12
  have hadd : wadd (alignDown 0x1000 e) (m * 0x200000) = alignDown 0x1000 e + 0x200000 * m := by
    unfold wadd alignDown
    omega
  rw [splitEntries, hadd, hmask, or_flags (by unfold alignDown; omega) (Nat.mod_lt _ (by decide))]
  unfold alignDown
  omega

/-- The view of a piece is the one of the whole page. -/
theorem viewOf_piece {pml4e e link : Nat} (halign : e % 0x40000000 < 0x200000)
    (hallows : Writable link ∧ User link) (x : Nat) :
    viewOf [pml4e, link] (e + 0x200000 * (tableIndex pdShift x : Nat)) 0x200000 x =
      viewOf [pml4e] e 0x40000000 x := by
  have hidx : (tableIndex pdShift x : Nat) = x / 0x200000 % 512 := rfl
  have haddr : alignDown 0x200000 (e + 0x200000 * (x / 0x200000 % 512)) + x % 0x200000 =
      alignDown 0x40000000 e + x % 0x40000000 := by
    unfold alignDown
    omega
  have hflags : (e + 0x200000 * (x / 0x200000 % 512)) % 0x1000 = e % 0x1000 := by omega
  have hw : decide (Writable (e + 0x200000 * (x / 0x200000 % 512))) = decide (Writable e) :=
    decide_eq_decide.2 (by omega)
  have hu : decide (User (e + 0x200000 * (x / 0x200000 % 512))) = decide (User e) :=
    decide_eq_decide.2 (by omega)
  simp only [viewOf, hidx, haddr, hflags, List.all_cons, List.all_nil, hw, hu,
    decide_eq_true hallows.1, decide_eq_true hallows.2, Bool.and_true]

theorem SplitPage.pageView_eq
    (h : SplitPage s s' (pdptePath vaddr)
      (splitEntries (alignDown 0x1000 (s.entry (pdptePath vaddr))) 0x200000
        (s.entry (pdptePath vaddr) &&& 0xfff)))
    (hl : isLargePage (s.entry (pdptePath vaddr)) = true)
    (halign : s.entry (pdptePath vaddr) % 0x40000000 < 0x200000)
    (hlt : s.entry (pdptePath vaddr) < 2 ^ 64) (x : Nat) : pageView s' x = pageView s x := by
  have hpml4e : s'.entry (pml4ePath x) = s.entry (pml4ePath x) :=
    h.off _ (not_suffix_of_length (by simp))
  by_cases hx : pdptePath x = pdptePath vaddr
  · have hpde : s'.entry (pdePath x) =
        s.entry (pdptePath vaddr) + 0x200000 * (tableIndex pdShift x : Nat) := by
      rw [pdePath, hx, h.pieces, splitEntries_piece halign hlt]
    have hpage := isLargePage_iff.1 hl
    have hpiece : Present (s'.entry (pdePath x)) ∧ Large (s'.entry (pdePath x)) := by
      rw [hpde]
      omega
    rw [Yaos.pageView_eq, Yaos.pageView_eq, hpml4e, hx, viewEntries, viewEntries,
      if_neg h.link.not_page, if_pos hpiece, if_pos hpage, hpde, viewOf_piece halign h.allows]
  · have hoff : ∀ q, q = pdptePath x ∨ q = pdePath x ∨ q = ptePath x →
        s'.entry q = s.entry q := by
      intro q hq
      refine h.off q fun hsuf => hx ?_
      have htail : pdptePath x <:+ q := by
        rcases hq with rfl | rfl | rfl
        · exact List.suffix_rfl
        · exact List.suffix_cons _ _
        · exact (List.suffix_cons _ _).trans (List.suffix_cons _ _)
      exact (List.suffix_of_suffix_length_le htail hsuf (by simp)).eq_of_length (by simp)
    exact pageView_congr hpml4e (hoff _ (.inl rfl)) (hoff _ (.inr (.inl rfl)))
      (hoff _ (.inr (.inr rfl)))

/-- Splitting the 1 GiB page at an entry, when the source has a frame. -/
theorem linkNewTable_splitPage {p : List (Fin 512)} {t : Nat} {n : Fin 512} {v : Fin 512 → Nat}
    (hs : s.Sound) (ht : s.tableOf p = some t) (hb : t < 2 ^ 64) (hp : p.length < 3)
    (htab : s.table ≠ []) (hv : ∀ m, Large (v m)) (text : String) :
    ∃ s', linkNewTable s text v (pteP ||| pteW ||| pteU) (P2V t) n =
        .ok (some (P2V (alignDown 0x1000 (s'.entry (n :: p)))), s') ∧
      s'.Sound ∧ SplitPage s s' (n :: p) v := by
  obtain ⟨f, rest, htable⟩ := List.exists_cons_of_ne_nil htab
  have hleaf : ∀ m, pgLink (p.length + 1) (v m) = none := fun m => by
    rw [pgLink, if_neg fun h => h.2.2 (hv m)]
  obtain ⟨h, hlink, hrun⟩ := linkNewTable_links (n := n) hs ht hb hp htable linkFlags_user hleaf text
  have hself := h.entry_self (n := n)
  have hflags : f ||| (pteP ||| pteW ||| pteU) = f + 7 := or_flags h.taken.frame.aligned (by decide)
  have hal := h.taken.frame.aligned
  refine ⟨_, ?_, h.sound_after (n := n), ?_, ?_, ?_, h.entry_new, fun q hq => h.entry_off hq⟩
  · rw [hrun, hself]
  · rw [h.linkFrame_eq, htable, List.tail_cons]
  · rw [hself]
    exact hlink
  · rw [hself, hflags]
    omega

/-- 1 when a page directory has to be made for `vaddr`. -/
def directoryMissing (s : PgTables) (vaddr : Nat) : Nat :=
  if s.entry (pdptePath vaddr) = 0 ∨ isLargePage (s.entry (pdptePath vaddr)) then 1 else 0

/-- The page directory of `vaddr` is there, and all pages are as they were. -/
structure DirectoryMade (s s' : PgTables) (vaddr : Nat) : Prop where
  same : s' = { s with frames := s'.frames, table := s'.table }
  link : IsLink (s'.entry (pdptePath vaddr))
  view : ∀ x, pageView s' x = pageView s x
  upper : ∀ q : List (Fin 512), q.length < 3 → q ≠ pdptePath vaddr → s'.entry q = s.entry q
  kept : IsLink (s.entry (pdptePath vaddr)) → s'.entry (pdptePath vaddr) = s.entry (pdptePath vaddr)
  count : s'.table.length + directoryMissing s vaddr = s.table.length

theorem DirectoryMade.of_opened (h : Opened s s' (pdptePath vaddr))
    (hl : ¬ isLargePage (s.entry (pdptePath vaddr)) = true) : DirectoryMade s s' vaddr where
  same := h.same
  link := h.link
  view := h.pageView_eq (by simp)
  upper := fun q _ hq => h.off q hq
  kept := fun hlink => h.kept hlink.ne_zero
  count := by
    have hcount := h.count
    unfold missing at hcount
    simpa [directoryMissing, hl] using hcount

theorem pageDirectoryFor_made (hs : s.Sound) (hlink : IsLink (s.entry (pml4ePath vaddr)))
    (hshape : PdpteShape (s.entry (pdptePath vaddr)))
    (htab : directoryMissing s vaddr ≤ s.table.length) :
    ∃ s', pageDirectoryFor s (P2V (alignDown 0x1000 (s.entry (pml4ePath vaddr))))
        (tableIndex pdpShift vaddr) =
        .ok (some (P2V (alignDown 0x1000 (s'.entry (pdptePath vaddr)))), s') ∧
      s'.Sound ∧ DirectoryMade s s' vaddr := by
  have ht : s.tableOf (pml4ePath vaddr) = some (alignDown 0x1000 (s.entry (pml4ePath vaddr))) :=
    PgTables.tableOf_link (by simp) hlink
  have hb := hlink.frame.lt
  rcases hshape with hopen | ⟨hl, halign, hlt⟩
  · have hno : ¬ isLargePage (s.entry (pdptePath vaddr)) = true := fun hl =>
      hopen.not_page (isLargePage_iff.1 hl)
    have hmissing : missing s (pdptePath vaddr) ≤ s.table.length := by
      unfold missing
      simpa [directoryMissing, hno] using htab
    obtain ⟨s', hrun, hs', ho⟩ := pageDirectoryFor_opened hs ht hb (by simp) hopen hmissing
    exact ⟨s', hrun, hs', .of_opened ho hno⟩
  · have hpage := isLargePage_iff.1 hl
    have hne : s.entry (pdptePath vaddr) ≠ 0 := by omega
    rw [directoryMissing, if_pos (.inr hl)] at htab
    obtain ⟨s', hrun, hs', hsplit⟩ := linkNewTable_splitPage (n := tableIndex pdpShift vaddr)
      (v := splitEntries (alignDown 0x1000 (s.entry (pdptePath vaddr))) 0x200000
        (s.entry (pdptePath vaddr) &&& 0xfff)) hs ht hb (by simp)
      (List.ne_nil_of_length_pos htab) (fun m => by
        rw [splitEntries_piece halign hlt]
        omega) "((ulong) pd & 0xfff) == 0"
    refine ⟨s', ?_, hs', ?_⟩
    · dsimp only [pageDirectoryFor]
      rw [PgTables.load_P2V _ ht hb, ← pdptePath, if_neg hne,
        if_pos (and_ptePS_ne_zero.2 hpage.2)]
      exact hrun
    · refine ⟨?_, hsplit.link, hsplit.pageView_eq hl halign hlt, fun q hq hne' => hsplit.off q ?_,
        fun hlink' => absurd hl hlink'.not_largePage, ?_⟩
      · rw [hsplit.same]
      · intro hsuf
        exact hne' (hsuf.eq_of_length (Nat.le_antisymm hsuf.length_le (by simp; omega))).symm
      · rw [hsplit.same, directoryMissing, if_pos (.inr hl), List.length_tail]
        omega

end Views

/-! ## One 1 GiB page -/

/-- `map_1g_page_p2v` keeps the tables in order when the page is aligned. (The code asks for 4 KiB
    alignment only; the processor ignores or rejects the bits in between.) -/
theorem map1gPageP2V_mixed {s : PgTables} {paddr vaddr flag : Nat} (h : s.Mixed)
    (htab : missing s (pml4ePath vaddr) ≤ s.table.length) (hp : paddr % 0x40000000 = 0)
    (hlt : paddr < 2 ^ 64) (hv : vaddr % 0x40000000 = 0) (hf : flag < 0x1000)
    (hpres : Present flag) (hlarge : Large flag) :
    ∃ s', map1gPageP2V s paddr vaddr flag = .ok (OK, s') ∧ s'.Mixed ∧
      (∀ i < 0x40000000, translate s' (vaddr + i) = some (paddr + i)) ∧
      s'.table.length + missing s (pml4ePath vaddr) = s.table.length := by
  obtain ⟨s₁, hfirst, hs₁, ho⟩ := nextTable_opened (n := tableIndex pml4Shift vaddr) h.sound rfl
    h.sound.root (by decide) (h.pml4e vaddr) htab linkFlags_user "((ulong) p_pdp & 0xfff) == 0"
  rw [← pml4ePath] at hfirst ho
  have he : paddr ||| flag = paddr + flag := or_flags (by omega) hf
  have hpage : isLargePage (paddr ||| flag) = true := by
    rw [isLargePage_iff, he]
    omega
  have hleaf : pgLink 1 (paddr ||| flag) = none := by
    rw [pgLink, if_neg fun h => h.2.2 (isLargePage_iff.1 hpage).2]
  have hpdp : s₁.tableOf (pml4ePath vaddr) = some (alignDown 0x1000 (s₁.entry (pml4ePath vaddr))) :=
    PgTables.tableOf_link (by simp) ho.link
  have hb := ho.link.frame.lt
  have hself : (s₁.store (P2V (alignDown 0x1000 (s₁.entry (pml4ePath vaddr))))
      (tableIndex pdpShift vaddr) (paddr ||| flag)).entry (pdptePath vaddr) = paddr ||| flag :=
    PgTables.entry_store_self hs₁ hpdp hb
  have hoff : ∀ q, ¬ pdptePath vaddr <:+ q →
      (s₁.store (P2V (alignDown 0x1000 (s₁.entry (pml4ePath vaddr)))) (tableIndex pdpShift vaddr)
        (paddr ||| flag)).entry q = s₁.entry q :=
    fun q hq => PgTables.entry_store_off hs₁ hpdp hb hq
  have hsound := hs₁.store (n := tableIndex pdpShift vaddr) hpdp hb hleaf
  refine ⟨_, ?_, ⟨hsound, fun x => ?_, fun x => ?_⟩, fun i hi => ?_, ?_⟩
  · unfold map1gPageP2V
    rw [assert_pos hv, ok_bind, assert_pos (by omega), ok_bind,
      assert_pos (by unfold alignDown; omega), ok_bind, hfirst, ok_bind]
  · rw [hoff _ (not_suffix_of_length (by simp))]
    rcases ho.entries (pml4ePath x) with hkept | ⟨-, -, hlink⟩
    · rw [hkept]
      exact h.pml4e x
    · exact .inr hlink
  · by_cases hx : pdptePath x = pdptePath vaddr
    · rw [hx, hself]
      refine .inr ⟨hpage, ?_, ?_⟩ <;>
      · rw [he]
        omega
    · rw [hoff _ fun hsuf => hx (hsuf.eq_of_length (by simp)).symm,
        ho.off _ (pml4ePath_ne_pdptePath vaddr x).symm]
      exact h.pdpte x
  · have hpath : pdptePath (vaddr + i) = pdptePath vaddr := by
      simp only [pdptePath, pml4ePath, List.cons.injEq, tableIndex, Fin.mk.injEq, pdpShift,
        pml4Shift, and_true]
      omega
    rw [translate_eq, readEntries, hpath, hself, if_pos (isLargePage_iff.1 hpage), he]
    congr 1
    unfold alignDown
    omega
  · rw [PgTables.store_P2V _ _ hb]
    exact ho.count

/-! ## One 2 MiB page -/

/-- The tables `map_page_p2v` makes. -/
def tablesFor2M (s : PgTables) (vaddr : Nat) : Nat :=
  missing s (pml4ePath vaddr) + directoryMissing s vaddr

theorem tablesFor2M_le (s : PgTables) (vaddr : Nat) : tablesFor2M s vaddr ≤ 2 := by
  unfold tablesFor2M missing directoryMissing
  split <;> split <;> decide

/-- What `map_page_p2v` does to the tables. -/
structure LargeMap (s s' : PgTables) (paddr vaddr : Nat) : Prop where
  mixed : s'.Mixed
  same : s' = { s with frames := s'.frames, table := s'.table }
  maps : ∀ i < 0x200000, translate s' (vaddr + i) = some (paddr + i)
  view : ∀ x, virtRegion x ≠ virtRegion vaddr → pageView s' x = pageView s x
  upper : ∀ q : List (Fin 512), q.length < 3 → s'.entry q = s.entry q ∨
    (q = pml4ePath vaddr ∨ q = pdptePath vaddr) ∧ ¬ IsLink (s.entry q)
  links : IsLink (s'.entry (pml4ePath vaddr)) ∧ IsLink (s'.entry (pdptePath vaddr))
  count : s'.table.length + tablesFor2M s vaddr = s.table.length

section LargeMap

variable {s : PgTables} {paddr vaddr flag : Nat}

/-- The tables on the way to the page directory entry of `vaddr` are there. -/
theorem mapPageP2V_way (h : s.Mixed) (htab : tablesFor2M s vaddr ≤ s.table.length)
    (hp : paddr % 0x200000 = 0) (hv : vaddr % 0x200000 = 0) (hf : flag < 0x1000) :
    ∃ s₁ s₂, mapPageP2V s paddr vaddr flag =
        .ok (OK, s₂.store (P2V (alignDown 0x1000 (s₂.entry (pdptePath vaddr))))
          (tableIndex pdShift vaddr) (paddr ||| flag)) ∧
      Opened s s₁ (pml4ePath vaddr) ∧ s₂.Sound ∧ DirectoryMade s₁ s₂ vaddr := by
  obtain ⟨s₁, hfirst, hs₁, ho⟩ := nextTable_opened (n := tableIndex pml4Shift vaddr) h.sound rfl
    h.sound.root (by decide) (h.pml4e vaddr) (le_trans (Nat.le_add_right _ _) htab) linkFlags_user
    "((ulong) p_pdp & 0xfff) == 0"
  have hpdpte : s₁.entry (pdptePath vaddr) = s.entry (pdptePath vaddr) :=
    ho.off _ (pml4ePath_ne_pdptePath vaddr vaddr).symm
  have hmissing : directoryMissing s₁ vaddr ≤ s₁.table.length := by
    have hcount := ho.count
    unfold tablesFor2M at htab
    rw [directoryMissing, hpdpte, ← directoryMissing]
    rw [← pml4ePath] at hcount
    omega
  obtain ⟨s₂, hsecond, hs₂, hmade⟩ := pageDirectoryFor_made hs₁ ho.link (hpdpte ▸ h.pdpte vaddr)
    hmissing
  refine ⟨s₁, s₂, ?_, ho, hs₂, hmade⟩
  unfold mapPageP2V
  rw [assert_pos hv, ok_bind, assert_pos hp, ok_bind, assert_pos (by unfold alignDown; omega),
    ok_bind, hfirst, ok_bind]
  dsimp only
  rw [← pml4ePath, hsecond, ok_bind]

/-- The entries above the page directories, before the page is mapped. -/
theorem DirectoryMade.upper_of_opened {s₁ s₂ : PgTables} (ho : Opened s s₁ (pml4ePath vaddr))
    (hmade : DirectoryMade s₁ s₂ vaddr) {q : List (Fin 512)} (hq : q.length < 3) :
    s₂.entry q = s.entry q ∨ (q = pml4ePath vaddr ∨ q = pdptePath vaddr) ∧ ¬ IsLink (s.entry q) := by
  by_cases hpd : q = pdptePath vaddr
  · subst hpd
    have hpdpte : s₁.entry (pdptePath vaddr) = s.entry (pdptePath vaddr) :=
      ho.off _ (pml4ePath_ne_pdptePath vaddr vaddr).symm
    by_cases hlink : IsLink (s.entry (pdptePath vaddr))
    · exact .inl ((hmade.kept (hpdpte ▸ hlink)).trans hpdpte)
    · exact .inr ⟨.inr rfl, hlink⟩
  · rw [hmade.upper q hq hpd]
    rcases ho.entries q with he | ⟨hq', hzero, -⟩
    · exact .inl he
    · exact .inr ⟨.inl hq', fun hlink => hlink.ne_zero hzero⟩

theorem DirectoryMade.pml4e_link {s₁ s₂ : PgTables} (ho : Opened s s₁ (pml4ePath vaddr))
    (hmade : DirectoryMade s₁ s₂ vaddr) : IsLink (s₂.entry (pml4ePath vaddr)) := by
  rw [hmade.upper _ (by simp) (pml4ePath_ne_pdptePath vaddr vaddr)]
  exact ho.link

theorem mapPageP2V_largeMap (h : s.Mixed) (htab : tablesFor2M s vaddr ≤ s.table.length)
    (hp : paddr % 0x200000 = 0) (hv : vaddr % 0x200000 = 0) (hf : flag < 0x1000)
    (hpres : Present flag) (hlarge : Large flag) :
    ∃ s', mapPageP2V s paddr vaddr flag = .ok (OK, s') ∧ LargeMap s s' paddr vaddr := by
  obtain ⟨s₁, s₂, hrun, ho, hs₂, hmade⟩ := mapPageP2V_way h htab hp hv hf
  obtain ⟨hpage, hdown⟩ := isLargePage_or hp hf hpres hlarge
  have hleaf : pgLink 2 (paddr ||| flag) = none := by
    rw [pgLink, if_neg fun h => h.2.2 (isLargePage_iff.1 hpage).2]
  have hpd : s₂.tableOf (pdptePath vaddr) = some (alignDown 0x1000 (s₂.entry (pdptePath vaddr))) :=
    PgTables.tableOf_link (by simp) hmade.link
  have hb := hmade.link.frame.lt
  have hoff : ∀ q, ¬ pdePath vaddr <:+ q →
      (s₂.store (P2V (alignDown 0x1000 (s₂.entry (pdptePath vaddr)))) (tableIndex pdShift vaddr)
        (paddr ||| flag)).entry q = s₂.entry q :=
    fun q hq => PgTables.entry_store_off hs₂ hpd hb hq
  have hupper : ∀ q : List (Fin 512), q.length < 3 →
      (s₂.store (P2V (alignDown 0x1000 (s₂.entry (pdptePath vaddr)))) (tableIndex pdShift vaddr)
        (paddr ||| flag)).entry q = s₂.entry q :=
    fun q hq => hoff q (not_suffix_of_length (by simpa using hq))
  refine ⟨_, hrun, ⟨hs₂.store hpd hb hleaf, ?_, ?_⟩, ?_, ?_, ?_, ?_, ?_, ?_⟩
  · intro x
    rw [hupper _ (by simp)]
    by_cases hx : pml4ePath x = pml4ePath vaddr
    · rw [hx]
      exact .inr (hmade.pml4e_link ho)
    · rw [hmade.upper _ (by simp) (pml4ePath_ne_pdptePath x vaddr), ho.off _ hx]
      exact h.pml4e x
  · intro x
    rw [hupper _ (by simp)]
    by_cases hx : pdptePath x = pdptePath vaddr
    · rw [hx]
      exact .inl (.inr hmade.link)
    · rw [hmade.upper _ (by simp) hx, ho.off _ (pml4ePath_ne_pdptePath vaddr x).symm]
      exact h.pdpte x
  · rw [PgTables.store_P2V _ _ hb]
    rw [hmade.same, ho.same]
  -- an address of the page is read through the entry that was stored
  · intro i hi
    have hregion : virtRegion (vaddr + i) = virtRegion vaddr := by
      unfold virtRegion
      omega
    have hpath := pdePath_eq_iff.2 hregion
    have hself : (s₂.store (P2V (alignDown 0x1000 (s₂.entry (pdptePath vaddr))))
        (tableIndex pdShift vaddr) (paddr ||| flag)).entry (pdePath vaddr) = paddr ||| flag :=
      PgTables.entry_store_self hs₂ hpd hb
    rw [translate_eq, readEntries, (List.cons.inj hpath).2, hpath, hupper _ (by simp),
      if_neg hmade.link.not_page, hself, if_pos (isLargePage_iff.1 hpage), hdown]
    congr 1
    omega
  -- elsewhere neither the page directory entry nor the page table entry was written
  · intro x hx
    have hsuf : ∀ q, q = pdePath x ∨ q = ptePath x → ¬ pdePath vaddr <:+ q := by
      rintro q (rfl | rfl) hs
      · exact hx (pdePath_eq_iff.1 (hs.eq_of_length (by simp)).symm)
      · exact hx (pdePath_suffix_ptePath.1 hs).symm
    rw [pageView_congr (hupper _ (by simp)) (hupper _ (by simp)) (hoff _ (hsuf _ (.inl rfl)))
      (hoff _ (hsuf _ (.inr rfl))), hmade.view, ho.pageView_eq (by simp)]
  · intro q hq
    rw [hupper q hq]
    exact hmade.upper_of_opened ho hq
  · rw [hupper _ (by simp), hupper _ (by simp)]
    exact ⟨hmade.pml4e_link ho, hmade.link⟩
  · have hdir : directoryMissing s₁ vaddr = directoryMissing s vaddr := by
      rw [directoryMissing, directoryMissing, ho.off _ (pml4ePath_ne_pdptePath vaddr vaddr).symm]
    have hc₁ := ho.count
    have hc₂ := hmade.count
    rw [PgTables.store_P2V _ _ hb]
    show s₂.table.length + _ = _
    unfold tablesFor2M
    omega

/-- **The frame condition of a 2 MiB mapping.** Over tables with pages of all sizes, `map_page_p2v`
    returns `OK`, maps the 2 MiB, and every address outside keeps its physical address and its flags. An
    address is translated by its low 48 bits. -/
theorem mapPageP2V_frame (h : s.Mixed) (htab : tablesFor2M s vaddr ≤ s.table.length)
    (hp : paddr % 0x200000 = 0) (hv : vaddr % 0x200000 = 0) (hf : flag < 0x1000)
    (hpres : flag &&& pteP ≠ 0) (hps : flag &&& ptePS ≠ 0) :
    ∃ s', mapPageP2V s paddr vaddr flag = .ok (OK, s') ∧
      (∀ i < 0x200000, translate s' (vaddr + i) = some (paddr + i)) ∧
      ∀ x, (x % 2 ^ 48 < vaddr % 2 ^ 48 ∨ vaddr % 2 ^ 48 + 0x200000 ≤ x % 2 ^ 48) →
        translate s' x = translate s x ∧ pageView s' x = pageView s x := by
  have hpresent : Present flag := not_not.1 fun hn => hpres (and_pteP_eq_zero.2 hn)
  obtain ⟨s', hrun, hm⟩ := mapPageP2V_largeMap h htab hp hv hf hpresent (and_ptePS_ne_zero.1 hps)
  refine ⟨s', hrun, hm.maps, fun x hx => ?_⟩
  have hregion : virtRegion x ≠ virtRegion vaddr := by
    unfold virtRegion
    omega
  have hview := hm.view x hregion
  exact ⟨by rw [translate_eq_pageView, translate_eq_pageView, hview], hview⟩

/-- A cleared PML4 and three frames for tables. -/
def clearedTables : PgTables where
  frames := fun _ _ => 0
  pml4 := 0x1000
  data := []
  pt := []
  table := [0x2000, 0x3000, 0x4000]
  large := []
  freedSmall := []
  freedLarge := []

theorem clearedTables_mixed : clearedTables.Mixed where
  sound := .blank (fun _ => rfl) (by decide) (by
    intro f hf
    simp only [clearedTables, List.append_nil, List.mem_cons, List.not_mem_nil, or_false] at hf
    rcases hf with rfl | rfl | rfl <;> exact ⟨⟨by decide, by decide, by decide⟩, by decide⟩) (by decide)
  pml4e := fun _ => .inl (PgTables.entry_blank (fun _ => rfl) _)
  pdpte := fun _ => .inl (.inl (PgTables.entry_blank (fun _ => rfl) _))

/-- A flag above the low 12 bits is refused. -/
theorem mapPageP2V_refuses_flag : clearedTables.Mixed ∧
    tablesFor2M clearedTables 0x200000 ≤ clearedTables.table.length ∧
    (0x1081 &&& pteP ≠ 0 ∧ 0x1081 &&& ptePS ≠ 0) ∧
    mapPageP2V clearedTables 0x80000000 0x200000 0x1081 = .error (.assertion "(flag & ~0xfff) == 0") :=
  ⟨clearedTables_mixed, (tablesFor2M_le _ _).trans (by decide), by decide, rfl⟩

/-- A 1 GiB page is split: its second piece is mapped elsewhere, its third stays where it was. -/
theorem mapPageP2V_frame_split : ∃ s s', map1gPageP2V clearedTables 0x40000000 0 0x83 = .ok (OK, s) ∧
    mapPageP2V s 0x80000000 0x200000 0x83 = .ok (OK, s') ∧
    translate s 0x200000 = some 0x40200000 ∧ translate s' 0x200000 = some 0x80000000 ∧
    translate s 0x400000 = some 0x40400000 ∧ pageView s' 0x400000 = pageView s 0x400000 := by
  have hgiga : ∃ s, map1gPageP2V clearedTables 0x40000000 0 0x83 = .ok (OK, s) ∧ s.Mixed ∧
      (∀ i < 0x40000000, translate s (0 + i) = some (0x40000000 + i)) ∧
      s.table.length + missing clearedTables (pml4ePath 0) = clearedTables.table.length :=
    map1gPageP2V_mixed clearedTables_mixed (by decide) (by decide) (by decide) (by decide) (by decide)
      (by decide) (by decide)
  obtain ⟨s, hrun, hmixed, hmaps, hcount⟩ := hgiga
  have htab : tablesFor2M s 0x200000 ≤ s.table.length := by
    have hmissing : missing clearedTables (pml4ePath 0) = 1 := by decide
    have hlength : clearedTables.table.length = 3 := rfl
    have := tablesFor2M_le s 0x200000
    omega
  obtain ⟨s', hrun', hmaps', hframe⟩ : ∃ s', mapPageP2V s 0x80000000 0x200000 0x83 = .ok (OK, s') ∧ _ :=
    mapPageP2V_frame hmixed htab (by decide) (by decide) (by decide) (by decide) (by decide)
  exact ⟨s, s', hrun, hrun', hmaps 0x200000 (by decide), hmaps' 0 (by decide),
    hmaps 0x400000 (by decide), (hframe 0x400000 (by decide)).2⟩

end LargeMap

end Yaos
