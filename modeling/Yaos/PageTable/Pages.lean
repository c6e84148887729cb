import Yaos.PageTable.Runs
import Yaos.PageTable.Split
import Mathlib.Data.Finset.Card

set_option autoImplicit false

/-! # One page after the other

The loops that map a range call `map_4k_page_p2v` and `map_page_p2v` again and again, on tables that the
earlier calls have changed. `PgTables.Prepared` is what such a loop needs of the tables over a set of
addresses: the entries there are as the code leaves them, and the frame source has a frame for every
table that is still to be made. One call of either function keeps it, and changes one translation. -/

namespace Yaos

open Word TableTree

/-- The number of pages of a range that starts at a page. -/
def pagesIn (size : Nat) : Nat := (size + 0xfff) / 0x1000

/-- The processor looks at 48 bits of an address. -/
theorem translate_mod48 (s : PgTables) {x y : Nat} (h : x % 2 ^ 48 = y % 2 ^ 48) :
    translate s x = translate s y := by
  rw [translate_eq, translate_eq, pdptePath_congr h, pdePath_congr h, ptePath_congr h, readEntries,
    readEntries, show x % 0x40000000 = y % 0x40000000 by omega,
    show x % 0x200000 = y % 0x200000 by omega, show x % 0x1000 = y % 0x1000 by omega]

/-- A table is to be made at `q` for a page of `V`: it is missing, or a 2 MiB page has to be split. -/
def NeedsTable (s : PgTables) (V : Nat → Prop) (q : List (Fin 512)) : Prop :=
  ∃ x, V x ∧ ((q = pml4ePath x ∨ q = pdptePath x) ∧ s.entry q = 0 ∨
    q = pdePath x ∧ isLargePage (s.entry q) = true)

/-- A page table is missing at `q` for a page of `V`. -/
def NeedsPt (s : PgTables) (V : Nat → Prop) (q : List (Fin 512)) : Prop :=
  ∃ x, V x ∧ q = pdePath x ∧ s.entry q = 0

/-- The tables are in order over `V`, and there is a frame for each table to be made there. -/
structure PgTables.Prepared (s : PgTables) (V : Nat → Prop) : Prop where
  sound : s.Sound
  upper : ∀ x, V x → s.OpenAt x
  pde : ∀ x, V x → PdeShape (s.entry (pdePath x))
  tables : ∃ F : Finset (List (Fin 512)), F.card ≤ s.table.length ∧ ∀ q, NeedsTable s V q → q ∈ F
  pts : ∃ F : Finset (List (Fin 512)), F.card ≤ s.pt.length ∧ ∀ q, NeedsPt s V q → q ∈ F

theorem PgTables.Prepared.mono {s : PgTables} {V W : Nat → Prop} (h : s.Prepared V)
    (hsub : ∀ x, W x → V x) : s.Prepared W where
  sound := h.sound
  upper x hx := h.upper x (hsub x hx)
  pde x hx := h.pde x (hsub x hx)
  tables := by
    obtain ⟨F, hcard, hF⟩ := h.tables
    exact ⟨F, hcard, fun q ⟨x, hx, hq⟩ => hF q ⟨x, hsub x hx, hq⟩⟩
  pts := by
    obtain ⟨F, hcard, hF⟩ := h.pts
    exact ⟨F, hcard, fun q ⟨x, hx, hq⟩ => hF q ⟨x, hsub x hx, hq⟩⟩

/-! ## The frames one call takes -/

/-- The tables that mapping a 4 KiB page at `vaddr` makes with frames from `table`. -/
def usedTables (s : PgTables) (vaddr : Nat) : Finset (List (Fin 512)) :=
  (if s.entry (pml4ePath vaddr) = 0 then {pml4ePath vaddr} else ∅) ∪
    ((if s.entry (pdptePath vaddr) = 0 then {pdptePath vaddr} else ∅) ∪
      if isLargePage (s.entry (pdePath vaddr)) then {pdePath vaddr} else ∅)

/-- 1 when a 2 MiB page has to be split. -/
def splitNeeded (s : PgTables) (vaddr : Nat) : Nat :=
  if isLargePage (s.entry (pdePath vaddr)) then 1 else 0

section Used

variable {s s' : PgTables} {vaddr : Nat} {V : Nat → Prop}

theorem pdePath_ne_upper (a b : Nat) : pdePath a ≠ pml4ePath b ∧ pdePath a ≠ pdptePath b :=
  ⟨fun h => by simpa using congrArg List.length h, fun h => by simpa using congrArg List.length h⟩

theorem card_usedTables (s : PgTables) (vaddr : Nat) :
    (usedTables s vaddr).card = tablesMissing s vaddr + splitNeeded s vaddr := by
  have h₁ := pml4ePath_ne_pdptePath vaddr vaddr
  have h₂ := pdePath_ne_upper vaddr vaddr
  unfold usedTables tablesMissing splitNeeded missing
  split_ifs <;> simp [h₁, h₁.symm, h₂.1.symm, h₂.2.symm]

theorem mem_usedTables {q : List (Fin 512)} :
    q ∈ usedTables s vaddr ↔ q = pml4ePath vaddr ∧ s.entry q = 0 ∨ q = pdptePath vaddr ∧ s.entry q = 0 ∨
      q = pdePath vaddr ∧ isLargePage (s.entry q) = true := by
  have hone : ∀ {c : Prop} [Decidable c] {p : List (Fin 512)},
      q ∈ (if c then {p} else (∅ : Finset (List (Fin 512)))) ↔ c ∧ q = p := by
    intro c _ p
    split_ifs with hc
    · simp [hc]
    · simp [hc]
  rw [usedTables, Finset.mem_union, Finset.mem_union, hone, hone, hone]
  constructor
  · rintro (⟨h, rfl⟩ | ⟨h, rfl⟩ | ⟨h, rfl⟩)
    · exact .inl ⟨rfl, h⟩
    · exact .inr (.inl ⟨rfl, h⟩)
    · exact .inr (.inr ⟨rfl, h⟩)
  · rintro (⟨rfl, h⟩ | ⟨rfl, h⟩ | ⟨rfl, h⟩)
    · exact .inl ⟨h, rfl⟩
    · exact .inr (.inl ⟨h, rfl⟩)
    · exact .inr (.inr ⟨h, rfl⟩)

theorem needsTable_of_used (hv : V vaddr) {q : List (Fin 512)} (hq : q ∈ usedTables s vaddr) :
    NeedsTable s V q := by
  rcases mem_usedTables.1 hq with ⟨rfl, h⟩ | ⟨rfl, h⟩ | ⟨rfl, h⟩
  · exact ⟨vaddr, hv, .inl ⟨.inl rfl, h⟩⟩
  · exact ⟨vaddr, hv, .inl ⟨.inr rfl, h⟩⟩
  · exact ⟨vaddr, hv, .inr ⟨rfl, h⟩⟩

theorem PgTables.Prepared.used_le (h : s.Prepared V) (hv : V vaddr) :
    tablesMissing s vaddr + splitNeeded s vaddr ≤ s.table.length := by
  obtain ⟨F, hcard, hF⟩ := h.tables
  rw [← card_usedTables]
  exact (Finset.card_le_card fun q hq => hF q (needsTable_of_used hv hq)).trans hcard

theorem PgTables.Prepared.ready (h : s.Prepared V) (hv : V vaddr) : s.Ready vaddr := by
  have hused := h.used_le hv
  refine ⟨⟨h.sound, (h.upper _ hv).pml4e, (h.upper _ hv).pdpte, by omega⟩, (h.pde _ hv).opens,
    fun hlarge => ?_⟩
  rw [splitNeeded, if_pos hlarge] at hused
  omega

theorem PgTables.Prepared.pt_ne (h : s.Prepared V) (hv : V vaddr)
    (hzero : s.entry (pdePath vaddr) = 0) : s.pt ≠ [] := by
  obtain ⟨F, hcard, hF⟩ := h.pts
  have hmem : pdePath vaddr ∈ F := hF _ ⟨vaddr, hv, rfl, hzero⟩
  exact List.ne_nil_of_length_pos ((Finset.card_pos.2 ⟨_, hmem⟩).trans_le hcard)

/-- What is left of the frames covers what is left to be made. -/
theorem tables_left {W : Nat → Prop} (hv : V vaddr) (htables : ∃ F : Finset (List (Fin 512)),
      F.card ≤ s.table.length ∧ ∀ q, NeedsTable s V q → q ∈ F)
    (hcount : s.table.length ≤ s'.table.length + (usedTables s vaddr).card)
    (hneeds : ∀ q, NeedsTable s' W q → NeedsTable s V q ∧ q ∉ usedTables s vaddr) :
    ∃ F : Finset (List (Fin 512)), F.card ≤ s'.table.length ∧ ∀ q, NeedsTable s' W q → q ∈ F := by
  obtain ⟨F, hcard, hF⟩ := htables
  refine ⟨F \ usedTables s vaddr, ?_, fun q hq => ?_⟩
  · have hsub : usedTables s vaddr ⊆ F := fun q hq => hF q (needsTable_of_used hv hq)
    rw [Finset.card_sdiff_of_subset hsub]
    omega
  · obtain ⟨hq, hnot⟩ := hneeds q hq
    exact Finset.mem_sdiff.2 ⟨hF q hq, hnot⟩

/-- Where a page directory entry is not 0, the tables above it are there. -/
theorem PgTables.upper_ne_zero (h : s.entry (pdePath vaddr) ≠ 0) :
    s.entry (pml4ePath vaddr) ≠ 0 ∧ s.entry (pdptePath vaddr) ≠ 0 := by
  refine ⟨fun hzero => h ?_, fun hzero => h ?_⟩
  · exact (PgTables.entries_of_pml4e (PgTables.tableOf_zero (by simp) hzero)).2.1
  · exact (PgTables.entries_of_pdpte (PgTables.tableOf_zero (by simp) hzero)).1

/-- What is left to be made once the page directory entry of `vaddr` is there. -/
theorem needsTable_after (hoff : OffRegion s s' vaddr) (hpde : s'.entry (pdePath vaddr) ≠ 0)
    (hleft : ∀ x, V x → pdePath x = pdePath vaddr → ¬ isLargePage (s'.entry (pdePath vaddr)) = true)
    {q : List (Fin 512)} (hq : NeedsTable s' V q) : NeedsTable s V q ∧ q ∉ usedTables s vaddr := by
  obtain ⟨hpml4e, hpdpte⟩ := PgTables.upper_ne_zero hpde
  obtain ⟨x, hx, ⟨hpath, hzero⟩ | ⟨rfl, hlarge⟩⟩ := hq
  · have hshort : ¬ pdePath vaddr <:+ q := not_suffix_of_length (by rcases hpath with rfl | rfl <;> simp)
    have hkept : s'.entry q = s.entry q := (hoff q hshort).resolve_right fun h =>
      h.2.2.ne_zero hzero
    refine ⟨⟨x, hx, .inl ⟨hpath, hkept ▸ hzero⟩⟩, fun hused => ?_⟩
    rcases mem_usedTables.1 hused with ⟨rfl, -⟩ | ⟨rfl, -⟩ | ⟨rfl, -⟩
    · exact hpml4e hzero
    · exact hpdpte hzero
    · rcases hpath with h | h
      · exact (pdePath_ne_upper _ _).1 h
      · exact (pdePath_ne_upper _ _).2 h
  · have hne : pdePath x ≠ pdePath vaddr := fun h => hleft x hx h (h ▸ hlarge)
    have hnot : ¬ pdePath vaddr <:+ pdePath x := fun h => hne (h.eq_of_length (by simp)).symm
    have hkept : s'.entry (pdePath x) = s.entry (pdePath x) := (hoff _ hnot).resolve_right fun h => by
      rcases h.1 with h | h
      · exact (pdePath_ne_upper _ _).1 h
      · exact (pdePath_ne_upper _ _).2 h
    refine ⟨⟨x, hx, .inr ⟨rfl, hkept ▸ hlarge⟩⟩, fun hused => ?_⟩
    rcases mem_usedTables.1 hused with ⟨h, -⟩ | ⟨h, -⟩ | ⟨h, -⟩
    · exact (pdePath_ne_upper _ _).1 h
    · exact (pdePath_ne_upper _ _).2 h
    · exact hne h

/-- Entries above the page directory stay as the code leaves them. -/
theorem OffRegion.openAt (hoff : OffRegion s s' vaddr) {x : Nat} (h : s.OpenAt x) : s'.OpenAt x :=
  h.kept fun _ hq => hoff.kept (not_suffix_of_length (by simpa using hq))

/-- Page directory entries other than the one of `vaddr` are untouched, and so is what is below. -/
theorem OffRegion.entry_eq (hoff : OffRegion s s' vaddr) {q : List (Fin 512)} (hlen : 3 ≤ q.length)
    (hq : ¬ pdePath vaddr <:+ q) : s'.entry q = s.entry q := by
  refine (hoff q hq).resolve_right fun h => ?_
  rcases h.1 with rfl | rfl
  · simp at hlen
  · simp at hlen

/-- Outside the 2 MiB region of `vaddr` all translations stay. -/
theorem OffRegion.translate_eq (hoff : OffRegion s s' vaddr) {x : Nat}
    (hx : virtRegion x ≠ virtRegion vaddr) : translate s' x = translate s x := by
  refine translate_kept (hoff.kept (not_suffix_of_length (by simp))) (hoff.kept fun h => hx ?_)
    (hoff.kept fun h => hx ?_)
  · exact (pdePath_eq_iff.1 (h.eq_of_length (by simp))).symm
  · exact (pdePath_suffix_ptePath.1 h).symm

end Used

/-! ## Mapping one page -/

section Step

variable {s s' : PgTables} {paddr vaddr flag : Nat} {V : Nat → Prop}

theorem map4kPageP2V_count (h : s.Ready vaddr) (hfresh : s.entry (pdePath vaddr) = 0 → s.pt ≠ [])
    (hp : paddr % 0x1000 = 0) (hv : vaddr % 0x1000 = 0) (hf : flag < 0x1000)
    (hrun : map4kPageP2V s paddr vaddr flag = .ok (OK, s')) :
    s'.table.length + (usedTables s vaddr).card = s.table.length := by
  obtain ⟨s₁, hbuild, hs₁, hgrown⟩ := buildPteWithAddr_grown h.way
  have hpde₁ : s₁.entry (pdePath vaddr) = s.entry (pdePath vaddr) := hgrown.entry_pde (by simp)
  have hpt₁ : s₁.pt = s.pt := by rw [hgrown.same]
  have hcount := hgrown.count
  have hready : s₁.PtReady vaddr := by
    refine ⟨fun hlarge => ?_, fun hzero => ?_⟩
    · have := h.split (hpde₁ ▸ hlarge)
      exact List.ne_nil_of_length_pos (by omega)
    · rw [hpt₁]
      exact hfresh (hpde₁ ▸ hzero)
  obtain ⟨s₂, htable, hs₂, htab⟩ := pageTableFor_tabled hs₁
    hgrown.tableOf_pd hgrown.pdpte.frame.lt (hpde₁ ▸ h.pde) hready
  unfold map4kPageP2V at hrun
  rw [assert_bind hp, assert_bind hv, assert_bind (by unfold alignDown; omega),
    buildPteWithAddr_alignDown, hbuild, ok_bind] at hrun
  dsimp only at hrun
  rw [htable, ok_bind] at hrun
  obtain rfl := (Prod.mk.inj (Except.ok.inj hrun)).2
  rw [PgTables.store_P2V _ _ htab.pde.frame.lt, card_usedTables, splitNeeded]
  show s₂.table.length + _ = _
  rw [htab.table_eq, hpde₁]
  by_cases hlarge : isLargePage (s.entry (pdePath vaddr)) = true
  · have hlt := h.split hlarge
    rw [if_pos hlarge, if_pos hlarge, List.length_tail]
    omega
  · rw [if_neg hlarge, if_neg hlarge]
    omega

theorem mapPageP2V_count (h : s.Reachable vaddr) (hp : paddr % 0x200000 = 0)
    (hv : vaddr % 0x200000 = 0) (hf : flag < 0x1000)
    (hrun : mapPageP2V s paddr vaddr flag = .ok (OK, s')) :
    s'.table.length + tablesMissing s vaddr = s.table.length := by
  obtain ⟨s₁, hfirst, hs₁, ho₁⟩ := h.first linkFlags_user "((ulong) p_pdp & 0xfff) == 0"
  obtain ⟨htab₁, hopen₁, hmiss₁⟩ := ho₁.second h.pdpte h.tables
  obtain ⟨s₂, hsecond, hs₂, ho₂⟩ := pageDirectoryFor_opened hs₁ htab₁ ho₁.link.frame.lt (by simp)
    hopen₁ hmiss₁
  have hgrown : Grown s s₂ vaddr := .of_opened ho₁ ho₂
  unfold mapPageP2V at hrun
  rw [assert_bind hv, assert_bind hp, assert_bind (by unfold alignDown; omega), hfirst,
    ok_bind] at hrun
  dsimp only at hrun
  have hsecond' : pageDirectoryFor s₁ (P2V (alignDown 0x1000 (s₁.entry (pml4ePath vaddr))))
      (tableIndex pdpShift vaddr) = _ := hsecond
  rw [hsecond', ok_bind] at hrun
  obtain rfl := (Prod.mk.inj (Except.ok.inj hrun)).2
  rw [← hgrown.count]
  rfl

/-- The page at `vaddr` is mapped to `paddr`, and the others stay as they were; in a page table that is
    new, if its frame was clear. -/
structure PageAt (s s' : PgTables) (paddr vaddr : Nat) : Prop where
  here : ∀ x, virtPage x = virtPage vaddr → translate s' x = some (paddr + x % 0x1000)
  there : ∀ x, virtPage x ≠ virtPage vaddr →
    (virtRegion x = virtRegion vaddr → s.entry (pdePath vaddr) = 0 →
      ∀ n, s.frames (s.pt.headD 0) n = 0) → translate s' x = translate s x

theorem PdeShape.not_zero_or {e : Nat} (h : PdeShape e) :
    e = 0 ∨ IsLink e ∨ isLargePage e = true ∧ e % 0x200000 < 0x1000 ∧ e < 2 ^ 64 := by
  rcases h with (hzero | hlink) | hlarge
  · exact .inl hzero
  · exact .inr (.inl hlink)
  · exact .inr (.inr hlarge)

/-- A neighbour in the region of a page just mapped. -/
theorem Mapped.translate_neighbour {e x : Nat} (hm : Mapped s s' vaddr e) (hopen : s.OpenAt vaddr)
    (hshape : PdeShape (s.entry (pdePath vaddr))) (hregion : virtRegion x = virtRegion vaddr)
    (hpage : virtPage x ≠ virtPage vaddr)
    (hclear : s.entry (pdePath vaddr) = 0 → ∀ n, s.frames (s.pt.headD 0) n = 0) :
    translate s' x = translate s x := by
  have hpde : pdePath x = pdePath vaddr := pdePath_eq_iff.2 hregion
  have hpdpte : pdptePath x = pdptePath vaddr := (List.cons.inj hpde).2
  have hidx : tableIndex pteShift x ≠ tableIndex pteShift vaddr := by
    intro heq
    refine hpage (ptePath_eq_iff.1 ?_)
    rw [ptePath, ptePath, heq, hpde]
  have hpte : s'.entry (ptePath x) = ptContent s vaddr (tableIndex pteShift x) := by
    rw [ptePath, hpde]
    exact hm.pt _ hidx
  have hopen' : s'.OpenAt vaddr := hm.off.openAt hopen
  rw [Yaos.translate_eq, Yaos.translate_eq, hpde, hpdpte, hpte]
  rcases hshape.not_zero_or with hzero | hlink | ⟨hlarge, hbits, hword⟩
  · have hpte₀ : s.entry (ptePath x) = 0 := by
      rw [ptePath, hpde]
      exact PgTables.entry_cons_none (PgTables.tableOf_zero (by simp) hzero) _
    rw [ptContent_zero hzero, hclear hzero, hpte₀, hzero,
      readEntries_none hopen'.pdpte.not_page hm.pde.not_page (by omega),
      readEntries_none hopen.pdpte.not_page (by omega) (by omega)]
  · have hsame : ptContent s vaddr (tableIndex pteShift x) = s.entry (ptePath x) := by
      rw [ptContent_link hlink, ptePath, hpde]
    rw [hsame, hm.kept hlink, readEntries, readEntries, if_neg hopen'.pdpte.not_page,
      if_neg hopen.pdpte.not_page]
  · have hval : ptContent s vaddr (tableIndex pteShift x) =
        alignDown 0x200000 (s.entry (pdePath vaddr)) + x / 0x1000 % 512 * 0x1000 + 0x103 := by
      have hi : (tableIndex pteShift x : Nat) = x / 0x1000 % 512 := rfl
      rw [ptContent_large hlarge, splitEntries_small (by decide), hi]
      show wadd (alignDown 0x1000 _) _ + 0x103 = _
      unfold wadd alignDown
      omega
    rw [hval, readEntries, readEntries, if_neg hopen'.pdpte.not_page, if_neg hopen.pdpte.not_page,
      if_neg hm.pde.not_page, if_pos (by unfold alignDown; omega),
      if_pos (isLargePage_iff.1 hlarge), Option.some.injEq]
    unfold alignDown
    omega

theorem Mapped.pageAt (hm : Mapped s s' vaddr (pteFor paddr flag)) (hopen : s.OpenAt vaddr)
    (hshape : PdeShape (s.entry (pdePath vaddr))) (hp : paddr % 0x1000 = 0) (hf : flag < 0x1000)
    (hpres : Present flag) : PageAt s s' paddr vaddr where
  here x hx := by
    have hpte : ptePath x = ptePath vaddr := ptePath_eq_iff.2 hx
    have hpde : pdePath x = pdePath vaddr := (List.cons.inj hpte).2
    have hpdpte : pdptePath x = pdptePath vaddr := (List.cons.inj hpde).2
    rw [Yaos.translate_eq, hpte, hpde, hpdpte, hm.pte, readEntries,
      if_neg (hm.off.openAt hopen).pdpte.not_page, if_neg hm.pde.not_page,
      if_pos (pteFor_present hp hf hpres), alignDown_pteFor hp hf]
  there x hpage hclear := by
    by_cases hregion : virtRegion x = virtRegion vaddr
    · exact hm.translate_neighbour hopen hshape hregion hpage (hclear hregion)
    · exact hm.off.translate_eq hregion

/-- One 4 KiB page. -/
theorem PgTables.Prepared.map4k (h : s.Prepared V) (hV : V vaddr) (hp : paddr % 0x1000 = 0)
    (hv : vaddr % 0x1000 = 0) (hf : flag < 0x1000) :
    ∃ s', map4kPageP2V s paddr vaddr flag = .ok (OK, s') ∧ s'.Prepared V ∧
      Mapped s s' vaddr (pteFor paddr flag) := by
  obtain ⟨s', hrun, hsound, hm⟩ := map4kPageP2V_mapped (h.ready hV) (h.pt_ne hV) hp hv hf
  have hcount := map4kPageP2V_count (h.ready hV) (h.pt_ne hV) hp hv hf hrun
  refine ⟨s', hrun, ⟨hsound, fun x hx => hm.off.openAt (h.upper x hx), fun x hx => ?_, ?_, ?_⟩, hm⟩
  · by_cases hx' : pdePath x = pdePath vaddr
    · rw [hx']
      exact .inl (.inr hm.pde)
    · rw [hm.off.pde hx']
      exact h.pde x hx
  · exact tables_left hV h.tables hcount.ge fun q hq => needsTable_after hm.off hm.pde.ne_zero
      (fun _ _ _ => hm.pde.not_largePage) hq
  · obtain ⟨F, hcard, hF⟩ := h.pts
    have hkeep : ∀ q, NeedsPt s' V q → NeedsPt s V q ∧ q ≠ pdePath vaddr := by
      rintro q ⟨x, hx, rfl, hzero⟩
      have hne : pdePath x ≠ pdePath vaddr := fun he => hm.pde.ne_zero (he ▸ hzero)
      exact ⟨⟨x, hx, rfl, hm.off.pde hne ▸ hzero⟩, hne⟩
    by_cases hzero : s.entry (pdePath vaddr) = 0
    · refine ⟨F.erase (pdePath vaddr), ?_, fun q hq => ?_⟩
      · rw [hm.pt_eq, if_pos hzero, List.length_tail,
          Finset.card_erase_of_mem (hF _ ⟨vaddr, hV, rfl, hzero⟩)]
        omega
      · exact Finset.mem_erase.2 ⟨(hkeep q hq).2, hF q (hkeep q hq).1⟩
    · refine ⟨F, ?_, fun q hq => hF q (hkeep q hq).1⟩
      rwa [hm.pt_eq, if_neg hzero]

/-- The 2 MiB region of `vaddr` is mapped to `paddr`, and the others stay as they were. -/
structure RegionAt (s s' : PgTables) (paddr vaddr : Nat) : Prop where
  here : ∀ x, virtRegion x = virtRegion vaddr → translate s' x = some (paddr + x % 0x200000)
  there : ∀ x, virtRegion x ≠ virtRegion vaddr → translate s' x = translate s x

theorem PageMapped.regionAt (hm : PageMapped s s' vaddr (paddr ||| flag)) (hopen : s.OpenAt vaddr)
    (hp : paddr % 0x200000 = 0) (hf : flag < 0x1000) (hpres : Present flag) (hlarge : Large flag) :
    RegionAt s s' paddr vaddr where
  here x hx := by
    obtain ⟨hpage, hdown⟩ := isLargePage_or hp hf hpres hlarge
    have hpde : pdePath x = pdePath vaddr := pdePath_eq_iff.2 hx
    have hpdpte : pdptePath x = pdptePath vaddr := (List.cons.inj hpde).2
    rw [Yaos.translate_eq, hpde, hpdpte, hm.pde, readEntries,
      if_neg (hm.off.openAt hopen).pdpte.not_page, if_pos (isLargePage_iff.1 hpage), hdown]
  there x hx := hm.off.translate_eq hx

theorem pgLink_large (hp : paddr % 0x200000 = 0) (hf : flag < 0x1000) (hpres : Present flag)
    (hlarge : Large flag) : pgLink 2 (paddr ||| flag) = none := by
  rw [pgLink, if_neg]
  exact fun h => h.2.2 (isLargePage_iff.1 (isLargePage_or hp hf hpres hlarge).1).2

/-- One 2 MiB page; its region is then out of use for 4 KiB pages. -/
theorem PgTables.Prepared.map2M (h : s.Prepared V) (hV : V vaddr) (hp : paddr % 0x200000 = 0)
    (hv : vaddr % 0x200000 = 0) (hf : flag < 0x1000) (hpres : Present flag) (hlarge : Large flag) :
    ∃ s', mapPageP2V s paddr vaddr flag = .ok (OK, s') ∧
      s'.Prepared (fun x => V x ∧ virtRegion x ≠ virtRegion vaddr) ∧
      PageMapped s s' vaddr (paddr ||| flag) := by
  have hready := h.ready hV
  obtain ⟨s', hrun, hsound, hm⟩ := mapPageP2V_mapped hready.way hp hv hf (pgLink_large hp hf hpres hlarge)
  have hcount := mapPageP2V_count hready.way hp hv hf hrun
  have hpage := (isLargePage_or hp hf hpres hlarge).1
  have hpde : s'.entry (pdePath vaddr) ≠ 0 := fun hzero => by
    rw [hm.pde] at hzero
    exact isLargePage_zero (hzero ▸ hpage)
  have hother : ∀ x, virtRegion x ≠ virtRegion vaddr →
      s'.entry (pdePath x) = s.entry (pdePath x) := fun x hx => hm.off.pde fun hp => hx (pdePath_eq_iff.1 hp)
  refine ⟨s', hrun, ⟨hsound, fun x hx => hm.off.openAt (h.upper x hx.1), ?_, ?_, ?_⟩, hm⟩
  · rintro x ⟨hx, hregion⟩
    rw [hother x hregion]
    exact h.pde x hx
  · refine tables_left hV h.tables (by rw [card_usedTables]; omega) ?_
    rintro q hq
    obtain ⟨⟨x, hx, hneeds⟩, hused⟩ := needsTable_after hm.off hpde
      (fun x hx hp => absurd (pdePath_eq_iff.1 hp) hx.2) hq
    exact ⟨⟨x, hx.1, hneeds⟩, hused⟩
  · obtain ⟨F, hcard, hF⟩ := h.pts
    have hpt : s'.pt = s.pt := by rw [hm.same]
    refine ⟨F, hpt ▸ hcard, ?_⟩
    rintro q ⟨x, ⟨hx, hregion⟩, rfl, hzero⟩
    exact hF _ ⟨x, hx, rfl, hother x hregion ▸ hzero⟩

/-- Page table frames that are clear stay so until they are used. -/
theorem Mapped.zeroed {e : Nat} (hm : Mapped s s' vaddr e) (h : ∀ f ∈ s.pt, ∀ n, s.frames f n = 0) :
    ∀ f ∈ s'.pt, ∀ n, s'.frames f n = 0 := by
  intro f hf n
  rw [hm.frames f hf]
  refine h f ?_ n
  rw [hm.pt_eq] at hf
  split at hf
  · exact List.mem_of_mem_tail hf
  · exact hf

theorem PageMapped.zeroed {e : Nat} (hm : PageMapped s s' vaddr e)
    (h : ∀ f ∈ s.pt, ∀ n, s.frames f n = 0) : ∀ f ∈ s'.pt, ∀ n, s'.frames f n = 0 := by
  have hpt : s'.pt = s.pt := by rw [hm.same]
  intro f hf n
  rw [hpt] at hf
  rw [hm.frames f hf]
  exact h f hf n

end Step

/-- In an empty space, two frames are enough for the tables above 1 GiB, and one for each region below. -/
theorem emptySpace_prepared {data pt table large : List Nat} {V : Nat → Prop} {v : Nat}
    (hsound : (emptySpace data pt table large).Sound) (htable : 2 ≤ table.length)
    (regions : Finset (List (Fin 512))) (hcard : regions.card ≤ pt.length)
    (hV : ∀ x, V x → pdptePath x = pdptePath v ∧ pdePath x ∈ regions) :
    (emptySpace data pt table large).Prepared V where
  sound := hsound
  upper x _ := ⟨.inl (emptySpace_entry ..), .inl (emptySpace_entry ..)⟩
  pde x _ := by
    rw [emptySpace_entry]
    exact .zero
  tables := by
    refine ⟨{pml4ePath v, pdptePath v}, Finset.card_le_two.trans htable, ?_⟩
    rintro q ⟨x, hx, ⟨hq, -⟩ | ⟨-, hlarge⟩⟩
    · have hpdpte := (hV x hx).1
      have hpml4e : pml4ePath x = pml4ePath v := (List.cons.inj hpdpte).2
      rw [hpdpte, hpml4e] at hq
      simpa using hq
    · rw [emptySpace_entry] at hlarge
      exact absurd hlarge isLargePage_zero
  pts := by
    refine ⟨regions, hcard, ?_⟩
    rintro q ⟨x, hx, rfl, -⟩
    exact (hV x hx).2

/-- The three frames of `onePage` are enough for pages of one region. -/
theorem onePage_prepared {V : Nat → Prop} {v : Nat} (a : Nat) (hV : ∀ x, V x → virtRegion x = virtRegion v) :
    (onePage a).Prepared V :=
  emptySpace_prepared (onePage_sound a) le_rfl {pdePath v} le_rfl fun x hx => by
    have hpde := pdePath_eq_iff.2 (hV x hx)
    exact ⟨(List.cons.inj hpde).2, Finset.mem_singleton.2 hpde⟩

/-- Behind a 2 MiB page, one frame is enough for the page table that splits it. -/
theorem PageMapped.prepared {s s' : PgTables} {vaddr e : Nat} (hm : PageMapped s s' vaddr e)
    (hsound : s'.Sound) (hopen : s.OpenAt vaddr) (hshape : PdeShape e) (hlarge : isLargePage e = true)
    (htable : s'.table ≠ []) : s'.Prepared fun x => virtRegion x = virtRegion vaddr := by
  have hpde : ∀ x, virtRegion x = virtRegion vaddr → s'.entry (pdePath x) = e := fun x hx => by
    rw [pdePath_eq_iff.2 hx, hm.pde]
  have he : e ≠ 0 := fun h => isLargePage_zero (h ▸ hlarge)
  refine ⟨hsound, fun x hx => ?_, fun x hx => by rwa [hpde x hx], ?_, ?_⟩
  · have hpdpte : pdptePath x = pdptePath vaddr := (List.cons.inj (pdePath_eq_iff.2 hx)).2
    obtain ⟨hpml4e, hpdpte'⟩ := hm.off.openAt hopen
    constructor
    · rwa [(List.cons.inj hpdpte).2]
    · rwa [hpdpte]
  · refine ⟨{pdePath vaddr}, List.length_pos_iff.2 htable, ?_⟩
    rintro q ⟨x, hx, ⟨hq, hzero⟩ | ⟨rfl, -⟩⟩
    · have hupper := s'.upper_ne_zero (hpde x hx ▸ he)
      rcases hq with rfl | rfl
      · exact absurd hzero hupper.1
      · exact absurd hzero hupper.2
    · exact Finset.mem_singleton.2 (pdePath_eq_iff.2 hx)
  · refine ⟨∅, Nat.zero_le _, ?_⟩
    rintro q ⟨x, hx, rfl, hzero⟩
    exact absurd (hpde x hx ▸ hzero) he

end Yaos
