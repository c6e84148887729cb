import Yaos.PageTable.Pages
import Yaos.PageTable.SoftWalk

set_option autoImplicit false

/-! # Copying a mapping (`map_copy_map`)

The loop reads the mapping of one page with `map_paddr_flags_at` and writes it with `map_4k_page_p2v`, on
the same tables. A write may make tables and may split a 2 MiB page that covers pages still to be read;
neither changes a translation besides the one written, so the pages still to be read are as they were
(`copyPages_copies`).

The end of the old range is computed as `oldaddr + size`. Where this is 2^64 it wraps to 0 and nothing is
copied; where it lies in the last page below 2^64, `oldaddr` wraps before it gets there and the loop does
not end with `OK`. -/

namespace Yaos

open Word TableTree

/-- The new range is mapped as the old one was, and the old one still is. -/
structure Duplicated (s s' : PgTables) (vaddr oldaddr size : Nat) : Prop where
  copy : ∀ i < 0x1000 * pagesIn size, translate s' (vaddr + i) = translate s (oldaddr + i)
  old : ∀ i < 0x1000 * pagesIn size, translate s' (oldaddr + i) = translate s (oldaddr + i)

/-- `map_copy_map` ends with `OK` and does what it is for. -/
def CopiesMap (s : PgTables) (vaddr oldaddr size : Nat) : Prop :=
  ∃ fuel s', mapCopyMap fuel s vaddr oldaddr size = .ok (OK, s') ∧ Duplicated s s' vaddr oldaddr size

/-- A page mapped with 4 KiB or 2 MiB, to a frame other than frame 0. -/
structure PgTables.SourcePage (s : PgTables) (x : Nat) : Prop where
  opens : s.OpenAt x
  shape : PdeShape (s.entry (pdePath x))
  mapped : ∃ a, translate s x = some a ∧ 0x1000 ≤ a ∧ a < 2 ^ 64

/-- A page is among the `n` from `vaddr` on. -/
def AmongPages (vaddr n x : Nat) : Prop := ∃ i < n, virtPage x = virtPage (vaddr + 0x1000 * i)

/-- What the loop needs for the `n` pages it has still to copy. -/
structure PgTables.CopyReady (s : PgTables) (vaddr oldaddr n : Nat) : Prop where
  prepared : s.Prepared (AmongPages vaddr n)
  source : ∀ i < n, s.SourcePage (oldaddr + 0x1000 * i)
  /-- The ranges are disjoint, as the processor sees addresses. -/
  apart : ∀ i < n, ∀ j < n, virtPage (vaddr + 0x1000 * i) ≠ virtPage (oldaddr + 0x1000 * j)

section Source

variable {s s' : PgTables} {x a vaddr : Nat}

theorem PgTables.SourcePage.pde_ne (h : s.SourcePage x) : s.entry (pdePath x) ≠ 0 := by
  obtain ⟨a, htr, -⟩ := h.mapped
  exact pde_ne_of_translate h.opens htr

/-- Pages to be copied stay what they are while others are mapped. -/
theorem PgTables.SourcePage.kept {e : Nat} (h : s.SourcePage x) (hm : Mapped s s' vaddr e)
    (htr : translate s' x = translate s x) : s'.SourcePage x := by
  refine ⟨hm.off.openAt h.opens, ?_, by rw [htr]; exact h.mapped⟩
  by_cases hx : pdePath x = pdePath vaddr
  · rw [hx]
    exact .link hm.pde
  · rw [hm.off.pde hx]
    exact h.shape

theorem PgTables.SourcePage.congr {y : Nat} (h : s.SourcePage x) (hxy : x % 2 ^ 48 = y % 2 ^ 48) :
    s.SourcePage y := by
  refine ⟨⟨?_, ?_⟩, ?_, ?_⟩
  · exact pml4ePath_congr hxy ▸ h.opens.pml4e
  · exact pdptePath_congr hxy ▸ h.opens.pdpte
  · exact pdePath_congr hxy ▸ h.shape
  · exact translate_mod48 s hxy ▸ h.mapped

theorem translate_aligned (hx : x % 0x1000 = 0) (htr : translate s x = some a) : a % 0x1000 = 0 := by
  rw [translate_eq, readEntries] at htr
  unfold alignDown at htr
  split_ifs at htr <;> simp only [Option.some.injEq] at htr <;> omega

/-- The addresses in one page are mapped together. -/
theorem translate_offset {r : Nat} (hx : x % 0x1000 = 0) (hr : r < 0x1000) (htr : translate s x = some a) :
    translate s (x + r) = some (a + r) := by
  have hpte : ptePath (x + r) = ptePath x := by
    rw [ptePath_eq_iff]
    unfold virtPage
    omega
  have hpde : pdePath (x + r) = pdePath x := (List.cons.inj hpte).2
  have hpdpte : pdptePath (x + r) = pdptePath x := (List.cons.inj hpde).2
  rw [translate_eq, readEntries] at htr ⊢
  rw [hpdpte, hpde, hpte]
  unfold alignDown at htr ⊢
  split_ifs at htr ⊢ <;> simp only [Option.some.injEq] at htr ⊢ <;> omega

theorem wadd_page_mod48 (v n i : Nat) :
    (v + 0x1000 * (n + i)) % 2 ^ 48 = (wadd v (0x1000 * n) + 0x1000 * i) % 2 ^ 48 := by
  unfold wadd
  omega

theorem virtPage_wadd (v n i : Nat) :
    virtPage (wadd v (0x1000 * n) + 0x1000 * i) = virtPage (v + 0x1000 * (n + i)) := by
  unfold virtPage wadd
  omega

end Source

/-! ## The loop -/

section Loop

variable {s s' : PgTables} {vaddr oldaddr n : Nat}

/-- The `n` pages from `vaddr` on are mapped as those from `oldaddr` on were, and nothing else that was
    mapped has changed. -/
structure PagesCopied (s s' : PgTables) (vaddr oldaddr n : Nat) : Prop where
  copy : ∀ i < n, ∀ x, virtPage x = virtPage (vaddr + 0x1000 * i) →
    ∃ a, translate s (oldaddr + 0x1000 * i) = some a ∧ translate s' x = some (a + x % 0x1000)
  opened : ∀ x, AmongPages vaddr n x → s'.entry (pdePath x) ≠ 0
  frame : ∀ x, ¬ AmongPages vaddr n x → s.entry (pdePath x) ≠ 0 →
    translate s' x = translate s x ∧ s'.entry (pdePath x) ≠ 0

theorem PagesCopied.refl (s : PgTables) (vaddr oldaddr : Nat) : PagesCopied s s vaddr oldaddr 0 where
  copy := fun i hi => absurd hi (Nat.not_lt_zero i)
  opened := fun _ ⟨i, hi, _⟩ => absurd hi (Nat.not_lt_zero i)
  frame := fun _ _ h => ⟨rfl, h⟩

/-- With pages apart, no two of the new ones are the same. -/
theorem PgTables.CopyReady.distinct (h : s.CopyReady vaddr oldaddr n) {i j : Nat} (hi : i < n) (hj : j < n)
    (heq : virtPage (vaddr + 0x1000 * i) = virtPage (vaddr + 0x1000 * j)) : i = j := by
  have hn : n ≤ 2 ^ 36 := by
    -- more pages would cover the old ones too
    by_contra hmany
    have hk : ((oldaddr / 0x1000 % 2 ^ 36) + 2 ^ 36 - vaddr / 0x1000 % 2 ^ 36) % 2 ^ 36 < n := by omega
    refine h.apart _ hk 0 (by omega) ?_
    unfold virtPage
    omega
  unfold virtPage at heq
  omega

/-- One page is copied; the rest is still to be. -/
theorem PgTables.CopyReady.step (h : s.CopyReady vaddr oldaddr (n + 1)) (hv : vaddr % 0x1000 = 0)
    (ho : oldaddr % 0x1000 = 0) :
    (mapPaddrFlagsAt s oldaddr).1 ≠ 0 ∧
      ∃ s₁, map4kPageP2V s (mapPaddrFlagsAt s oldaddr).1 vaddr (mapPaddrFlagsAt s oldaddr).2 =
          .ok (OK, s₁) ∧
        PagesCopied s s₁ vaddr oldaddr 1 ∧ s₁.CopyReady (wadd vaddr 0x1000) (wadd oldaddr 0x1000) n := by
  have hsource : s.SourcePage oldaddr := h.source 0 (Nat.succ_pos n)
  have hhere : AmongPages vaddr (n + 1) vaddr := ⟨0, Nat.succ_pos n, rfl⟩
  obtain ⟨a, htr, hlow, hword⟩ := hsource.mapped
  obtain ⟨hval, hflag, hpres⟩ := mapPaddrFlagsAt_mapped h.prepared.sound hsource.opens hsource.shape htr hword
  have halign := translate_aligned ho htr
  rw [hval]
  obtain ⟨s₁, hrun, hprep, hm⟩ := h.prepared.map4k hhere halign hv hflag
  have hat := hm.pageAt (h.prepared.upper _ hhere) (h.prepared.pde _ hhere) halign hflag hpres
  have hkept : ∀ x, ¬ AmongPages vaddr 1 x → s.entry (pdePath x) ≠ 0 →
      translate s₁ x = translate s x ∧ s₁.entry (pdePath x) ≠ 0 := by
    intro x hx hpde
    refine ⟨hat.there x (fun hp => hx ⟨0, Nat.one_pos, hp⟩) fun hregion hzero => ?_, ?_⟩
    · exact absurd hzero (pdePath_eq_iff.2 hregion ▸ hpde)
    · by_cases hp : pdePath x = pdePath vaddr
      · rw [hp]
        exact hm.pde.ne_zero
      · rwa [hm.off.pde hp]
  refine ⟨by omega, s₁, hrun, ⟨?_, ?_, hkept⟩, ?_, ?_, ?_⟩
  · rintro i hi x hx
    obtain rfl : i = 0 := by omega
    exact ⟨a, htr, hat.here x hx⟩
  · rintro x ⟨i, hi, hx⟩
    obtain rfl : i = 0 := by omega
    rw [pdePath_eq_iff.2 (virtRegion_eq_of_virtPage hx)]
    exact hm.pde.ne_zero
  · refine hprep.mono ?_
    rintro x ⟨i, hi, hx⟩
    exact ⟨1 + i, by omega, hx.trans (virtPage_wadd vaddr 1 i)⟩
  · intro i hi
    refine PgTables.SourcePage.congr ?_ (wadd_page_mod48 oldaddr 1 i)
    have hsource := h.source (1 + i) (by omega)
    refine hsource.kept hm (hkept _ ?_ hsource.pde_ne).1
    rintro ⟨j, hj, heq⟩
    exact h.apart j (by omega) (1 + i) (by omega) heq.symm
  · intro i hi j hj
    rw [virtPage_wadd vaddr 1 i, virtPage_wadd oldaddr 1 j]
    exact h.apart _ (by omega) _ (by omega)

theorem amongPages_succ {x : Nat} (h : AmongPages vaddr (n + 1) x) :
    AmongPages vaddr 1 x ∨ AmongPages (wadd vaddr 0x1000) n x := by
  obtain ⟨i, hi, hx⟩ := h
  rcases i.eq_zero_or_pos with rfl | hpos
  · exact .inl ⟨0, Nat.one_pos, hx⟩
  · refine .inr ⟨i - 1, by omega, hx.trans ?_⟩
    rw [virtPage_wadd vaddr 1, Nat.add_sub_cancel' hpos]

theorem amongPages_rest {x : Nat} (h : AmongPages (wadd vaddr 0x1000) n x) :
    AmongPages vaddr (n + 1) x := by
  obtain ⟨i, hi, hx⟩ := h
  exact ⟨1 + i, by omega, hx.trans (virtPage_wadd vaddr 1 i)⟩

/-- One page, then the rest. -/
theorem PagesCopied.cons {s₁ : PgTables} (hready : s.CopyReady vaddr oldaddr (n + 1))
    (h₁ : PagesCopied s s₁ vaddr oldaddr 1)
    (h₂ : PagesCopied s₁ s' (wadd vaddr 0x1000) (wadd oldaddr 0x1000) n) :
    PagesCopied s s' vaddr oldaddr (n + 1) where
  copy i hi x hx := by
    rcases i.eq_zero_or_pos with rfl | hpos
    · obtain ⟨a, hold, hnew⟩ := h₁.copy 0 Nat.one_pos x hx
      refine ⟨a, hold, (h₂.frame x ?_ (h₁.opened x ⟨0, Nat.one_pos, hx⟩)).1.trans hnew⟩
      rintro ⟨j, hj, hj'⟩
      have := hready.distinct (Nat.succ_pos n) (by omega : 1 + j < n + 1)
        (hx.symm.trans (hj'.trans (virtPage_wadd vaddr 1 j)))
      omega
    · obtain ⟨j, rfl⟩ : ∃ j, i = 1 + j := ⟨i - 1, by omega⟩
      obtain ⟨a, hold, hnew⟩ := h₂.copy j (by omega) x (hx.trans (virtPage_wadd vaddr 1 j).symm)
      refine ⟨a, ?_, hnew⟩
      rw [← hold, ← translate_mod48 s₁ (wadd_page_mod48 oldaddr 1 j)]
      refine (h₁.frame _ ?_ (hready.source _ hi).pde_ne).1.symm
      rintro ⟨k, hk, heq⟩
      exact hready.apart k (by omega) _ hi heq.symm
  opened x hx := by
    by_cases hrest : AmongPages (wadd vaddr 0x1000) n x
    · exact h₂.opened x hrest
    · exact (h₂.frame x hrest (h₁.opened x ((amongPages_succ hx).resolve_right hrest))).2
  frame x hx hpde := by
    have hfirst : ¬ AmongPages vaddr 1 x := fun ⟨i, hi, h⟩ => hx ⟨i, by omega, h⟩
    obtain ⟨htr₁, hpde₁⟩ := h₁.frame x hfirst hpde
    obtain ⟨htr₂, hpde₂⟩ := h₂.frame x (fun h => hx (amongPages_rest h)) hpde₁
    exact ⟨htr₂.trans htr₁, hpde₂⟩

/-- The loop over `n` pages whose end does not wrap. -/
theorem copyPages_copies {vend fuel : Nat} (h : s.CopyReady vaddr oldaddr n) (hv : vaddr % 0x1000 = 0)
    (ho : oldaddr % 0x1000 = 0) (hend : vend ≤ oldaddr + 0x1000 * n)
    (hlast : oldaddr + 0x1000 * n < vend + 0x1000) (hword : oldaddr + 0x1000 * n < 2 ^ 64)
    (hfuel : n < fuel) :
    ∃ s', copyPages vend fuel s vaddr oldaddr = .ok (OK, s') ∧ PagesCopied s s' vaddr oldaddr n := by
  induction n generalizing s vaddr oldaddr fuel with
  | zero =>
    obtain ⟨fuel, rfl⟩ : ∃ k, fuel = k + 1 := ⟨fuel - 1, by omega⟩
    refine ⟨s, ?_, .refl s vaddr oldaddr⟩
    rw [copyPages, if_neg (by omega)]
  | succ n ih =>
    obtain ⟨fuel, rfl⟩ : ∃ k, fuel = k + 1 := ⟨fuel - 1, by omega⟩
    have hlt : oldaddr + 0x1000 < 2 ^ 64 := lt_of_le_of_lt (by omega) hword
    have hnext : wadd oldaddr 0x1000 = oldaddr + 0x1000 := wadd_eq hlt
    obtain ⟨hval, s₁, hrun, hfirst, hrest⟩ := h.step hv ho
    have hv' : wadd vaddr 0x1000 % 0x1000 = 0 := by unfold wadd; omega
    obtain ⟨s', hloop, hcopied⟩ := ih hrest hv' (by rw [hnext]; omega) (by rw [hnext]; omega)
      (by rw [hnext]; omega) (by rw [hnext]; omega) (Nat.lt_of_succ_lt_succ hfuel)
    refine ⟨s', ?_, hfirst.cons h hcopied⟩
    rw [copyPages, if_pos (by omega)]
    dsimp only
    rw [if_neg hval, hrun, ok_bind]
    dsimp only
    rw [if_neg (by decide), hloop]

/-- An end in the last page is never reached: `oldaddr` goes round. -/
theorem copyPages_wraps {vend fuel ret : Nat} (hend : 2 ^ 64 - 0x1000 < vend)
    (ho : oldaddr % 0x1000 = 0) (hword : oldaddr < 2 ^ 64)
    (hrun : copyPages vend fuel s vaddr oldaddr = .ok (ret, s')) : ret ≠ OK := by
  induction fuel generalizing s vaddr oldaddr with
  | zero => cases hrun
  | succ fuel ih =>
    rw [copyPages, if_pos (by omega)] at hrun
    dsimp only at hrun
    split at hrun
    case isTrue =>
      cases hrun
      decide
    case isFalse =>
      obtain ⟨⟨ret₁, s₁⟩, -, hrun⟩ := bind_eq_ok.1 hrun
      dsimp only at hrun
      split at hrun
      case isTrue =>
        cases hrun
        decide
      case isFalse => exact ih (by unfold wadd; omega) (by unfold wadd; omega) hrun

/-- Where the end is 2^64, the loop does not start. -/
theorem mapCopyMap_zero_end {fuel size ret : Nat} (hsize : size ≠ 0) (hend : oldaddr + size = 2 ^ 64)
    (hrun : mapCopyMap fuel s vaddr oldaddr size = .ok (ret, s')) : s' = s := by
  have hzero : wadd oldaddr size = 0 := by rw [wadd, hend, Nat.mod_self]
  rw [mapCopyMap, if_neg hsize, hzero] at hrun
  cases fuel with
  | zero => cases hrun
  | succ fuel =>
    rw [copyPages, if_neg (Nat.not_lt_zero _)] at hrun
    cases hrun
    rfl

end Loop

/-! ## The result -/

section Result

variable {s : PgTables} {vaddr oldaddr size : Nat}

/-- **`map_copy_map` duplicates a mapping, short of the last page.** Let the pages of the old range be
    mapped with 4 KiB or 2 MiB to frames other than frame 0, let the two ranges be disjoint and the tables
    for the new one be at hand. Then the new range ends up mapped as the old one, which stays as it was, if
    and only if the old range ends below the last page of the address space, or ends with it and the new
    range was mapped that way already. -/
theorem mapCopyMap_copies_iff (h : s.CopyReady vaddr oldaddr (pagesIn size)) (hv : vaddr % 0x1000 = 0)
    (ho : oldaddr % 0x1000 = 0) (hsize : 0 < size) (hrange : oldaddr + size ≤ 2 ^ 64) :
    CopiesMap s vaddr oldaddr size ↔
      oldaddr + size ≤ 2 ^ 64 - 0x1000 ∨
        oldaddr + size = 2 ^ 64 ∧
          ∀ i < 0x1000 * pagesIn size, translate s (vaddr + i) = translate s (oldaddr + i) := by
  have hn : size ≤ 0x1000 * pagesIn size ∧ 0x1000 * pagesIn size < size + 0x1000 := by
    unfold pagesIn
    omega
  constructor
  · rintro ⟨fuel, s', hrun, hdup⟩
    by_cases hend : oldaddr + size = 2 ^ 64
    · obtain rfl := mapCopyMap_zero_end (by omega) hend hrun
      exact .inr ⟨hend, hdup.copy⟩
    · by_contra hlow
      have hlast : 2 ^ 64 - 0x1000 < oldaddr + size := by omega
      rw [mapCopyMap, if_neg (by omega), wadd_eq (by omega)] at hrun
      exact copyPages_wraps hlast ho (by omega) hrun rfl
  · rintro (hlow | ⟨hend, hsame⟩)
    · obtain ⟨s', hrun, hcopied⟩ : ∃ s', copyPages (oldaddr + size) (pagesIn size + 1) s vaddr oldaddr =
          .ok (OK, s') ∧ PagesCopied s s' vaddr oldaddr (pagesIn size) :=
        copyPages_copies h hv ho (by omega) (by omega) (by omega) (Nat.lt_succ_self _)
      refine ⟨pagesIn size + 1, s', ?_, ?_, ?_⟩
      · rw [mapCopyMap, if_neg (by omega), wadd_eq (by omega), hrun]
      · intro i hi
        obtain ⟨a, hold, hnew⟩ := hcopied.copy (i / 0x1000) (by omega) (vaddr + i)
          (by unfold virtPage; omega)
        have hsplit : oldaddr + i = oldaddr + 0x1000 * (i / 0x1000) + i % 0x1000 := by omega
        rw [hnew, hsplit, translate_offset (by omega) (Nat.mod_lt _ (by decide)) hold,
          show (vaddr + i) % 0x1000 = i % 0x1000 by omega]
      · intro i hi
        have hpage : virtPage (oldaddr + i) = virtPage (oldaddr + 0x1000 * (i / 0x1000)) := by
          unfold virtPage
          omega
        refine (hcopied.frame _ ?_ ?_).1
        · rintro ⟨j, hj, heq⟩
          exact h.apart j hj (i / 0x1000) (by omega) (heq.symm.trans hpage)
        · rw [pdePath_eq_iff.2 (virtRegion_eq_of_virtPage hpage)]
          exact (h.source _ (by omega)).pde_ne
    · refine ⟨1, s, ?_, hsame, fun _ _ => rfl⟩
      rw [mapCopyMap, if_neg (by omega), copyPages, if_neg]
      rw [wadd, hend, Nat.mod_self]
      exact Nat.not_lt_zero _

end Result

section Tests

variable {v w : Nat}

/-- One page is mapped, and another one of its region is to be. -/
theorem onePage_copyReady (hv : v % 0x1000 = 0) (hregion : virtRegion w = virtRegion v)
    (hpage : virtPage w ≠ virtPage v) :
    ∃ s, map4kPageP2V (onePage 0x5000) 0x6000 v 0x3 = .ok (OK, s) ∧ s.CopyReady w v 1 ∧
      translate s v = some 0x6000 ∧ translate s w = none := by
  have hready : (onePage 0x5000).Prepared fun x => x = v ∨ AmongPages w 1 x := by
    refine onePage_prepared (v := v) 0x5000 ?_
    rintro x (rfl | ⟨i, hi, hx⟩)
    · rfl
    · obtain rfl : i = 0 := by omega
      exact (virtRegion_eq_of_virtPage hx).trans hregion
  have hopen := hready.upper v (.inl rfl)
  obtain ⟨s, hrun, hprep, hm⟩ : ∃ s, map4kPageP2V (onePage 0x5000) 0x6000 v 0x3 = .ok (OK, s) ∧
      s.Prepared _ ∧ Mapped (onePage 0x5000) s v (pteFor 0x6000 0x3) :=
    hready.map4k (.inl rfl) (by decide) hv (by decide)
  have hat := hm.pageAt hopen (hready.pde v (.inl rfl)) (by decide) (by decide) (by decide)
  have htr : translate s v = some 0x6000 := by
    rw [hat.here v rfl, hv]
  refine ⟨s, hrun, ⟨hprep.mono fun x hx => .inr hx, fun i hi => ?_, fun i hi j hj => ?_⟩, htr, ?_⟩
  · obtain rfl : i = 0 := by omega
    exact ⟨hm.off.openAt hopen, .link hm.pde, 0x6000, htr, by decide, by decide⟩
  · obtain ⟨rfl, rfl⟩ : i = 0 ∧ j = 0 := by omega
    exact hpage
  · exact (hat.there w hpage fun _ _ _ => rfl).trans (onePage_unmapped 0x5000 w)

/-- An empty space with frames for the tables below, and one to split a 2 MiB page. -/
def splitSpace : PgTables := emptySpace [] [0x4000, 0x5000] [0x2000, 0x3000, 0x6000] []

theorem splitSpace_prepared : splitSpace.Prepared fun x => virtRegion x = 1 ∨ virtRegion x = 2 := by
  refine emptySpace_prepared (v := 0) (emptySpace_sound (by decide) (by decide)) (by decide)
    {pdePath 0x200000, pdePath 0x400000} Finset.card_le_two fun x hx => ⟨?_, ?_⟩
  · rw [pdptePath_eq_iff]
    unfold virtRegion at hx
    omega
  · simp only [Finset.mem_insert, Finset.mem_singleton, pdePath_eq_iff]
    exact hx

/-- A 4 KiB page is mapped and a 2 MiB page before it. Three pages that end with the 4 KiB page are to be
    copied into the 2 MiB page. -/
theorem splitSpace_copyReady :
    ∃ s₁ s₂, map4kPageP2V splitSpace 0x7000 0x400000 0x3 = .ok (OK, s₁) ∧
      mapPageP2V s₁ 0x800000 0x200000 0x83 = .ok (OK, s₂) ∧ s₂.CopyReady 0x201000 0x3fe000 3 := by
  have hprep := splitSpace_prepared
  obtain ⟨s₁, hrun₁, hprep₁, hm₁⟩ : ∃ s₁, map4kPageP2V splitSpace 0x7000 0x400000 0x3 = .ok (OK, s₁) ∧
      s₁.Prepared _ ∧ Mapped splitSpace s₁ 0x400000 (pteFor 0x7000 0x3) :=
    hprep.map4k (.inr (by decide)) (by decide) (by decide) (by decide)
  have hat₁ := hm₁.pageAt (hprep.upper _ (.inr (by decide))) (hprep.pde _ (.inr (by decide))) (by decide)
    (by decide) (by decide)
  obtain ⟨s₂, hrun₂, hprep₂, hm₂⟩ : ∃ s₂, mapPageP2V s₁ 0x800000 0x200000 0x83 = .ok (OK, s₂) ∧
      s₂.Prepared _ ∧ PageMapped s₁ s₂ 0x200000 (0x800000 ||| 0x83) :=
    hprep₁.map2M (.inl (by decide)) (by decide) (by decide) (by decide) (by decide) (by decide)
  have hopen₁ := hprep₁.upper 0x200000 (.inl (by decide))
  have hat₂ := hm₂.regionAt hopen₁ (by decide) (by decide) (by decide) (by decide)
  have htable : s₂.table ≠ [] := by
    have hcalls : (map4kPageP2V splitSpace 0x7000 0x400000 0x3 >>= fun r =>
        (mapPageP2V r.2 0x800000 0x200000 0x83).map fun r => r.2.table) = .ok [0x6000] := by decide +kernel
    rw [hrun₁, ok_bind, hrun₂] at hcalls
    exact fun h => absurd (h.symm.trans (Except.ok.inj hcalls)) (by decide)
  have hdest : s₂.Prepared fun x => virtRegion x = virtRegion 0x200000 :=
    hm₂.prepared hprep₂.sound hopen₁ (.inr (by decide)) (by decide) htable
  have hsource : ∀ x a, virtRegion x = 1 ∨ virtRegion x = 2 → translate s₂ x = some a → 0x1000 ≤ a →
      a < 2 ^ 64 → s₂.SourcePage x := by
    intro x a hx htr hlow hlt
    refine ⟨hm₂.off.openAt (hprep₁.upper x hx), ?_, a, htr, hlow, hlt⟩
    rcases hx with hx | hx
    · exact hdest.pde x hx
    · exact hprep₂.pde x ⟨.inr hx, by rw [hx]; decide⟩
  refine ⟨s₁, s₂, hrun₁, hrun₂, hdest.mono ?_, fun i hi => ?_, fun i hi j hj => ?_⟩
  · rintro x ⟨i, hi, hx⟩
    unfold virtPage at hx
    unfold virtRegion
    omega
  · obtain rfl | rfl | rfl : i = 0 ∨ i = 1 ∨ i = 2 := by omega
    · exact hsource 0x3fe000 0x9fe000 (.inl (by decide)) (hat₂.here _ (by decide)) (by decide) (by decide)
    · exact hsource 0x3ff000 0x9ff000 (.inl (by decide)) (hat₂.here _ (by decide)) (by decide) (by decide)
    · have htr : translate s₂ 0x400000 = some 0x7000 :=
        (hat₂.there _ (by decide)).trans (hat₁.here _ rfl)
      exact hsource _ _ (.inr (by decide)) htr (by decide) (by decide)
  · unfold virtPage
    omega

/-- The first copy splits the 2 MiB page from which the second is still to be read. -/
theorem mapCopyMap_copies_split :
    ∃ s₁ s₂, map4kPageP2V splitSpace 0x7000 0x400000 0x3 = .ok (OK, s₁) ∧
      mapPageP2V s₁ 0x800000 0x200000 0x83 = .ok (OK, s₂) ∧ CopiesMap s₂ 0x201000 0x3fe000 0x3000 := by
  obtain ⟨s₁, s₂, hrun₁, hrun₂, hready⟩ := splitSpace_copyReady
  have hcopies := @mapCopyMap_copies_iff s₂ 0x201000 0x3fe000 0x3000 hready (by decide) (by decide)
    (by decide) (by decide)
  exact ⟨s₁, s₂, hrun₁, hrun₂, hcopies.2 (.inl (by decide))⟩

/-- The last page of the address space is not copied, though `map_copy_map` returns `OK`. -/
theorem mapCopyMap_skips_last :
    ∃ s, map4kPageP2V (onePage 0x5000) 0x6000 (2 ^ 64 - 0x1000) 0x3 = .ok (OK, s) ∧
      s.CopyReady (2 ^ 64 - 0x2000) (2 ^ 64 - 0x1000) (pagesIn 0x1000) ∧
      mapCopyMap 1 s (2 ^ 64 - 0x2000) (2 ^ 64 - 0x1000) 0x1000 = .ok (OK, s) ∧
      ¬ CopiesMap s (2 ^ 64 - 0x2000) (2 ^ 64 - 0x1000) 0x1000 := by
  obtain ⟨s, hrun, hready, hold, hnew⟩ := onePage_copyReady (v := 2 ^ 64 - 0x1000)
    (w := 2 ^ 64 - 0x2000) (by decide) (by decide) (by decide)
  refine ⟨s, hrun, hready, rfl, ?_⟩
  rintro ⟨fuel, s', hcopy, hdup⟩
  obtain rfl := mapCopyMap_zero_end (by decide) (by decide) hcopy
  have hcopied := hdup.copy 0 (by decide)
  rw [Nat.add_zero, Nat.add_zero, hold, hnew] at hcopied
  cases hcopied

end Tests

end Yaos
