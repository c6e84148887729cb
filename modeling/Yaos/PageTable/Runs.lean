import Yaos.PageTable.Range
import Mathlib.Logic.Relation

set_option autoImplicit false

/-! # Page tables over whole runs

The states built from a cleared PML4 by `map_page_p2v`, `map_4k_page_p2v` and `unmap_free_at_impl`, in any
order and with any arguments. Between two calls other code may write whatever is not a table, and the
frame source may offer other frames. In all these states the tables form a tree and every entry above
the page tables has one of a few shapes (`WellFormed`); what the page tables hold is arbitrary. From
there on, `map_4k_page_p2v` is looked at once more: it changes the translation of one page alone, exactly
when a page table that it links as it comes from the frame source has no stray entry. -/

namespace Yaos

open Word TableTree

/-- A page directory entry: nothing, a page table, or an aligned 2 MiB page. -/
def PdeShape (e : Nat) : Prop :=
  Opens e ∨ isLargePage e = true ∧ e % 0x200000 < 0x1000 ∧ e < 2 ^ 64

/-- The tables as the code leaves them, with no 1 GiB page. -/
structure PgTables.WellFormed (s : PgTables) : Prop where
  sound : s.Sound
  upper : ∀ x, s.OpenAt x
  pde : ∀ x, PdeShape (s.entry (pdePath x))

theorem PdeShape.opens {e : Nat} (h : PdeShape e) : PdeOpens e := by
  rcases h with h | h
  · exact .inl h
  · exact .inr h.1

theorem PdeShape.zero : PdeShape 0 := .inl (.inl rfl)

theorem PdeShape.link {e : Nat} (h : IsLink e) : PdeShape e := .inl (.inr h)

/-- Entries above the page directories may gain links; page directory entries keep a shape. -/
theorem PgTables.WellFormed.step {s s' : PgTables} (h : s.WellFormed) (hs : s'.Sound)
    (hupper : ∀ q : List (Fin 512), q.length < 3 → Kept s s' q)
    (hpde : ∀ x, s'.entry (pdePath x) = s.entry (pdePath x) ∨ PdeShape (s'.entry (pdePath x))) :
    s'.WellFormed where
  sound := hs
  upper := fun x => (h.upper x).kept hupper
  pde := fun x => by
    rcases hpde x with he | hshape
    · rw [he]
      exact h.pde x
    · exact hshape

/-! ## One call -/

section Calls

variable {s s' : PgTables} {paddr vaddr flag size : Nat} {isfree : Bool}

/-- Away from the region of a call the page directory entries stay. -/
theorem OffRegion.pde (h : OffRegion s s' vaddr) {x : Nat} (hx : pdePath x ≠ pdePath vaddr) :
    s'.entry (pdePath x) = s.entry (pdePath x) := by
  rcases h (pdePath x) (fun hsuf => hx (hsuf.eq_of_length (by simp)).symm) with he | ⟨hq | hq, -⟩
  · exact he
  · simpa using congrArg List.length hq
  · simpa using congrArg List.length hq

theorem OffRegion.upper (h : OffRegion s s' vaddr) (q : List (Fin 512)) (hq : q.length < 3) :
    Kept s s' q := h.kept (not_suffix_of_length (by simpa using hq))

theorem PgTables.WellFormed.reachable (h : s.WellFormed)
    (htab : tablesMissing s vaddr ≤ s.table.length) : s.Reachable vaddr :=
  ⟨h.sound, (h.upper vaddr).pml4e, (h.upper vaddr).pdpte, htab⟩

theorem mapPageP2V_wellFormed {ret : Nat} (h : s.WellFormed)
    (htab : tablesMissing s vaddr ≤ s.table.length) (hlt : paddr < 2 ^ 64) (hp : Present flag)
    (hl : Large flag) (hrun : mapPageP2V s paddr vaddr flag = .ok (ret, s')) : s'.WellFormed := by
  have hf := mapPageP2V_flag hrun
  have ⟨hv, hrun'⟩ := assert_bind_eq_ok.1 hrun
  have ⟨hpa, _⟩ := assert_bind_eq_ok.1 hrun'
  obtain ⟨hlarge, hdown⟩ := isLargePage_or hpa hf hp hl
  have hleaf : pgLink 2 (paddr ||| flag) = none := by
    rw [pgLink, if_neg]
    exact fun h => h.2.2 (isLargePage_iff.1 hlarge).2
  obtain ⟨s₁, hrun₁, hs₁, hm⟩ := mapPageP2V_mapped (h.reachable htab) hpa hv hf hleaf
  rw [hrun₁] at hrun
  cases hrun
  refine h.step hs₁ hm.off.upper fun x => ?_
  by_cases hx : pdePath x = pdePath vaddr
  · right
    rw [hx, hm.pde]
    refine .inr ⟨hlarge, ?_, ?_⟩ <;>
    · rw [or_flags (by omega) hf]
      omega
  · exact .inl (hm.off.pde hx)

/-- What `map_4k_page_p2v` needs from the frame source to keep the tables in order: the tables above
    the page table, and one more to split a 2 MiB page. -/
def tablesFor4k (s : PgTables) (vaddr : Nat) : Nat :=
  tablesMissing s vaddr + if isLargePage (s.entry (pdePath vaddr)) then 1 else 0

theorem PgTables.WellFormed.ready (h : s.WellFormed) (htab : tablesFor4k s vaddr ≤ s.table.length) :
    s.Ready vaddr := by
  unfold tablesFor4k at htab
  refine ⟨h.reachable (by omega), (h.pde vaddr).opens, fun hl => ?_⟩
  rw [if_pos hl] at htab
  omega

theorem map4kPageP2V_wellFormed {ret : Nat} (h : s.WellFormed)
    (htab : tablesFor4k s vaddr ≤ s.table.length)
    (hrun : map4kPageP2V s paddr vaddr flag = .ok (ret, s')) : s'.WellFormed := by
  have hf := map4kPageP2V_flag hrun
  have ⟨hpa, hrun'⟩ := assert_bind_eq_ok.1 hrun
  have ⟨hv, _⟩ := assert_bind_eq_ok.1 hrun'
  have hready := h.ready htab
  by_cases hdry : s.entry (pdePath vaddr) = 0 ∧ s.pt = []
  · obtain ⟨s₁, hrun₁, hs₁, -, hent⟩ := map4kPageP2V_dry hready.way hdry.1 hdry.2 hpa hv hf
    rw [hrun₁] at hrun
    cases hrun
    have hoff : OffRegion s s' vaddr := fun q _ => hent q
    refine h.step hs₁ hoff.upper fun x => ?_
    rcases hent (pdePath x) with he | ⟨hq | hq, -⟩
    · exact .inl he
    · simpa using congrArg List.length hq
    · simpa using congrArg List.length hq
  · obtain ⟨s₁, hrun₁, hs₁, hm⟩ := map4kPageP2V_mapped hready (fun hz hn => hdry ⟨hz, hn⟩) hpa hv hf
    rw [hrun₁] at hrun
    cases hrun
    refine h.step hs₁ hm.off.upper fun x => ?_
    by_cases hx : pdePath x = pdePath vaddr
    · right
      rw [hx]
      exact .link hm.pde
    · exact .inl (hm.off.pde hx)

/-! ### Unmapping -/

/-- The 2 MiB pages `unmap_free_at_impl` splits: those it meets that are not wholly in the rest of the
    range. -/
def splitsNeeded (s : PgTables) : Nat → Nat → Nat → Nat
  | 0, _, _ => 0
  | fuel + 1, vaddr, size =>
      if size = 0 then 0
      else
        let step := 0x1000 * (512 - (tableIndex pteShift vaddr : Nat))
        (if isLargePage (s.entry (pdePath vaddr)) ∧ ¬ (vaddr % 0x200000 = 0 ∧ 0x200000 ≤ size)
          then 1 else 0) + splitsNeeded s fuel (wadd vaddr step) (size - step)

theorem splitsNeeded_mono (h : ∀ x, isLargePage (s'.entry (pdePath x)) = true →
      isLargePage (s.entry (pdePath x)) = true) (fuel vaddr size : Nat) :
    splitsNeeded s' fuel vaddr size ≤ splitsNeeded s fuel vaddr size := by
  induction fuel generalizing vaddr size with
  | zero => exact le_rfl
  | succ fuel ih =>
      unfold splitsNeeded
      split
      · exact le_rfl
      · refine Nat.add_le_add ?_ (ih _ _)
        split
        case isTrue hl =>
          rw [if_pos ⟨h vaddr hl.1, hl.2⟩]
        case isFalse => exact Nat.zero_le _

/-- Nothing is mapped there: the call panics. -/
theorem unmapRegions_zero (hs : s.Sound) (ho : s.OpenAt vaddr) (hsize : size ≠ 0)
    (hpde : s.entry (pdePath vaddr) = 0) (fuel : Nat) :
    unmapRegions isfree (fuel + 1) vaddr size s =
      .error (.panic "unmap free at none exist page\n") := by
  unfold unmapRegions
  rw [if_neg hsize, getPteWithAddr_alignDown, getPteWithAddr_eq hs ho]
  by_cases hzero : s.entry (pdptePath vaddr) = 0
  · rw [if_pos hzero]
  · have hlink := ho.pdpte.resolve_left hzero
    rw [if_neg hzero]
    dsimp only
    rw [PgTables.load_P2V _ (PgTables.tableOf_link (q := pdptePath vaddr) (by simp) hlink)
      hlink.frame.lt, ← pdePath, if_pos hpde]

theorem clearPde_wellFormed (h : s.WellFormed) (hlink : IsLink (s.entry (pdptePath vaddr))) :
    (clearPde isfree s vaddr).WellFormed := by
  refine h.step (clearPde_sound h.sound hlink) (fun q hq => ?_) fun x => ?_
  · exact .inl (clearPde_entry_off h.sound hlink (not_suffix_of_length (by simpa using hq)))
  · by_cases hx : pdePath x = pdePath vaddr
    · right
      rw [hx, clearPde_entry_self h.sound hlink]
      exact .zero
    · exact .inl (clearPde_entry_off h.sound hlink
        fun hsuf => hx (hsuf.eq_of_length (by simp)).symm)

/-- The page table to be unmapped from, after a split where one is needed. -/
theorem tableToUnmap_wellFormed (h : s.WellFormed) (hpde : s.entry (pdePath vaddr) ≠ 0)
    (htab : isLargePage (s.entry (pdePath vaddr)) = true → s.table ≠ []) :
    ∃ s₁, tableToUnmap s (P2V (alignDown 0x1000 (s.entry (pdptePath vaddr))))
        (tableIndex pdShift vaddr) =
        .ok (some (P2V (alignDown 0x1000 (s₁.entry (pdePath vaddr)))), s₁) ∧
      s₁.WellFormed ∧ IsLink (s₁.entry (pdePath vaddr)) ∧
      (∀ x, isLargePage (s₁.entry (pdePath x)) = true →
        isLargePage (s.entry (pdePath x)) = true) ∧
      s₁.table = if isLargePage (s.entry (pdePath vaddr)) then s.table.tail else s.table := by
  have hlink := (h.upper vaddr).pdpte_link hpde
  have hload := (getPteWithAddr_link h.sound (h.upper vaddr) hpde).2
  by_cases hlarge : isLargePage (s.entry (pdePath vaddr)) = true
  · obtain ⟨s₁, hrun, hs₁, hsame, hlink₁, -, hoff, -⟩ := linkNewTable_split
      (v := splitEntries (alignDown 0x1000 (s.entry (pdePath vaddr))) 0x1000
        (s.entry (pdePath vaddr) &&& 0xfff &&& notPS)) h.sound
      (PgTables.tableOf_link (q := pdptePath vaddr) (by simp) hlink) hlink.frame.lt (htab hlarge)
      linkFlags_user "((ulong) pte & 0xfff) == 0"
    have hpdes : ∀ x, pdePath x ≠ pdePath vaddr → s₁.entry (pdePath x) = s.entry (pdePath x) :=
      fun x hx => hoff _ fun hsuf => hx (hsuf.eq_of_length (by simp)).symm
    refine ⟨s₁, ?_, ?_, hlink₁, ?_, ?_⟩
    · dsimp only [tableToUnmap]
      rw [hload, if_pos hlarge, hrun]
    · refine h.step hs₁ (fun q hq => .inl (hoff q (not_suffix_of_length (by simpa using hq))))
        fun x => ?_
      by_cases hx : pdePath x = pdePath vaddr
      · right
        rw [hx]
        exact .link hlink₁
      · exact .inl (hpdes x hx)
    · intro x hl
      by_cases hx : pdePath x = pdePath vaddr
      · rw [hx]
        exact hlarge
      · rw [← hpdes x hx]
        exact hl
    · rw [if_pos hlarge, hsame]
  · have hlink₁ : IsLink (s.entry (pdePath vaddr)) := by
      rcases h.pde vaddr with (hzero | hl) | hl
      · exact absurd hzero hpde
      · exact hl
      · exact absurd hl.1 hlarge
    exact ⟨s, tableToUnmap_link h.sound (h.upper vaddr) hlink₁, h, hlink₁, fun _ hl => hl,
      by rw [if_neg hlarge]⟩

theorem unmapRegions_wellFormed {fuel : Nat} (h : s.WellFormed)
    (htab : splitsNeeded s fuel vaddr size ≤ s.table.length)
    (hrun : unmapRegions isfree fuel vaddr size s = .ok s') : s'.WellFormed := by
  -- on the fuel, with the source paying for the splits that the rest of the range needs
  induction fuel generalizing vaddr size s with
  | zero => cases hrun
  | succ fuel ih =>
      by_cases hsize : size = 0
      · unfold unmapRegions at hrun
        rw [if_pos hsize] at hrun
        cases hrun
        exact h
      · by_cases hpde : s.entry (pdePath vaddr) = 0
        · rw [unmapRegions_zero h.sound (h.upper vaddr) hsize hpde] at hrun
          cases hrun
        · unfold splitsNeeded at htab
          rw [if_neg hsize] at htab
          dsimp only at htab
          by_cases hwhole : isLargePage (s.entry (pdePath vaddr)) = true ∧ vaddr % 0x200000 = 0 ∧
              0x200000 ≤ size
          · -- a whole 2 MiB page
            have hlink := (h.upper vaddr).pdpte_link hpde
            have hstep : 0x1000 * (512 - (tableIndex pteShift vaddr : Nat)) = 0x200000 := by
              have hv := hwhole.2.1
              show 0x1000 * (512 - vaddr / 2 ^ 12 % 512) = 0x200000
              omega
            rw [unmapRegions_large h.sound (h.upper vaddr) hwhole.1 hwhole.2.1 hwhole.2.2] at hrun
            refine ih (clearPde_wellFormed h hlink) ?_ hrun
            rw [hstep, if_neg (fun hn => hn.2 hwhole.2), Nat.zero_add] at htab
            refine le_trans (splitsNeeded_mono (s := s) (fun x hl => ?_) _ _ _) (le_trans htab ?_)
            · by_cases hx : pdePath x = pdePath vaddr
              · rw [hx, clearPde_entry_self h.sound hlink] at hl
                exact absurd hl isLargePage_zero
              · rwa [clearPde_entry_off h.sound hlink
                  fun hsuf => hx (hsuf.eq_of_length (by simp)).symm] at hl
            · rw [clearPde_same hlink]
          · -- entries of one page table
            obtain ⟨s₁, htable, h₁, hlink₁, hmono, htab₁⟩ := tableToUnmap_wellFormed h hpde (by
              intro hl
              rw [if_pos ⟨hl, fun hw => hwhole ⟨hl, hw⟩⟩] at htab
              exact List.ne_nil_of_length_pos (by omega))
            rw [unmapRegions_table h.sound (h.upper vaddr) hpde hsize hwhole htable] at hrun
            obtain ⟨⟨len, s₂⟩, hptes, hrun⟩ := bind_eq_ok.1 hrun
            obtain ⟨hs₂, hsame, hent, hlen⟩ := unmapPtes_keeps (p := pdePath vaddr) (by simp)
              hlink₁.frame.lt h₁.sound (PgTables.tableOf_link (by simp) hlink₁) hptes
            have h₂ : s₂.WellFormed := h₁.step hs₂ (fun q hq => .inl (hent q (by omega)))
              fun x => .inl (hent _ (by simp))
            dsimp only at hrun
            split at hrun
            case isFalse =>
              cases hrun
              exact h₂
            case isTrue hlt =>
              have hlen' := hlen hlt
              rw [Nat.zero_add] at hlen'
              subst hlen'
              refine ih h₂ ?_ hrun
              refine le_trans (splitsNeeded_mono (s := s) (fun x hl => ?_) _ _ _) ?_
              · rw [hent _ (by simp)] at hl
                exact hmono x hl
              · have htab₂ : s₂.table = s₁.table := by rw [hsame]
                rw [htab₂, htab₁]
                by_cases hl : isLargePage (s.entry (pdePath vaddr)) = true
                · rw [if_pos ⟨hl, fun hw => hwhole ⟨hl, hw⟩⟩] at htab
                  rw [if_pos hl, List.length_tail]
                  omega
                · rw [if_neg hl]
                  omega

end Calls

/-! ## Runs -/

/-- A cleared PML4, and any memory besides; the frames on offer for tables are proper frames. -/
structure PgTables.Initial (s : PgTables) : Prop where
  cleared : ∀ n, s.frames s.pml4 n = 0
  root : s.pml4 < 2 ^ 64
  frame : ∀ f ∈ s.table ++ s.pt, Frame f ∧ f ≠ s.pml4
  nodup : (s.table ++ s.pt).Nodup

/-- One call that returns, or what goes on between two calls. The frame source has the tables a call
    asks for, and `map_page_p2v` is used for what it is for: to map 2 MiB pages. -/
inductive PgStep : PgTables → PgTables → Prop
  | mapPage {s s' : PgTables} {paddr vaddr flag ret : Nat} (hlt : paddr < 2 ^ 64)
      (hp : Present flag) (hl : Large flag) (htab : tablesMissing s vaddr ≤ s.table.length)
      (hok : mapPageP2V s paddr vaddr flag = .ok (ret, s')) : PgStep s s'
  | map4k {s s' : PgTables} {paddr vaddr flag ret : Nat}
      (htab : tablesFor4k s vaddr ≤ s.table.length)
      (hok : map4kPageP2V s paddr vaddr flag = .ok (ret, s')) : PgStep s s'
  | unmap {s s' : PgTables} {vaddr size : Nat} {isfree : Bool}
      (htab : splitsNeeded s (size / 0x1000 + 1) vaddr size ≤ s.table.length)
      (hok : unmapFreeAtImpl s vaddr size isfree = .ok s') : PgStep s s'
  /-- Memory that is no table changes, and other frames are on offer. -/
  | other {s s' : PgTables} (hroot : s'.pml4 = s.pml4)
      (htables : ∀ p t, s.tableOf p = some t → s'.frames t = s.frames t)
      (hframe : ∀ f ∈ s'.table ++ s'.pt, Frame f ∧ OffTree pgLink s.pml4 s.frames f)
      (hnodup : (s'.table ++ s'.pt).Nodup) : PgStep s s'

theorem PgTables.Initial.wellFormed {s : PgTables} (h : s.Initial) : s.WellFormed where
  sound := .blank h.cleared h.root h.frame h.nodup
  upper := fun x =>
    ⟨.inl (PgTables.entry_blank h.cleared _), .inl (PgTables.entry_blank h.cleared _)⟩
  pde := fun x => by
    rw [PgTables.entry_blank h.cleared]
    exact .zero

theorem PgStep.preserves {s s' : PgTables} (step : PgStep s s') (h : s.WellFormed) :
    s'.WellFormed := by
  cases step with
  | mapPage hlt hp hl htab hok => exact mapPageP2V_wellFormed h htab hlt hp hl hok
  | map4k htab hok => exact map4kPageP2V_wellFormed h htab hok
  | unmap htab hok => exact unmapRegions_wellFormed h htab hok
  | other hroot htables hframe hnodup =>
      have hent : ∀ q, s'.entry q = s.entry q := fun q => by
        unfold PgTables.entry
        rw [hroot]
        exact ent_congr htables q
      have hsound : s'.Sound := by
        refine ⟨?_, hroot ▸ h.sound.root, fun f hf => (hframe f hf).1, ?_, hnodup⟩
        · unfold PgTables.Tree
          rw [hroot]
          exact h.sound.tree.congr htables
        · intro f hf p hp
          rw [hroot] at hp
          exact (hframe f hf).2 p ((tableAt_congr htables p).symm.trans hp)
      exact h.step hsound (fun q _ => .inl (hent q)) fun x => .inl (hent _)

theorem pgTables_run_wellFormed {s₀ s : PgTables} (hinit : s₀.Initial)
    (run : Relation.ReflTransGen PgStep s₀ s) : s.WellFormed := by
  induction run with
  | refl => exact hinit.wellFormed
  | tail _ step ih => exact step.preserves ih

/-! ## One page changes -/

/-- `vaddr` is mapped to `paddr`, and every other page is mapped as before. -/
def MapsOnly (s s' : PgTables) (paddr vaddr : Nat) : Prop :=
  translate s' vaddr = some paddr ∧
    ∀ x, virtPage x ≠ virtPage vaddr → translate s' x = translate s x

section Frame

variable {s s' : PgTables} {paddr vaddr flag : Nat}

/-- Splitting a 2 MiB page maps its pieces where they were. -/
theorem splitEntries_page {e : Nat} (halign : e % 0x200000 < 0x1000) (hlt : e < 2 ^ 64)
    (m : Fin 512) :
    Present (splitEntries (alignDown 0x1000 e) 0x1000 (pteP ||| pteW ||| pteG) m) ∧
      alignDown 0x1000 (splitEntries (alignDown 0x1000 e) 0x1000 (pteP ||| pteW ||| pteG) m) =
        alignDown 0x200000 e + 0x1000 * m := by
  have hm := m.isLt
  have hadd : wadd (alignDown 0x1000 e) (m * 0x1000) = alignDown 0x200000 e + 0x1000 * m := by
    unfold wadd alignDown
    omega
  have hflags : pteP ||| pteW ||| pteG = 0x103 := rfl
  rw [splitEntries, hadd, hflags, or_flags (by unfold alignDown; omega) (by decide)]
  unfold alignDown
  omega

/-- The pages of the region of `vaddr` other than its own. -/
theorem Mapped.translate_region {e : Nat} (hm : Mapped s s' vaddr e) (h : s.WellFormed)
    (h' : s'.WellFormed) {x : Nat} (hregion : pdePath x = pdePath vaddr)
    (hx : tableIndex pteShift x ≠ tableIndex pteShift vaddr) :
    Yaos.translate s' x = Yaos.translate s x ↔
      s.entry (pdePath vaddr) ≠ 0 ∨ ¬ Present (s.frames (s.pt.headD 0) (tableIndex pteShift x)) := by
  have hpath : ptePath x = tableIndex pteShift x :: pdePath vaddr := by rw [ptePath, hregion]
  have hpte := hm.pt (tableIndex pteShift x) hx
  have hup := (h.upper x).pdpte.not_page
  have hup' := (h'.upper x).pdpte.not_page
  rw [← hpath] at hpte
  rcases h.pde vaddr with (hzero | hl) | ⟨hlarge, halign, hlt⟩
  · -- a new page table: before, nothing was mapped here
    have hold : s.entry (ptePath x) = 0 := by
      rw [hpath]
      exact PgTables.entry_cons_none (PgTables.tableOf_zero (by simp) hzero) _
    rw [ptContent_zero hzero] at hpte
    rw [translate_eq s, hregion, hzero, hold, readEntries_none hup (by omega) (by omega), translate_eq,
      hregion, hpte, readEntries, if_neg hup', if_neg hm.pde.not_page]
    simp
  · -- the page table was there
    rw [ptContent_link hl] at hpte
    dsimp only at hpte
    rw [← hpath] at hpte
    rw [translate_eq, translate_eq, hregion, hpte, readEntries, readEntries, if_neg hup', if_neg hup,
      if_neg hm.pde.not_page, if_neg hl.not_page]
    simp [hl.ne_zero]
  · -- a 2 MiB page, now in pieces
    obtain ⟨hp, hdown⟩ := splitEntries_page halign hlt (tableIndex pteShift x)
    have hne : s.entry (pdePath vaddr) ≠ 0 := fun h0 => isLargePage_zero (h0 ▸ hlarge)
    rw [ptContent_large hlarge] at hpte
    have hoff : alignDown 0x200000 (s.entry (pdePath vaddr)) +
        0x1000 * (tableIndex pteShift x : Nat) + x % 0x1000 =
        alignDown 0x200000 (s.entry (pdePath vaddr)) + x % 0x200000 := by
      show _ + 0x1000 * (x / 2 ^ 12 % 512) + _ = _
      omega
    rw [translate_eq, translate_eq, hregion, hpte, readEntries, readEntries, if_neg hup', if_neg hup,
      if_neg hm.pde.not_page, if_pos (isLargePage_iff.1 hlarge), if_pos hp, hdown, hoff]
    simp [hne]

/-- An address in the region of `vaddr` with the page index `n`. -/
theorem exists_page_in_region (vaddr : Nat) (n : Fin 512) :
    ∃ x, pdePath x = pdePath vaddr ∧ tableIndex pteShift x = n := by
  have hn := n.isLt
  refine ⟨alignDown 0x200000 vaddr + 0x1000 * n, ?_, ?_⟩
  · rw [pdePath_eq_iff]
    unfold virtRegion alignDown
    omega
  · apply Fin.ext
    show (alignDown 0x200000 vaddr + 0x1000 * n) / 2 ^ 12 % 512 = n
    unfold alignDown
    omega

/-- **A 4 KiB mapping changes one page.** After any run, `map_4k_page_p2v` that returns `OK` maps `vaddr`
    to `paddr` and leaves every other page as it was if and only if there was a page directory entry
    already, or the frame it linked as a page table holds no present entry besides the one it wrote. -/
theorem map4kPageP2V_mapsOnly_iff {s₀ : PgTables} (hinit : s₀.Initial)
    (run : Relation.ReflTransGen PgStep s₀ s) (htab : tablesFor4k s vaddr ≤ s.table.length)
    (hp : Present flag) (hok : map4kPageP2V s paddr vaddr flag = .ok (OK, s')) :
    MapsOnly s s' paddr vaddr ↔
      s.entry (pdePath vaddr) ≠ 0 ∨
        ∀ n, n ≠ tableIndex pteShift vaddr → ¬ Present (s.frames (s.pt.headD 0) n) := by
  have h := pgTables_run_wellFormed hinit run
  have h' := map4kPageP2V_wellFormed h htab hok
  have hf := map4kPageP2V_flag hok
  have ⟨hpa, hok'⟩ := assert_bind_eq_ok.1 hok
  have ⟨hv, _⟩ := assert_bind_eq_ok.1 hok'
  have hready := h.ready htab
  have hfresh : s.entry (pdePath vaddr) = 0 → s.pt ≠ [] := by
    intro hzero hnil
    obtain ⟨s₁, hrun, -⟩ := map4kPageP2V_dry hready.way hzero hnil hpa hv hf
    rw [hrun] at hok
    cases hok
  obtain ⟨s₁, hrun, -, hm⟩ := map4kPageP2V_mapped hready hfresh hpa hv hf
  rw [hrun] at hok
  cases hok
  have hself : Yaos.translate s' vaddr = some paddr := by
    rw [translate_pte (h'.upper vaddr) hm.pde hm.pte (pteFor_present hpa hf hp),
      alignDown_pteFor hpa hf, hv, Nat.add_zero]
  constructor
  · rintro ⟨-, hothers⟩
    by_cases hzero : s.entry (pdePath vaddr) = 0
    · right
      intro n hn
      obtain ⟨x, hregion, hidx⟩ := exists_page_in_region vaddr n
      have hne : virtPage x ≠ virtPage vaddr := fun hpage =>
        hn (hidx ▸ (List.cons.inj (ptePath_eq_iff.2 hpage)).1)
      have := (hm.translate_region h h' hregion (by rwa [hidx])).1 (hothers x hne)
      rw [hidx] at this
      exact this.resolve_left fun h0 => h0 hzero
    · exact .inl hzero
  · intro hcond
    refine ⟨hself, fun x hx => ?_⟩
    by_cases hregion : pdePath x = pdePath vaddr
    · have hidx : tableIndex pteShift x ≠ tableIndex pteShift vaddr := fun he =>
        hx (ptePath_eq_iff.1 (by rw [ptePath, ptePath, he, hregion]))
      exact (hm.translate_region h h' hregion hidx).2 (hcond.imp id fun hc => hc _ hidx)
    · have hsuf : ∀ {q}, q = pdePath x ∨ q = ptePath x ∨ q = pdptePath x →
          ¬ pdePath vaddr <:+ q := by
        rintro q (rfl | rfl | rfl) hs
        · exact hregion (hs.eq_of_length (by simp)).symm
        · exact hregion (pdePath_eq_iff.2 (pdePath_suffix_ptePath.1 hs).symm)
        · exact not_suffix_of_length (by simp) hs
      exact translate_kept (hm.off.kept (hsuf (.inr (.inr rfl)))) (hm.off.kept (hsuf (.inl rfl)))
        (hm.off.kept (hsuf (.inr (.inl rfl))))

/-- Frames for three tables; the one for the page table still holds what was in it, a present entry
    at index 5. -/
def stalePage : PgTables :=
  { onePage 0x5000 with frames := fun f n => if f = 0x4000 ∧ n = 5 then 0x7003 else 0 }

theorem stalePage_initial : stalePage.Initial where
  cleared := fun _ => rfl
  root := by decide
  frame := by
    intro f hf
    simp only [stalePage, onePage, List.cons_append, List.nil_append, List.mem_cons,
      List.not_mem_nil, or_false] at hf ⊢
    rcases hf with rfl | rfl | rfl <;> exact ⟨⟨by decide, by decide, by decide⟩, by decide⟩
  nodup := by decide

/-- The page at index 5 is the one mapped: its stray entry is overwritten. -/
theorem map4kPageP2V_mapsOnly_iff_stale : ∃ s', MapsOnly stalePage s' 0x6000 0x5000 := by
  obtain ⟨s', hok⟩ : ∃ s', map4kPageP2V stalePage 0x6000 0x5000 0x3 = .ok (OK, s') := ⟨_, rfl⟩
  refine ⟨s', (map4kPageP2V_mapsOnly_iff stalePage_initial .refl ?_ (by decide) hok).2 (.inr ?_)⟩
  · decide
  · intro n hn
    have hn' : n ≠ 5 := hn
    simp [stalePage, onePage, hn']

/-- Mapping page 0 maps page 5 as well, to whatever frame the stray entry names. -/
theorem map4kPageP2V_maps_stray :
    stalePage.Initial ∧ ∃ s', map4kPageP2V stalePage 0x6000 0 0x3 = .ok (OK, s') ∧
      translate stalePage 0x5000 = none ∧ translate s' 0x5000 = some 0x7000 ∧
      ¬ MapsOnly stalePage s' 0x6000 0 := by
  refine ⟨stalePage_initial, _, rfl, by decide, by decide, ?_⟩
  rintro ⟨-, hothers⟩
  exact absurd (hothers 0x5000 (by decide)) (by decide)

end Frame

end Yaos
