import Yaos.PageTable.Runs

set_option autoImplicit false

/-! # Ranges of 4 KiB pages

`unmap_free_at_impl` over page tables alone, with no 2 MiB page on the way. Where every page maps a frame,
each frame is freed once, in the order of the pages. Whatever the page tables hold, the loop frees a frame
for each page of the range or panics: there is no third way for it to end. -/

namespace Yaos

open Word TableTree

variable {s s' : PgTables} {vaddr size fuel : Nat}

/-! ## Counting -/

theorem unmapPtes_count {pte left len len' : Nat} (hlen : len ≤ size) (hmod : (size - len) % 0x1000 = 0)
    (h : unmapPtes true pte size left len s = .ok (len', s')) :
    len' ≤ size ∧ (size - len') % 0x1000 = 0 ∧
      0x1000 * s'.freedSmall.length + len = 0x1000 * s.freedSmall.length + len' := by
  induction left generalizing len s with
  | zero =>
      obtain ⟨rfl, rfl⟩ := Prod.mk.inj (Except.ok.inj h)
      exact ⟨hlen, hmod, rfl⟩
  | succ left ih =>
      unfold unmapPtes at h
      by_cases hmore : len < size
      · rw [if_pos hmore] at h
        dsimp only at h
        split at h
        · cases h
        · obtain ⟨hle, hmod', hcount⟩ := ih (by omega) (by omega) h
          refine ⟨hle, hmod', ?_⟩
          rw [PgTables.freePhyPageSmall_eq] at hcount
          simp only [PgTables.store, if_true, List.length_append, List.length_singleton] at hcount
          omega
      · rw [if_neg hmore] at h
        obtain ⟨rfl, rfl⟩ := Prod.mk.inj (Except.ok.inj h)
        exact ⟨hlen, hmod, rfl⟩

/-- A call that comes back has freed a frame for each page. -/
theorem unmapRegions_count (hs : s.Sound) (hsize : size % 0x1000 = 0)
    (hopen : ∀ x, InRange vaddr size x → s.OpenAt x ∧ Opens (s.entry (pdePath x)))
    (h : unmapRegions true fuel vaddr size s = .ok s') :
    s'.freedSmall.length = s.freedSmall.length + size / 0x1000 := by
  induction fuel generalizing vaddr size s with
  | zero => cases h
  | succ fuel ih =>
      by_cases hzero : size = 0
      · subst hzero
        unfold unmapRegions at h
        obtain rfl := Except.ok.inj h
        rfl
      obtain ⟨ho, hpde⟩ := hopen vaddr ⟨0, by omega, rfl⟩
      rcases hpde with hnone | hlink
      · rw [unmapRegions_zero hs ho hzero hnone] at h
        cases h
      rw [unmapRegions_table hs ho hlink.ne_zero hzero (fun hl => hlink.not_largePage hl.1)
        (tableToUnmap_link hs ho hlink)] at h
      obtain ⟨⟨len, s₁⟩, hptes, h⟩ := bind_eq_ok.1 h
      obtain ⟨hle, hmod, hcount⟩ := unmapPtes_count (Nat.zero_le _) hsize hptes
      obtain ⟨hs₁, -, hkept, -⟩ := unmapPtes_keeps (by simp) hlink.frame.lt hs
        (PgTables.tableOf_link (q := pdePath vaddr) (by simp) hlink) hptes
      dsimp only at h
      by_cases hmore : len < size
      · rw [if_pos hmore] at h
        have hrest : ∀ x, InRange (wadd vaddr len) (size - len) x →
            s₁.OpenAt x ∧ Opens (s₁.entry (pdePath x)) := by
          rintro x ⟨y, hy, hx⟩
          obtain ⟨hox, hpx⟩ := hopen x ⟨len + y, by omega, by unfold wadd at hx; omega⟩
          refine ⟨hox.congr rfl fun q hq => hkept q (by omega), ?_⟩
          rwa [hkept _ (by simp)]
        have := ih hs₁ hmod hrest h
        omega
      · rw [if_neg hmore] at h
        obtain rfl := Except.ok.inj h
        omega

/-! ## Pages that map frames -/

/-- The pages from `vaddr` on that map `as` are unmapped and their frames freed, and nothing else
    changed. -/
structure FreedPages (s s' : PgTables) (vaddr : Nat) (as : List Nat) : Prop where
  same : s' = { s with frames := s'.frames, freedSmall := s.freedSmall ++ as }
  clear : ∀ j < as.length, s'.entry (ptePath (vaddr + 0x1000 * j)) = 0
  off : ∀ q, ¬ SmallPaths vaddr as.length q → s'.entry q = s.entry q

theorem HoldsSmall.take {as : List Nat} (h : HoldsSmall s vaddr as) (m : Nat) :
    HoldsSmall s vaddr (as.take m) := by
  intro j a ha
  refine h j a ?_
  rw [List.getElem?_take] at ha
  split at ha
  · exact ha
  · cases ha

/-- What follows the first `m` pages is untouched while these are unmapped. -/
theorem HoldsSmall.rest {s₁ : PgTables} {as : List Nat} {m : Nat} (h : HoldsSmall s vaddr as)
    (hv : vaddr % 0x1000 = 0) (hbound : 0x1000 * as.length ≤ 2 ^ 48)
    (hoff : ∀ q, ¬ SmallPaths vaddr m q → s₁.entry q = s.entry q) :
    HoldsSmall s₁ (wadd vaddr (0x1000 * m)) (as.drop m) := by
  have hshort : ∀ q : List (Fin 512), q.length < 4 → s₁.entry q = s.entry q :=
    fun q hq => hoff q (not_smallPaths_of_length (by omega))
  intro j a ha
  rw [List.getElem?_drop] at ha
  have hj := (List.getElem?_eq_some_iff.1 ha).1
  have hmod : (vaddr + 0x1000 * (m + j)) % 2 ^ 48 = (wadd vaddr (0x1000 * m) + 0x1000 * j) % 2 ^ 48 := by
    unfold wadd
    omega
  obtain ⟨hne, ho, hlink, hpte⟩ := h (m + j) a ha
  rw [← pdePath_congr hmod, ← ptePath_congr hmod, hshort _ (by simp),
    hoff _ (not_smallPaths_later hv (by omega) (by omega))]
  exact ⟨hne, ho.congr hmod fun q hq => hshort q (by omega), hlink, hpte⟩

/-- The first `m` pages are unmapped, then the rest. -/
theorem FreedPages.of_take {s₁ : PgTables} {as : List Nat} {m : Nat} (hv : vaddr % 0x1000 = 0)
    (hm : m ≤ as.length) (hbound : 0x1000 * as.length ≤ 2 ^ 48) (h : FreedPages s s₁ vaddr (as.take m))
    (hrest : FreedPages s₁ s' (wadd vaddr (0x1000 * m)) (as.drop m)) : FreedPages s s' vaddr as := by
  have hmod : wadd vaddr (0x1000 * m) % 2 ^ 48 = (vaddr + 0x1000 * m) % 2 ^ 48 := by
    unfold wadd
    omega
  have hlen : (as.take m).length = m := by simpa using hm
  have hclear := h.clear
  have hoff := h.off
  rw [hlen] at hclear hoff
  refine ⟨?_, fun j hj => ?_, fun q hq => ?_⟩
  · rw [hrest.same, h.same]
    simp
  · by_cases hjm : j < m
    · rw [hrest.off, hclear j hjm]
      rw [smallPaths_congr hmod]
      rintro ⟨i, hi, heq⟩
      rw [Nat.add_assoc, ← Nat.mul_add] at heq
      rw [List.length_drop] at hi
      exact ptePath_ne hv (by omega) (by omega) heq
    · have := hrest.clear (j - m) (by rw [List.length_drop]; omega)
      rwa [ptePath_congr (b := vaddr + 0x1000 * j) (by omega)] at this
  · rw [hrest.off, hoff]
    · rintro ⟨i, hi, heq⟩
      exact hq ⟨i, by omega, heq⟩
    · rw [smallPaths_congr hmod]
      rintro ⟨i, hi, heq⟩
      rw [List.length_drop] at hi
      exact hq ⟨m + i, by omega, by rw [heq, Nat.mul_add, Nat.add_assoc]⟩

theorem unmapRegions_pages {as : List Nat} (hs : s.Sound) (hv : vaddr % 0x1000 = 0)
    (hbound : 0x1000 * as.length ≤ 2 ^ 48) (hfuel : as.length < fuel) (h : HoldsSmall s vaddr as) :
    ∃ s', unmapRegions true fuel vaddr (0x1000 * as.length) s = .ok s' ∧ FreedPages s s' vaddr as := by
  induction fuel generalizing vaddr as s with
  | zero => exact absurd hfuel (Nat.not_lt_zero _)
  | succ fuel ih =>
      by_cases hnil : as = []
      · subst hnil
        refine ⟨s, ?_, by rw [List.append_nil], fun j hj => absurd hj (Nat.not_lt_zero j), fun _ _ => rfl⟩
        unfold unmapRegions
        exact if_pos rfl
      have hpos := List.length_pos_iff.2 hnil
      -- up to the end of the page table, or of the range
      obtain ⟨m, hm⟩ : ∃ m, m = min (512 - vaddr / 0x1000 % 512) as.length := ⟨_, rfl⟩
      have hlen : (as.take m).length = m := by
        rw [List.length_take]
        omega
      have htake : as.take m ≠ [] := List.length_pos_iff.1 (by omega)
      obtain ⟨s₁, hrun, hs₁, hsame, hclear, hoff⟩ := @unmapRegions_small s vaddr (0x1000 * as.length)
        fuel (as.take m) hs htake (by omega) (by omega) (by omega) (h.take m)
      have hfreed : FreedPages s s₁ vaddr (as.take m) := ⟨hsame, hclear, hoff⟩
      rw [hlen] at hrun hoff
      by_cases hmore : 0x1000 * m < 0x1000 * as.length
      · obtain ⟨s', hrun', hrest⟩ := @ih s₁ (wadd vaddr (0x1000 * m)) (as.drop m) hs₁
          (by unfold wadd; omega) (by rw [List.length_drop]; omega) (by rw [List.length_drop]; omega)
          (h.rest hv hbound hoff)
        refine ⟨s', ?_, .of_take hv (by omega) hbound hfreed hrest⟩
        rw [List.length_drop, Nat.mul_sub] at hrun'
        rw [hrun, if_pos hmore, hrun']
      · rw [if_neg hmore] at hrun
        have hall : as.take m = as := List.take_of_length_le (by omega)
        exact ⟨s₁, hrun, hall ▸ hfreed⟩

/-- The pages of the range are then unmapped for the processor too. -/
theorem FreedPages.translate_none {as : List Nat} (h : FreedPages s s' vaddr as)
    (hv : vaddr % 0x1000 = 0) (hholds : HoldsSmall s vaddr as) {x : Nat}
    (hx : InRange vaddr (0x1000 * as.length) x) : translate s' x = none := by
  obtain ⟨y, hy, hx⟩ := hx
  have hj : y / 0x1000 < as.length := by omega
  have hpage : ptePath x = ptePath (vaddr + 0x1000 * (y / 0x1000)) := by
    rw [ptePath_eq_iff]
    unfold virtPage
    omega
  have hpde : pdePath x = pdePath (vaddr + 0x1000 * (y / 0x1000)) := (List.cons.inj hpage).2
  obtain ⟨-, ho, hlink, -⟩ := hholds _ _ (List.getElem?_eq_getElem hj)
  have hkept : ∀ q : List (Fin 512), q.length < 4 → s'.entry q = s.entry q :=
    fun q hq => h.off q (not_smallPaths_of_length (by omega))
  have hpdpte : pdptePath x = pdptePath (vaddr + 0x1000 * (y / 0x1000)) := (List.cons.inj hpde).2
  rw [translate_eq, hpage, h.clear _ hj, hpde, hpdpte, hkept _ (by simp), hkept _ (by simp)]
  refine readEntries_none ?_ hlink.not_page (by omega)
  rcases ho.pdpte with hz | hl
  · rw [hz]
    omega
  · exact hl.not_page

/-! ## Allocating one page -/

/-- The loop that maps one page takes one frame and maps it. -/
theorem mapSmall_page {low : Bool} {flag : Nat} {m : MapProgress}
    (h : mapSmall low flag 0x1000 s.data ⟨OK, 0, vaddr, s⟩ = .ok m) (hret : m.ret = OK) :
    ∃ a rest, s.data = a :: rest ∧ a ≠ 0 ∧
      map4kPageP2V { s with data := rest } a vaddr flag = .ok (OK, m.tables) ∧ m.len = 0x1000 := by
  cases hdata : s.data with
  | nil =>
      rw [hdata] at h
      obtain rfl := Except.ok.inj h
      cases hret
  | cons a rest =>
      rw [hdata] at h
      unfold mapSmall at h
      rw [if_pos (show 0 < 0x1000 from Nat.zero_lt_succ _)] at h
      obtain ⟨-, h⟩ := assert_bind_eq_ok.1 h
      by_cases ha : a = 0
      · rw [if_pos ha] at h
        obtain rfl := Except.ok.inj h
        cases hret
      rw [if_neg ha] at h
      obtain ⟨⟨ret, s₁⟩, hmap, h⟩ := bind_eq_ok.1 h
      dsimp only at h
      by_cases hok : ret = OK
      · rw [if_neg (not_not.2 hok)] at h
        have hdone : m = ⟨OK, 0x1000, wadd vaddr 0x1000, s₁⟩ := by
          cases rest with
          | nil => exact (Except.ok.inj h).symm
          | cons b rest => exact (Except.ok.inj h).symm
        subst hdone hok
        exact ⟨a, rest, rfl, ha, hmap, rfl⟩
      · rw [if_pos hok] at h
        obtain rfl := Except.ok.inj h
        exact absurd hret hok

/-- The page is mapped by one of the loops for 4 KiB pages, whichever comes first. -/
theorem mapAllocAt_page {flag : Nat} (hv : vaddr % 0x1000 = 0)
    (h : mapAllocAt s vaddr 0x1000 flag = .ok (OK, s')) :
    ∃ a rest, s.data = a :: rest ∧ a ≠ 0 ∧
      map4kPageP2V { s with data := rest } a vaddr flag = .ok (OK, s') := by
  have h' := h
  obtain ⟨m₁, hhead, h⟩ := bind_eq_ok.1 h
  obtain ⟨m₂, hmiddle, h⟩ := bind_eq_ok.1 h
  obtain ⟨m, htail, -⟩ := bind_eq_ok.1 h
  obtain ⟨hret, rfl⟩ := mapAllocAt_ok (m := m) (by rw [mapAllocAt, hhead, ok_bind, hmiddle, ok_bind,
    htail, ok_bind]) h'
  -- a page is too short for the loop over 2 MiB pages
  have hmid : m₁.len = 0 ∨ m₁.len = 0x1000 → m₂ = m₁ := by
    intro hlen
    rw [mapMiddle, if_neg] at hmiddle
    · exact (Except.ok.inj hmiddle).symm
    · rintro ⟨-, hbig⟩
      unfold wsub at hbig
      rcases hlen with hlen | hlen
      · rw [hlen] at hbig
        omega
      · rw [hlen] at hbig
        omega
  by_cases hstart : vaddr % 0x200000 = 0
  · rw [mapHead, if_neg (not_not.2 hstart)] at hhead
    obtain rfl := Except.ok.inj hhead
    obtain rfl := hmid (.inl rfl)
    rw [mapTail, if_pos rfl] at htail
    obtain ⟨a, rest, hdata, ha, hmap, -⟩ := mapSmall_page htail hret
    exact ⟨a, rest, hdata, ha, hmap⟩
  · rw [mapHead, if_pos hstart] at hhead
    dsimp only at hhead
    have hroom : (if 0x1000 > 0x200000 - vaddr % 0x200000 then 0x200000 - vaddr % 0x200000 else 0x1000)
        = 0x1000 := by
      split
      · omega
      · rfl
    rw [hroom] at hhead
    have hret₂ : m₂.ret = OK := by
      by_contra hne
      rw [mapTail, if_neg hne] at htail
      exact hne ((congrArg MapProgress.ret (Except.ok.inj htail)).trans hret)
    have hret₁ : m₁.ret = OK := by
      by_contra hne
      rw [mapMiddle, if_neg fun hgo => hne hgo.1] at hmiddle
      exact hne ((congrArg MapProgress.ret (Except.ok.inj hmiddle)).trans hret₂)
    obtain ⟨a, rest, hdata, ha, hmap, hlen⟩ := mapSmall_page hhead hret₁
    obtain rfl := hmid (.inr hlen)
    rw [mapTail, if_pos hret₂, mapSmall_stop (by omega)] at htail
    obtain rfl := Except.ok.inj htail
    exact ⟨a, rest, hdata, ha, hmap⟩

end Yaos
