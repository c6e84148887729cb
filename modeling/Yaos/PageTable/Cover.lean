import Yaos.PageTable.Pages

set_option autoImplicit false

/-! # Mapping a range (`map_p2v`)

4 KiB pages up to the first 2 MiB boundary, 2 MiB pages while they fit, 4 KiB pages for the rest. The
stages are chosen by `vaddr` alone, and the first one goes in whole pages: when it stops past the end of
the range, `size - len` wraps and 2 MiB pages are mapped all the way round the address space. -/

namespace Yaos

open Word TableTree

/-- One of the addresses from `vaddr + a` up to `vaddr + b`, as the processor sees addresses. -/
def InSpan (vaddr a b x : Nat) : Prop := ∃ i, a ≤ i ∧ i < b ∧ x % 2 ^ 48 = (vaddr + i) % 2 ^ 48

/-- `len` bytes from `vaddr` on are mapped to those from `paddr` on, and nothing else changed. -/
structure Covered (s s' : PgTables) (paddr vaddr len : Nat) : Prop where
  here : ∀ i < len, translate s' (vaddr + i) = some (paddr + i)
  there : ∀ x, ¬ InSpan vaddr 0 len x → translate s' x = translate s x

/-- `map_p2v` ends with `OK` and covers its range. -/
def MapsRange (s : PgTables) (paddr vaddr size flag : Nat) : Prop :=
  ∃ fuel s', mapP2V fuel s paddr vaddr size flag = .ok (OK, s') ∧
    Covered s s' paddr vaddr (0x1000 * pagesIn size)

/-- What is before the first 2 MiB boundary. -/
def roomBefore (vaddr : Nat) : Nat := (0x200000 - vaddr % 0x200000) % 0x200000

/-- The first stage ends at the end of a page, or at the boundary. -/
def HeadWhole (vaddr size : Nat) : Prop := roomBefore vaddr ≤ size ∨ size % 0x1000 = 0

/-- 2 MiB pages are mapped to 2 MiB pages. -/
def BodyAligned (paddr vaddr size : Nat) : Prop :=
  roomBefore vaddr + 0x200000 ≤ size → paddr % 0x200000 = vaddr % 0x200000

/-- The first stage passes the end of the range and stops at a boundary where a 2 MiB page can be mapped:
    the call goes on. -/
def RunsOn (paddr vaddr size : Nat) : Prop :=
  ¬ HeadWhole vaddr size ∧ 0x1000 * pagesIn size = roomBefore vaddr ∧
    paddr % 0x200000 = vaddr % 0x200000

/-! ## The loops -/

section Loops

variable {mapPage : PgTables → Nat → Nat → Nat → Except Fault (Nat × PgTables)} {page flag : Nat}
  {more : Nat → Bool}

/-- A page has been mapped. -/
def P2VProgress.next (m : P2VProgress) (page : Nat) (s : PgTables) : P2VProgress :=
  { m with paddr := wadd m.paddr page, vaddr := wadd m.vaddr page, len := wadd m.len page, tables := s }

section Next

variable (m : P2VProgress) (page : Nat) (s : PgTables)

theorem P2VProgress.next_ret : (m.next page s).ret = m.ret := rfl

theorem P2VProgress.next_paddr : (m.next page s).paddr = wadd m.paddr page := rfl

theorem P2VProgress.next_vaddr : (m.next page s).vaddr = wadd m.vaddr page := rfl

theorem P2VProgress.next_len : (m.next page s).len = wadd m.len page := rfl

end Next

theorem mapWhile_stop {fuel : Nat} {m : P2VProgress} (h : more m.len = false) :
    mapWhile mapPage page flag more (fuel + 1) m = .ok m := by
  rw [mapWhile, if_neg (by simp [h])]

theorem mapWhile_step {fuel : Nat} {m : P2VProgress} {s : PgTables} (h : more m.len = true)
    (hpage : mapPage m.tables m.paddr m.vaddr flag = .ok (OK, s)) :
    mapWhile mapPage page flag more (fuel + 1) m =
      mapWhile mapPage page flag more fuel (m.next page s) := by
  rw [mapWhile, if_pos h, hpage, ok_bind]
  dsimp only
  rw [if_neg (by decide)]
  rfl

/-- A loop that is entered and ends has mapped its first page. -/
theorem mapWhile_first {fuel : Nat} {m m' : P2VProgress} (h : more m.len = true)
    (hrun : mapWhile mapPage page flag more fuel m = .ok m') :
    ∃ r, mapPage m.tables m.paddr m.vaddr flag = .ok r := by
  cases fuel with
  | zero => cases hrun
  | succ fuel =>
    rw [mapWhile, if_pos h] at hrun
    obtain ⟨r, hpage, -⟩ := bind_eq_ok.1 hrun
    exact ⟨r, hpage⟩

/-- More fuel does no harm. -/
theorem mapWhile_mono {fuel fuel' : Nat} {m m' : P2VProgress} (hle : fuel ≤ fuel')
    (hrun : mapWhile mapPage page flag more fuel m = .ok m') :
    mapWhile mapPage page flag more fuel' m = .ok m' := by
  induction fuel generalizing fuel' m with
  | zero => cases hrun
  | succ fuel ih =>
    obtain ⟨fuel', rfl⟩ : ∃ k, fuel' = k + 1 := ⟨fuel' - 1, by omega⟩
    rw [mapWhile] at hrun ⊢
    by_cases hmore : more m.len = true
    · rw [if_pos hmore] at hrun ⊢
      obtain ⟨⟨ret, s⟩, hpage, hrest⟩ := bind_eq_ok.1 hrun
      rw [hpage, ok_bind]
      dsimp only at hrest ⊢
      by_cases hret : ret ≠ OK
      · rw [if_pos hret] at hrest ⊢
        exact hrest
      · rw [if_neg hret] at hrest ⊢
        exact ih (Nat.le_of_succ_le_succ hle) hrest
    · rw [if_neg hmore] at hrun ⊢
      exact hrun

/-- An invariant of a loop whose pages can all be mapped. -/
theorem mapWhile_run (I : Nat → P2VProgress → Prop) (bound : Nat) {fuel l : Nat} {m : P2VProgress}
    (hstep : ∀ l m, I l m → more m.len = true → l + page ≤ bound ∧
      ∃ s, mapPage m.tables m.paddr m.vaddr flag = .ok (OK, s) ∧ I (l + page) (m.next page s))
    (h : I l m) (hle : l ≤ bound) (hfuel : bound < l + fuel * page) :
    ∃ l' m', mapWhile mapPage page flag more fuel m = .ok m' ∧ I l' m' ∧ more m'.len = false := by
  induction fuel generalizing l m with
  | zero => exact absurd hle (by omega)
  | succ fuel ih =>
    by_cases hmore : more m.len = true
    · obtain ⟨hbound, s, hpage, hnext⟩ := hstep l m h hmore
      obtain ⟨l', m', hrun, hrest⟩ := ih hnext hbound (by rw [Nat.succ_mul] at hfuel; omega)
      exact ⟨l', m', (mapWhile_step hmore hpage).trans hrun, hrest⟩
    · rw [Bool.not_eq_true] at hmore
      exact ⟨l, m, mapWhile_stop hmore, h, hmore⟩

end Loops

/-! ## One page of the range -/

section Steps

variable {s s₁ s₂ : PgTables} {paddr vaddr flag l page : Nat} {m : P2VProgress} {W : Nat → Prop}

theorem Covered.refl (s : PgTables) (paddr vaddr : Nat) : Covered s s paddr vaddr 0 where
  here := fun i hi => absurd hi (Nat.not_lt_zero i)
  there := fun _ _ => rfl

theorem Covered.extend (h : Covered s s₁ paddr vaddr l)
    (hhere : ∀ i < page, translate s₂ (vaddr + l + i) = some (paddr + l + i))
    (hthere : ∀ x, ¬ InSpan vaddr l (l + page) x → translate s₂ x = translate s₁ x)
    (hfit : l + page ≤ 2 ^ 48) : Covered s s₂ paddr vaddr (l + page) where
  here i hi := by
    by_cases hl : i < l
    · refine (hthere _ ?_).trans (h.here i hl)
      rintro ⟨j, hlow, hhigh, heq⟩
      omega
    · obtain ⟨k, rfl⟩ : ∃ k, i = l + k := ⟨i - l, by omega⟩
      rw [← Nat.add_assoc, ← Nat.add_assoc]
      exact hhere k (by omega)
  there x hx := by
    have hnew : ¬ InSpan vaddr l (l + page) x := fun ⟨i, _, hi, heq⟩ => hx ⟨i, Nat.zero_le _, hi, heq⟩
    have hold : ¬ InSpan vaddr 0 l x := fun ⟨i, hi, hl, heq⟩ => hx ⟨i, hi, by omega, heq⟩
    exact (hthere x hnew).trans (h.there x hold)

/-- `l` bytes of the range are mapped; the tables are in order over `W`. -/
structure P2VRun (s : PgTables) (paddr vaddr : Nat) (W : Nat → Prop) (l : Nat) (m : P2VProgress) :
    Prop where
  ret : m.ret = OK
  paddr_eq : m.paddr = wadd paddr l
  vaddr_eq : m.vaddr = wadd vaddr l
  len : m.len = l
  covered : Covered s m.tables paddr vaddr l
  prepared : m.tables.Prepared W
  zeroed : ∀ f ∈ m.tables.pt, ∀ n, m.tables.frames f n = 0

theorem P2VRun.mono {V : Nat → Prop} (h : P2VRun s paddr vaddr W l m) (hsub : ∀ x, V x → W x) :
    P2VRun s paddr vaddr V l m :=
  { h with prepared := h.prepared.mono hsub }

theorem wadd_wadd (a b c : Nat) : wadd (wadd a b) c = wadd a (b + c) := by
  unfold wadd
  omega

/-- The next page, once its mapping is known. -/
theorem P2VRun.next {V : Nat → Prop} (h : P2VRun s paddr vaddr W l m) (hfit : l + page ≤ 2 ^ 48)
    (hcovered : Covered s s₂ paddr vaddr (l + page)) (hprep : s₂.Prepared V)
    (hzero : ∀ f ∈ s₂.pt, ∀ n, s₂.frames f n = 0) :
    P2VRun s paddr vaddr V (l + page) (m.next page s₂) where
  ret := h.ret
  paddr_eq := by rw [P2VProgress.next_paddr, h.paddr_eq, wadd_wadd]
  vaddr_eq := by rw [P2VProgress.next_vaddr, h.vaddr_eq, wadd_wadd]
  len := by rw [P2VProgress.next_len, h.len, wadd_eq (lt_of_le_of_lt hfit (by decide))]
  covered := hcovered
  prepared := hprep
  zeroed := hzero

theorem P2VRun.step4k (h : P2VRun s paddr vaddr W l m) (hp : paddr % 0x1000 = 0)
    (hv : vaddr % 0x1000 = 0) (hl : l % 0x1000 = 0) (hfit : l + 0x1000 ≤ 2 ^ 48)
    (hword : paddr + (l + 0x1000) ≤ 2 ^ 64) (hW : W (wadd vaddr l)) (hf : flag < 0x1000)
    (hpres : Present flag) :
    ∃ s₂, map4kPageP2V m.tables m.paddr m.vaddr flag = .ok (OK, s₂) ∧
      P2VRun s paddr vaddr W (l + 0x1000) (m.next 0x1000 s₂) := by
  have hpaddr : wadd paddr l = paddr + l := wadd_eq (by omega)
  have halign : (paddr + l) % 0x1000 = 0 := by omega
  have hvalign : wadd vaddr l % 0x1000 = 0 := by
    unfold wadd
    omega
  rw [h.paddr_eq, h.vaddr_eq, hpaddr]
  obtain ⟨s₂, hrun, hprep, hm⟩ := h.prepared.map4k hW halign hvalign hf
  have hat := hm.pageAt (h.prepared.upper _ hW) (h.prepared.pde _ hW) halign hf hpres
  have hzero := hm.zeroed h.zeroed
  refine ⟨s₂, hrun, h.next hfit (h.covered.extend ?_ ?_ hfit) hprep hzero⟩
  · intro i hi
    rw [hat.here _ (by unfold virtPage wadd; omega), show (vaddr + l + i) % 0x1000 = i by omega]
  · intro x hx
    refine hat.there x (fun hpage => hx ⟨l + x % 0x1000, by omega, by omega, ?_⟩) fun _ hpde => ?_
    · unfold virtPage wadd at hpage
      omega
    · obtain ⟨f, rest, hpt⟩ := List.exists_cons_of_ne_nil (h.prepared.pt_ne hW hpde)
      rw [hpt]
      exact h.zeroed f (hpt ▸ List.mem_cons_self)

theorem P2VRun.step2M {total : Nat} (h : P2VRun s paddr vaddr (InSpan vaddr l total) l m)
    (hp : (paddr + l) % 0x200000 = 0) (hv : (vaddr + l) % 0x200000 = 0) (hfit : l + 0x200000 ≤ total)
    (htotal : total ≤ 2 ^ 48) (hword : paddr + total ≤ 2 ^ 64) (hf : flag < 0x1000)
    (hpres : Present flag) (hlarge : Large flag) :
    ∃ s₂, mapPageP2V m.tables m.paddr m.vaddr flag = .ok (OK, s₂) ∧
      P2VRun s paddr vaddr (InSpan vaddr (l + 0x200000) total) (l + 0x200000)
        (m.next 0x200000 s₂) := by
  have hpaddr : wadd paddr l = paddr + l := wadd_eq (by omega)
  have hvalign : wadd vaddr l % 0x200000 = 0 := by
    unfold wadd
    omega
  have hW : InSpan vaddr l total (wadd vaddr l) := ⟨l, le_rfl, by omega, by unfold wadd; omega⟩
  rw [h.paddr_eq, h.vaddr_eq, hpaddr]
  obtain ⟨s₂, hrun, hprep, hm⟩ := h.prepared.map2M hW hp hvalign hf hpres hlarge
  have hat := hm.regionAt (h.prepared.upper _ hW) hp hf hpres hlarge
  refine ⟨s₂, hrun, h.next (by omega) (h.covered.extend ?_ ?_ (by omega)) (hprep.mono ?_)
    (hm.zeroed h.zeroed)⟩
  · intro i hi
    rw [hat.here _ (by unfold virtRegion wadd; omega), show (vaddr + l + i) % 0x200000 = i by omega]
  · intro x hx
    refine hat.there x fun hregion => hx ⟨l + x % 0x200000, by omega, by omega, ?_⟩
    unfold virtRegion wadd at hregion
    omega
  · rintro x ⟨i, hlow, hhigh, heq⟩
    refine ⟨⟨i, by omega, hhigh, heq⟩, ?_⟩
    unfold virtRegion wadd
    omega

end Steps

/-! ## The stages -/

section Stages

variable {s : PgTables} {paddr vaddr size flag l fuel : Nat} {m : P2VProgress} {W : Nat → Prop}

/-- The range and the flags `map_p2v` is called with. -/
structure P2VArgs (paddr vaddr size flag : Nat) : Prop where
  paddr_page : paddr % 0x1000 = 0
  vaddr_page : vaddr % 0x1000 = 0
  vaddr_word : vaddr < 2 ^ 64
  pos : 0 < size
  fits : 0x1000 * pagesIn size ≤ 2 ^ 48
  paddr_fits : paddr + 0x1000 * pagesIn size ≤ 2 ^ 64
  present : Present flag
  large : Large flag

theorem pagesIn_bounds (size : Nat) :
    size ≤ 0x1000 * pagesIn size ∧ 0x1000 * pagesIn size < size + 0x1000 := by
  unfold pagesIn
  omega

theorem p2v_fuel (h : 2 ^ 36 < fuel) : 2 ^ 48 < 0 + fuel * 0x1000 := by omega

/-- 4 KiB pages until `stop` is reached or passed, at `last`. -/
theorem p2vSmall_run {stop last : Nat} (hargs : P2VArgs paddr vaddr size flag) (hf : flag < 0x1000)
    (h : P2VRun s paddr vaddr W l m) (hl : l % 0x1000 = 0) (hle : l ≤ last)
    (hlast : last % 0x1000 = 0 ∧ stop ≤ last ∧ last < stop + 0x1000)
    (hrange : last ≤ 0x1000 * pagesIn size) (hW : ∀ i, l ≤ i → i < last → W (wadd vaddr i))
    (hfuel : 2 ^ 36 < fuel) :
    ∃ m', mapWhile map4kPageP2V 0x1000 flag (· < stop) fuel m = .ok m' ∧
      P2VRun s paddr vaddr W last m' := by
  have hfits := hargs.fits
  have hpfits := hargs.paddr_fits
  have hstep : ∀ k m, (P2VRun s paddr vaddr W k m ∧ k % 0x1000 = 0 ∧ l ≤ k ∧ k ≤ last) →
      decide (m.len < stop) = true → k + 0x1000 ≤ last ∧
        ∃ s₂, map4kPageP2V m.tables m.paddr m.vaddr flag = .ok (OK, s₂) ∧
          P2VRun s paddr vaddr W (k + 0x1000) (m.next 0x1000 s₂) ∧ (k + 0x1000) % 0x1000 = 0 ∧
            l ≤ k + 0x1000 ∧ k + 0x1000 ≤ last := by
    rintro k m ⟨hk, halign, hlow, hhigh⟩ hmore
    rw [hk.len, decide_eq_true_eq] at hmore
    have hnext : k + 0x1000 ≤ last := by omega
    have hin : k + 0x1000 ≤ 0x1000 * pagesIn size := hnext.trans hrange
    have hword : paddr + (k + 0x1000) ≤ 2 ^ 64 := (Nat.add_le_add_left hin paddr).trans hpfits
    obtain ⟨s₂, hpage, hrun⟩ := hk.step4k hargs.paddr_page hargs.vaddr_page halign (hin.trans hfits)
      hword (hW k hlow (by omega)) hf hargs.present
    exact ⟨hnext, s₂, hpage, hrun, by omega, by omega, hnext⟩
  have hbound : last < l + fuel * 0x1000 := by
    have := p2v_fuel hfuel
    omega
  obtain ⟨l', m', hrun, ⟨hrest, halign', -, hle'⟩, hstop⟩ : ∃ l' m',
      mapWhile map4kPageP2V 0x1000 flag (· < stop) fuel m = .ok m' ∧
        (P2VRun s paddr vaddr W l' m' ∧ l' % 0x1000 = 0 ∧ l ≤ l' ∧ l' ≤ last) ∧
          decide (m'.len < stop) = false :=
    mapWhile_run (fun k m => P2VRun s paddr vaddr W k m ∧ k % 0x1000 = 0 ∧ l ≤ k ∧ k ≤ last) last hstep
      ⟨h, hl, le_rfl, hle⟩ hle hbound
  rw [hrest.len, decide_eq_false_iff_not] at hstop
  obtain rfl : l' = last := by omega
  exact ⟨m', hrun, hrest⟩

/-- Where the first stage ends. -/
def headLen (vaddr size : Nat) : Nat := min (0x1000 * pagesIn size) (roomBefore vaddr)

theorem p2vHead_run (hargs : P2VArgs paddr vaddr size flag) (hf : flag < 0x1000)
    (h : P2VRun s paddr vaddr W 0 m) (hW : ∀ i < 0x1000 * pagesIn size, W (wadd vaddr i))
    (hfuel : 2 ^ 36 < fuel) :
    ∃ m', p2vHead fuel flag size m = .ok m' ∧ P2VRun s paddr vaddr W (headLen vaddr size) m' := by
  have hv := hargs.vaddr_page
  have hpages := pagesIn_bounds size
  have hvaddr : m.vaddr = vaddr := by rw [h.vaddr_eq, wadd_eq hargs.vaddr_word, Nat.add_zero]
  by_cases hroom : vaddr % 0x200000 = 0
  · have hlen : headLen vaddr size = 0 := by
      unfold headLen roomBefore
      omega
    refine ⟨m, ?_, hlen ▸ h⟩
    rw [p2vHead, hvaddr, if_neg (by omega)]
  · have hroom' : roomBefore vaddr = 0x200000 - vaddr % 0x200000 := by
      unfold roomBefore
      omega
    rw [p2vHead, hvaddr, if_pos hroom, ← hroom']
    refine p2vSmall_run hargs hf h rfl (Nat.zero_le _) ?_ (Nat.min_le_left _ _) ?_ hfuel
    · unfold headLen
      rw [hroom']
      split <;> omega
    · intro i _ hi
      exact hW i (by unfold headLen at hi; omega)

/-- With the first stage ending in the range, the second one stays in it. -/
theorem p2vMiddle_run (hargs : P2VArgs paddr vaddr size flag) (hf : flag < 0x1000)
    (hwhole : HeadWhole vaddr size) (hbody : BodyAligned paddr vaddr size)
    (h : P2VRun s paddr vaddr (InSpan vaddr (headLen vaddr size) (0x1000 * pagesIn size))
      (headLen vaddr size) m) (hfuel : 2 ^ 36 < fuel) :
    ∃ l m', p2vMiddle fuel flag size m = .ok m' ∧
      P2VRun s paddr vaddr (InSpan vaddr l (0x1000 * pagesIn size)) l m' ∧ l % 0x1000 = 0 ∧ l ≤ size := by
  have hv := hargs.vaddr_page
  have hfits := hargs.fits
  have hpages := pagesIn_bounds size
  have hle : headLen vaddr size ≤ size := by
    unfold headLen HeadWhole at *
    omega
  have hpage : headLen vaddr size % 0x1000 = 0 := by
    unfold headLen roomBefore
    omega
  have hsub : wsub size m.len = size - headLen vaddr size := by
    rw [h.len, wsub_eq hle (by omega)]
  rw [p2vMiddle, hsub, h.ret]
  by_cases hbig : 0x200000 ≤ size - headLen vaddr size
  · have hhead : headLen vaddr size = roomBefore vaddr := by
      unfold headLen at hbig ⊢
      omega
    have halign : paddr % 0x200000 = vaddr % 0x200000 := hbody (by omega)
    have hstart : (vaddr + headLen vaddr size) % 0x200000 = 0 := by
      rw [hhead]
      unfold roomBefore
      omega
    rw [if_pos ⟨rfl, hbig⟩, wsub_eq (by omega) (by omega)]
    -- the invariant of the loop: `k` bytes are mapped, up to a 2 MiB boundary of the addresses
    have hstep : ∀ k m, (P2VRun s paddr vaddr (InSpan vaddr k (0x1000 * pagesIn size)) k m ∧
        (vaddr + k) % 0x200000 = 0 ∧ k ≤ size) → decide (m.len ≤ size - 0x200000) = true →
        k + 0x200000 ≤ size ∧ ∃ s₂, mapPageP2V m.tables m.paddr m.vaddr flag = .ok (OK, s₂) ∧
          P2VRun s paddr vaddr (InSpan vaddr (k + 0x200000) (0x1000 * pagesIn size)) (k + 0x200000)
            (m.next 0x200000 s₂) ∧ (vaddr + (k + 0x200000)) % 0x200000 = 0 ∧ k + 0x200000 ≤ size := by
      rintro k m ⟨hk, hmid, hin⟩ hmore
      rw [hk.len, decide_eq_true_eq] at hmore
      obtain ⟨s₂, hpage, hrun⟩ := hk.step2M (by omega) hmid (by omega) hfits hargs.paddr_fits hf
        hargs.present hargs.large
      exact ⟨by omega, s₂, hpage, hrun, by omega, by omega⟩
    have hbound : size < headLen vaddr size + fuel * 0x200000 := by
      have := p2v_fuel hfuel
      omega
    obtain ⟨l, m', hrun, ⟨hrest, hmid, hin⟩, -⟩ : ∃ l m',
        mapWhile mapPageP2V 0x200000 flag (· ≤ size - 0x200000) fuel m = .ok m' ∧
          (P2VRun s paddr vaddr (InSpan vaddr l (0x1000 * pagesIn size)) l m' ∧
            (vaddr + l) % 0x200000 = 0 ∧ l ≤ size) ∧ decide (m'.len ≤ size - 0x200000) = false :=
      mapWhile_run (fun k m => P2VRun s paddr vaddr (InSpan vaddr k (0x1000 * pagesIn size)) k m ∧
        (vaddr + k) % 0x200000 = 0 ∧ k ≤ size) size hstep ⟨h, hstart, hle⟩ hle hbound
    exact ⟨l, m', hrun, hrest, by omega, hin⟩
  · rw [if_neg (fun hc => hbig hc.2)]
    exact ⟨_, m, rfl, h, hpage, hle⟩

theorem p2vTail_run (hargs : P2VArgs paddr vaddr size flag) (hf : flag < 0x1000)
    (h : P2VRun s paddr vaddr (InSpan vaddr l (0x1000 * pagesIn size)) l m) (hl : l % 0x1000 = 0)
    (hle : l ≤ size) (hfuel : 2 ^ 36 < fuel) :
    ∃ m', p2vTail fuel flag size m = .ok m' ∧
      P2VRun s paddr vaddr (InSpan vaddr l (0x1000 * pagesIn size)) (0x1000 * pagesIn size) m' := by
  have hpages := pagesIn_bounds size
  rw [p2vTail, if_pos h.ret]
  refine p2vSmall_run hargs hf h hl (by omega) ⟨by omega, hpages⟩ le_rfl (fun i hlow hhigh => ?_) hfuel
  exact ⟨i, hlow, hhigh, by unfold wadd; omega⟩

end Stages

/-! ## A call that runs on -/

section Rounds

variable {s s' : PgTables} {paddr vaddr flag l k : Nat} {m : P2VProgress}

/-- In order above the page directories, everywhere. -/
structure PgTables.UpperReady (s : PgTables) : Prop where
  sound : s.Sound
  upper : ∀ x, s.OpenAt x
  tables : TablesSuffice s fun _ => True

theorem PgTables.Prepared.upperReady {V : Nat → Prop} (h : s.Prepared V) (hV : ∀ x, V x) :
    s.UpperReady where
  sound := h.sound
  upper x := h.upper x (hV x)
  tables := by
    obtain ⟨F, hcard, hF⟩ := h.tables
    refine ⟨F.toList, (Finset.length_toList F).trans_le hcard, fun x _ q hq hzero => ?_⟩
    exact Finset.mem_toList.2 (hF q ⟨x, hV x, .inl ⟨hq, hzero⟩⟩)

theorem PgTables.UpperReady.map2M (h : s.UpperReady) (hp : paddr % 0x200000 = 0)
    (hv : vaddr % 0x200000 = 0) (hf : flag < 0x1000) (hpres : Present flag) (hlarge : Large flag) :
    ∃ s', mapPageP2V s paddr vaddr flag = .ok (OK, s') ∧ s'.UpperReady ∧ RegionAt s s' paddr vaddr := by
  have hreach : s.Reachable vaddr :=
    ⟨h.sound, (h.upper vaddr).pml4e, (h.upper vaddr).pdpte, h.tables.missing_le trivial⟩
  obtain ⟨s', hrun, hsound, hm⟩ := mapPageP2V_mapped hreach hp hv hf (pgLink_large hp hf hpres hlarge)
  exact ⟨s', hrun, ⟨hsound, fun x => hm.off.openAt (h.upper x), hm.suffice _ trivial h.tables⟩,
    hm.regionAt (h.upper vaddr) hp hf hpres hlarge⟩

/-- After `k` 2 MiB pages from `vaddr` on, which may have gone round the address space. -/
structure Rounds (paddr vaddr l k : Nat) (m : P2VProgress) : Prop where
  ret : m.ret = OK
  paddr_eq : m.paddr = wadd paddr (0x200000 * k)
  vaddr_eq : m.vaddr = wadd vaddr (0x200000 * k)
  len : m.len = l + 0x200000 * k
  ready : m.tables.UpperReady
  done : ∀ x, (∃ j < k, translate m.tables x = some (wadd paddr (0x200000 * j) + x % 0x200000)) ∨
    ∀ j < k, virtRegion x ≠ virtRegion (vaddr + 0x200000 * j)

theorem Rounds.step (h : Rounds paddr vaddr l k m) (hp : paddr % 0x200000 = 0)
    (hv : vaddr % 0x200000 = 0) (hf : flag < 0x1000) (hpres : Present flag) (hlarge : Large flag)
    (hword : l + 0x200000 * (k + 1) < 2 ^ 64) :
    ∃ s', mapPageP2V m.tables m.paddr m.vaddr flag = .ok (OK, s') ∧
      Rounds paddr vaddr l (k + 1) (m.next 0x200000 s') := by
  have hpk : wadd paddr (0x200000 * k) % 0x200000 = 0 := by
    unfold wadd
    omega
  have hvk : wadd vaddr (0x200000 * k) % 0x200000 = 0 := by
    unfold wadd
    omega
  have hnext : 0x200000 * k + 0x200000 = 0x200000 * (k + 1) := rfl
  rw [h.paddr_eq, h.vaddr_eq]
  obtain ⟨s', hrun, hready, hat⟩ := h.ready.map2M hpk hvk hf hpres hlarge
  refine ⟨s', hrun, (m.next_ret _ _).trans h.ret, ?_, ?_, ?_, hready, fun x => ?_⟩
  · rw [P2VProgress.next_paddr, h.paddr_eq, wadd_wadd, hnext]
  · rw [P2VProgress.next_vaddr, h.vaddr_eq, wadd_wadd, hnext]
  · have hsum : l + 0x200000 * k + 0x200000 = l + 0x200000 * (k + 1) := by rw [Nat.add_assoc, hnext]
    rw [P2VProgress.next_len, h.len, wadd_eq (hsum.trans_lt hword), hsum]
  · by_cases hregion : virtRegion x = virtRegion (wadd vaddr (0x200000 * k))
    · exact .inl ⟨k, Nat.lt_succ_self k, hat.here x hregion⟩
    · have hkept : translate (m.next 0x200000 s').tables x = translate m.tables x := hat.there x hregion
      rcases h.done x with ⟨j, hj, htr⟩ | hnone
      · exact .inl ⟨j, by omega, hkept.trans htr⟩
      · refine .inr fun j hj heq => ?_
        by_cases hjk : j = k
        · subst hjk
          refine hregion (heq.trans ?_)
          unfold virtRegion wadd
          omega
        · exact hnone j (by omega) heq

theorem rounds_word {size : Nat} (hmore : l + 0x200000 * k ≤ 2 ^ 64 + size - 0x200000) (hpast : size < l)
    (hroom : l < 0x200000) : 0x200000 * (k + 1) < 2 ^ 64 ∧ l + 0x200000 * (k + 1) < 2 ^ 64 := by
  omega

/-- The second stage, once `size - len` has wrapped: it ends with every region mapped by some round. -/
theorem p2vMiddle_rounds {size fuel : Nat} {m' : P2VProgress} (h : Rounds paddr vaddr l 0 m)
    (hp : paddr % 0x200000 = 0) (hv : vaddr % 0x200000 = 0) (hf : flag < 0x1000) (hpres : Present flag)
    (hlarge : Large flag) (hpast : size < l) (hroom : l < 0x200000) (hfuel : 2 ^ 44 ≤ fuel)
    (hrun : p2vMiddle fuel flag size m = .ok m') :
    ∃ k, 2 ^ 27 ≤ k ∧ 0x200000 * k < 2 ^ 64 ∧ Rounds paddr vaddr l k m' := by
  have hlen : m.len = l := by rw [h.len, Nat.mul_zero, Nat.add_zero]
  have hend : wsub size 0x200000 = 2 ^ 64 + size - 0x200000 := by
    unfold wsub
    omega
  have hgo : 0x200000 ≤ wsub size m.len := by
    rw [hlen]
    unfold wsub
    omega
  rw [p2vMiddle, if_pos ⟨h.ret, hgo⟩, hend] at hrun
  have hstep : ∀ n m, (∃ k, n = 0x200000 * k ∧ 0x200000 * k < 2 ^ 64 ∧ Rounds paddr vaddr l k m) →
      decide (m.len ≤ 2 ^ 64 + size - 0x200000) = true → n + 0x200000 ≤ 2 ^ 64 ∧
        ∃ s', mapPageP2V m.tables m.paddr m.vaddr flag = .ok (OK, s') ∧
          ∃ k, n + 0x200000 = 0x200000 * k ∧ 0x200000 * k < 2 ^ 64 ∧
            Rounds paddr vaddr l k (m.next 0x200000 s') := by
    rintro n m ⟨k, rfl, -, hk⟩ hmore
    rw [hk.len, decide_eq_true_eq] at hmore
    obtain ⟨hnext, hword⟩ := rounds_word hmore hpast hroom
    obtain ⟨s', hpage, hrounds⟩ := hk.step hp hv hf hpres hlarge hword
    exact ⟨hnext.le, s', hpage, k + 1, rfl, hnext, hrounds⟩
  have hbound : 2 ^ 64 < 0 + fuel * 0x200000 := by omega
  obtain ⟨n, m₁, hrun₁, ⟨k, rfl, hlt, hk⟩, hstop⟩ : ∃ n m₁,
      mapWhile mapPageP2V 0x200000 flag (· ≤ 2 ^ 64 + size - 0x200000) fuel m = .ok m₁ ∧
        (∃ k, n = 0x200000 * k ∧ 0x200000 * k < 2 ^ 64 ∧ Rounds paddr vaddr l k m₁) ∧
          decide (m₁.len ≤ 2 ^ 64 + size - 0x200000) = false :=
    mapWhile_run (fun n m => ∃ k, n = 0x200000 * k ∧ 0x200000 * k < 2 ^ 64 ∧ Rounds paddr vaddr l k m)
      (2 ^ 64) hstep ⟨0, rfl, by decide, h⟩ (Nat.zero_le _) hbound
  rw [hrun] at hrun₁
  obtain rfl := Except.ok.inj hrun₁
  rw [hk.len, decide_eq_false_iff_not] at hstop
  exact ⟨k, by omega, hlt, hk⟩

end Rounds

/-! ## The result -/

section Result

variable {s s' : PgTables} {paddr vaddr size flag fuel : Nat} {m m' : P2VProgress} {V : Nat → Prop}

/-- Before the first page. -/
def p2vStart (s : PgTables) (paddr vaddr : Nat) : P2VProgress :=
  { ret := OK, paddr := paddr, vaddr := vaddr, len := 0, tables := s }

theorem mapP2V_stages : mapP2V fuel s paddr vaddr size flag = .ok (OK, s') ↔
    ∃ m₁ m₂ m₃, p2vHead fuel flag size (p2vStart s paddr vaddr) = .ok m₁ ∧
      p2vMiddle fuel flag size m₁ = .ok m₂ ∧ p2vTail fuel flag size m₂ = .ok m₃ ∧
        m₃.ret = OK ∧ m₃.tables = s' := by
  constructor
  · intro hrun
    obtain ⟨m₁, h₁, hrun⟩ := bind_eq_ok.1 hrun
    obtain ⟨m₂, h₂, hrun⟩ := bind_eq_ok.1 hrun
    obtain ⟨m₃, h₃, hrun⟩ := bind_eq_ok.1 hrun
    obtain ⟨hret, htables⟩ := Prod.mk.inj (Except.ok.inj hrun)
    exact ⟨m₁, m₂, m₃, h₁, h₂, h₃, hret, htables⟩
  · rintro ⟨m₁, m₂, m₃, h₁, h₂, h₃, hret, rfl⟩
    unfold p2vStart at h₁
    rw [mapP2V, h₁, ok_bind, h₂, ok_bind, h₃, ok_bind, hret]

theorem mapP2V_mono {fuel' : Nat} (hle : fuel ≤ fuel')
    (hrun : mapP2V fuel s paddr vaddr size flag = .ok (OK, s')) :
    mapP2V fuel' s paddr vaddr size flag = .ok (OK, s') := by
  obtain ⟨m₁, m₂, m₃, h₁, h₂, h₃, hlast⟩ := mapP2V_stages.1 hrun
  refine mapP2V_stages.2 ⟨m₁, m₂, m₃, ?_, ?_, ?_, hlast⟩
  · unfold p2vHead at h₁ ⊢
    split at h₁
    case isTrue h =>
      rw [if_pos h]
      exact mapWhile_mono hle h₁
    case isFalse h => rwa [if_neg h]
  · unfold p2vMiddle at h₂ ⊢
    split at h₂
    case isTrue h =>
      rw [if_pos h]
      exact mapWhile_mono hle h₂
    case isFalse h => rwa [if_neg h]
  · unfold p2vTail at h₃ ⊢
    split at h₃
    case isTrue h =>
      rw [if_pos h]
      exact mapWhile_mono hle h₃
    case isFalse h => rwa [if_neg h]

theorem mapPageP2V_aligned {r : Nat × PgTables} (h : mapPageP2V s paddr vaddr flag = .ok r) :
    vaddr % 0x200000 = 0 ∧ paddr % 0x200000 = 0 := by
  obtain ⟨hv, hrest⟩ := assert_bind_eq_ok.1 h
  exact ⟨hv, (assert_bind_eq_ok.1 hrest).1⟩

/-- Whatever stage comes first looks at the flags. -/
theorem mapP2V_flag (hpos : 0 < size) (hrun : mapP2V fuel s paddr vaddr size flag = .ok (OK, s')) :
    flag < 0x1000 := by
  obtain ⟨m₁, m₂, m₃, h₁, h₂, h₃, -⟩ := mapP2V_stages.1 hrun
  dsimp only [p2vHead, p2vStart] at h₁
  by_cases hroom : vaddr % 0x200000 = 0
  · rw [if_neg (fun h => h hroom)] at h₁
    obtain rfl := Except.ok.inj h₁
    have hsub : wsub size 0 = size % 2 ^ 64 := by
      unfold wsub
      omega
    by_cases hbig : 0x200000 ≤ size % 2 ^ 64
    · rw [p2vMiddle, hsub, if_pos ⟨rfl, hbig⟩] at h₂
      obtain ⟨r, hpage⟩ := mapWhile_first (decide_eq_true (Nat.zero_le _)) h₂
      exact mapPageP2V_flag hpage
    · rw [p2vMiddle, hsub, if_neg (fun h => hbig h.2)] at h₂
      obtain rfl := Except.ok.inj h₂
      rw [p2vTail, if_pos rfl] at h₃
      obtain ⟨r, hpage⟩ := mapWhile_first (decide_eq_true hpos) h₃
      exact map4kPageP2V_flag hpage
  · rw [if_pos hroom] at h₁
    obtain ⟨r, hpage⟩ := mapWhile_first (decide_eq_true (by dsimp only; split <;> omega)) h₁
    exact map4kPageP2V_flag hpage

/-- A first stage that stops past the end maps the range and goes on to other pages. -/
theorem not_covered_of_past (hargs : P2VArgs paddr vaddr size flag) (hf : flag < 0x1000)
    (hlong : RunsOn paddr vaddr size → ∀ x, V x) (hwhole : ¬ HeadWhole vaddr size)
    {m₁ m₂ m₃ : P2VProgress} (hm₁ : P2VRun s paddr vaddr V (headLen vaddr size) m₁)
    (hfuel : 2 ^ 44 ≤ fuel) (h₂ : p2vMiddle fuel flag size m₁ = .ok m₂)
    (h₃ : p2vTail fuel flag size m₂ = .ok m₃) :
    translate m₃.tables vaddr ≠ some paddr := by
  have hv := hargs.vaddr_page
  have hp := hargs.paddr_page
  have hpages := pagesIn_bounds size
  have hpfits := hargs.paddr_fits
  obtain ⟨total, htotal⟩ : ∃ n, n = 0x1000 * pagesIn size := ⟨_, rfl⟩
  rw [← htotal] at hpages hpfits
  have hpast : size < roomBefore vaddr ∧ size % 0x1000 ≠ 0 := by
    unfold HeadWhole at hwhole
    omega
  have hroom : roomBefore vaddr % 0x1000 = 0 ∧ roomBefore vaddr < 0x200000 := by
    unfold roomBefore
    omega
  have hlen : headLen vaddr size = total := by
    unfold headLen
    omega
  rw [hlen] at hm₁
  -- the second stage starts, on aligned addresses
  have hend : wsub size 0x200000 = 2 ^ 64 + size - 0x200000 := by
    unfold wsub
    omega
  have hgo : 0x200000 ≤ wsub size m₁.len ∧ m₁.len ≤ wsub size 0x200000 := by
    rw [hend, hm₁.len]
    unfold wsub
    omega
  have hfirst := h₂
  rw [p2vMiddle, if_pos ⟨hm₁.ret, hgo.1⟩] at hfirst
  obtain ⟨r, hpage⟩ := mapWhile_first (decide_eq_true hgo.2) hfirst
  obtain ⟨hvl, hpl⟩ := mapPageP2V_aligned hpage
  rw [hm₁.vaddr_eq] at hvl
  rw [hm₁.paddr_eq] at hpl
  have haligned : total = roomBefore vaddr ∧ paddr % 0x200000 = vaddr % 0x200000 := by
    unfold roomBefore wadd at *
    omega
  have hV := hlong ⟨hwhole, htotal ▸ haligned.1, haligned.2⟩
  have hstart : Rounds (wadd paddr total) (wadd vaddr total) total 0 m₁ :=
    ⟨hm₁.ret, by rw [wadd_wadd, hm₁.paddr_eq, Nat.mul_zero, Nat.add_zero],
      by rw [wadd_wadd, hm₁.vaddr_eq, Nat.mul_zero, Nat.add_zero], hm₁.len, hm₁.prepared.upperReady hV,
      fun x => .inr fun j hj => absurd hj (Nat.not_lt_zero j)⟩
  obtain ⟨k, hmany, hword, hk⟩ := p2vMiddle_rounds hstart hpl hvl hf hargs.present hargs.large
    (by omega) (by omega) hfuel h₂
  -- and the third has nothing to do
  obtain rfl : m₂ = m₃ := by
    obtain ⟨fuel, rfl⟩ : ∃ n, fuel = n + 1 := ⟨fuel - 1, by omega⟩
    rw [p2vTail, if_pos hk.ret, mapWhile_stop (by rw [hk.len, decide_eq_false_iff_not]; omega)] at h₃
    exact Except.ok.inj h₃
  intro htr
  rcases hk.done vaddr with ⟨j, hj, hround⟩ | hnone
  · rw [htr, Option.some.injEq] at hround
    unfold roomBefore wadd at *
    omega
  · refine hnone (2 ^ 27 - 1) (by omega) ?_
    unfold roomBefore virtRegion wadd at *
    omega

/-- **`map_p2v` covers its range.** Let the tables be in order over the range, with frames at hand for
    those to be made and the frames for page tables clear; and let them be in order everywhere if the call
    runs on. Then `map_p2v` maps the range, page by page, and nothing else, if and only if `flag` has no
    bit above bit 11, the first stage ends with a page of the range, and the 2 MiB pages to be mapped are
    aligned on both sides. -/
theorem mapP2V_covers_iff (hargs : P2VArgs paddr vaddr size flag) (h : s.Prepared V)
    (hzero : ∀ f ∈ s.pt, ∀ n, s.frames f n = 0)
    (hV : ∀ x, InSpan vaddr 0 (0x1000 * pagesIn size) x → V x)
    (hlong : RunsOn paddr vaddr size → ∀ x, V x) :
    MapsRange s paddr vaddr size flag ↔
      flag < 0x1000 ∧ HeadWhole vaddr size ∧ BodyAligned paddr vaddr size := by
  have hpages := pagesIn_bounds size
  have hpos := hargs.pos
  have hstart : P2VRun s paddr vaddr V 0 (p2vStart s paddr vaddr) := by
    have hpfits := hargs.paddr_fits
    have hp : wadd paddr 0 = paddr := wadd_eq (by omega)
    have hv : wadd vaddr 0 = vaddr := wadd_eq hargs.vaddr_word
    exact ⟨rfl, hp.symm, hv.symm, rfl, .refl s paddr vaddr, h, hzero⟩
  have hW : ∀ i < 0x1000 * pagesIn size, V (wadd vaddr i) := fun i hi =>
    hV _ ⟨i, Nat.zero_le i, hi, by unfold wadd; omega⟩
  constructor
  · rintro ⟨fuel₀, s', hrun₀, hcov⟩
    have hrun := mapP2V_mono (Nat.le_add_right fuel₀ (2 ^ 44)) hrun₀
    have hf := mapP2V_flag hpos hrun
    obtain ⟨m₁, m₂, m₃, h₁, h₂, h₃, -, rfl⟩ := mapP2V_stages.1 hrun
    obtain ⟨m, hm, hhead⟩ := p2vHead_run hargs hf hstart hW
      (lt_of_lt_of_le (by decide) (Nat.le_add_left (2 ^ 44) fuel₀))
    rw [hm] at h₁
    obtain rfl := Except.ok.inj h₁
    by_cases hwhole : HeadWhole vaddr size
    · refine ⟨hf, hwhole, fun hbig => ?_⟩
      have hlen : headLen vaddr size = roomBefore vaddr := by
        unfold headLen
        omega
      have hsub : wsub size m.len = size - roomBefore vaddr := by
        rw [hhead.len, hlen, wsub_eq (by omega) (by have := hargs.fits; omega)]
      rw [p2vMiddle, hsub, if_pos ⟨hhead.ret, by omega⟩] at h₂
      -- the first 2 MiB page passed the assertions on its alignment
      obtain ⟨r, hpage⟩ := mapWhile_first (by
        rw [decide_eq_true_eq, hhead.len, hlen, wsub_eq (by omega) (by have := hargs.fits; omega)]
        omega) h₂
      obtain ⟨hvl, hpl⟩ := mapPageP2V_aligned hpage
      rw [hhead.vaddr_eq, hlen] at hvl
      rw [hhead.paddr_eq, hlen] at hpl
      unfold wadd at hvl hpl
      omega
    · exact absurd (hcov.here 0 (by omega)) (not_covered_of_past hargs hf hlong hwhole hhead
        (Nat.le_add_left _ _) h₂ h₃)
  · rintro ⟨hf, hwhole, hbody⟩
    have hfuel : 2 ^ 36 < 2 ^ 36 + 1 := Nat.lt_succ_self _
    obtain ⟨m₁, h₁, hm₁⟩ := p2vHead_run hargs hf hstart hW hfuel
    have hrest : ∀ x, InSpan vaddr (headLen vaddr size) (0x1000 * pagesIn size) x → V x :=
      fun x ⟨i, _, hi, heq⟩ => hV x ⟨i, Nat.zero_le i, hi, heq⟩
    obtain ⟨l, m₂, h₂, hm₂, hl, hle⟩ := p2vMiddle_run hargs hf hwhole hbody (hm₁.mono hrest) hfuel
    obtain ⟨m₃, h₃, hm₃⟩ := p2vTail_run hargs hf hm₂ hl hle hfuel
    exact ⟨2 ^ 36 + 1, m₃.tables, mapP2V_stages.2 ⟨m₁, m₂, m₃, h₁, h₂, h₃, hm₃.ret, rfl⟩, hm₃.covered⟩

/-- Two pages before a boundary, a 2 MiB page and a page behind it. -/
theorem mapP2V_covers_mixed :
    MapsRange (emptySpace [] [0x4000, 0x5000, 0x6000] [0x2000, 0x3000] []) 0x5fe000 0x1fe000 0x203000 0x83 := by
  have hargs : P2VArgs 0x5fe000 0x1fe000 0x203000 0x83 :=
    ⟨by decide, by decide, by decide, by decide, by decide, by decide, by decide, by decide⟩
  have hwhole : HeadWhole 0x1fe000 0x203000 := .inr (by decide)
  have hready : (emptySpace [] [0x4000, 0x5000, 0x6000] [0x2000, 0x3000] []).Prepared
      fun x => virtRegion x < 3 := by
    refine emptySpace_prepared (v := 0) (emptySpace_sound (by decide) (by decide)) le_rfl
      {pdePath 0, pdePath 0x200000, pdePath 0x400000}
      Finset.card_le_three fun x hx => ⟨?_, ?_⟩
    · rw [pdptePath_eq_iff]
      unfold virtRegion at hx
      omega
    · simp only [Finset.mem_insert, Finset.mem_singleton, pdePath_eq_iff]
      unfold virtRegion at hx ⊢
      omega
  refine (mapP2V_covers_iff hargs hready (fun _ _ _ => rfl) ?_ fun h => absurd hwhole h.1).2
    ⟨by decide, hwhole, fun _ => by decide⟩
  rintro x ⟨i, -, hi, heq⟩
  have hi : i < 0x203000 := hi
  unfold virtRegion
  omega

/-- 2 MiB from 0x200000 on, to 0x1000 and what follows: the second stage is chosen by `vaddr`, and its
    assertion about `paddr` fails. -/
theorem mapP2V_asserts_unaligned :
    P2VArgs 0x1000 0x200000 0x200000 0x83 ∧
      ((onePage 0x5000).Prepared fun x => virtRegion x = virtRegion 0x200000) ∧
      mapP2V 1 (onePage 0x5000) 0x1000 0x200000 0x200000 0x83 =
        .error (.assertion "(paddr & (PAGE_SIZE_LARGE-1)) == 0") ∧
      ¬ MapsRange (onePage 0x5000) 0x1000 0x200000 0x200000 0x83 := by
  refine ⟨⟨by decide, by decide, by decide, by decide, by decide, by decide, by decide, by decide⟩,
    onePage_prepared 0x5000 fun _ hx => hx, rfl, ?_⟩
  rintro ⟨fuel, s', hrun, -⟩
  cases fuel with
  | zero => cases hrun
  | succ fuel => cases hrun

end Result

end Yaos
