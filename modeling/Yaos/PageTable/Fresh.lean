import Yaos.PageTable.Failure

set_option autoImplicit false

/-! # Mapping a free range

`map_alloc_at` on a range of which no page is mapped either returns an error or maps each page to a frame
of its own, exactly when what it comes to fits (`AllocFits`). A frame that it does not ask for, a page
table that is not needed, or a piece that it never reaches cannot make it fail, so the condition speaks
of what the call comes to before a request is refused. -/

namespace Yaos

open Word TableTree

/-- The page frame `a` was obtained between `s` and `s'`: from `alloc_phy_page_small`, or as part of a
    2 MiB frame from `alloc_phy_page`. -/
def Obtained (s s' : PgTables) (a : Nat) : Prop :=
  (∃ small, s.data = small ++ s'.data ∧ a ∈ small) ∨
    ∃ large, s.large = large ++ s'.large ∧ alignDown 0x200000 a ∈ large

/-- Each page of the range is mapped to a frame of its own that was obtained for it, and no page
    outside the range is newly mapped. -/
structure MapsFresh (s s' : PgTables) (vaddr size : Nat) : Prop where
  own : ∀ n, 0x1000 * n < size →
    ∃ a, translate s' (vaddr + 0x1000 * n) = some a ∧ Obtained s s' a
  distinct : ∀ n n', 0x1000 * n < size → 0x1000 * n' < size →
    translate s' (vaddr + 0x1000 * n) = translate s' (vaddr + 0x1000 * n') → n = n'
  outside : ∀ x, ¬ InRange vaddr ((size + 0xfff) / 0x1000 * 0x1000) x →
    translate s x = none → translate s' x = none

/-- `map_alloc_at` returns, and maps the range when it returns `OK`. -/
def AllocCorrect (s : PgTables) (vaddr size flag : Nat) : Prop :=
  ∃ ret s', mapAllocAt s vaddr size flag = .ok (ret, s') ∧ (ret = OK → MapsFresh s s' vaddr size)

/-! ## Calls that meet no assertion -/

section Call

variable {s : PgTables} {vaddr size reach flag : Nat} {m : MapProgress} {hs ls ds : List Nat}

/-- Where page `n` of the range goes: to the `k`-th of the small frames, or into the `i`-th of the
    large ones. -/
theorem AllocRun.translate (h : AllocRun s vaddr size flag m hs ls ds)
    (hready : s.AllocReach vaddr size reach) (hf : flag < 0x1000) (hp : Present flag) {n : Nat}
    (hn : 0x1000 * n < size) (hsize : size ≤ m.len) :
    (∃ k a, (hs ++ ds)[k]? = some a ∧ Yaos.translate m.tables (vaddr + 0x1000 * n) = some a ∧
      n = if k < hs.length then k else k + 512 * ls.length) ∨
    ∃ i b r, ls[i]? = some b ∧ r < 512 ∧ n = hs.length + 512 * i + r ∧
      Yaos.translate m.tables (vaddr + 0x1000 * n) = some (b + 0x1000 * r) := by
  have hopen := h.openAt (lt_of_lt_of_le hn hsize)
  have hlen := h.len
  have hparts := h.parts
  have hal := hparts.aligned
  have hbd := hparts.boundary
  have hx0 : (vaddr + 0x1000 * n) % 0x1000 = 0 := by omega
  rcases hparts.locate (by omega : 0x1000 * n < _) rfl with
    ⟨j, hj, hnj, heq⟩ | ⟨i, hi, hni, hge, heq⟩ | ⟨j, hj, hnj, hge, heq⟩
  · left
    have ha := List.getElem?_eq_getElem hj
    obtain ⟨hpte, hlink⟩ := h.mapped.head j _ ha
    have hmem := hready.data _ (h.small_mem _ (List.mem_append_left _ (List.mem_of_getElem? ha)))
    rw [← heq] at hpte
    rw [← (List.cons.inj heq).2] at hlink
    refine ⟨j, hs[j], ?_, ?_, ?_⟩
    · rw [List.getElem?_append_left hj, ha]
    · rw [translate_pte hopen hlink hpte (pteFor_present hmem.2 hf hp), alignDown_pteFor hmem.2 hf,
        hx0, Nat.add_zero]
    · rw [if_pos hj]
      omega
  · right
    have hb := List.getElem?_eq_getElem hi
    have hmem := hready.large _ (h.large_mem _ (List.mem_of_getElem? hb))
    obtain ⟨hlarge, hdown⟩ := isLargePage_or hmem.2 hf hp
      (h.flagged (List.ne_nil_of_mem (List.mem_of_getElem? hb)))
    refine ⟨i, ls[i], (n - hs.length) % 512, hb, Nat.mod_lt _ (by decide), by omega, ?_⟩
    rw [translate_pde hopen (heq ▸ h.mapped.large i _ hb) hlarge, hdown]
    congr 2
    omega
  · left
    have ha := List.getElem?_eq_getElem hj
    obtain ⟨hpte, hlink⟩ := h.mapped.small j _ ha
    have hmem := hready.data _ (h.small_mem _ (List.mem_append_right _ (List.mem_of_getElem? ha)))
    rw [← heq] at hpte
    rw [← (List.cons.inj heq).2] at hlink
    refine ⟨hs.length + j, ds[j], ?_, ?_, ?_⟩
    · rw [List.getElem?_append_right (Nat.le_add_right _ _), Nat.add_sub_cancel_left, ha]
    · rw [translate_pte hopen hlink hpte (pteFor_present hmem.2 hf hp), alignDown_pteFor hmem.2 hf,
        hx0, Nat.add_zero]
    · rw [if_neg (by omega)]
      omega

theorem MapsFresh.of_run (h : AllocRun s vaddr size flag m hs ls ds)
    (hready : s.AllocReach vaddr size reach) (hfresh : s.FreshFrames) (hf : flag < 0x1000)
    (hp : Present flag) (hsize : size ≤ m.len) (hdata : s.data = hs ++ ds ++ m.tables.data)
    (hlarge : s.large = ls ++ m.tables.large) : MapsFresh s m.tables vaddr size := by
  have hsmall_mem : ∀ {k a : Nat}, (hs ++ ds)[k]? = some a → a ∈ s.data := fun ha =>
    h.small_mem _ (List.mem_of_getElem? ha)
  have hlarge_mem : ∀ {i b : Nat}, ls[i]? = some b → b ∈ s.large := fun hb =>
    h.large_mem _ (List.mem_of_getElem? hb)
  have hsmall_nodup : (hs ++ ds).Nodup := by
    have := hfresh.data_nodup
    rw [hdata] at this
    exact this.of_append_left
  have hlarge_nodup : ls.Nodup := by
    have := hfresh.large_nodup
    rw [hlarge] at this
    exact this.of_append_left
  -- a small frame is not part of a large one
  have hmixed : ∀ {k a i b r : Nat}, (hs ++ ds)[k]? = some a → ls[i]? = some b → r < 512 →
      a ≠ b + 0x1000 * r := by
    intro k a i b r ha hb hr hab
    refine hfresh.apart a (hsmall_mem ha) b (hlarge_mem hb) ?_
    have := (hfresh.large b (hlarge_mem hb)).2
    unfold alignDown
    omega
  refine ⟨?_, ?_, ?_⟩
  · intro n hn
    rcases h.translate hready hf hp hn hsize with ⟨k, a, ha, htr, -⟩ | ⟨i, b, r, hb, hr, -, htr⟩
    · exact ⟨a, htr, .inl ⟨hs ++ ds, hdata, List.mem_of_getElem? ha⟩⟩
    · refine ⟨_, htr, .inr ⟨ls, hlarge, ?_⟩⟩
      have hb0 := (hfresh.large b (hlarge_mem hb)).2
      rw [show alignDown 0x200000 (b + 0x1000 * r) = b by unfold alignDown; omega]
      exact List.mem_of_getElem? hb
  · intro n n' hn hn' heq
    rcases h.translate hready hf hp hn hsize with ⟨k, a, ha, htr, hnk⟩ | ⟨i, b, r, hb, hr, hni, htr⟩ <;>
      rcases h.translate hready hf hp hn' hsize with
        ⟨k', a', ha', htr', hnk'⟩ | ⟨i', b', r', hb', hr', hni', htr'⟩ <;>
      rw [htr, htr', Option.some.injEq] at heq
    · subst heq
      have hk : k = k' := (List.getElem?_inj (List.getElem?_eq_some_iff.1 ha).1 hsmall_nodup).1
        (ha.trans ha'.symm)
      rw [hnk, hnk', hk]
    · exact absurd heq (hmixed ha hb' hr')
    · exact absurd heq.symm (hmixed ha' hb hr)
    · have hb0 := (hfresh.large b (hlarge_mem hb)).2
      have hb0' := (hfresh.large b' (hlarge_mem hb')).2
      have hbb : b = b' := by omega
      subst hbb
      have hi : i = i' := (List.getElem?_inj (List.getElem?_eq_some_iff.1 hb).1 hlarge_nodup).1
        (hb.trans hb'.symm)
      omega
  · intro x hx hnone
    have hlen := h.len
    have hlt := h.len_lt
    have htotal : (size + 0xfff) / 0x1000 * 0x1000 =
        0x1000 * hs.length + 0x200000 * ls.length + 0x1000 * ds.length := by omega
    rw [htotal] at hx
    rw [h.parts.translate_off h.off hx, hnone]

/-- Out of memory: what has been mapped is unmapped again. The loops may have been those of another size
    that did the same. -/
theorem AllocRun.refused {size' ret : Nat} (h : AllocRun s vaddr size' flag m hs ls ds)
    (hready : s.AllocReach vaddr size' reach) (hf : flag < 0x1000) (hp : Present flag) (hret : ret ≠ OK)
    (heq : mapAllocAt s vaddr size flag =
      if ret = OK then .ok (OK, m.tables)
      else if 0 < m.len then do
        let s ← unmapFreeAt m.tables vaddr m.len
        .ok (ret, s)
      else .ok (ret, m.tables)) : AllocCorrect s vaddr size flag := by
  rw [if_neg hret] at heq
  by_cases hlen : 0 < m.len
  · obtain ⟨s', hunmap, -⟩ := h.unmap hready hf hp rfl
    refine ⟨ret, s', ?_, fun h => absurd h hret⟩
    rw [heq, if_pos hlen, hunmap, ok_bind]
  · refine ⟨ret, m.tables, ?_, fun h => absurd h hret⟩
    rw [heq, if_neg hlen]

/-- A call that runs into no assertion of its own. -/
theorem AllocCall.correct (hargs : AllocCall s vaddr size flag) (hready : s.AllocReach vaddr size reach)
    (hfresh : s.FreshFrames) (hp : Present flag) : AllocCorrect s vaddr size flag := by
  obtain ⟨m, hs, ls, ds, hrun, heq⟩ := mapAllocAt_run hargs hready
  rcases hrun.done with ⟨hret, hsize, hdata, hlarge⟩ | hret
  · refine ⟨OK, m.tables, ?_, fun _ => ?_⟩
    · rw [heq, if_pos hret]
    · exact .of_run hrun hready hfresh hargs.flag_lt hp hsize hdata hlarge
  · exact hrun.refused hready hargs.flag_lt hp (fun h => ENOMEM_ne_OK (hret.symm.trans h)) heq

end Call

/-! ## What the call comes to -/

/-- `size` in whole pages: where the loops over 4 KiB pages really end. -/
def paddedSize (size : Nat) : Nat := (size + 0xfff) / 0x1000 * 0x1000

instance (s : PgTables) (vaddr size : Nat) : Decidable (s.HeadShort vaddr size) :=
  inferInstanceAs (Decidable (_ ∧ _ ∧ _ ∧ _))

instance (s : PgTables) (vaddr size : Nat) : Decidable (s.HeadFits vaddr size) :=
  inferInstanceAs (Decidable (_ ∧ _))

/-- The frames that the first request of the call is answered from. -/
def PgTables.firstStore (s : PgTables) (vaddr size : Nat) : List Nat :=
  if vaddr % 0x200000 = 0 ∧ 0x200000 ≤ size then s.large else s.data

/-- The call gets a 2 MiB frame: it comes past the first boundary, and a whole 2 MiB piece is left or
    `size-len` wraps. -/
def PgTables.LargeObtained (s : PgTables) (vaddr size : Nat) : Prop :=
  s.HeadFits vaddr size ∧ s.large ≠ [] ∧
    (0x200000 ≤ size - headSize vaddr size ∨ headSize vaddr size % 0x1000 ≠ 0)

/-- How far the call comes before the frames run out. -/
def PgTables.reached (s : PgTables) (vaddr size : Nat) : Nat :=
  if ¬ s.HeadFits vaddr size then min (headSize vaddr size) (0x1000 * s.data.length)
  else if headSize vaddr size % 0x1000 = 0 then
    if (size - headSize vaddr size) / 0x200000 ≤ s.large.length then
      tailStart vaddr size + min (size - tailStart vaddr size)
        (0x1000 * (s.data.length - headSize vaddr size / 0x1000))
    else headSize vaddr size + 0x200000 * s.large.length
  -- the first loop ends behind `size`, so the second one ends with the last frame
  else if (vaddr + paddedSize size) % 0x200000 = 0 then paddedSize size + 0x200000 * s.large.length
  else paddedSize size

/-- The frames obtained for the pages before the first boundary lie low. -/
def PgTables.HeadLow (s : PgTables) (vaddr size : Nat) : Prop :=
  ∀ j a, s.data[j]? = some a → 0x1000 * j < headSize vaddr size →
    j = 0 ∨ ¬ s.HeadShort vaddr size → a < 0x200000

/-- The condition under which the call does what it should. -/
structure AllocFits (s : PgTables) (vaddr size flag : Nat) : Prop where
  flag_lt : s.firstStore vaddr size ≠ [] → flag < 0x1000
  low : s.HeadLow vaddr size
  boundary : s.LargeObtained vaddr size →
    headSize vaddr size % 0x1000 = 0 ∨ (vaddr + paddedSize size) % 0x200000 = 0
  paged : s.LargeObtained vaddr size → Large flag

/-! ## Loops that do the same -/

section Same

variable {flag size : Nat} {m : MapProgress}

theorem mapMiddle_of_failed (h : m.ret ≠ OK) : mapMiddle flag size m = .ok m := by
  rw [mapMiddle, if_neg (fun hgo => h hgo.1)]

theorem mapTail_of_failed (h : m.ret ≠ OK) : mapTail flag size m = .ok m := by
  rw [mapTail, if_neg h]

/-- A loop over 4 KiB pages only sees in which page its end lies. -/
theorem mapSmall_congr {low : Bool} {stop stop' : Nat}
    (hstop : ∀ n, n % 0x1000 = 0 → (n < stop ↔ n < stop')) {data : List Nat}
    (hm : m.len % 0x1000 = 0) : mapSmall low flag stop data m = mapSmall low flag stop' data m := by
  induction data generalizing m with
  | nil => simp only [mapSmall, hstop _ hm]
  | cons a data ih =>
      rw [mapSmall, mapSmall]
      by_cases hgo : m.len < stop
      · rw [if_pos hgo, if_pos ((hstop _ hm).1 hgo)]
        refine bind_congr fun _ => ?_
        dsimp only
        by_cases ha : a = 0
        · rw [if_pos ha, if_pos ha]
          rfl
        · rw [if_neg ha, if_neg ha]
          refine bind_congr fun r => ?_
          rw [ih (by dsimp only; unfold wadd; omega)]
      · rw [if_neg hgo, if_neg (mt (hstop _ hm).2 hgo)]

/-- A loop over 2 MiB pages that runs out of frames does not see its end. -/
theorem mapLarge_congr {mapsize mapsize' : Nat} {large : List Nat}
    (h : m.len + 0x200000 * large.length ≤ mapsize) (h' : m.len + 0x200000 * large.length ≤ mapsize') :
    mapLarge flag mapsize large m = mapLarge flag mapsize' large m := by
  induction large generalizing m with
  | nil => rw [mapLarge, mapLarge, if_pos (by simpa using h), if_pos (by simpa using h')]
  | cons a large ih =>
      rw [List.length_cons] at h h'
      have hgo : m.len ≤ mapsize := by omega
      have hgo' : m.len ≤ mapsize' := by omega
      have hadd : wadd m.len 0x200000 ≤ m.len + 0x200000 := Nat.mod_le _ _
      rw [mapLarge, mapLarge, if_pos hgo, if_pos hgo']
      dsimp only
      by_cases ha : a = 0
      · rw [if_pos ha, if_pos ha]
        rfl
      · rw [if_neg ha, if_neg ha]
        refine bind_congr fun r => ?_
        rw [ih (by dsimp only; omega) (by dsimp only; omega)]

end Same

/-! ## The condition is enough -/

/-- A call on a range of which no page is mapped. As far as the call comes, the tables are in order, and
    there are frames for the tables missing above it. -/
structure PgTables.FreeRange (s : PgTables) (vaddr size : Nat) : Prop where
  aligned : vaddr % 0x1000 = 0
  pos : 0 < size
  size_lt : size < 2 ^ 64
  tables : s.RangeTables vaddr (s.reached vaddr size)
  pde : ∀ x, InRange vaddr (min size (s.reached vaddr size)) x → PdeOpens (s.entry (pdePath x))
  unmapped : ∀ x, InRange vaddr size x → translate s x = none

section Enough

variable {s : PgTables} {vaddr size flag : Nat}

theorem PgTables.FreeRange.opens (h : s.FreeRange vaddr size) {y : Nat} (hy : y < size)
    (hr : y < s.reached vaddr size) : Opens (s.entry (pdePath (vaddr + y))) :=
  .of_unmapped (h.tables.upper _ ⟨y, hr, rfl⟩) (h.pde _ ⟨y, by omega, rfl⟩) (h.unmapped _ ⟨y, hy, rfl⟩)

theorem PgTables.reached_head {j : Nat} (hj : j < s.data.length) (hlt : 0x1000 * j < headSize vaddr size) :
    0x1000 * j < s.reached vaddr size := by
  have hle := headSize_le vaddr size
  unfold PgTables.reached tailStart paddedSize
  split
  · omega
  · split <;> split <;> omega

/-- How far a call comes whose first loop ends at its boundary. -/
theorem PgTables.FreeRange.reach (h : s.FreeRange vaddr size) (hhead : headSize vaddr size % 0x1000 = 0) :
    s.AllocReach vaddr size (s.reached vaddr size) where
  range := ⟨h.tables.sound, h.tables.upper, h.tables.tables, h.tables.zeroed⟩
  pde := fun y hy hr _ _ => h.opens hy hr
  data := fun a ha => ⟨(h.tables.fresh.data a ha).nonzero, (h.tables.fresh.data a ha).aligned⟩
  large := fun b hb => ⟨(h.tables.fresh.large b hb).1.nonzero, (h.tables.fresh.large b hb).2⟩
  count := h.tables.fresh.count
  head_reach := fun j hj hlt => PgTables.reached_head hj hlt
  large_reach := fun hfits i hi hlt => by
    rw [PgTables.reached, if_neg (not_not.2 hfits), if_pos hhead]
    unfold tailStart
    split <;> omega
  tail_reach := fun hfits hl j hj hlt => by
    rw [PgTables.reached, if_neg (not_not.2 hfits), if_pos hhead, if_pos hl]
    omega

theorem AllocFits.call (h : AllocFits s vaddr size flag) (hfree : s.FreeRange vaddr size)
    (hf : flag < 0x1000) (hhead : headSize vaddr size % 0x1000 = 0) : AllocCall s vaddr size flag where
  vaddr_aligned := hfree.aligned
  size_lt := hfree.size_lt
  flag_lt := hf
  low := h.low
  head := hhead
  paged := fun hfits hgo hne => h.paged ⟨hfits, hne, .inl hgo⟩

/-- The first request is refused. -/
theorem correct_of_refused (hfree : s.FreeRange vaddr size) (hnone : s.firstStore vaddr size = []) :
    AllocCorrect s vaddr size flag := by
  have hpos := hfree.pos
  have hlen : (MapProgress.start s vaddr).len = 0 := rfl
  have hle := headSize_le vaddr size
  suffices hend : ∃ m₁ m₂, mapHead flag vaddr size (.start s vaddr) = .ok m₁ ∧
      mapMiddle flag size m₁ = .ok m₂ ∧
      mapTail flag size m₂ = .ok { MapProgress.start s vaddr with ret := ENOMEM } by
    obtain ⟨m₁, m₂, h₁, h₂, h₃⟩ := hend
    refine ⟨ENOMEM, s, ?_, fun h => absurd h ENOMEM_ne_OK⟩
    rw [mapAllocAt_of_loops h₁ h₂ h₃, if_neg ENOMEM_ne_OK]
    rfl
  by_cases hv : vaddr % 0x200000 = 0
  · have hhead : mapHead flag vaddr size (.start s vaddr) = .ok (.start s vaddr) := by
      rw [mapHead, if_neg (fun h => h hv)]
    by_cases hbig : 0x200000 ≤ size
    · rw [PgTables.firstStore, if_pos ⟨hv, hbig⟩] at hnone
      refine ⟨_, { MapProgress.start s vaddr with ret := ENOMEM }, hhead, ?_, ?_⟩
      · rw [mapMiddle, if_pos ⟨rfl, by rwa [hlen, wsub_zero hfree.size_lt]⟩]
        show mapLarge flag _ s.large _ = _
        rw [hnone, mapLarge, if_pos (by rw [hlen]; exact Nat.zero_le _)]
      · exact mapTail_of_failed ENOMEM_ne_OK
    · rw [PgTables.firstStore, if_neg (fun h => hbig h.2)] at hnone
      refine ⟨_, .start s vaddr, hhead, ?_, ?_⟩
      · rw [mapMiddle, if_neg]
        rw [hlen, wsub_zero hfree.size_lt]
        exact fun h => hbig h.2
      · rw [mapTail, if_pos (show (MapProgress.start s vaddr).ret = OK from rfl)]
        show mapSmall false flag size s.data _ = _
        rw [hnone, mapSmall, if_pos (by rwa [hlen])]
  · have hhead : 0 < headSize vaddr size := by
      rw [headSize, if_neg hv]
      omega
    rw [PgTables.firstStore, if_neg (fun h => hv h.1)] at hnone
    refine ⟨{ MapProgress.start s vaddr with ret := ENOMEM },
      { MapProgress.start s vaddr with ret := ENOMEM }, ?_, ?_, ?_⟩
    · rw [mapHead_eq hv]
      show mapSmall true flag _ s.data _ = _
      rw [hnone, mapSmall, if_pos (by rwa [hlen])]
    · exact mapMiddle_of_failed ENOMEM_ne_OK
    · exact mapTail_of_failed ENOMEM_ne_OK

/-! A first loop that ends inside a page goes to the end of that page. Until it ends, the call does what
one does that asks for whole pages (`size'`). -/

section Over

variable {size' reach : Nat} (hov : headSize vaddr size % 0x1000 ≠ 0) (hal : vaddr % 0x1000 = 0)

include hov hal

theorem over_bounds : vaddr % 0x200000 ≠ 0 ∧ headSize vaddr size = size ∧
    paddedSize size ≤ 0x200000 - vaddr % 0x200000 ∧ size < paddedSize size ∧
    paddedSize size < size + 0x1000 ∧ paddedSize size % 0x1000 = 0 := by
  by_cases hv : vaddr % 0x200000 = 0
  · rw [headSize, if_pos hv] at hov
    exact absurd rfl hov
  · rw [headSize, if_neg hv] at hov ⊢
    unfold paddedSize
    omega

theorem over_mapHead (hsize' : headSize vaddr size' = paddedSize size) {m : MapProgress}
    (hm : m.len % 0x1000 = 0) : mapHead flag vaddr size m = mapHead flag vaddr size' m := by
  obtain ⟨hv, hs, -, hlt, hgt, hw⟩ := over_bounds hov hal
  rw [mapHead_eq hv, mapHead_eq hv, hsize', hs]
  exact mapSmall_congr (fun n hn => by omega) hm

theorem over_headShort (hsize' : headSize vaddr size' = paddedSize size) :
    s.HeadShort vaddr size' ↔ s.HeadShort vaddr size := by
  obtain ⟨-, hs, -, hlt, -⟩ := over_bounds hov hal
  unfold PgTables.HeadShort
  rw [hsize', hs]
  refine and_congr_left fun _ => ?_
  omega

theorem over_headFits (hsize' : headSize vaddr size' = paddedSize size) :
    s.HeadFits vaddr size' ↔ s.HeadFits vaddr size := by
  obtain ⟨-, hs, -, hlt, hgt, hw⟩ := over_bounds hov hal
  unfold PgTables.HeadFits
  rw [over_headShort hov hal hsize', hsize', hs]
  refine and_congr_left fun _ => ?_
  omega

/-- The frames for the pages before the boundary are those that the call for whole pages asks for. -/
theorem over_call (hf : flag < 0x1000) (hlow : s.HeadLow vaddr size)
    (hsize' : headSize vaddr size' = paddedSize size) (hlt' : size' < 2 ^ 64)
    (hpaged : s.HeadFits vaddr size → paddedSize size < size' → s.large ≠ [] → Large flag) :
    AllocCall s vaddr size' flag := by
  obtain ⟨-, hs, -, hlt, hgt, hw⟩ := over_bounds hov hal
  refine ⟨hal, hlt', hf, fun j a ha hj hd => ?_, by rw [hsize']; exact hw, fun hfits hgo hne => ?_⟩
  · rw [over_headShort hov hal hsize'] at hd
    exact hlow j a ha (by omega) hd
  · exact hpaged ((over_headFits hov hal hsize').1 hfits) (by omega) hne

omit hal in
/-- Behind the whole pages come 2 MiB pages, and no others. -/
theorem PgTables.FreeRange.over_reach (h : s.FreeRange vaddr size)
    (hsize' : headSize vaddr size' = paddedSize size)
    (hrest : paddedSize size ≤ size' ∧ (size' - paddedSize size) % 0x200000 = 0)
    (hboundary : paddedSize size < size' → (vaddr + paddedSize size) % 0x200000 = 0) :
    s.AllocReach vaddr size' (s.reached vaddr size) := by
  obtain ⟨-, hs, -, hlt, hgt, hw⟩ := over_bounds hov h.aligned
  have hfits := over_headFits (s := s) hov h.aligned hsize'
  have htail : tailStart vaddr size' = size' := by
    rw [tailStart, hsize']
    omega
  refine ⟨⟨h.tables.sound, h.tables.upper, h.tables.tables, h.tables.zeroed⟩, ?_,
    fun a ha => ⟨(h.tables.fresh.data a ha).nonzero, (h.tables.fresh.data a ha).aligned⟩,
    fun b hb => ⟨(h.tables.fresh.large b hb).1.nonzero, (h.tables.fresh.large b hb).2⟩,
    h.tables.fresh.count, ?_, ?_, ?_⟩
  · intro y hy hr hpage hwhere
    rw [hsize', htail] at hwhere
    exact h.opens (by omega) hr
  · intro j hj hlt'
    rw [hsize'] at hlt'
    exact PgTables.reached_head hj (by omega)
  · intro hf i hi hle
    rw [hsize'] at hle ⊢
    rw [PgTables.reached, if_neg (not_not.2 (hfits.1 hf)), if_neg hov, if_pos (hboundary (by omega))]
    omega
  · intro _ _ j _ hlt'
    rw [htail] at hlt'
    omega

/-- The call stops before the boundary: it is refused a frame, or a page table. -/
theorem over_stopped {m : MapProgress} {hs : List Nat} (hcall : AllocCall s vaddr size' flag)
    (hreach : s.AllocReach vaddr size' reach) (hp : Present flag)
    (hsize' : headSize vaddr size' = paddedSize size)
    (hrun : mapHead flag vaddr size' (.start s vaddr) = .ok m)
    (hhead : SmallRun flag (headSize vaddr size') vaddr reach (.start s vaddr) m hs)
    (hno : m.ret = OK → ¬ s.HeadShort vaddr size') (hret : m.ret ≠ OK) :
    AllocCorrect s vaddr size flag := by
  obtain ⟨m₂, ls, hrun₂, hmid, hls, hret₂⟩ := mapMiddle_run hcall hreach hhead hno
  obtain ⟨m₃, ds, hrun₃, htail, hds, hret₃⟩ := mapTail_run hcall hreach hhead hno hmid hls hret₂
  have hall := AllocRun.of_runs hcall hreach hhead hno hmid htail hls hret₂ hds hret₃
  -- both calls skip the other two loops
  obtain rfl := Except.ok.inj ((mapMiddle_of_failed hret).symm.trans hrun₂)
  obtain rfl := Except.ok.inj ((mapTail_of_failed hret).symm.trans hrun₃)
  rw [← over_mapHead hov hal hsize' rfl] at hrun
  exact hall.refused hreach hcall.flag_lt hp hret
    (mapAllocAt_of_loops hrun (mapMiddle_of_failed hret) (mapTail_of_failed hret))

/-- After the first loop `size-len` wraps, and the loop over 2 MiB pages goes on to the last frame. -/
theorem over_middle {m : MapProgress} (hok : m.ret = OK) (hlen : m.len = paddedSize size) :
    mapMiddle flag size m = mapLarge flag (wsub size 0x200000) m.tables.large m ∧
      2 ^ 63 ≤ wsub size 0x200000 := by
  obtain ⟨hv, -, hroom, hlt, hgt, -⟩ := over_bounds hov hal
  have hwrap : 0x200000 ≤ wsub size m.len := by
    rw [hlen]
    unfold wsub
    omega
  refine ⟨by rw [mapMiddle, if_pos ⟨hok, hwrap⟩], ?_⟩
  unfold wsub
  omega

/-- The first loop ends between two boundaries; then there must be no 2 MiB frame. -/
theorem correct_between (hfits : AllocFits s vaddr size flag) (h : s.FreeRange vaddr size)
    (hf : flag < 0x1000) (hp : Present flag) (hb : (vaddr + paddedSize size) % 0x200000 ≠ 0) :
    AllocCorrect s vaddr size flag := by
  obtain ⟨hv, hs, hroom, hlt, hgt, hw⟩ := over_bounds hov hal
  have hsize' : headSize vaddr (paddedSize size) = paddedSize size := by
    rw [headSize, if_neg hv]
    omega
  have hcall := over_call hov hal hf hfits.low hsize' (by omega) fun _ hlt => absurd hlt (lt_irrefl _)
  have hreach := h.over_reach hov hsize' ⟨le_rfl, by rw [Nat.sub_self]⟩ fun hne => absurd hne (lt_irrefl _)
  obtain ⟨m₁, hs', hrun₁, hhead, hno⟩ := mapHead_run hcall hreach
  by_cases hret : m₁.ret = OK
  swap
  · exact over_stopped hov hal hcall hreach hp hsize' hrun₁ hhead hno hret
  have hhf := (over_headFits hov hal hsize').1 (hhead.headFits hcall hret (hno hret))
  have hnone : s.large = [] := by
    by_contra hne
    rcases hfits.boundary ⟨hhf, hne, .inr hov⟩ with hgo | hgo
    · exact hov hgo
    · exact hb hgo
  have hlen : m₁.len = paddedSize size := ((hhead.head_len hcall).2 hret).trans hsize'
  obtain ⟨m₂, ls, hrun₂, hmid, hls, hret₂⟩ := mapMiddle_run hcall hreach hhead hno
  obtain ⟨m, ds, hrun₃, htail, hds, hret₃⟩ := mapTail_run hcall hreach hhead hno hmid hls hret₂
  have hall := AllocRun.of_runs hcall hreach hhead hno hmid htail hls hret₂ hds hret₃
  -- the call for whole pages is done here
  have hstop₂ : mapMiddle flag (paddedSize size) m₁ = .ok m₁ := by
    rw [mapMiddle, if_neg]
    rw [hlen]
    unfold wsub
    omega
  have hstop₃ : mapTail flag (paddedSize size) m₁ = .ok m₁ := by
    rw [mapTail, if_pos hret]
    exact mapSmall_stop (by omega)
  obtain rfl := Except.ok.inj (hstop₂.symm.trans hrun₂)
  obtain rfl := Except.ok.inj (hstop₃.symm.trans hrun₃)
  -- the other one asks for a 2 MiB frame
  have hdry : mapMiddle flag size m₁ = .ok { m₁ with ret := ENOMEM } := by
    obtain ⟨heq, hwrap⟩ := over_middle hov hal hret hlen
    have hlarge : m₁.tables.large = [] := by rw [hhead.mapped.same]; exact hnone
    rw [heq, hlarge, mapLarge, if_pos (by omega)]
  rw [← over_mapHead hov hal hsize' rfl] at hrun₁
  exact hall.refused hreach hf hp ENOMEM_ne_OK
    (mapAllocAt_of_loops hrun₁ hdry (mapTail_of_failed ENOMEM_ne_OK))

/-- The first loop ends at a boundary: all 2 MiB frames are mapped, and unmapped again. -/
theorem correct_beyond (hfits : AllocFits s vaddr size flag) (h : s.FreeRange vaddr size)
    (hf : flag < 0x1000) (hp : Present flag) (hb : (vaddr + paddedSize size) % 0x200000 = 0) :
    AllocCorrect s vaddr size flag := by
  obtain ⟨hv, hs, hroom, hlt, hgt, hw⟩ := over_bounds hov hal
  have hcount := h.tables.fresh.count
  -- a call that asks for one 2 MiB page more than there are frames
  obtain ⟨size', hdef⟩ : ∃ size', size' = paddedSize size + 0x200000 * (s.large.length + 1) := ⟨_, rfl⟩
  have hsize' : headSize vaddr size' = paddedSize size := by
    rw [headSize, if_neg hv]
    omega
  have hcall := over_call hov hal hf hfits.low hsize' (by omega) fun hhf _ hne =>
    hfits.paged ⟨hhf, hne, .inr hov⟩
  have hreach := h.over_reach hov hsize' ⟨by omega, by omega⟩ fun _ => hb
  obtain ⟨m₁, hs', hrun₁, hhead, hno⟩ := mapHead_run hcall hreach
  by_cases hret : m₁.ret = OK
  swap
  · exact over_stopped hov hal hcall hreach hp hsize' hrun₁ hhead hno hret
  have hlen : m₁.len = paddedSize size := ((hhead.head_len hcall).2 hret).trans hsize'
  obtain ⟨m₂, ls, hrun₂, hmid, hls, hret₂⟩ := mapMiddle_run hcall hreach hhead hno
  obtain ⟨m, ds, hrun₃, htail, hds, hret₃⟩ := mapTail_run hcall hreach hhead hno hmid hls hret₂
  have hall := AllocRun.of_runs hcall hreach hhead hno hmid htail hls hret₂ hds hret₃
  have hdry : m₂.ret ≠ OK := by
    intro hok
    have hlen₂ := hmid.len
    have hle := middle_large_le hhead hmid
    rcases hmid.done with ⟨-, hdone, -⟩ | hmem
    · omega
    · exact ENOMEM_ne_OK (hmem.symm.trans hok)
  obtain rfl := Except.ok.inj ((mapTail_of_failed hdry).symm.trans hrun₃)
  have hsame : mapMiddle flag size m₁ = .ok m₂ := by
    obtain ⟨heq, hwrap⟩ := over_middle hov hal hret hlen
    have hlarge : m₁.tables.large = s.large := by rw [hhead.mapped.same]; rfl
    have hsub : wsub size' 0x200000 = size' - 0x200000 := wsub_eq (by omega) (by omega)
    have hgo : m₁.ret = OK ∧ 0x200000 ≤ wsub size' m₁.len := by
      rw [hlen, wsub_eq (by omega) (by omega)]
      omega
    rw [mapMiddle, if_pos hgo] at hrun₂
    rw [heq, ← hrun₂]
    exact mapLarge_congr (by rw [hlarge]; omega) (by rw [hlarge, hsub]; omega)
  rw [← over_mapHead hov hal hsize' rfl] at hrun₁
  exact hall.refused hreach hf hp hdry (mapAllocAt_of_loops hrun₁ hsame (mapTail_of_failed hdry))

end Over

theorem AllocFits.correct (hfits : AllocFits s vaddr size flag) (h : s.FreeRange vaddr size)
    (hp : Present flag) : AllocCorrect s vaddr size flag := by
  by_cases hnone : s.firstStore vaddr size = []
  · exact correct_of_refused h hnone
  · have hf := hfits.flag_lt hnone
    by_cases hhead : headSize vaddr size % 0x1000 = 0
    · exact (hfits.call h hf hhead).correct (h.reach hhead) h.tables.fresh hp
    · by_cases hb : (vaddr + paddedSize size) % 0x200000 = 0
      · exact correct_beyond hhead h.aligned hfits h hf hp hb
      · exact correct_between hhead h.aligned hfits h hf hp hb

end Enough

/-! ## The condition is needed -/

section Needed

variable {s : PgTables} {vaddr size flag : Nat}

/-- The loops of a call that returns have run into no assertion. -/
theorem AllocCorrect.loops (h : AllocCorrect s vaddr size flag) : ∃ m₁ m₂ m,
    mapHead flag vaddr size (.start s vaddr) = .ok m₁ ∧ mapMiddle flag size m₁ = .ok m₂ ∧
      mapTail flag size m₂ = .ok m := by
  obtain ⟨ret, s', hrun, -⟩ := h
  unfold mapAllocAt at hrun
  obtain ⟨m₁, h₁, hrun⟩ := bind_eq_ok.1 hrun
  obtain ⟨m₂, h₂, hrun⟩ := bind_eq_ok.1 hrun
  obtain ⟨m, h₃, -⟩ := bind_eq_ok.1 hrun
  exact ⟨m₁, m₂, m, h₁, h₂, h₃⟩

theorem AllocCorrect.flag_lt (h : AllocCorrect s vaddr size flag) (hfree : s.FreeRange vaddr size)
    (hne : s.firstStore vaddr size ≠ []) : flag < 0x1000 := by
  obtain ⟨m₁, m₂, m, h₁, h₂, h₃⟩ := h.loops
  have hpos := hfree.pos
  have hfresh := hfree.tables.fresh
  have hlen : (MapProgress.start s vaddr).len = 0 := rfl
  by_cases hv : vaddr % 0x200000 = 0
  · rw [mapHead, if_neg (fun h => h hv)] at h₁
    obtain rfl := Except.ok.inj h₁
    by_cases hbig : 0x200000 ≤ size
    · rw [PgTables.firstStore, if_pos ⟨hv, hbig⟩] at hne
      obtain ⟨b, large, hlarge⟩ := List.exists_cons_of_ne_nil hne
      rw [mapMiddle, if_pos ⟨rfl, by rwa [hlen, wsub_zero hfree.size_lt]⟩,
        show (MapProgress.start s vaddr).tables.large = b :: large from hlarge] at h₂
      have hgo : (MapProgress.start s vaddr).len ≤ wsub size 0x200000 := by
        rw [hlen]
        exact Nat.zero_le _
      have hb : b ∈ s.large := hlarge ▸ List.mem_cons_self
      exact (mapLarge_asks h₂ hgo (hfresh.large b hb).1.nonzero).2
    · rw [PgTables.firstStore, if_neg (fun h => hbig h.2)] at hne
      obtain ⟨a, data, hdata⟩ := List.exists_cons_of_ne_nil hne
      rw [mapMiddle, if_neg (by rw [hlen, wsub_zero hfree.size_lt]; exact fun h => hbig h.2)] at h₂
      obtain rfl := Except.ok.inj h₂
      rw [mapTail, if_pos (show (MapProgress.start s vaddr).ret = OK from rfl),
        show (MapProgress.start s vaddr).tables.data = a :: data from hdata] at h₃
      have hgo : (MapProgress.start s vaddr).len < size := by rwa [hlen]
      have ha : a ∈ s.data := hdata ▸ List.mem_cons_self
      exact (mapSmall_asks h₃ hgo (hfresh.data a ha).nonzero).2
  · rw [PgTables.firstStore, if_neg (fun h => hv h.1)] at hne
    obtain ⟨a, data, hdata⟩ := List.exists_cons_of_ne_nil hne
    have hhead : 0 < headSize vaddr size := by
      rw [headSize, if_neg hv]
      omega
    rw [mapHead_eq hv, show (MapProgress.start s vaddr).tables.data = a :: data from hdata] at h₁
    have hgo : (MapProgress.start s vaddr).len < headSize vaddr size := by rwa [hlen]
    have ha : a ∈ s.data := hdata ▸ List.mem_cons_self
    exact (mapSmall_asks h₁ hgo (hfresh.data a ha).nonzero).2

/-- Each frame that the first loop comes to has passed its assertion. -/
theorem mapSmall_low {stop reach : Nat} (hflag : flag < 0x1000) (hv : vaddr % 0x1000 = 0)
    (hstop : stop < 2 ^ 48 - 0x1000) {x₀ : Nat} {data : List Nat} {m m' : MapProgress}
    (h : LoopStart vaddr reach m) (hdata : m.tables.data = data) (hlen : m.len % 0x1000 = 0)
    (hreach : ∀ j < data.length, m.len + 0x1000 * j < stop → m.len + 0x1000 * j < reach)
    (hregion : ∀ j, m.len + 0x1000 * j < stop → pdePath (vaddr + m.len + 0x1000 * j) = pdePath x₀)
    (hopen : data ≠ [] → m.len < stop → Opens (m.tables.entry (pdePath x₀)))
    (hframe : ∀ a ∈ data, a ≠ 0 ∧ a % 0x1000 = 0) (hrun : mapSmall true flag stop data m = .ok m')
    {j a : Nat} (ha : data[j]? = some a) (hj : m.len + 0x1000 * j < stop)
    (hdry : j = 0 ∨ ¬ m.tables.PtMissing x₀) : a < 0x200000 := by
  -- on the frames that are left: the one asked about is the first of them, or comes after a round
  induction data generalizing m j with
  | nil => simp at ha
  | cons b data ih =>
      have hgo : m.len < stop := by omega
      have hne := (hframe b List.mem_cons_self).1
      cases j with
      | zero =>
          obtain rfl := Option.some.inj ha
          exact (mapSmall_asks hrun hgo hne).1 rfl
      | succ j =>
          have hnot := hdry.resolve_left (Nat.succ_ne_zero j)
          rw [Nat.mul_succ, Nat.add_comm (0x1000 * j), ← Nat.add_assoc] at hj
          have hpde : pdePath (vaddr + m.len) = pdePath x₀ := hregion 0 (by omega)
          have hx : m.tables.PtMissing (vaddr + m.len) ↔ m.tables.PtMissing x₀ := by
            rw [PgTables.PtMissing, hpde]
            rfl
          rcases @mapSmall_turn true flag stop vaddr reach b data m hflag hstop h (by omega) hgo
            (hreach 0 (by simp) (by omega)) (by rw [hpde]; exact hopen (List.cons_ne_nil b data) hgo)
            (hframe b List.mem_cons_self) (mapSmall_asks hrun hgo hne).1 with
            ⟨-, s₁, ht⟩ | ⟨hbad, -⟩
          swap
          · exact absurd (hx.1 hbad) hnot
          have hlink := ht.pde
          rw [hpde] at hlink
          rw [ht.next] at hrun
          refine ih ht.start (by rw [ht.same]) (by dsimp only; omega) (fun i hi hgo' => ?_)
            (fun i hi => ?_) (fun _ _ => .inr hlink) (fun b hb => hframe b (List.mem_cons_of_mem _ hb))
            hrun (by rwa [List.getElem?_cons_succ] at ha) (by dsimp only; omega)
            (.inr fun hz => hlink.ne_zero hz.1)
          · have := hreach (i + 1) (by simpa using hi) (by dsimp only at hgo'; omega)
            dsimp only
            omega
          · dsimp only at hi ⊢
            rw [show vaddr + (m.len + 0x1000) + 0x1000 * i = vaddr + m.len + 0x1000 * (i + 1) by omega]
            exact hregion (i + 1) (by omega)

theorem firstStore_of_head (hpos : 0 < headSize vaddr size) : s.firstStore vaddr size = s.data := by
  rw [PgTables.firstStore, if_neg]
  rintro ⟨hv, -⟩
  rw [headSize, if_pos hv] at hpos
  exact absurd hpos (Nat.lt_irrefl 0)

theorem AllocCorrect.low (h : AllocCorrect s vaddr size flag) (hfree : s.FreeRange vaddr size) :
    s.HeadLow vaddr size := by
  intro j a ha hj hd
  have hpos : 0 < headSize vaddr size := by omega
  have hv : vaddr % 0x200000 ≠ 0 := fun hv => by
    rw [headSize, if_pos hv] at hpos
    exact absurd hpos (Nat.lt_irrefl 0)
  have hne : s.data ≠ [] := by
    rintro hnil
    simp [hnil] at ha
  have hf := h.flag_lt hfree (firstStore_of_head hpos ▸ hne)
  have hle := headSize_le vaddr size
  have hroom := headSize_room hpos
  obtain ⟨m₁, -, -, h₁, -⟩ := h.loops
  rw [mapHead_eq hv] at h₁
  have hstart : LoopStart vaddr (s.reached vaddr size) (.start s vaddr) :=
    ⟨rfl, ⟨hfree.tables.sound, hfree.tables.upper, hfree.tables.tables, hfree.tables.zeroed⟩, rfl⟩
  have hlen : (MapProgress.start s vaddr).len = 0 := rfl
  refine mapSmall_low hf hfree.aligned (by omega) hstart rfl rfl (fun i hi hgo => ?_)
    (fun i hi => ?_) (fun _ _ => ?_)
    (fun b hb => ⟨(hfree.tables.fresh.data b hb).nonzero, (hfree.tables.fresh.data b hb).aligned⟩) h₁ ha
    (by rw [hlen]; omega) (hd.imp_right fun hno hdry => hno ⟨hpos, hne, hdry.1, hdry.2⟩)
  · rw [hlen, Nat.zero_add] at hgo ⊢
    exact PgTables.reached_head hi hgo
  · rw [hlen] at hi ⊢
    rw [pdePath_eq_iff]
    unfold virtRegion
    omega
  · exact hfree.opens (y := 0) hfree.pos (PgTables.reached_head (List.length_pos_iff.2 hne) hpos)

theorem AllocCorrect.boundary (h : AllocCorrect s vaddr size flag) (hfree : s.FreeRange vaddr size)
    (hl : s.LargeObtained vaddr size) :
    headSize vaddr size % 0x1000 = 0 ∨ (vaddr + paddedSize size) % 0x200000 = 0 := by
  by_cases hov : headSize vaddr size % 0x1000 = 0
  · exact .inl hov
  right
  obtain ⟨hfits, hne, -⟩ := hl
  have hal := hfree.aligned
  obtain ⟨hv, hs, hroom, hlt, hgt, hw⟩ := over_bounds hov hal
  have hsize' : headSize vaddr (paddedSize size) = paddedSize size := by
    rw [headSize, if_neg hv]
    omega
  have hpos : 0 < headSize vaddr size := by
    rw [hs]
    exact hfree.pos
  have hdata : s.data ≠ [] := List.length_pos_iff.1 (by have := hfits.1; omega)
  have hf := h.flag_lt hfree (firstStore_of_head hpos ▸ hdata)
  have hcall := over_call hov hal hf (h.low hfree) hsize' (by omega) fun _ hlt =>
    absurd hlt (lt_irrefl _)
  have hreach := hfree.over_reach hov hsize' ⟨le_rfl, by rw [Nat.sub_self]⟩ fun hne =>
    absurd hne (lt_irrefl _)
  obtain ⟨m₁, m₂, -, h₁, h₂, -⟩ := h.loops
  rw [over_mapHead hov hal hsize' rfl] at h₁
  obtain ⟨m, hs', hrun, hhead, hno⟩ := mapHead_run hcall hreach
  obtain rfl := Except.ok.inj (h₁.symm.trans hrun)
  -- the first loop has all it needs, so it is not refused
  have hok : m₁.ret = OK := by
    by_contra hret
    have hfits' := (over_headFits hov hal hsize').2 hfits
    rcases (mapHead_account hcall hreach h₁).outcome with ⟨hbad, -⟩ | ⟨-, taken, ht⟩
    · exact hfits'.2 hbad
    · obtain ⟨hempty, hlt'⟩ := ht.failed hret
      have hlen := ht.len
      have htaken : s.data = taken ++ m₁.tables.data := ht.data
      rw [hempty, List.append_nil] at htaken
      have hstart : (MapProgress.start s vaddr).len = 0 := rfl
      have hle := hfits'.1
      rw [htaken] at hle
      omega
  have hlen : m₁.len = paddedSize size := ((hhead.head_len hcall).2 hok).trans hsize'
  obtain ⟨b, large, hlarge⟩ := List.exists_cons_of_ne_nil hne
  obtain ⟨heq, hwrap⟩ := over_middle hov hal hok hlen
  have hlarge₁ : m₁.tables.large = b :: large := by rw [hhead.mapped.same]; exact hlarge
  rw [heq, hlarge₁] at h₂
  have hb : b ∈ s.large := hlarge ▸ List.mem_cons_self
  have hasks := (mapLarge_asks h₂ (by omega) (hfree.tables.fresh.large b hb).1.nonzero).1
  have hmv := hhead.mapvaddr
  rw [hlen] at hmv
  omega

/-- `map_alloc_at` on a range of which no page is mapped: it does what it should if what it comes to
    fits, and only then, except where a 2 MiB frame obtained for flags without `PTE_PS` serves as a page
    table: then it depends on what that frame holds. -/
theorem mapAllocAt_maps_fresh_iff (hfree : s.FreeRange vaddr size) (hp : Present flag) :
    (AllocFits s vaddr size flag → AllocCorrect s vaddr size flag) ∧
      (AllocCorrect s vaddr size flag →
        AllocFits s vaddr size flag ∨ s.LargeObtained vaddr size ∧ ¬ Large flag) := by
  refine ⟨fun hfits => hfits.correct hfree hp, fun h => ?_⟩
  by_cases hps : s.LargeObtained vaddr size ∧ ¬ Large flag
  · exact .inr hps
  · refine .inl ⟨h.flag_lt hfree, h.low hfree, h.boundary hfree, fun hl => ?_⟩
    exact of_not_not fun hno => hps ⟨hl, hno⟩

/-- A page before the boundary, a 2 MiB page and a page behind it. -/
theorem mapAllocAt_maps_fresh_iff_mixed : ∃ s', mapAllocAt mixedSpace 0x1ff000 0x202000 0x83 = .ok (OK, s') ∧
    MapsFresh mixedSpace s' 0x1ff000 0x202000 := by
  have hfree : mixedSpace.FreeRange 0x1ff000 0x202000 :=
    { aligned := by decide
      pos := by decide
      size_lt := by decide
      tables := mixedSpace_rangeTables (by decide)
      pde := fun _ _ => .inl (.inl (emptySpace_entry ..))
      unmapped := fun _ _ => emptySpace_unmapped .. }
  have hfits : AllocFits mixedSpace 0x1ff000 0x202000 0x83 :=
    { flag_lt := fun _ => by decide
      low := fun j a ha _ _ => by
        have hall : ∀ a ∈ mixedSpace.data, a < 0x200000 := by decide
        exact hall a (List.mem_of_getElem? ha)
      boundary := fun _ => .inl (by decide)
      paged := fun _ => by decide }
  obtain ⟨ret, s', hrun, hmaps⟩ := (mapAllocAt_maps_fresh_iff hfree (by decide)).1 hfits
  have hret : (mapAllocAt mixedSpace 0x1ff000 0x202000 0x83).map Prod.fst = .ok OK := by decide +kernel
  obtain rfl : ret = OK := of_map_eq_ok hret hrun
  exact ⟨s', hrun, hmaps rfl⟩

/-- Before the first 2 MiB boundary, a frame above the first 2 MiB of memory fails an assertion. -/
theorem mapAllocAt_asserts_high :
    (onePage 0x400000).RangeTables 0x1000 0x1000 ∧
      (∀ x, InRange 0x1000 0x1000 x → translate (onePage 0x400000) x = none) ∧
      mapAllocAt (onePage 0x400000) 0x1000 0x1000 0x3 = .error (.assertion "paddr<0x200000") ∧
      ¬ AllocCorrect (onePage 0x400000) 0x1000 0x1000 0x3 := by
  have hrun : mapAllocAt (onePage 0x400000) 0x1000 0x1000 0x3 =
      .error (.assertion "paddr<0x200000") := rfl
  refine ⟨onePage_rangeTables ⟨by decide, by decide, by decide⟩ (by decide),
    fun _ _ => onePage_unmapped _ _, hrun, ?_⟩
  rintro ⟨ret, s', h, -⟩
  rw [hrun] at h
  cases h

end Needed

end Yaos
