import Yaos.PageTable.MapAlloc
import Mathlib.Data.List.Nodup
import Mathlib.Data.Finset.Card
import Mathlib.Data.Finset.Range

set_option autoImplicit false

/-! # `map_alloc_at` and `unmap_free_at` on whole ranges

`map_alloc_at` ends without a failed assertion and maps each page of the range to a frame of its own;
`unmap_free_at` after it gives every one of these frames back and leaves the tables as they were, but
for the empty tables that have been added. -/

namespace Yaos

open Word TableTree

/-! ## Entries of mapped pages -/

theorem and_notPS_lt {flag : Nat} (h : flag < 0x1000) : (flag &&& notPS) ||| pteG < 0x1000 :=
  Nat.or_lt_two_pow (n := 12) (lt_of_le_of_lt Nat.and_le_left h) (by decide)

theorem present_or_pteG {flag : Nat} (h : Present flag) : Present ((flag &&& notPS) ||| pteG) := by
  rw [present_iff_testBit] at h ⊢
  rw [Nat.testBit_or, Nat.testBit_and, h]
  rfl

theorem pteFor_eq {a flag : Nat} (ha : a % 0x1000 = 0) (hf : flag < 0x1000) :
    pteFor a flag = a + ((flag &&& notPS) ||| pteG) := by
  rw [pteFor, Nat.lor_assoc, or_flags ha (and_notPS_lt hf)]

theorem pteFor_present {a flag : Nat} (ha : a % 0x1000 = 0) (hf : flag < 0x1000)
    (hp : Present flag) : Present (pteFor a flag) := by
  have := present_or_pteG hp
  rw [pteFor_eq ha hf]
  omega

theorem alignDown_pteFor {a flag : Nat} (ha : a % 0x1000 = 0) (hf : flag < 0x1000) :
    alignDown 0x1000 (pteFor a flag) = a := by
  have := and_notPS_lt hf
  rw [pteFor_eq ha hf]
  unfold alignDown
  omega

theorem isLargePage_or {a flag : Nat} (ha : a % 0x200000 = 0) (hf : flag < 0x1000)
    (hp : Present flag) (hl : Large flag) :
    isLargePage (a ||| flag) = true ∧ alignDown 0x200000 (a ||| flag) = a := by
  rw [isLargePage_iff, or_flags (by omega) hf]
  unfold alignDown
  omega

section Holds

variable {s : PgTables} {vaddr size reach flag : Nat} {m : MapProgress} {hs ls ds : List Nat}

/-- Entries above the page directory are on the way to the parts, not in them. -/
theorem not_partPaths_of_length {v h l d : Nat} {q : List (Fin 512)} (hq : q.length < 3) :
    ¬ PartPaths v h l d q := by
  rintro (hs | ⟨i, -, hsuf⟩ | hs)
  · exact not_smallPaths_of_length (by omega) hs
  · exact not_suffix_of_length (by simpa using hq) hsuf
  · exact not_smallPaths_of_length (by omega) hs

theorem AllocRun.openAt (h : AllocRun s vaddr size flag m hs ls ds) {x : Nat} (hx : x < m.len) :
    m.tables.OpenAt (vaddr + x) :=
  (h.opened x hx).kept fun q hq => h.off q (not_partPaths_of_length hq)

/-- What has been mapped is what `unmap_free_at` expects to find. -/
theorem AllocRun.holds (h : AllocRun s vaddr size flag m hs ls ds)
    (hready : s.AllocReach vaddr size reach) (hf : flag < 0x1000) (hp : Present flag) :
    HoldsParts m.tables vaddr hs ls ds := by
  have hlen := h.len
  refine ⟨?_, ?_, ?_⟩
  · intro j a ha
    have hj := (List.getElem?_eq_some_iff.1 ha).1
    obtain ⟨hpte, hlink⟩ := h.mapped.head j a ha
    have hmem := hready.data a (h.small_mem a (List.mem_append_left _ (List.mem_of_getElem? ha)))
    refine ⟨hmem.1, h.openAt (by omega), hlink, ?_⟩
    rw [hpte, alignDown_pteFor hmem.2 hf]
  · intro i a ha
    have hi := (List.getElem?_eq_some_iff.1 ha).1
    have hmem := hready.large a (h.large_mem a (List.mem_of_getElem? ha))
    have hl := h.flagged (List.ne_nil_of_mem (List.mem_of_getElem? ha))
    rw [h.mapped.large i a ha]
    refine ⟨?_, isLargePage_or hmem.2 hf hp hl⟩
    rw [Nat.add_assoc]
    exact h.openAt (by omega)
  · intro j a ha
    have hj := (List.getElem?_eq_some_iff.1 ha).1
    obtain ⟨hpte, hlink⟩ := h.mapped.small j a ha
    have hmem := hready.data a (h.small_mem a (List.mem_append_right _ (List.mem_of_getElem? ha)))
    refine ⟨hmem.1, ?_, hlink, ?_⟩
    · rw [Nat.add_assoc, Nat.add_assoc]
      exact h.openAt (by omega)
    · rw [hpte, alignDown_pteFor hmem.2 hf]

theorem AllocRun.unmap (h : AllocRun s vaddr size flag m hs ls ds)
    (hready : s.AllocReach vaddr size reach) (hf : flag < 0x1000) (hp : Present flag) {len : Nat}
    (hlen : len = m.len) :
    ∃ s', unmapFreeAt m.tables vaddr len = .ok s' ∧ FreedParts m.tables s' vaddr hs ls ds :=
  unmapFreeAt_freed h.sound h.parts (hlen.trans h.len) (h.holds hready hf hp)

end Holds

/-! ## Pages and parts -/

section Pages

variable {vaddr h l d x y : Nat}

/-- Every address of the range is in one of the parts. -/
theorem Parts.locate (hparts : Parts vaddr h l d)
    (hy : y < 0x1000 * h + 0x200000 * l + 0x1000 * d) (hx : x % 2 ^ 48 = (vaddr + y) % 2 ^ 48) :
    (∃ j < h, y / 0x1000 = j ∧ ptePath x = ptePath (vaddr + 0x1000 * j)) ∨
    (∃ i < l, (y - 0x1000 * h) / 0x200000 = i ∧ 0x1000 * h ≤ y ∧
      pdePath x = pdePath (vaddr + 0x1000 * h + 0x200000 * i)) ∨
    ∃ j < d, (y - 0x1000 * h - 0x200000 * l) / 0x1000 = j ∧ 0x1000 * h + 0x200000 * l ≤ y ∧
      ptePath x = ptePath (vaddr + 0x1000 * h + 0x200000 * l + 0x1000 * j) := by
  have haligned := hparts.aligned
  have hboundary := hparts.boundary
  by_cases hhead : y < 0x1000 * h
  · refine .inl ⟨y / 0x1000, by omega, rfl, ?_⟩
    rw [ptePath_eq_iff]
    unfold virtPage
    omega
  · by_cases hlarge : y < 0x1000 * h + 0x200000 * l
    · refine .inr (.inl ⟨(y - 0x1000 * h) / 0x200000, by omega, rfl, by omega, ?_⟩)
      rw [pdePath_eq_iff]
      unfold virtRegion
      omega
    · refine .inr (.inr ⟨(y - 0x1000 * h - 0x200000 * l) / 0x1000, by omega, rfl, by omega, ?_⟩)
      rw [ptePath_eq_iff]
      unfold virtPage
      omega

/-- The parts hold no address outside the range. -/
theorem Parts.inRange (hparts : Parts vaddr h l d)
    (hq : PartPaths vaddr h l d (ptePath x) ∨ PartPaths vaddr h l d (pdePath x)) :
    InRange vaddr (0x1000 * h + 0x200000 * l + 0x1000 * d) x := by
  have haligned := hparts.aligned
  have hboundary := hparts.boundary
  have hsmall : ∀ b n, SmallPaths (vaddr + b) n (ptePath x) → b % 0x1000 = 0 →
      ∃ y < 0x1000 * n, x % 2 ^ 48 = (vaddr + (b + y)) % 2 ^ 48 := by
    rintro b n ⟨j, hj, heq⟩ hb
    rw [ptePath_eq_iff] at heq
    unfold virtPage at heq
    exact ⟨0x1000 * j + x % 0x1000, by omega, by omega⟩
  have hlarge : LargePaths (vaddr + 0x1000 * h) l (ptePath x) →
      ∃ y < 0x200000 * l, x % 2 ^ 48 = (vaddr + (0x1000 * h + y)) % 2 ^ 48 := by
    rintro ⟨i, hi, hsuf⟩
    rw [pdePath_suffix_ptePath] at hsuf
    unfold virtRegion at hsuf
    exact ⟨0x200000 * i + x % 0x200000, by omega, by omega⟩
  have hpte : PartPaths vaddr h l d (ptePath x) := by
    rcases hq with hq | hs | hl | hs
    · exact hq
    · exact absurd hs (not_smallPaths_of_length (by simp))
    · exact .inr (.inl (largePaths_ptePath hl))
    · exact absurd hs (not_smallPaths_of_length (by simp))
  rcases hpte with hs | hl | hs
  · obtain ⟨y, hy, hx⟩ := hsmall 0 h hs rfl
    exact ⟨0 + y, by omega, hx⟩
  · obtain ⟨y, hy, hx⟩ := hlarge hl
    exact ⟨0x1000 * h + y, by omega, hx⟩
  · rw [Nat.add_assoc] at hs
    obtain ⟨y, hy, hx⟩ := hsmall _ d hs (by omega)
    exact ⟨0x1000 * h + 0x200000 * l + y, by omega, hx⟩

/-- Outside the range nothing is mapped or unmapped. -/
theorem Parts.translate_off (hparts : Parts vaddr h l d) {s s' : PgTables}
    (hoff : ∀ q, ¬ PartPaths vaddr h l d q → Kept s s' q)
    (hx : ¬ InRange vaddr (0x1000 * h + 0x200000 * l + 0x1000 * d) x) :
    translate s' x = translate s x :=
  translate_kept (hoff _ (not_partPaths_of_length (by simp)))
    (hoff _ fun hq => hx (hparts.inRange (.inr hq)))
    (hoff _ fun hq => hx (hparts.inRange (.inl hq)))

end Pages

/-! ## What the frame stores hand out -/

/-- The two frame stores as sets of free frames: what they hand out are proper frames, all different,
    and no 4 KiB frame is part of a 2 MiB frame. -/
structure PgTables.FreshFrames (s : PgTables) : Prop where
  data : ∀ a ∈ s.data, Frame a
  large : ∀ b ∈ s.large, Frame b ∧ b % 0x200000 = 0
  data_nodup : s.data.Nodup
  large_nodup : s.large.Nodup
  apart : ∀ a ∈ s.data, ∀ b ∈ s.large, alignDown 0x200000 a ≠ b

/-- Physical memory behind the direct map holds less than 2^47 bytes of 2 MiB frames. -/
theorem PgTables.FreshFrames.count {s : PgTables} (h : s.FreshFrames) :
    0x200000 * s.large.length < 2 ^ 47 := by
  have hinj : (s.large.map (· / 0x200000)).Nodup := by
    refine List.Nodup.map_on (fun a ha b hb hab => ?_) h.large_nodup
    have hal := (h.large a ha).2
    have hbl := (h.large b hb).2
    omega
  have hsub : s.large.map (· / 0x200000) ⊆ List.range 0x2300000 := by
    intro i hi
    obtain ⟨b, hb, rfl⟩ := List.mem_map.1 hi
    have := (h.large b hb).1.reached
    rw [List.mem_range]
    unfold physVirtStart physVirtEnd at this
    omega
  have hle := (hinj.subperm hsub).length_le
  rw [List.length_map, List.length_range] at hle
  omega

/-! ## Flags -/

section Flags

variable {s : PgTables} {paddr vaddr flag : Nat}

theorem lt_of_alignDown_eq_zero {x : Nat} (h : alignDown 0x1000 x = 0) : x < 0x1000 := by
  unfold alignDown at h
  omega

theorem map4kPageP2V_flag {r : Nat × PgTables} (h : map4kPageP2V s paddr vaddr flag = .ok r) :
    flag < 0x1000 := by
  obtain ⟨-, h⟩ := assert_bind_eq_ok.1 h
  obtain ⟨-, h⟩ := assert_bind_eq_ok.1 h
  exact lt_of_alignDown_eq_zero (assert_bind_eq_ok.1 h).1

theorem mapPageP2V_flag {r : Nat × PgTables} (h : mapPageP2V s paddr vaddr flag = .ok r) :
    flag < 0x1000 := by
  obtain ⟨-, h⟩ := assert_bind_eq_ok.1 h
  obtain ⟨-, h⟩ := assert_bind_eq_ok.1 h
  exact lt_of_alignDown_eq_zero (assert_bind_eq_ok.1 h).1

/-- A frame that a loop over 4 KiB pages is handed has passed the assertions. -/
theorem mapSmall_asks {low : Bool} {stop a : Nat} {data : List Nat} {m m' : MapProgress}
    (h : mapSmall low flag stop (a :: data) m = .ok m') (hgo : m.len < stop) (ha : a ≠ 0) :
    (low = true → a < 0x200000) ∧ flag < 0x1000 := by
  rw [mapSmall, if_pos hgo] at h
  obtain ⟨hlow, h⟩ := assert_bind_eq_ok.1 h
  dsimp only at h
  rw [if_neg ha] at h
  obtain ⟨r, hmap, -⟩ := bind_eq_ok.1 h
  exact ⟨hlow, map4kPageP2V_flag hmap⟩

/-- So has a 2 MiB frame, which is also mapped at a boundary. -/
theorem mapLarge_asks {mapsize a : Nat} {large : List Nat} {m m' : MapProgress}
    (h : mapLarge flag mapsize (a :: large) m = .ok m') (hgo : m.len ≤ mapsize) (ha : a ≠ 0) :
    m.mapvaddr % 0x200000 = 0 ∧ flag < 0x1000 := by
  rw [mapLarge, if_pos hgo] at h
  dsimp only at h
  rw [if_neg ha] at h
  obtain ⟨r, hmap, -⟩ := bind_eq_ok.1 h
  exact ⟨(assert_bind_eq_ok.1 hmap).1, mapPageP2V_flag hmap⟩

/-- A loop that maps at least one page checks the flags. -/
theorem mapSmall_flag {low : Bool} {stop : Nat} {data : List Nat} {m m' : MapProgress}
    (h : mapSmall low flag stop data m = .ok m') (hgo : m.len < stop) (hret : m'.ret = OK) :
    flag < 0x1000 := by
  cases data with
  | nil =>
      rw [mapSmall, if_pos hgo] at h
      cases h
      exact absurd hret ENOMEM_ne_OK
  | cons a data =>
      by_cases ha : a = 0
      · rw [mapSmall, if_pos hgo] at h
        obtain ⟨-, h⟩ := assert_bind_eq_ok.1 h
        dsimp only at h
        rw [if_pos ha, ok_bind] at h
        dsimp only at h
        rw [if_pos ENOMEM_ne_OK] at h
        cases h
        exact absurd hret ENOMEM_ne_OK
      · exact (mapSmall_asks h hgo ha).2

theorem mapLarge_flag {mapsize : Nat} {large : List Nat} {m m' : MapProgress}
    (h : mapLarge flag mapsize large m = .ok m') (hgo : m.len ≤ mapsize) (hret : m'.ret = OK) :
    flag < 0x1000 := by
  cases large with
  | nil =>
      rw [mapLarge, if_pos hgo] at h
      cases h
      exact absurd hret ENOMEM_ne_OK
  | cons a large =>
      by_cases ha : a = 0
      · rw [mapLarge, if_pos hgo] at h
        dsimp only at h
        rw [if_pos ha, ok_bind] at h
        dsimp only at h
        rw [if_pos ENOMEM_ne_OK] at h
        cases h
        exact absurd hret ENOMEM_ne_OK
      · exact (mapLarge_asks h hgo ha).2

theorem mapAllocAt_flag {size : Nat} {s' : PgTables} (hv : vaddr % 0x200000 = 0) (hpos : 0 < size)
    (hlt : size < 2 ^ 64) (h : mapAllocAt s vaddr size flag = .ok (OK, s')) : flag < 0x1000 := by
  unfold mapAllocAt at h
  rw [mapHead, if_neg (fun hne => hne hv), ok_bind] at h
  obtain ⟨m, hmid, h⟩ := bind_eq_ok.1 h
  obtain ⟨m', htail, h⟩ := bind_eq_ok.1 h
  have hret : m'.ret = OK := by
    by_contra hne
    rw [if_neg hne] at h
    split at h
    · obtain ⟨s₂, -, h⟩ := bind_eq_ok.1 h
      exact hne (congrArg Prod.fst (Except.ok.inj h))
    · exact hne (congrArg Prod.fst (Except.ok.inj h))
  have hret' : m.ret = OK := by
    by_contra hne
    rw [mapTail, if_neg hne] at htail
    cases htail
    exact hne hret
  have hsub : wsub size 0 = size := wsub_zero hlt
  by_cases hbig : 0x200000 ≤ size
  · rw [mapMiddle, if_pos ⟨rfl, by rwa [hsub]⟩] at hmid
    exact mapLarge_flag hmid (Nat.zero_le _) hret'
  · rw [mapMiddle, if_neg (fun hgo => hbig (by rw [← hsub]; exact hgo.2))] at hmid
    cases hmid
    rw [mapTail, if_pos rfl] at htail
    exact mapSmall_flag htail hpos hret

end Flags

/-- How `map_alloc_at` ends, from the end of its loops. -/
theorem mapAllocAt_ok {s s' : PgTables} {vaddr size flag : Nat} {m : MapProgress}
    (heq : mapAllocAt s vaddr size flag =
      if m.ret = OK then .ok (OK, m.tables)
      else if 0 < m.len then do
        let s ← unmapFreeAt m.tables vaddr m.len
        .ok (m.ret, s)
      else .ok (m.ret, m.tables))
    (h : mapAllocAt s vaddr size flag = .ok (OK, s')) : m.ret = OK ∧ m.tables = s' := by
  rw [heq] at h
  by_cases hret : m.ret = OK
  · rw [if_pos hret] at h
    exact ⟨hret, congrArg Prod.snd (Except.ok.inj h)⟩
  · rw [if_neg hret] at h
    split at h
    · obtain ⟨s₂, -, h⟩ := bind_eq_ok.1 h
      exact absurd (congrArg Prod.fst (Except.ok.inj h)) hret
    · exact absurd (congrArg Prod.fst (Except.ok.inj h)) hret

/-! ## The round trip -/

/-- The tables and the frame stores before a call on the range: the tables form a tree, the entries
    above the page directories of the range hold nothing or lead to a table, and the stores hand out
    fresh frames, with enough of them for the tables missing there and with clear page tables. -/
structure PgTables.RangeTables (s : PgTables) (vaddr size : Nat) : Prop where
  sound : s.Sound
  fresh : s.FreshFrames
  upper : ∀ x, InRange vaddr size x → s.OpenAt x
  tables : TablesSuffice s (InRange vaddr size)
  zeroed : ∀ f ∈ s.pt, ∀ n, s.frames f n = 0

theorem PgTables.RangeTables.ready {s : PgTables} {vaddr size : Nat} (h : s.RangeTables vaddr size)
    (hpde : ∀ x, InRange vaddr size x → Opens (s.entry (pdePath x))) :
    s.AllocReady vaddr size where
  range := ⟨h.sound, h.upper, h.tables, h.zeroed⟩
  pde := hpde
  data := fun a ha => ⟨(h.fresh.data a ha).nonzero, (h.fresh.data a ha).aligned⟩
  large := fun b hb => ⟨(h.fresh.large b hb).1.nonzero, (h.fresh.large b hb).2⟩
  count := h.fresh.count

section RoundTrip

variable {s s₁ s₂ : PgTables} {vaddr size flag : Nat} {m : MapProgress} {hs ls ds : List Nat}

theorem Opens.not_page {e : Nat} (h : Opens e) : ¬ (Present e ∧ Large e) := by
  rcases h with h | h
  · rw [h]
    omega
  · exact h.not_page

/-- After unmapping, no address of the parts is mapped. -/
theorem FreedParts.translate_none (h : FreedParts s₁ s₂ vaddr hs ls ds)
    (hparts : Parts vaddr hs.length ls.length ds.length) (hholds : HoldsParts s₁ vaddr hs ls ds)
    {x : Nat} (hopen : s₁.OpenAt x)
    (hx : InRange vaddr (0x1000 * hs.length + 0x200000 * ls.length + 0x1000 * ds.length) x) :
    translate s₂ x = none := by
  have hbound := hparts.bound
  have hpdpte : ¬ (Present (s₂.entry (pdptePath x)) ∧ Large (s₂.entry (pdptePath x))) := by
    rw [h.off _ (not_partPaths_of_length (by simp))]
    exact hopen.pdpte.not_page
  -- a page of a page table: the entry above it is a link, as it was
  have hsmall : ∀ y, ptePath x = ptePath y → s₂.entry (ptePath y) = 0 →
      IsLink (s₁.entry (pdePath y)) → translate s₂ x = none := by
    intro y hxy hzero hlink
    rw [translate_eq, hxy, hzero]
    have hxy' : pdePath x = pdePath y := (List.cons.inj hxy).2
    refine readEntries_none hpdpte ?_ (by omega)
    rw [hxy']
    by_cases hq : PartPaths vaddr hs.length ls.length ds.length (pdePath y)
    · rcases hq with hq | ⟨i, hi, hsuf⟩ | hq
      · exact absurd hq (not_smallPaths_of_length (by simp))
      · rw [← hsuf.eq_of_length (by simp), h.large i hi]
        omega
      · exact absurd hq (not_smallPaths_of_length (by simp))
    · rw [h.off _ hq]
      exact hlink.not_page
  obtain ⟨y, hy, hxy⟩ := hx
  rcases hparts.locate hy hxy with ⟨j, hj, -, heq⟩ | ⟨i, hi, -, -, heq⟩ | ⟨j, hj, -, -, heq⟩
  · exact hsmall _ heq (h.head j hj)
      (hholds.head j _ (List.getElem?_eq_getElem hj)).2.2.1
  · have hpde : s₂.entry (pdePath x) = 0 := by rw [heq, h.large i hi]
    have hpte : s₂.entry (ptePath x) = 0 :=
      PgTables.entry_cons_none (PgTables.tableOf_zero (by simp) hpde) _
    rw [translate_eq, hpde, hpte]
    exact readEntries_none hpdpte (by omega) (by omega)
  · exact hsmall _ heq (h.small j hj)
      (hholds.small j _ (List.getElem?_eq_getElem hj)).2.2.1

/-- `unmap_free_at` after `map_alloc_at`: no panic, the range unmapped, everything else as before, and
    the frames that were taken are returned, each once and to the store it came from. -/
theorem unmapFreeAt_undoes_mapAllocAt (hv : vaddr % 0x200000 = 0) (hpos : 0 < size)
    (hsize : size % 0x1000 = 0) (hlt : size < 2 ^ 64) (hp : Present flag) (hl : Large flag)
    (hs : s.RangeTables vaddr size) (hpde : ∀ x, InRange vaddr size x → Opens (s.entry (pdePath x)))
    (h : mapAllocAt s vaddr size flag = .ok (OK, s₁)) :
    ∃ s₂ small large, unmapFreeAt s₁ vaddr size = .ok s₂ ∧
      (∀ x, InRange vaddr size x → translate s₂ x = none) ∧
      (∀ x, ¬ InRange vaddr size x → translate s₂ x = translate s x) ∧
      s.data = small ++ s₁.data ∧ s.large = large ++ s₁.large ∧
      s₂.freedSmall = s.freedSmall ++ small ∧ s₂.freedLarge = s.freedLarge ++ large := by
  have hf := mapAllocAt_flag hv hpos hlt h
  have hzero : headSize vaddr size = 0 := if_pos hv
  have hargs : AllocArgs s vaddr size flag :=
    { vaddr_aligned := by omega
      size_lt := hlt
      flag_lt := hf
      low := fun j a _ hj => absurd hj (by omega)
      head := by rw [hzero]
      paged := fun _ => hl }
  have hready := (hs.ready hpde).reach
  obtain ⟨m, hs', ls, ds, hrun, heq⟩ := mapAllocAt_run hargs.call hready
  obtain ⟨hret, hs₁⟩ := mapAllocAt_ok heq h
  obtain ⟨-, hge, hdata, hlarge⟩ | hmem := hrun.done
  case inr => exact absurd (hmem.symm.trans hret) ENOMEM_ne_OK
  have hlen := hrun.len
  have hlen_lt := hrun.len_lt
  have hsz : size = 0x1000 * hs'.length + 0x200000 * ls.length + 0x1000 * ds.length := by omega
  obtain ⟨s₂, hunmap, hfreed⟩ := hrun.unmap hready hf hp (hsz.trans hlen.symm)
  have hsame := hrun.same
  have hkept : ∀ q, ¬ PartPaths vaddr hs'.length ls.length ds.length q → Kept s s₂ q := fun q hq =>
    (hrun.off q hq).trans (.inl (hfreed.off q hq))
  refine ⟨s₂, hs' ++ ds, ls, hs₁ ▸ hunmap, ?_, ?_, hs₁ ▸ hdata, hs₁ ▸ hlarge, ?_, ?_⟩
  · intro x hx
    have hopen : m.tables.OpenAt x :=
      (hs.upper x hx).kept fun q hq => hrun.off q (not_partPaths_of_length hq)
    rw [hsz] at hx
    exact hfreed.translate_none hrun.parts (hrun.holds hready hf hp) hopen hx
  · intro x hx
    rw [hsz] at hx
    exact hrun.parts.translate_off hkept hx
  · rw [hfreed.same, hsame]
  · rw [hfreed.same, hsame]

/-- An empty address space and its frames: `data` for pages, `pt` for page tables, `table` for the tables
    above them and `large` for 2 MiB pages. -/
def emptySpace (data pt table large : List Nat) : PgTables where
  frames := fun _ _ => 0
  pml4 := 0x1000
  data := data
  pt := pt
  table := table
  large := large
  freedSmall := []
  freedLarge := []

section EmptySpace

variable (data pt table large : List Nat)

theorem emptySpace_entry (q : List (Fin 512)) : (emptySpace data pt table large).entry q = 0 :=
  PgTables.entry_blank (fun _ => rfl) q

theorem emptySpace_unmapped (x : Nat) : Yaos.translate (emptySpace data pt table large) x = none := by
  rw [translate_eq, emptySpace_entry, emptySpace_entry, emptySpace_entry]
  exact readEntries_none (by omega) (by omega) (by omega)

variable {data pt table large}

theorem emptySpace_sound (hframe : ∀ f ∈ table ++ pt, Frame f ∧ f ≠ 0x1000) (hnodup : (table ++ pt).Nodup) :
    (emptySpace data pt table large).Sound :=
  .blank (fun _ => rfl) (by decide : 0x1000 < 2 ^ 64) hframe hnodup

/-- Two frames are enough for the tables above the page tables of 1 GiB. -/
theorem emptySpace_rangeTables {vaddr size v : Nat} (hsound : (emptySpace data pt table large).Sound)
    (hfresh : (emptySpace data pt table large).FreshFrames) (htable : 2 ≤ table.length)
    (h : ∀ x, InRange vaddr size x → pdptePath x = pdptePath v) :
    (emptySpace data pt table large).RangeTables vaddr size where
  sound := hsound
  fresh := hfresh
  upper := fun x _ => ⟨.inl (emptySpace_entry ..), .inl (emptySpace_entry ..)⟩
  tables := by
    refine ⟨[pml4ePath v, pdptePath v], htable, fun x hx q hq _ => ?_⟩
    have hpml4e : pml4ePath x = pml4ePath v := (List.cons.inj (h x hx)).2
    rw [h x hx, hpml4e] at hq
    simpa using hq
  zeroed := fun _ _ _ => rfl

theorem inRange_first {vaddr size x : Nat} (h : vaddr + size ≤ 0x40000000) (hx : InRange vaddr size x) :
    pdptePath x = pdptePath 0 := by
  obtain ⟨y, hy, hx⟩ := hx
  rw [pdptePath_eq_iff]
  omega

end EmptySpace

/-- An empty address space, with the frame `a` for one page and the three tables above it. -/
def onePage (a : Nat) : PgTables where
  frames := fun _ _ => 0
  pml4 := 0x1000
  data := [a]
  pt := [0x4000]
  table := [0x2000, 0x3000]
  large := []
  freedSmall := []
  freedLarge := []

theorem onePage_entry (a : Nat) (q : List (Fin 512)) : (onePage a).entry q = 0 :=
  emptySpace_entry [a] [0x4000] [0x2000, 0x3000] [] q

theorem onePage_unmapped (a x : Nat) : Yaos.translate (onePage a) x = none :=
  emptySpace_unmapped [a] [0x4000] [0x2000, 0x3000] [] x

theorem onePage_sound (a : Nat) : (onePage a).Sound := by
  change (emptySpace [a] [0x4000] [0x2000, 0x3000] []).Sound
  exact emptySpace_sound (by decide) (by decide)

theorem onePage_rangeTables {a vaddr size : Nat} (ha : Frame a) (h : vaddr + size ≤ 0x200000) :
    (onePage a).RangeTables vaddr size := by
  change (emptySpace [a] [0x4000] [0x2000, 0x3000] []).RangeTables vaddr size
  refine emptySpace_rangeTables (onePage_sound a)
    { data := fun b hb => ?_
      large := fun b hb => absurd hb List.not_mem_nil
      data_nodup := List.nodup_singleton a
      large_nodup := List.nodup_nil
      apart := fun a _ b hb => absurd hb List.not_mem_nil } le_rfl fun _ => inRange_first (by omega)
  obtain rfl := List.mem_singleton.1 hb
  exact ha

/-- An empty address space with frames for a page before 2 MiB, a 2 MiB page and two pages behind it. -/
def mixedSpace : PgTables := 
  emptySpace [0x5000, 0x6000, 0x7000] [0x8000, 0x9000] [0x2000, 0x3000] [0x400000]

theorem mixedSpace_rangeTables {vaddr size : Nat} (h : vaddr + size ≤ 0x40000000) :
    mixedSpace.RangeTables vaddr size :=
  emptySpace_rangeTables (emptySpace_sound (by decide) (by decide))
    { data := by decide
      large := by decide
      data_nodup := by decide
      large_nodup := by decide
      apart := by decide } le_rfl fun _ => inRange_first h

/-- A 2 MiB page and two pages behind it are mapped and unmapped. -/
theorem unmapFreeAt_undoes_mapAllocAt_mixed :
    ∃ s₁ s₂ small large, mapAllocAt mixedSpace 0x200000 0x202000 0x83 = .ok (OK, s₁) ∧
      unmapFreeAt s₁ 0x200000 0x202000 = .ok s₂ ∧
      (∀ x, InRange 0x200000 0x202000 x → translate s₂ x = none) ∧
      (∀ x, ¬ InRange 0x200000 0x202000 x → translate s₂ x = translate mixedSpace x) ∧
      mixedSpace.data = small ++ s₁.data ∧ mixedSpace.large = large ++ s₁.large ∧
      s₂.freedSmall = mixedSpace.freedSmall ++ small ∧
      s₂.freedLarge = mixedSpace.freedLarge ++ large := by
  have hret : (mapAllocAt mixedSpace 0x200000 0x202000 0x83).map Prod.fst = .ok OK := by
    decide +kernel
  obtain ⟨⟨r, s₁⟩, h, hr⟩ := map_eq_ok.1 hret
  obtain rfl : r = OK := hr
  obtain ⟨s₂, small, large, hrest⟩ := unmapFreeAt_undoes_mapAllocAt (by decide) (by decide)
    (by decide) (by decide) (by decide) (by decide) (mixedSpace_rangeTables (by decide))
    (fun x _ => .inl (emptySpace_entry ..)) h
  exact ⟨s₁, s₂, small, large, h, hrest⟩

end RoundTrip

/-! ## Pages and their translations -/

section Translations

variable {s : PgTables} {x e : Nat}

theorem translate_pte (hopen : s.OpenAt x) (hlink : IsLink (s.entry (pdePath x)))
    (hpte : s.entry (ptePath x) = e) (hp : Present e) :
    translate s x = some (alignDown 0x1000 e + x % 0x1000) := by
  rw [translate_eq, hpte, readEntries, if_neg hopen.pdpte.not_page, if_neg hlink.not_page, if_pos hp]

theorem translate_pde (hopen : s.OpenAt x) (hpde : s.entry (pdePath x) = e)
    (hlarge : isLargePage e = true) : translate s x = some (alignDown 0x200000 e + x % 0x200000) := by
  rw [translate_eq, hpde, readEntries, if_neg hopen.pdpte.not_page, if_pos (isLargePage_iff.1 hlarge)]

/-- A page directory entry over an unmapped page is no 2 MiB page. -/
theorem Opens.of_unmapped (hopen : s.OpenAt x) (hpde : PdeOpens (s.entry (pdePath x)))
    (hnone : translate s x = none) : Opens (s.entry (pdePath x)) := by
  rcases hpde with h | hlarge
  · exact h
  · rw [translate_pde hopen rfl hlarge] at hnone
    cases hnone

end Translations

end Yaos
