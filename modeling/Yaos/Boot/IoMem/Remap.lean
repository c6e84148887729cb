import Yaos.Boot.IoMem
import Yaos.PageTable.Giant

set_option autoImplicit false

/-! # Mapping device memory (`ioremap_nocache` and `remap_iomem`)

Both map 2 MiB pages of device memory, without the cache, at `IO_MEM_BASE` above their physical addresses. The
sum is taken as it comes, with no look at what lies there. `remap_iomem` maps what `on_iomem` has recorded,
`ioremap_nocache` the pages from the start of its range on, by a loop that is left one page late where the range
ends at the end of a page. -/

namespace Yaos

open Word TableTree

/-- `PTE_PWT`: writes go through. -/
def ptePWT : Nat := 0x008

/-- `PTE_PCD`: the page is not cached. -/
def ptePCD : Nat := 0x010

/-- Where device memory is mapped. -/
def ioMemBase : Nat := 0xffffffe800000000

/-- `KERNEL_BELOW_1G_START`: the kernel's windows reach from here to the end of the address space. -/
def kernelBelow1gStart : Nat := 0xffffffff40000000

/-- The flags that device memory is mapped with. -/
def ioFlags : Nat := pteP ||| pteW ||| ptePWT ||| ptePCD ||| ptePS

/-- `for (ulong added = 0; added <= size; added += PAGE_SIZE_LARGE) { … }`. What `map_page_p2v` returns is not
    looked at. -/
def ioremapLoop : Nat → Nat → Nat → Nat → PgTables → Except Fault PgTables
  | 0, _, _, _, _ => .error .hang
  | fuel + 1, added, size, paddr, s =>
      if added ≤ size then do
        let (_, s) ← mapPageP2V s paddr (wadd paddr ioMemBase) ioFlags
        ioremapLoop fuel (wadd added 0x200000) size (wadd paddr 0x200000) s
      else .ok s

/-- `ioremap_nocache`. -/
def ioremapNocache (fuel : Nat) (s : PgTables) (addr size : Nat) : Except Fault (Nat × PgTables) := do
  let paddr := alignDown 0x200000 addr
  let s ← ioremapLoop fuel 0 (wadd size (wsub addr paddr)) paddr s
  .ok (wadd addr ioMemBase, s)

/-- The loop over the first `remaped` entries of `io_remap_pages`. -/
def remapIomem (s : PgTables) : List Nat → Except Fault PgTables
  | [] => .ok s
  | e :: maps =>
      if e > 0 then do
        let paddr := wsub e 1 * 0x200000 % 2 ^ 64
        let (ret, s) ← mapPageP2V s paddr (wadd paddr ioMemBase) ioFlags
        if ret ≠ OK then .error (.panic "No memory when map page %lx\n")
        else remapIomem s maps
      else remapIomem s maps

/-! ## Runs of 2 MiB mappings -/

/-- Where `x` is mapped to, with the flags of the entry that maps it. -/
def mappingOf (s : PgTables) (x : Nat) : Option (Nat × Nat) :=
  (pageView s x).map fun v => (v.paddr, v.flags)

/-- `IO_MEM_BASE` above the page `p`. -/
def ioImage (p : Nat) : Nat := wadd (p * 0x200000) ioMemBase

/-- The last of `pages` whose image `x` is in. -/
def lastAt (x : Nat) : List Nat → Option Nat
  | [] => none
  | p :: pages => (lastAt x pages).or (if virtRegion x = virtRegion (ioImage p) then some p else none)

/-- There are frames for the tables that the mappings of `pages` make. -/
def IoGranted : PgTables → List Nat → Prop
  | _, [] => True
  | s, p :: pages => tablesFor2M s (ioImage p) ≤ s.table.length ∧
      ∀ s', mapPageP2V s (p * 0x200000) (ioImage p) ioFlags = .ok (OK, s') → IoGranted s' pages

/-- All of `pages` have been mapped, one after the other. -/
structure IoMapped (s s' : PgTables) (pages : List Nat) : Prop where
  mixed : s'.Mixed
  mapping : ∀ x, mappingOf s' x =
    ((lastAt x pages).map fun p => (p * 0x200000 + x % 0x200000, ioFlags)).or (mappingOf s x)

section Runs

variable {s s₁ s' : PgTables} {pages maps : List Nat} {x p q n : Nat}

theorem translate_eq_mappingOf (s : PgTables) (x : Nat) : translate s x = (mappingOf s x).map Prod.fst := by
  rw [translate_eq_pageView, mappingOf, Option.map_map]
  rfl

theorem ioImage_mod (p : Nat) : ioImage p % 0x200000 = 0 := by
  unfold ioImage wadd ioMemBase
  omega

theorem lastAt_mem (h : lastAt x pages = some p) : p ∈ pages ∧ virtRegion x = virtRegion (ioImage p) := by
  induction pages with
  | nil => cases h
  | cons q pages ih =>
      rw [lastAt] at h
      cases hrest : lastAt x pages with
      | some q' =>
          rw [hrest, Option.some_or] at h
          obtain ⟨hmem, hx⟩ := ih (hrest.trans h)
          exact ⟨List.mem_cons_of_mem _ hmem, hx⟩
      | none =>
          rw [hrest, Option.none_or] at h
          split at h
          case isTrue hx =>
            obtain rfl := Option.some.inj h
            exact ⟨List.mem_cons_self, hx⟩
          case isFalse => cases h

theorem lastAt_none (h : lastAt x pages = none) : ∀ p ∈ pages, virtRegion x ≠ virtRegion (ioImage p) := by
  induction pages with
  | nil => simp
  | cons q pages ih =>
      rw [lastAt, Option.or_eq_none_iff] at h
      refine List.forall_mem_cons.2 ⟨fun hx => ?_, ih h.1⟩
      rw [if_pos hx] at h
      cases h.2

/-- One mapping, at every address. -/
theorem mapPageP2V_mapping {paddr vaddr flag : Nat} (h : s.Mixed) (htab : tablesFor2M s vaddr ≤ s.table.length)
    (hp : paddr % 0x200000 = 0) (hv : vaddr % 0x200000 = 0) (hf : flag < 0x1000)
    (hpres : Present flag) (hlarge : Large flag) :
    ∃ s', mapPageP2V s paddr vaddr flag = .ok (OK, s') ∧ LargeMap s s' paddr vaddr ∧
      ∀ x, mappingOf s' x =
        if virtRegion x = virtRegion vaddr then some (paddr + x % 0x200000, flag) else mappingOf s x := by
  obtain ⟨s', hrun, hm⟩ := mapPageP2V_largeMap h htab hp hv hf hpres hlarge
  refine ⟨s', hrun, hm, fun x => ?_⟩
  by_cases hx : virtRegion x = virtRegion vaddr
  · obtain ⟨s₁, s₂, hway, -, hs₂, hmade⟩ := mapPageP2V_way h htab hp hv hf
    obtain ⟨hpage, hdown⟩ := isLargePage_or hp hf hpres hlarge
    have hentry : s'.entry (pdePath vaddr) = paddr ||| flag := by
      rw [hrun] at hway
      rw [(Prod.mk.inj (Except.ok.inj hway)).2]
      exact PgTables.entry_store_self hs₂ (PgTables.tableOf_link (by simp) hmade.link) hmade.link.frame.lt
    have hpath := pdePath_eq_iff.2 hx
    have hflags : (paddr ||| flag) % 0x1000 = flag := by
      rw [or_flags (by omega) hf]
      omega
    rw [if_pos hx, mappingOf, pageView_eq, viewEntries, (List.cons.inj hpath).2, hpath,
      if_neg hm.links.2.not_page, hentry, if_pos (isLargePage_iff.1 hpage), Option.map_some, viewOf]
    dsimp only
    rw [hdown, hflags]
  · rw [if_neg hx, mappingOf, hm.view x hx, mappingOf]

theorem mapPageP2V_io (h : s.Mixed) (htab : tablesFor2M s (ioImage p) ≤ s.table.length) :
    ∃ s', mapPageP2V s (p * 0x200000) (ioImage p) ioFlags = .ok (OK, s') ∧
      LargeMap s s' (p * 0x200000) (ioImage p) ∧ IoMapped s s' [p] := by
  obtain ⟨s', hrun, hm, hmapping⟩ := mapPageP2V_mapping h htab (Nat.mul_mod_left ..) (ioImage_mod p)
    (by decide : ioFlags < 0x1000) (by decide) (by decide)
  refine ⟨s', hrun, hm, hm.mixed, fun x => ?_⟩
  rw [hmapping, lastAt, lastAt, Option.none_or]
  split <;> rfl

theorem IoMapped.nil (h : s.Mixed) : IoMapped s s [] := ⟨h, fun _ => rfl⟩

theorem IoMapped.cons (h : IoMapped s s₁ [p]) (h' : IoMapped s₁ s' pages) : IoMapped s s' (p :: pages) := by
  refine ⟨h'.mixed, fun x => ?_⟩
  -- where a later image has `x`, what `p` did there is lost
  rw [h'.mapping, h.mapping, lastAt, lastAt, lastAt, Option.none_or]
  cases lastAt x pages <;> rfl

/-- Two frames for each page are enough. -/
theorem ioGranted_of_length (h : s.Mixed) (hlen : 2 * pages.length ≤ s.table.length) : IoGranted s pages := by
  induction pages generalizing s with
  | nil => trivial
  | cons p pages ih =>
      rw [List.length_cons] at hlen
      have hle := tablesFor2M_le s (ioImage p)
      have htab : tablesFor2M s (ioImage p) ≤ s.table.length := by omega
      refine ⟨htab, fun s' hrun' => ?_⟩
      obtain ⟨s'', hrun, hm, hmapped⟩ := mapPageP2V_io h htab
      rw [hrun] at hrun'
      obtain rfl := (Prod.mk.inj (Except.ok.inj hrun')).2
      have hcount := hm.count
      exact ih hmapped.mixed (by omega)

end Runs

/-! ## The two loops -/

section Loops

variable {s s' : PgTables} {pages maps : List Nat} {addr size added paddr fuel k n p : Nat}

/-- The loop maps the pages that are left, and is left itself where the fuel lasts. -/
theorem ioremapLoop_mapped (h : s.Mixed) (hn : k + n = size / 0x200000 + 1) (hword : size < 2 ^ 64 - 0x200000)
    (hp : p + n ≤ 2 ^ 43) (hadded : added = k * 0x200000) (hpaddr : paddr = p * 0x200000 % 2 ^ 64)
    (hgranted : IoGranted s (List.range' p n)) :
    (n < fuel → ∃ s', ioremapLoop fuel added size paddr s = .ok s') ∧
      ∀ s', ioremapLoop fuel added size paddr s = .ok s' → IoMapped s s' (List.range' p n) := by
  induction n generalizing fuel k p added paddr s with
  | zero =>
      cases fuel with
      | zero =>
          refine ⟨fun hlt => absurd hlt (Nat.lt_irrefl 0), fun s' hok => ?_⟩
          cases hok
      | succ fuel =>
          rw [ioremapLoop, if_neg (by omega)]
          refine ⟨fun _ => ⟨s, rfl⟩, fun s' hok => ?_⟩
          obtain rfl := Except.ok.inj hok
          exact .nil h
  | succ n ih =>
      cases fuel with
      | zero =>
          refine ⟨fun hlt => absurd hlt (by omega), fun s' hok => ?_⟩
          cases hok
      | succ fuel =>
          rw [List.range'_succ, IoGranted] at hgranted
          obtain ⟨htab, hrest⟩ := hgranted
          obtain ⟨s₁, hrun, -, hmapped⟩ := mapPageP2V_io h htab
          have hpaddr' : paddr = p * 0x200000 := by omega
          have hadd : wadd added 0x200000 = (k + 1) * 0x200000 := by
            rw [wadd_eq (by omega)]
            omega
          have hnext : wadd paddr 0x200000 = (p + 1) * 0x200000 % 2 ^ 64 := by
            unfold wadd
            omega
          rw [ioremapLoop, if_pos (by omega), hpaddr', ← ioImage, hrun, ok_bind, ← hpaddr']
          have hleft : (n < fuel → ∃ s', ioremapLoop fuel (wadd added 0x200000) size (wadd paddr 0x200000) s₁
              = .ok s') ∧ ∀ s', ioremapLoop fuel (wadd added 0x200000) size (wadd paddr 0x200000) s₁ = .ok s' →
              IoMapped s₁ s' (List.range' (p + 1) n) :=
            ih hmapped.mixed (k := k + 1) (by omega) (by omega) hadd hnext (hrest s₁ hrun)
          refine ⟨fun hlt => hleft.1 (by omega), fun s' hok => ?_⟩
          rw [List.range'_succ]
          exact hmapped.cons (hleft.2 s' hok)

/-- `added` takes the multiples of 2 MiB, and goes round. -/
theorem ioremapLoop_endless (hsize : 2 ^ 64 - 0x200000 ≤ size) (hadded : added % 0x200000 = 0)
    (hlt : added < 2 ^ 64) : ioremapLoop fuel added size paddr s ≠ .ok s' := by
  induction fuel generalizing added paddr s with
  | zero => simp [ioremapLoop]
  | succ fuel ih =>
      intro hok
      rw [ioremapLoop, if_pos (by omega)] at hok
      obtain ⟨⟨ret, s₁⟩, -, hrest⟩ := bind_eq_ok.1 hok
      exact ih (by unfold wadd; omega) (wadd_lt _ _) hrest

theorem remapIomem_mapped (h : s.Mixed) (hmaps : ∀ e ∈ maps, ∃ p, e = p + 1 ∧ p < 2 ^ 43)
    (hgranted : IoGranted s (maps.map (· - 1))) :
    ∃ s', remapIomem s maps = .ok s' ∧ IoMapped s s' (maps.map (· - 1)) := by
  induction maps generalizing s with
  | nil => exact ⟨s, rfl, .nil h⟩
  | cons e maps ih =>
      obtain ⟨⟨p, rfl, hp⟩, hmaps'⟩ := List.forall_mem_cons.1 hmaps
      rw [List.map_cons, Nat.add_sub_cancel] at hgranted ⊢
      obtain ⟨htab, hrest⟩ := hgranted
      obtain ⟨s₁, hrun, -, hmapped⟩ := mapPageP2V_io h htab
      obtain ⟨s', hok, hmapped'⟩ := ih hmapped.mixed hmaps' (hrest s₁ hrun)
      refine ⟨s', ?_, hmapped.cons hmapped'⟩
      have hpaddr : wsub (p + 1) 1 * 0x200000 % 2 ^ 64 = p * 0x200000 := by
        rw [wsub_eq (by omega) (by omega)]
        omega
      rw [remapIomem, if_pos (Nat.succ_pos p)]
      dsimp only
      rw [hpaddr, ← ioImage, hrun, ok_bind]
      dsimp only
      rw [if_neg (by decide), hok]

end Loops

/-! ## What stays as it was -/

/-- Mappings have changed at the images of `pages` at most, and the kernel's windows are translated as before. -/
structure KeepsElsewhere (s s' : PgTables) (pages : Set Nat) : Prop where
  frame : ∀ x, mappingOf s' x ≠ mappingOf s x → ∃ p ∈ pages, virtRegion x = virtRegion (ioImage p)
  windows : ∀ x, kernelBelow1gStart ≤ x → x < 2 ^ 64 → translate s' x = translate s x

/-- `[addr, addr + size)` is mapped at `r`, and nothing else has changed. -/
structure IoremapInRange (s s' : PgTables) (addr size r : Nat) : Prop
    extends KeepsElsewhere s s' (ioPages addr size) where
  maps : ∀ i < size, translate s' (wadd r i) = some (addr + i)

/-- The images have room in the address space. A page that starts where the range ends has been mapped before
    as the loop maps it, and so has what the images meet of the kernel's windows. -/
structure IoremapFits (s : PgTables) (addr size : Nat) : Prop where
  short : addr % 0x200000 + size < 2 ^ 48
  behind : (addr + size) % 0x200000 = 0 → ∀ x, virtRegion x = virtRegion (ioImage ((addr + size) / 0x200000)) →
    mappingOf s x = some (addr + size + x % 0x200000, ioFlags)
  windows : ∀ p ∈ ioPages addr size, ∀ x, kernelBelow1gStart ≤ x → x < 2 ^ 64 →
    virtRegion x = virtRegion (ioImage p) → translate s x = some (p * 0x200000 + x % 0x200000)

/-- What the images of `pages` meet of the kernel's windows is mapped as the last of them that does maps it. -/
def RemapFits (s : PgTables) (pages : List Nat) : Prop :=
  ∀ x, kernelBelow1gStart ≤ x → x < 2 ^ 64 → ∀ p, lastAt x pages = some p →
    translate s x = some (p * 0x200000 + x % 0x200000)

section Keeps

variable {s s' : PgTables} {pages maps : List Nat} {addr size fuel r a n p q x : Nat}

theorem ioImage_region (p : Nat) : virtRegion (ioImage p) = (p + ioMemBase / 0x200000) % 2 ^ 27 := by
  unfold virtRegion ioImage wadd ioMemBase
  omega

theorem mem_ioPages (hpos : 0 < size) :
    p ∈ ioPages addr size ↔ addr / 0x200000 ≤ p ∧ p * 0x200000 < addr + size := by
  constructor
  · rintro ⟨b, hb, rfl⟩
    have := hb.1
    have := hb.2
    omega
  · rintro ⟨hlow, hhigh⟩
    by_cases hfirst : p = addr / 0x200000
    · exact ⟨addr, ⟨Nat.le_refl _, by omega⟩, hfirst.symm⟩
    · exact ⟨p * 0x200000, ⟨by omega, hhigh⟩, Nat.mul_div_cancel _ (by decide)⟩

/-- The pages that the loop of `ioremap_nocache` visits. -/
theorem mem_visited (hpos : 0 < size) :
    p ∈ List.range' (addr / 0x200000) ((addr % 0x200000 + size) / 0x200000 + 1) ↔
      p ∈ ioPages addr size ∨ (addr + size) % 0x200000 = 0 ∧ p = (addr + size) / 0x200000 := by
  rw [List.mem_range'_1, mem_ioPages hpos]
  omega

theorem lastAt_range' (hn : n ≤ 2 ^ 27) (hp : p ∈ List.range' a n) (hx : virtRegion x = virtRegion (ioImage p)) :
    lastAt x (List.range' a n) = some p := by
  cases hlast : lastAt x (List.range' a n) with
  | none => exact absurd hx (lastAt_none hlast p hp)
  | some q =>
      obtain ⟨hq, hxq⟩ := lastAt_mem hlast
      rw [List.mem_range'_1] at hp hq
      rw [hx, ioImage_region, ioImage_region] at hxq
      rw [Option.some.injEq]
      omega

/-- A page is not the last one at its image where its region comes up again. -/
theorem lastAt_range'_ne (hn : 2 ^ 27 < n) (hx : virtRegion x = virtRegion (ioImage a)) :
    lastAt x (List.range' a n) ≠ some a := by
  obtain ⟨m, rfl⟩ : ∃ m, n = m + 1 := ⟨n - 1, by omega⟩
  rw [List.range'_succ, lastAt]
  cases hlast : lastAt x (List.range' (a + 1) m) with
  | none =>
      have hagain : a + 2 ^ 27 ∈ List.range' (a + 1) m := List.mem_range'_1.2 (by omega)
      refine absurd ?_ (lastAt_none hlast _ hagain)
      rw [hx, ioImage_region, ioImage_region]
      omega
  | some q =>
      have := List.mem_range'_1.1 (lastAt_mem hlast).1
      rw [Option.some_or, Ne, Option.some.injEq]
      omega

theorem translate_of_mapping {m : Nat × Nat} (h : mappingOf s x = some m) : translate s x = some m.1 := by
  rw [translate_eq_mappingOf, h]
  rfl

theorem IoMapped.at_last (h : IoMapped s s' pages) (hlast : lastAt x pages = some p) :
    mappingOf s' x = some (p * 0x200000 + x % 0x200000, ioFlags) := by
  rw [h.mapping, hlast]
  rfl

/-- An address is off the images, or the last page whose image it is in decides. -/
theorem IoMapped.cases_at (h : IoMapped s s' pages) (x : Nat) :
    (mappingOf s' x = mappingOf s x ∧ translate s' x = translate s x) ∨
    ∃ p, lastAt x pages = some p ∧ mappingOf s' x = some (p * 0x200000 + x % 0x200000, ioFlags) ∧
      translate s' x = some (p * 0x200000 + x % 0x200000) := by
  cases hlast : lastAt x pages with
  | none =>
      have hsame : mappingOf s' x = mappingOf s x := by
        rw [h.mapping, hlast]
        rfl
      exact .inl ⟨hsame, by rw [translate_eq_mappingOf, hsame, ← translate_eq_mappingOf]⟩
  | some p =>
      have hnew := h.at_last hlast
      exact .inr ⟨p, rfl, hnew, translate_of_mapping hnew⟩

/-- The returned address is in the image of the page that `addr` is in. -/
theorem region_of_returned (addr i : Nat) :
    virtRegion (wadd (wadd addr ioMemBase) i) = virtRegion (ioImage ((addr + i) / 0x200000)) ∧
      (addr + i) / 0x200000 * 0x200000 + wadd (wadd addr ioMemBase) i % 0x200000 = addr + i := by
  rw [ioImage_region]
  unfold virtRegion wadd ioMemBase
  omega

theorem ioremapNocache_eq (hb : addr + size < 2 ^ 64) (fuel : Nat) :
    ioremapNocache fuel s addr size =
      (ioremapLoop fuel 0 (addr % 0x200000 + size) (addr / 0x200000 * 0x200000 % 2 ^ 64) s >>=
        fun s => .ok (wadd addr ioMemBase, s)) := by
  have hdown : alignDown 0x200000 addr = addr / 0x200000 * 0x200000 % 2 ^ 64 := by
    unfold alignDown
    omega
  have hsize : wadd size (wsub addr (alignDown 0x200000 addr)) = addr % 0x200000 + size := by
    rw [wsub_eq (alignDown_le _ _) (by omega), wadd_eq] <;> unfold alignDown <;> omega
  rw [ioremapNocache, hsize, hdown]

theorem IoremapFits.inRange (h : IoMapped s s' (List.range' (addr / 0x200000)
      ((addr % 0x200000 + size) / 0x200000 + 1))) (hpos : 0 < size)
    (hfits : IoremapFits s addr size) : IoremapInRange s s' addr size (wadd addr ioMemBase) := by
  have hshort := hfits.short
  refine ⟨⟨fun x hx => ?_, fun x hlow hhigh => ?_⟩, fun i hi => ?_⟩
  · rcases h.cases_at x with ⟨hsame, -⟩ | ⟨p, hlast, hnew, -⟩
    · exact absurd hsame hx
    obtain ⟨hp, hregion⟩ := lastAt_mem hlast
    rcases (mem_visited hpos).1 hp with hp | ⟨hend, rfl⟩
    · exact ⟨p, hp, hregion⟩
    · rw [hnew, hfits.behind hend x hregion] at hx
      refine absurd ?_ hx
      congr 2
      omega
  · rcases h.cases_at x with ⟨-, hsame⟩ | ⟨p, hlast, -, hnew⟩
    · exact hsame
    obtain ⟨hp, hregion⟩ := lastAt_mem hlast
    rw [hnew]
    rcases (mem_visited hpos).1 hp with hp | ⟨hend, rfl⟩
    · rw [hfits.windows p hp x hlow hhigh hregion]
    · rw [translate_of_mapping (hfits.behind hend x hregion), Option.some.injEq]
      omega
  · obtain ⟨hregion, haddr⟩ := region_of_returned addr i
    have hp : (addr + i) / 0x200000 ∈ ioPages addr size := (mem_ioPages hpos).2 (by omega)
    have hlast := lastAt_range' (by omega) ((mem_visited hpos).2 (.inl hp)) hregion
    rw [translate_of_mapping (h.at_last hlast), haddr]

theorem IoremapInRange.fits (h : IoMapped s s' (List.range' (addr / 0x200000)
      ((addr % 0x200000 + size) / 0x200000 + 1))) (hpos : 0 < size)
    (hin : IoremapInRange s s' addr size (wadd addr ioMemBase)) : IoremapFits s addr size := by
  have hshort : addr % 0x200000 + size < 2 ^ 48 := by
    -- else the first page has been mapped over
    by_contra hlong
    obtain ⟨hregion, haddr⟩ := region_of_returned addr 0
    have htr := hin.maps 0 hpos
    cases hlast : lastAt (wadd (wadd addr ioMemBase) 0) (List.range' (addr / 0x200000)
        ((addr % 0x200000 + size) / 0x200000 + 1)) with
    | none =>
        refine lastAt_none hlast _ ((mem_visited hpos).2 (.inl ?_)) hregion
        exact (mem_ioPages hpos).2 (by omega)
    | some p =>
        rw [translate_of_mapping (h.at_last hlast), Option.some.injEq] at htr
        have hp : p = addr / 0x200000 := by omega
        exact lastAt_range'_ne (by omega) hregion (hp ▸ hlast)
  refine ⟨hshort, fun hend x hregion => ?_, fun p hp x hlow hhigh hregion => ?_⟩
  · -- the page behind the range is mapped last, and is none of the pages whose images may change
    have hlast := lastAt_range' (by omega) ((mem_visited hpos).2 (.inr ⟨hend, rfl⟩)) hregion
    have hnew := h.at_last hlast
    rw [show (addr + size) / 0x200000 * 0x200000 = addr + size by omega] at hnew
    by_contra hold
    obtain ⟨p, hp, hregion'⟩ := hin.frame x (by rw [hnew]; exact fun heq => hold heq.symm)
    rw [mem_ioPages hpos] at hp
    rw [hregion, ioImage_region, ioImage_region] at hregion'
    omega
  · have hlast := lastAt_range' (by omega) ((mem_visited hpos).2 (.inl hp)) hregion
    rw [← hin.windows x hlow hhigh, translate_of_mapping (h.at_last hlast)]

theorem ioremapNocache_inRange (h : s.Mixed) (hpos : 0 < size) (hb : addr + size < 2 ^ 64)
    (hgranted : IoGranted s (List.range' (addr / 0x200000) ((addr % 0x200000 + size) / 0x200000 + 1))) :
    (∃ fuel r s', ioremapNocache fuel s addr size = .ok (r, s') ∧ IoremapInRange s s' addr size r) ↔
      IoremapFits s addr size := by
  constructor
  · rintro ⟨fuel, r, s', hok, hin⟩
    rw [ioremapNocache_eq hb] at hok
    obtain ⟨s'', hloop, hret⟩ := bind_eq_ok.1 hok
    obtain ⟨rfl, rfl⟩ := Prod.mk.inj (Except.ok.inj hret)
    by_cases hword : addr % 0x200000 + size < 2 ^ 64 - 0x200000
    · exact hin.fits ((ioremapLoop_mapped (k := 0) h (Nat.zero_add _) hword (by omega)
        (Nat.zero_mul _).symm rfl hgranted).2 _ hloop) hpos
    · exact absurd hloop (ioremapLoop_endless (by omega) rfl (by decide))
  · intro hfits
    have hshort := hfits.short
    obtain ⟨hexists, hall⟩ := ioremapLoop_mapped (k := 0) h (Nat.zero_add _)
      (show addr % 0x200000 + size < 2 ^ 64 - 0x200000 by omega) (by omega) (Nat.zero_mul _).symm rfl hgranted
    obtain ⟨s', hloop⟩ := hexists (Nat.lt_succ_self _)
    refine ⟨(addr % 0x200000 + size) / 0x200000 + 2, _, s', ?_, hfits.inRange (hall s' hloop) hpos⟩
    rw [ioremapNocache_eq hb, hloop, ok_bind]

theorem remapIomem_keeps {S : Set Nat} (h : s.Mixed) (hrec : Recorded maps S) (hS : ∀ p ∈ S, p < 2 ^ 43)
    (hgranted : IoGranted s (maps.map (· - 1))) :
    (∃ s', remapIomem s maps = .ok s' ∧ KeepsElsewhere s s' S) ↔ RemapFits s (maps.map (· - 1)) := by
  obtain ⟨s', hok, hmapped⟩ := remapIomem_mapped h (fun e he => by
    obtain ⟨p, hp, rfl⟩ := (hrec.mem e).1 he
    exact ⟨p, rfl, hS p hp⟩) hgranted
  constructor
  · rintro ⟨s'', hok', hkeeps⟩ x hlow hhigh p hlast
    rw [hok] at hok'
    obtain rfl := Except.ok.inj hok'
    rw [← hkeeps.windows x hlow hhigh, translate_of_mapping (hmapped.at_last hlast)]
  · intro hfits
    refine ⟨s', hok, fun x hx => ?_, fun x hlow hhigh => ?_⟩
    · rcases hmapped.cases_at x with ⟨hsame, -⟩ | ⟨p, hlast, -⟩
      · exact absurd hsame hx
      obtain ⟨hp, hregion⟩ := lastAt_mem hlast
      obtain ⟨e, he, rfl⟩ := List.mem_map.1 hp
      obtain ⟨q, hq, rfl⟩ := (hrec.mem e).1 he
      exact ⟨q, hq, hregion⟩
    · rcases hmapped.cases_at x with ⟨-, hsame⟩ | ⟨p, hlast, -, hnew⟩
      · exact hsame
      · rw [hnew, hfits x hlow hhigh p hlast]

/-- **Device memory stays in its range.** Where there are frames for the tables, `ioremap_nocache` maps its range
    at the address it returns, and changes nothing else, exactly when the range is `IoremapFits`. What
    `remap_iomem` changes is at the images of the recorded pages and not in the kernel's windows exactly when
    they are `RemapFits`. -/
theorem ioremap_inRange_iff {t : PgTables} {ranges : List IoRange} (hs : s.Mixed) (hpos : 0 < size)
    (hb : addr + size < 2 ^ 64)
    (hgranted : IoGranted s (List.range' (addr / 0x200000) ((addr % 0x200000 + size) / 0x200000 + 1)))
    (ht : t.Mixed) (hfuel : ∀ r ∈ ranges, r.size < fuel) (hranges : ∀ r ∈ ranges, 0 < r.addr ∧ 0 < r.size)
    (hbs : ∀ r ∈ ranges, r.addr + r.size < 2 ^ 51) (hrec : onIomems fuel [] ranges = .ok maps)
    (hgranteds : IoGranted t (maps.map (· - 1))) :
    ((∃ fuel r s', ioremapNocache fuel s addr size = .ok (r, s') ∧ IoremapInRange s s' addr size r) ↔
        IoremapFits s addr size) ∧
      ((∃ t', remapIomem t maps = .ok t' ∧ KeepsElsewhere t t' (allIoPages ranges)) ↔
        RemapFits t (maps.map (· - 1))) := by
  refine ⟨ioremapNocache_inRange hs hpos hb hgranted, remapIomem_keeps ht ?_ ?_ hgranteds⟩
  · have hrecords := onIomems_records hfuel hranges hbs recorded_nil
    rw [Set.empty_union] at hrecords
    rcases hrecords with ⟨maps', hok, hmaps⟩ | ⟨herror, -⟩
    · rw [hrec] at hok
      exact Except.ok.inj hok ▸ hmaps
    · rw [hrec] at herror
      cases herror
  · rintro p ⟨r, hr, b, hin, rfl⟩
    have := hbs r hr
    have := hin.2
    omega

end Keeps

/-- A cleared PML4 and four frames for tables. -/
def deviceTables : PgTables := { clearedTables with table := [0x2000, 0x3000, 0x4000, 0x5000] }

theorem deviceTables_mixed : deviceTables.Mixed where
  sound := .blank (fun _ => rfl) (show 0x1000 < 2 ^ 64 by decide) (by
    intro f hf
    simp only [deviceTables, clearedTables, List.append_nil, List.mem_cons, List.not_mem_nil, or_false] at hf
    rcases hf with rfl | rfl | rfl | rfl <;> exact ⟨⟨by decide, by decide, by decide⟩, by decide⟩)
    (show [0x2000, 0x3000, 0x4000, 0x5000].Nodup by decide)
  pml4e := fun _ => .inl (PgTables.entry_blank (fun _ => rfl) _)
  pdpte := fun _ => .inl (.inl (PgTables.entry_blank (fun _ => rfl) _))

/-- The registers of a timer, and two pages of a display. -/
theorem ioremap_inRange_iff_timer :
    ((∃ fuel r s', ioremapNocache fuel deviceTables 0xfed00000 0x400 = .ok (r, s') ∧
        IoremapInRange deviceTables s' 0xfed00000 0x400 r) ↔ IoremapFits deviceTables 0xfed00000 0x400) ∧
      ((∃ t', remapIomem deviceTables [0x605, 0x606] = .ok t' ∧
          KeepsElsewhere deviceTables t' (allIoPages [⟨0xc0900000, 0x200000⟩])) ↔
        RemapFits deviceTables ([0x605, 0x606].map (· - 1))) :=
  ioremap_inRange_iff deviceTables_mixed (by decide) (by decide)
    (ioGranted_of_length deviceTables_mixed (by decide)) deviceTables_mixed (by decide) (by decide)
    (by decide) (show onIomems 0x200001 [] [⟨0xc0900000, 0x200000⟩] = .ok [0x605, 0x606] by decide +kernel)
    (ioGranted_of_length deviceTables_mixed (by decide))

/-- A range of one page: the page behind it is mapped as well. A device above 93 GiB: it is mapped in the
    kernel's windows. -/
theorem ioremap_leaves_range :
    ¬ (∃ fuel r s', ioremapNocache fuel deviceTables 0xc0000000 0x200000 = .ok (r, s') ∧
        IoremapInRange deviceTables s' 0xc0000000 0x200000 r) ∧
      ¬ ∃ fuel r s', ioremapNocache fuel deviceTables 0x1740000000 0x1000 = .ok (r, s') ∧
        IoremapInRange deviceTables s' 0x1740000000 0x1000 r := by
  have hblank : ∀ x, mappingOf deviceTables x = none := fun _ => rfl
  constructor
  · rw [ioremapNocache_inRange deviceTables_mixed (by decide) (by decide)
      (ioGranted_of_length deviceTables_mixed (by decide))]
    intro hfits
    have hsome := hfits.behind (by decide) (ioImage (0xc0200000 / 0x200000)) rfl
    rw [hblank] at hsome
    cases hsome
  · rw [ioremapNocache_inRange deviceTables_mixed (by decide) (by decide)
      (ioGranted_of_length deviceTables_mixed (by decide))]
    intro hfits
    have hsome := hfits.windows (0x1740000000 / 0x200000) ⟨0x1740000000, by decide, rfl⟩ kernelBelow1gStart
      (Nat.le_refl _) (by decide) (by decide)
    rw [translate_eq_mappingOf, hblank] at hsome
    cases hsome

end Yaos
