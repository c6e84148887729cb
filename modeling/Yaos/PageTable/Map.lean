import Yaos.PageTable.Writes
import Mathlib.Data.List.Perm.Subperm

set_option autoImplicit false

/-! # Mapping one page

What `build_pte_with_addr`, `map_page_p2v` and `map_4k_page_p2v` do to the entries, when the entries
above the page directory hold nothing or links and the frame source has the tables they need. -/

namespace Yaos

open Word TableTree

/-- An entry above the page directory, as these functions leave it. -/
def Opens (e : Nat) : Prop := e = 0 ∨ IsLink e

/-- 1 when a table has to be made at `q`. -/
def missing (s : PgTables) (q : List (Fin 512)) : Nat := if s.entry q = 0 then 1 else 0

/-- The tables above the page table that have to be made to reach `vaddr`. -/
def tablesMissing (s : PgTables) (vaddr : Nat) : Nat :=
  missing s (pml4ePath vaddr) + missing s (pdptePath vaddr)

/-- The frame source has frames for all tables missing above the pages of `V`: a list that names each
    of these tables is no longer than the frames at hand. -/
def TablesSuffice (s : PgTables) (V : Nat → Prop) : Prop :=
  ∃ l : List (List (Fin 512)), l.length ≤ s.table.length ∧
    ∀ vaddr, V vaddr → ∀ q, q = pml4ePath vaddr ∨ q = pdptePath vaddr → s.entry q = 0 → q ∈ l

theorem TablesSuffice.missing_le {s : PgTables} {V : Nat → Prop} (h : TablesSuffice s V)
    {vaddr : Nat} (hv : V vaddr) : tablesMissing s vaddr ≤ s.table.length := by
  obtain ⟨l, hl, hcover⟩ := h
  refine le_trans ?_ hl
  unfold tablesMissing missing
  have hpml4 := hcover vaddr hv _ (.inl rfl)
  have hpdpt := hcover vaddr hv _ (.inr rfl)
  have hne : pml4ePath vaddr ≠ pdptePath vaddr := fun h => by
    simpa using congrArg List.length h
  split <;> split
  case isTrue.isTrue h₁ h₂ =>
    have hsub : [pml4ePath vaddr, pdptePath vaddr] ⊆ l := by
      simp [hpml4 h₁, hpdpt h₂]
    exact (List.Nodup.subperm (by simp [hne]) hsub).length_le
  case isTrue.isFalse h₁ _ => exact List.length_pos_of_mem (hpml4 h₁)
  case isFalse.isTrue _ h₂ => exact List.length_pos_of_mem (hpdpt h₂)
  case isFalse.isFalse => exact Nat.zero_le _

/-! ## Opening one table -/

/-- The flags of a link to a new table. -/
structure LinkFlags (flags : Nat) : Prop where
  lt : flags < 0x1000
  present : Present flags
  small : ¬ Large flags

theorem linkFlags_rw : LinkFlags (pteP ||| pteW) := ⟨by decide, by decide, by decide⟩

theorem linkFlags_pt : LinkFlags (pteW ||| pteP) := ⟨by decide, by decide, by decide⟩

theorem linkFlags_user : LinkFlags (pteP ||| pteW ||| pteU) := ⟨by decide, by decide, by decide⟩

/-- The table at `q` is there, and nothing else changed. -/
structure Opened (s s' : PgTables) (q : List (Fin 512)) : Prop where
  same : s' = { s with frames := s'.frames, table := s'.table }
  link : IsLink (s'.entry q)
  kept : s.entry q ≠ 0 → s'.entry q = s.entry q
  off : ∀ q', q' ≠ q → s'.entry q' = s.entry q'
  count : s'.table.length + missing s q = s.table.length
  frames : ∀ f ∈ s.pt, s'.frames f = s.frames f

theorem Opened.refl {s : PgTables} {q : List (Fin 512)} (h : IsLink (s.entry q)) :
    Opened s s q where
  same := rfl
  link := h
  kept := fun _ => rfl
  off := fun _ _ => rfl
  count := by rw [missing, if_neg h.ne_zero, Nat.add_zero]
  frames := fun _ _ => rfl

theorem Opened.suffice {s s' : PgTables} {q : List (Fin 512)} (h : Opened s s' q) {V : Nat → Prop}
    {vaddr : Nat} (hv : V vaddr) (hq : q = pml4ePath vaddr ∨ q = pdptePath vaddr)
    (hs : TablesSuffice s V) : TablesSuffice s' V := by
  obtain ⟨l, hl, hcover⟩ := hs
  have hcount := h.count
  by_cases hzero : s.entry q = 0
  · have hmem := hcover vaddr hv q hq hzero
    refine ⟨l.erase q, ?_, ?_⟩
    · rw [List.length_erase_of_mem hmem]
      rw [missing, if_pos hzero] at hcount
      omega
    · intro v hv' r hr hr0
      have hne : r ≠ q := fun he => h.link.ne_zero (he ▸ hr0)
      rw [h.off r hne] at hr0
      exact (List.mem_erase_of_ne hne).2 (hcover v hv' r hr hr0)
  · rw [missing, if_neg hzero, Nat.add_zero] at hcount
    refine ⟨l, hcount ▸ hl, ?_⟩
    intro v hv' r hr hr0
    refine hcover v hv' r hr ?_
    by_cases hne : r = q
    · rw [hne, ← h.kept hzero, ← hne, hr0]
    · rwa [h.off r hne] at hr0

section Open

variable {s : PgTables} {p : List (Fin 512)} {t : Nat} {n : Fin 512} {flags : Nat}

/-- A new table linked at an entry, when the source has a frame for it. -/
theorem linkNewTable_links {f : Nat} {rest : List Nat} {v : Fin 512 → Nat} (hs : s.Sound)
    (ht : s.tableOf p = some t) (hb : t < 2 ^ 64) (hp : p.length < 3) (htable : s.table = f :: rest)
    (hflags : LinkFlags flags)
    (hv : ∀ m, pgLink (p.length + 1) (v m) = none) (text : String) :
    PgTables.Links { s with table := rest } p t f (f ||| flags) v ∧ IsLink (f ||| flags) ∧
      linkNewTable s text v flags (P2V t) n =
        .ok (some (P2V (alignDown 0x1000 (f ||| flags))),
          { s with table := rest }.linkFrame f v t n (f ||| flags)) := by
  obtain ⟨hs₀, htaken⟩ := hs.take_table htable
  obtain ⟨hlink, hdown⟩ := isLink_or htaken.frame hflags.lt hflags.present hflags.small
  refine ⟨⟨hs₀, ht, hb, htaken, ?_, hv⟩, hlink, ?_⟩
  · rw [hlink.pgLink_eq hp, hdown]
  · rw [linkNewTable_eq htable htaken.frame, hdown]

/-- What a cleared new table at an empty entry does. -/
theorem linkNewTable_opened (hs : s.Sound) (ht : s.tableOf p = some t) (hb : t < 2 ^ 64)
    (hp : p.length < 3) (hzero : s.entry (n :: p) = 0) (htab : s.table ≠ [])
    (hflags : LinkFlags flags) (text : String) :
    ∃ s', linkNewTable s text (fun _ => 0) flags (P2V t) n =
        .ok (some (P2V (alignDown 0x1000 (s'.entry (n :: p)))), s') ∧
      s'.Sound ∧ Opened s s' (n :: p) := by
  obtain ⟨f, rest, htable⟩ := List.exists_cons_of_ne_nil htab
  obtain ⟨h, hlink, hrun⟩ := linkNewTable_links (n := n) (v := fun _ => 0) hs ht hb hp htable hflags
    (fun _ => pgLink_zero _) text
  have hself := h.entry_self (n := n)
  refine ⟨_, ?_, h.sound_after (n := n), ?_⟩
  · rw [hrun, hself]
  · refine ⟨?_, ?_, fun h0 => absurd hzero h0, fun q hq => h.entry_cleared hzero hq, ?_, ?_⟩
    · rw [h.linkFrame_eq]
    · rw [hself]
      exact hlink
    · rw [h.linkFrame_eq, missing, if_pos hzero, htable, List.length_cons]
    · exact fun g hg => h.frames_eq (List.mem_append_right _ hg)

theorem nextTable_opened (hs : s.Sound) (ht : s.tableOf p = some t) (hb : t < 2 ^ 64)
    (hp : p.length < 3) (hopen : Opens (s.entry (n :: p)))
    (htab : missing s (n :: p) ≤ s.table.length)
    (hflags : LinkFlags flags) (text : String) :
    ∃ s', nextTable s text flags (P2V t) n =
        .ok (some (P2V (alignDown 0x1000 (s'.entry (n :: p)))), s') ∧
      s'.Sound ∧ Opened s s' (n :: p) := by
  dsimp only [nextTable]
  rw [PgTables.load_P2V n ht hb]
  rcases hopen with hzero | hlink
  · have hne : s.table ≠ [] := by
      rintro h
      rw [missing, if_pos hzero, h] at htab
      exact absurd htab (by decide)
    rw [hzero, if_pos (by decide)]
    exact linkNewTable_opened hs ht hb hp hzero hne hflags text
  · rw [if_neg hlink.frame.nonzero]
    exact ⟨s, rfl, hs, .refl hlink⟩

/-- `map_page_p2v` finds the page directory its own way; below an entry that holds nothing or a link
    the result is the same. -/
theorem pageDirectoryFor_opened (hs : s.Sound) (ht : s.tableOf p = some t) (hb : t < 2 ^ 64)
    (hp : p.length < 3) (hopen : Opens (s.entry (n :: p)))
    (htab : missing s (n :: p) ≤ s.table.length) :
    ∃ s', pageDirectoryFor s (P2V t) n =
        .ok (some (P2V (alignDown 0x1000 (s'.entry (n :: p)))), s') ∧
      s'.Sound ∧ Opened s s' (n :: p) := by
  dsimp only [pageDirectoryFor]
  rw [PgTables.load_P2V n ht hb]
  rcases hopen with hzero | hlink
  · have hne : s.table ≠ [] := by
      rintro h
      rw [missing, if_pos hzero, h] at htab
      exact absurd htab (by decide)
    rw [if_pos hzero]
    exact linkNewTable_opened hs ht hb hp hzero hne linkFlags_user _
  · rw [if_neg hlink.ne_zero, if_neg (fun h => hlink.small (and_ptePS_ne_zero.1 h)),
      alignDown_P2V hlink.frame]
    exact ⟨s, rfl, hs, .refl hlink⟩

end Open

/-! ## The way to the page directory -/

/-- The tables down to the page directory of `vaddr` are there, and nothing else changed. -/
structure Grown (s s' : PgTables) (vaddr : Nat) : Prop where
  same : s' = { s with frames := s'.frames, table := s'.table }
  pdpte : IsLink (s'.entry (pdptePath vaddr))
  entries : ∀ q, s'.entry q = s.entry q ∨
    (q = pml4ePath vaddr ∨ q = pdptePath vaddr) ∧ s.entry q = 0 ∧ IsLink (s'.entry q)
  count : s'.table.length + tablesMissing s vaddr = s.table.length
  frames : ∀ f ∈ s.pt, s'.frames f = s.frames f
  suffice : ∀ V : Nat → Prop, V vaddr → TablesSuffice s V → TablesSuffice s' V

theorem Opened.entries {s s' : PgTables} {q : List (Fin 512)} (h : Opened s s' q)
    (r : List (Fin 512)) :
    s'.entry r = s.entry r ∨ r = q ∧ s.entry r = 0 ∧ IsLink (s'.entry r) := by
  by_cases hr : r = q
  · subst hr
    by_cases hzero : s.entry r = 0
    · exact .inr ⟨rfl, hzero, h.link⟩
    · exact .inl (h.kept hzero)
  · exact .inl (h.off r hr)

theorem pml4ePath_ne_pdptePath (a b : Nat) : pml4ePath a ≠ pdptePath b := fun h => by
  simpa using congrArg List.length h

theorem Grown.of_opened {s s₁ s' : PgTables} {vaddr : Nat} (h₁ : Opened s s₁ (pml4ePath vaddr))
    (h₂ : Opened s₁ s' (pdptePath vaddr)) : Grown s s' vaddr := by
  have hpdpte : s₁.entry (pdptePath vaddr) = s.entry (pdptePath vaddr) :=
    h₁.off _ (pml4ePath_ne_pdptePath vaddr vaddr).symm
  refine ⟨?_, h₂.link, ?_, ?_, ?_, ?_⟩
  · rw [h₂.same, h₁.same]
  · intro q
    rcases h₂.entries q with he₂ | ⟨hq, hzero, hlink⟩
    · rcases h₁.entries q with he₁ | ⟨hq, hzero, hlink⟩
      · exact .inl (he₂.trans he₁)
      · exact .inr ⟨.inl hq, hzero, he₂ ▸ hlink⟩
    · refine .inr ⟨.inr hq, ?_, hlink⟩
      rwa [hq, hpdpte, ← hq] at hzero
  · have hc₁ := h₁.count
    have hc₂ := h₂.count
    have hm : missing s₁ (pdptePath vaddr) = missing s (pdptePath vaddr) := by
      rw [missing, missing, hpdpte]
    unfold tablesMissing
    omega
  · intro f hf
    have hf₁ : f ∈ s₁.pt := by rwa [h₁.same]
    exact (h₂.frames f hf₁).trans (h₁.frames f hf)
  · intro V hv hV
    exact h₂.suffice hv (.inr rfl) (h₁.suffice hv (.inl rfl) hV)

/-- The page directory of `vaddr`. -/
theorem Grown.tableOf_pd {s s' : PgTables} {vaddr : Nat} (h : Grown s s' vaddr) :
    s'.tableOf (pdptePath vaddr) = some (alignDown 0x1000 (s'.entry (pdptePath vaddr))) :=
  PgTables.tableOf_link (by simp) h.pdpte

theorem Opened.second {s s' : PgTables} {vaddr : Nat} (h : Opened s s' (pml4ePath vaddr))
    (hopen : Opens (s.entry (pdptePath vaddr)))
    (htab : tablesMissing s vaddr ≤ s.table.length) :
    s'.tableOf (pml4ePath vaddr) = some (alignDown 0x1000 (s'.entry (pml4ePath vaddr))) ∧
      Opens (s'.entry (pdptePath vaddr)) ∧ missing s' (pdptePath vaddr) ≤ s'.table.length := by
  have hpdpte : s'.entry (pdptePath vaddr) = s.entry (pdptePath vaddr) :=
    h.off _ (pml4ePath_ne_pdptePath vaddr vaddr).symm
  have hcount := h.count
  unfold tablesMissing at htab
  refine ⟨PgTables.tableOf_link (by simp) h.link, hpdpte ▸ hopen, ?_⟩
  rw [missing, hpdpte, ← missing]
  omega

/-- The tables above the page directory of `vaddr` have been opened one after the other. -/
structure Descended (s s₁ s' : PgTables) (vaddr : Nat) : Prop where
  sound₁ : s₁.Sound
  sound : s'.Sound
  first : Opened s s₁ (pml4ePath vaddr)
  second : Opened s₁ s' (pdptePath vaddr)
  popped₁ : s₁ = s ∨ P2V (alignDown 0x1000 (s₁.entry (pml4ePath vaddr))) = P2V (s.table.headD 0) ∧
    s₁.table = s.table.tail
  popped : s' = s₁ ∨ P2V (alignDown 0x1000 (s'.entry (pdptePath vaddr))) = P2V (s₁.table.headD 0) ∧
    s'.table = s₁.table.tail

theorem Descended.grown {s s₁ s' : PgTables} {vaddr : Nat} (h : Descended s s₁ s' vaddr) :
    Grown s s' vaddr :=
  .of_opened h.first h.second

section Pops

variable {s s' : PgTables} {text : String} {flags p q : Nat} {n : Fin 512} {v : Fin 512 → Nat}

/-- A new table is the frame on top of the source. -/
theorem linkNewTable_pops (h : linkNewTable s text v flags p n = .ok (some q, s')) :
    q = P2V (s.table.headD 0) ∧ s'.table = s.table.tail := by
  obtain ⟨⟨r, s₁⟩, hnew, h⟩ := bind_eq_ok.1 h
  have ⟨_, hnew'⟩ := assert_bind_eq_ok.1 hnew
  split at hnew'
  · cases hnew'
    cases h
  · cases hnew'
    obtain ⟨s₂, hlink, h⟩ := bind_eq_ok.1 h
    obtain ⟨a, -, hlink⟩ := bind_eq_ok.1 hlink
    obtain ⟨hq, hs'⟩ := Prod.mk.inj (Except.ok.inj h)
    refine ⟨(Option.some.inj hq).symm, ?_⟩
    rw [← hs', ← Except.ok.inj hlink]
    rfl

theorem nextTable_pops (h : nextTable s text flags p n = .ok (some q, s')) :
    s' = s ∨ q = P2V (s.table.headD 0) ∧ s'.table = s.table.tail := by
  dsimp only [nextTable] at h
  split at h
  · exact .inr (linkNewTable_pops h)
  · exact .inl (Prod.mk.inj (Except.ok.inj h)).2.symm

theorem pageDirectoryFor_pops (h : pageDirectoryFor s p n = .ok (some q, s')) :
    s' = s ∨ q = P2V (s.table.headD 0) ∧ s'.table = s.table.tail := by
  dsimp only [pageDirectoryFor] at h
  split at h
  · exact .inr (linkNewTable_pops h)
  · split at h
    · exact .inr (linkNewTable_pops h)
    · exact .inl (Prod.mk.inj (Except.ok.inj h)).2.symm

end Pops

section Way

variable {s : PgTables} {vaddr : Nat}

/-- The entries above the page directory of `vaddr` hold nothing or links, and the source has frames
    for the tables that are missing. -/
structure PgTables.Reachable (s : PgTables) (vaddr : Nat) : Prop where
  sound : s.Sound
  pml4e : Opens (s.entry (pml4ePath vaddr))
  pdpte : Opens (s.entry (pdptePath vaddr))
  tables : tablesMissing s vaddr ≤ s.table.length

theorem PgTables.Reachable.first (h : s.Reachable vaddr) {flags : Nat}
    (hflags : LinkFlags flags) (text : String) :
    ∃ s', nextTable s text flags (P2V s.pml4) (tableIndex pml4Shift vaddr) =
        .ok (some (P2V (alignDown 0x1000 (s'.entry (pml4ePath vaddr)))), s') ∧
      s'.Sound ∧ Opened s s' (pml4ePath vaddr) :=
  nextTable_opened h.sound rfl h.sound.root (by decide) h.pml4e
    (le_trans (Nat.le_add_right _ _) h.tables) hflags text

theorem buildPteWithAddr_opened (h : s.Reachable vaddr) :
    ∃ s₁ s', buildPteWithAddr s vaddr =
        .ok (some (P2V (alignDown 0x1000 (s'.entry (pdptePath vaddr))), tableIndex pdShift vaddr),
          s') ∧
      Descended s s₁ s' vaddr := by
  unfold buildPteWithAddr
  obtain ⟨s₁, hfirst, hs₁, ho₁⟩ := h.first linkFlags_rw
    "((ulong) p_pdp & 0xfff) == 0"
  obtain ⟨htab₁, hopen₁, hmiss₁⟩ := ho₁.second h.pdpte h.tables
  obtain ⟨s', hsecond, hs', ho₂⟩ := nextTable_opened hs₁ htab₁
    ho₁.link.frame.lt (by simp) hopen₁ hmiss₁ linkFlags_rw "((ulong) p_pd & 0xfff) == 0"
  refine ⟨s₁, s', ?_, hs₁, hs', ho₁, ho₂, nextTable_pops hfirst, nextTable_pops hsecond⟩
  rw [hfirst, ok_bind]
  dsimp only
  rw [hsecond, ok_bind]
  rfl

theorem buildPteWithAddr_grown (h : s.Reachable vaddr) :
    ∃ s', buildPteWithAddr s vaddr =
        .ok (some (P2V (alignDown 0x1000 (s'.entry (pdptePath vaddr))), tableIndex pdShift vaddr),
          s') ∧
      s'.Sound ∧ Grown s s' vaddr := by
  obtain ⟨s₁, s', hrun, hway⟩ := buildPteWithAddr_opened h
  exact ⟨s', hrun, hway.sound, hway.grown⟩

theorem mapPageP2V_opened {paddr flag : Nat} (h : s.Reachable vaddr) (hp : paddr % 0x200000 = 0)
    (hv : vaddr % 0x200000 = 0) (hf : flag < 0x1000) :
    ∃ s₁ s₂, mapPageP2V s paddr vaddr flag =
        .ok (OK, s₂.store (P2V (alignDown 0x1000 (s₂.entry (pdptePath vaddr))))
          (tableIndex pdShift vaddr) (paddr ||| flag)) ∧
      Descended s s₁ s₂ vaddr := by
  obtain ⟨s₁, hfirst, hs₁, ho₁⟩ := h.first linkFlags_user
    "((ulong) p_pdp & 0xfff) == 0"
  obtain ⟨htab₁, hopen₁, hmiss₁⟩ := ho₁.second h.pdpte h.tables
  obtain ⟨s₂, hsecond, hs₂, ho₂⟩ := pageDirectoryFor_opened hs₁ htab₁ ho₁.link.frame.lt (by simp)
    hopen₁ hmiss₁
  refine ⟨s₁, s₂, ?_, hs₁, hs₂, ho₁, ho₂, nextTable_pops hfirst, pageDirectoryFor_pops hsecond⟩
  unfold mapPageP2V
  rw [assert_pos hv, ok_bind, assert_pos hp, ok_bind,
    assert_pos (by unfold alignDown; omega), ok_bind, hfirst, ok_bind]
  dsimp only
  rw [hsecond, ok_bind]
  rfl

end Way

/-- Entries away from the page directory entry of `vaddr`: kept, or opened on the way to it. -/
def OffRegion (s s' : PgTables) (vaddr : Nat) : Prop :=
  ∀ q, ¬ pdePath vaddr <:+ q → s'.entry q = s.entry q ∨
    (q = pml4ePath vaddr ∨ q = pdptePath vaddr) ∧ s.entry q = 0 ∧ IsLink (s'.entry q)

theorem TablesSuffice.congr {s s' : PgTables} {V : Nat → Prop} (h : TablesSuffice s V)
    (htab : s'.table.length = s.table.length)
    (he : ∀ q : List (Fin 512), q.length < 3 → s'.entry q = s.entry q) : TablesSuffice s' V := by
  obtain ⟨l, hl, hcover⟩ := h
  refine ⟨l, htab ▸ hl, ?_⟩
  intro vaddr hv q hq hzero
  refine hcover vaddr hv q hq ?_
  rwa [he q (by rcases hq with rfl | rfl <;> simp)] at hzero

theorem not_suffix_of_length {p q : List (Fin 512)} (h : q.length < p.length) : ¬ p <:+ q :=
  fun hs => absurd hs.length_le (by omega)

/-! ## 2 MiB pages -/

/-- A call has written `e` into the page directory entry of `vaddr`, and nothing else but the tables
    above it. -/
structure PageMapped (s s' : PgTables) (vaddr e : Nat) : Prop where
  same : s' = { s with frames := s'.frames, table := s'.table }
  pde : s'.entry (pdePath vaddr) = e
  off : OffRegion s s' vaddr
  frames : ∀ f ∈ s.pt, s'.frames f = s.frames f
  suffice : ∀ V : Nat → Prop, V vaddr → TablesSuffice s V → TablesSuffice s' V

theorem mapPageP2V_mapped {s : PgTables} {paddr vaddr flag : Nat} (h : s.Reachable vaddr)
    (hp : paddr % 0x200000 = 0) (hv : vaddr % 0x200000 = 0) (hf : flag < 0x1000)
    (hleaf : pgLink 2 (paddr ||| flag) = none) :
    ∃ s', mapPageP2V s paddr vaddr flag = .ok (OK, s') ∧ s'.Sound ∧
      PageMapped s s' vaddr (paddr ||| flag) := by
  obtain ⟨s₁, s₂, hrun, hway⟩ := mapPageP2V_opened h hp hv hf
  have hgrown : Grown s s₂ vaddr := hway.grown
  have hs₂ := hway.sound
  have hpd := hgrown.tableOf_pd
  have hb := hgrown.pdpte.frame.lt
  refine ⟨_, hrun, hs₂.store (n := tableIndex pdShift vaddr) hpd hb hleaf, ?_⟩
  refine ⟨?_, PgTables.entry_store_self hs₂ hpd hb, ?_, ?_, ?_⟩
  · rw [PgTables.store_P2V _ _ hb]
    rw [hgrown.same]
  · intro q hq
    rw [PgTables.entry_store_off hs₂ hpd hb hq]
    exact hgrown.entries q
  · intro f hf
    have hmem : f ∈ s₂.table ++ s₂.pt := by
      rw [hgrown.same]
      exact List.mem_append_right _ hf
    exact (PgTables.frames_store hs₂ hpd hb hmem).trans (hgrown.frames f hf)
  · intro V hV hsuff
    refine (hgrown.suffice V hV hsuff).congr ?_ fun q hq => ?_
    · rw [PgTables.store_P2V _ _ hb]
    · exact PgTables.entry_store_off hs₂ hpd hb (not_suffix_of_length (by simpa using hq))

/-! ## 4 KiB pages -/

/-- A page directory entry as these functions leave it: nothing, a page table, or a 2 MiB page. -/
def PdeOpens (e : Nat) : Prop := Opens e ∨ isLargePage e = true

/-- The page table `map_4k_page_p2v` writes into, as it is before the write: the one that is there,
    the pieces of the 2 MiB page, or the frame from the source with whatever it holds. -/
def ptContent (s : PgTables) (vaddr : Nat) : Fin 512 → Nat :=
  let e := s.entry (pdePath vaddr)
  if isLargePage e then splitEntries (alignDown 0x1000 e) 0x1000 (pteP ||| pteW ||| pteG)
  else if e = 0 then s.frames (s.pt.headD 0)
  else fun m => s.entry (m :: pdePath vaddr)

/-- The frames `page table for vaddr` needs are there. -/
structure PgTables.PtReady (s : PgTables) (vaddr : Nat) : Prop where
  split : isLargePage (s.entry (pdePath vaddr)) = true → s.table ≠ []
  fresh : s.entry (pdePath vaddr) = 0 → s.pt ≠ []

/-- The page table of `vaddr` is there, and nothing outside it changed. -/
structure Tabled (s s' : PgTables) (vaddr : Nat) : Prop where
  same : s' = { s with frames := s'.frames, table := s'.table, pt := s'.pt }
  pde : IsLink (s'.entry (pdePath vaddr))
  kept : IsLink (s.entry (pdePath vaddr)) → s'.entry (pdePath vaddr) = s.entry (pdePath vaddr)
  pt : ∀ m, s'.entry (m :: pdePath vaddr) = ptContent s vaddr m
  off : ∀ q, ¬ pdePath vaddr <:+ q → s'.entry q = s.entry q
  table_eq : s'.table = if isLargePage (s.entry (pdePath vaddr)) then s.table.tail else s.table
  pt_eq : s'.pt = if s.entry (pdePath vaddr) = 0 then s.pt.tail else s.pt
  frames : ∀ f ∈ s'.pt, s'.frames f = s.frames f

section PageTable

variable {s : PgTables} {vaddr t : Nat}

theorem isLargePage_zero : ¬ isLargePage 0 = true := by decide

theorem ptContent_large (h : isLargePage (s.entry (pdePath vaddr)) = true) :
    ptContent s vaddr = splitEntries (alignDown 0x1000 (s.entry (pdePath vaddr))) 0x1000
      (pteP ||| pteW ||| pteG) := if_pos h

theorem ptContent_zero (h : s.entry (pdePath vaddr) = 0) :
    ptContent s vaddr = s.frames (s.pt.headD 0) := by
  dsimp only [ptContent]
  rw [h, if_neg isLargePage_zero, if_pos rfl]

theorem ptContent_link (h : IsLink (s.entry (pdePath vaddr))) :
    ptContent s vaddr = fun m => s.entry (m :: pdePath vaddr) := by
  dsimp only [ptContent]
  rw [if_neg h.not_largePage, if_neg h.ne_zero]

/-- A new page table with the entries `v` in place of a 2 MiB page. -/
theorem linkNewTable_split {flags : Nat} {v : Fin 512 → Nat} (hs : s.Sound)
    (ht : s.tableOf (pdptePath vaddr) = some t) (hb : t < 2 ^ 64) (htab : s.table ≠ [])
    (hflags : LinkFlags flags) (text : String) :
    ∃ s', linkNewTable s text v flags (P2V t) (tableIndex pdShift vaddr) =
        .ok (some (P2V (alignDown 0x1000 (s'.entry (pdePath vaddr)))), s') ∧
      s'.Sound ∧ s' = { s with frames := s'.frames, table := s.table.tail } ∧
      IsLink (s'.entry (pdePath vaddr)) ∧ (∀ m, s'.entry (m :: pdePath vaddr) = v m) ∧
      (∀ q, ¬ pdePath vaddr <:+ q → s'.entry q = s.entry q) ∧
      ∀ f ∈ s.pt, s'.frames f = s.frames f := by
  obtain ⟨f, rest, htable⟩ := List.exists_cons_of_ne_nil htab
  obtain ⟨h, hlink, hrun⟩ := linkNewTable_links (n := tableIndex pdShift vaddr) (v := v) hs ht hb
    (by simp) htable hflags (fun _ => pgLink_pte _) text
  have hself := h.entry_self (n := tableIndex pdShift vaddr)
  rw [← pdePath] at hself
  refine ⟨_, ?_, h.sound_after (n := tableIndex pdShift vaddr), ?_, by rwa [hself], h.entry_new,
    fun q hq => h.entry_off hq, fun g hg => h.frames_eq (List.mem_append_right _ hg)⟩
  · rw [hrun, hself]
  · rw [h.linkFrame_eq, htable, List.tail_cons]

theorem pageTableFor_split (hs : s.Sound) (ht : s.tableOf (pdptePath vaddr) = some t)
    (hb : t < 2 ^ 64) (hlarge : isLargePage (s.entry (pdePath vaddr)) = true)
    (htab : s.table ≠ []) :
    ∃ s', pageTableFor s (P2V t) (tableIndex pdShift vaddr) =
        .ok (some (P2V (alignDown 0x1000 (s'.entry (pdePath vaddr)))), s') ∧
      s'.Sound ∧ Tabled s s' vaddr := by
  have hne : s.entry (pdePath vaddr) ≠ 0 := fun h => isLargePage_zero (h ▸ hlarge)
  obtain ⟨s', hrun, hs', hsame, hlink, hnew, hoff, hframes⟩ := linkNewTable_split
    (v := ptContent s vaddr) hs ht hb htab linkFlags_rw
    "((ulong) p & 0xfff) == 0"
  have hpt : s'.pt = s.pt := by rw [hsame]
  refine ⟨s', ?_, hs', ?_⟩
  · dsimp only [pageTableFor]
    rw [PgTables.load_P2V _ ht hb, ← pdePath, if_pos hlarge, ← hrun, ptContent_large hlarge]
  · refine ⟨?_, hlink, fun hl => absurd hlarge hl.not_largePage, hnew, hoff, ?_, ?_, ?_⟩
    · rw [hsame]
    · rw [hsame, if_pos hlarge]
    · rw [hpt, if_neg hne]
    · rw [hpt]
      exact hframes

theorem PgTables.store_store (s : PgTables) (p : Nat) (n : Fin 512) (e e' : Nat) :
    (s.store p n e).store p n e' = s.store p n e' := by
  simp [PgTables.store, setEntry]

theorem PgTables.fill_self {f : Nat} (hf : f < 2 ^ 64) : s.fill (P2V f) (s.frames f) = s := by
  rw [PgTables.fill_P2V _ hf, Function.update_eq_self]

theorem pageTableFor_fresh (hs : s.Sound) (ht : s.tableOf (pdptePath vaddr) = some t)
    (hb : t < 2 ^ 64) (hzero : s.entry (pdePath vaddr) = 0) (hpt : s.pt ≠ []) :
    ∃ s', pageTableFor s (P2V t) (tableIndex pdShift vaddr) =
        .ok (some (P2V (alignDown 0x1000 (s'.entry (pdePath vaddr)))), s') ∧
      s'.Sound ∧ Tabled s s' vaddr := by
  obtain ⟨f, rest, hlist⟩ := List.exists_cons_of_ne_nil hpt
  obtain ⟨hs₀, htaken⟩ := hs.take_pt hlist
  obtain ⟨hlink, hdown⟩ := isLink_or htaken.frame linkFlags_pt.lt linkFlags_pt.present
    linkFlags_pt.small
  have hfill : ({ s with pt := rest } : PgTables).fill (P2V f) (s.frames f) =
      { s with pt := rest } := PgTables.fill_self htaken.frame.lt
  have hcontent : ptContent s vaddr = s.frames f := by
    rw [ptContent_zero hzero, hlist, List.headD_cons]
  have h : PgTables.Links { s with pt := rest } (pdptePath vaddr) t f (f ||| (pteW ||| pteP))
      (ptContent s vaddr) :=
    { sound := hs₀
      parent := ht
      bound := hb
      taken := htaken
      link_eq := by rw [hlink.pgLink_eq (by simp), hdown]
      noLinks := fun _ => pgLink_pte _ }
  have hself := h.entry_self (n := tableIndex pdShift vaddr)
  rw [← pdePath] at hself
  refine ⟨_, ?_, h.sound_after (n := tableIndex pdShift vaddr), ?_⟩
  · dsimp only [pageTableFor]
    rw [PgTables.load_P2V _ ht hb, ← pdePath, hzero, if_neg isLargePage_zero, if_pos (by decide),
      assert_pos (by decide), ok_bind, hlist, List.headD_cons, List.tail_cons,
      assert_pos htaken.frame.aligned, ok_bind, if_neg htaken.frame.nonzero, PgTables.store_store,
      hself, alignDown_P2V hlink.frame, PgTables.linkFrame, hcontent, hfill]
  · refine ⟨?_, by rwa [hself], fun hl => absurd hzero hl.ne_zero, h.entry_new, fun q hq => h.entry_off hq, ?_, ?_, ?_⟩
    · rw [h.linkFrame_eq]
    · rw [h.linkFrame_eq, hzero, if_neg isLargePage_zero]
    · rw [h.linkFrame_eq, if_pos hzero, hlist, List.tail_cons]
    · rw [h.linkFrame_eq]
      intro g hg
      have := h.frames_eq (n := tableIndex pdShift vaddr) (List.mem_append_right _ hg)
      rwa [h.linkFrame_eq] at this

theorem pageTableFor_link (hs : s.Sound) (ht : s.tableOf (pdptePath vaddr) = some t)
    (hb : t < 2 ^ 64) (hlink : IsLink (s.entry (pdePath vaddr))) :
    ∃ s', pageTableFor s (P2V t) (tableIndex pdShift vaddr) =
        .ok (some (P2V (alignDown 0x1000 (s'.entry (pdePath vaddr)))), s') ∧
      s'.Sound ∧ Tabled s s' vaddr := by
  have hnot := hlink.not_largePage
  refine ⟨s, ?_, hs, ?_⟩
  · dsimp only [pageTableFor]
    rw [PgTables.load_P2V _ ht hb, ← pdePath, if_neg hnot,
      if_neg (fun h => and_pteP_eq_zero.1 h hlink.present), alignDown_P2V hlink.frame]
  · refine ⟨rfl, hlink, fun _ => rfl, fun m => ?_, fun q _ => rfl, ?_, ?_, fun _ _ => rfl⟩
    · rw [ptContent_link hlink]
    · rw [if_neg hnot]
    · rw [if_neg hlink.ne_zero]

theorem pageTableFor_tabled (hs : s.Sound) (ht : s.tableOf (pdptePath vaddr) = some t)
    (hb : t < 2 ^ 64) (hpde : PdeOpens (s.entry (pdePath vaddr))) (hready : s.PtReady vaddr) :
    ∃ s', pageTableFor s (P2V t) (tableIndex pdShift vaddr) =
        .ok (some (P2V (alignDown 0x1000 (s'.entry (pdePath vaddr)))), s') ∧
      s'.Sound ∧ Tabled s s' vaddr := by
  rcases hpde with (hzero | hlink) | hlarge
  · exact pageTableFor_fresh hs ht hb hzero (hready.fresh hzero)
  · exact pageTableFor_link hs ht hb hlink
  · exact pageTableFor_split hs ht hb hlarge (hready.split hlarge)

/-- Without a frame for the page table, the entry is left empty. -/
theorem pageTableFor_dry (hs : s.Sound) (ht : s.tableOf (pdptePath vaddr) = some t)
    (hb : t < 2 ^ 64) (hzero : s.entry (pdePath vaddr) = 0) (hpt : s.pt = []) :
    ∃ s', pageTableFor s (P2V t) (tableIndex pdShift vaddr) = .ok (none, s') ∧ s'.Sound ∧
      s' = { s with frames := s'.frames } ∧ (∀ q, s'.entry q = s.entry q) := by
  have hs₀ : ({ s with pt := [] } : PgTables).Sound := by rwa [← hpt]
  have hnone : s.tableOf (pdePath vaddr) = none := PgTables.tableOf_zero (by simp) hzero
  refine ⟨_, ?_, hs₀.store (n := tableIndex pdShift vaddr) ht hb (pgLink_zero _), ?_, ?_⟩
  · dsimp only [pageTableFor]
    rw [PgTables.load_P2V _ ht hb, ← pdePath, hzero, if_neg isLargePage_zero, if_pos (by decide),
      assert_pos (by decide), ok_bind, hpt, List.headD_nil, List.tail_nil,
      assert_pos (by decide), ok_bind, if_pos rfl]
  · rw [PgTables.store_P2V _ _ hb, ← hpt]
  · intro q
    by_cases hq : pdePath vaddr <:+ q
    · cases q with
      | nil => rfl
      | cons m q =>
          rcases List.suffix_cons_iff.1 hq with heq | hq
          · rw [← heq, hzero]
            exact PgTables.entry_store_self hs₀ ht hb
          · rw [PgTables.entry_cons_none (tableAt_none_of_suffix hq hnone)]
            refine PgTables.entry_cons_none ?_ m
            rw [PgTables.store_P2V _ _ hb]
            exact tableAt_setEntry_unlinked hs₀.tree ht (pgLink_zero _) hq
    · exact PgTables.entry_store_off hs₀ ht hb hq

end PageTable

/-- `vaddr` is mapped by the page table entry `e`. -/
structure Mapped (s s' : PgTables) (vaddr e : Nat) : Prop where
  same : s' = { s with frames := s'.frames, table := s'.table, pt := s'.pt }
  pde : IsLink (s'.entry (pdePath vaddr))
  kept : IsLink (s.entry (pdePath vaddr)) → s'.entry (pdePath vaddr) = s.entry (pdePath vaddr)
  pte : s'.entry (ptePath vaddr) = e
  pt : ∀ m, m ≠ tableIndex pteShift vaddr → s'.entry (m :: pdePath vaddr) = ptContent s vaddr m
  off : OffRegion s s' vaddr
  pt_eq : s'.pt = if s.entry (pdePath vaddr) = 0 then s.pt.tail else s.pt
  frames : ∀ f ∈ s'.pt, s'.frames f = s.frames f
  suffice : ∀ V : Nat → Prop, V vaddr → ¬ isLargePage (s.entry (pdePath vaddr)) = true →
    TablesSuffice s V → TablesSuffice s' V

section Map4k

variable {s s₁ : PgTables} {paddr vaddr flag : Nat}

theorem Grown.entry_pde (h : Grown s s₁ vaddr) {q : List (Fin 512)} (hq : 3 ≤ q.length) :
    s₁.entry q = s.entry q := by
  rcases h.entries q with he | ⟨hq' | hq', -⟩
  · exact he
  · exact absurd hq (by simp [hq'])
  · exact absurd hq (by simp [hq'])

theorem Grown.ptContent_eq (h : Grown s s₁ vaddr) (hfresh : s.entry (pdePath vaddr) = 0 → s.pt ≠ []) :
    ptContent s₁ vaddr = ptContent s vaddr := by
  have hpt : s₁.pt = s.pt := by rw [h.same]
  simp only [ptContent, h.entry_pde (q := pdePath vaddr) (by simp), hpt]
  split
  · rfl
  · split
    case isTrue hzero =>
      obtain ⟨f, rest, hlist⟩ := List.exists_cons_of_ne_nil (hfresh hzero)
      rw [hlist, List.headD_cons, h.frames f (by simp [hlist])]
    case isFalse =>
      funext m
      exact h.entry_pde (by simp)

theorem buildPteWithAddr_alignDown (s : PgTables) (vaddr : Nat) :
    buildPteWithAddr s (alignDown 0x200000 vaddr) = buildPteWithAddr s vaddr := by
  unfold buildPteWithAddr
  rw [tableIndex_alignDown pml4Shift vaddr (by decide),
    tableIndex_alignDown pdpShift vaddr (by decide),
    tableIndex_alignDown pdShift vaddr (by decide)]

/-- The write into the page table, once it is there. -/
theorem Mapped.of_store {s₂ : PgTables} {e : Nat} (hgrown : Grown s s₁ vaddr)
    (hfresh : s.entry (pdePath vaddr) = 0 → s.pt ≠ []) (hs₂ : s₂.Sound) (htab : Tabled s₁ s₂ vaddr) :
    Mapped s
      (s₂.store (P2V (alignDown 0x1000 (s₂.entry (pdePath vaddr)))) (tableIndex pteShift vaddr) e)
      vaddr e := by
  have hpde : s₁.entry (pdePath vaddr) = s.entry (pdePath vaddr) := hgrown.entry_pde (by simp)
  have hpt₁ : s₁.pt = s.pt := by rw [hgrown.same]
  have ht : s₂.tableOf (pdePath vaddr) = some (alignDown 0x1000 (s₂.entry (pdePath vaddr))) :=
    PgTables.tableOf_link (by simp) htab.pde
  have hb := htab.pde.frame.lt
  have hoff : ∀ q, ¬ ptePath vaddr <:+ q →
      (s₂.store (P2V (alignDown 0x1000 (s₂.entry (pdePath vaddr)))) (tableIndex pteShift vaddr)
        e).entry q = s₂.entry q :=
    fun q hq => PgTables.entry_store_off hs₂ ht hb hq
  refine ⟨?_, ?_, ?_, PgTables.entry_store_self hs₂ ht hb, ?_, ?_, ?_, ?_, ?_⟩
  · rw [PgTables.store_P2V _ _ hb]
    rw [htab.same, hgrown.same]
  · rw [hoff _ (not_suffix_of_length (by simp))]
    exact htab.pde
  · intro hlink
    rw [hoff _ (not_suffix_of_length (by simp)), htab.kept (hpde ▸ hlink), hpde]
  · intro m hm
    have hne : ¬ ptePath vaddr <:+ (m :: pdePath vaddr) := fun hs =>
      hm (List.cons.inj (hs.eq_of_length (by simp))).1.symm
    rw [hoff _ hne, htab.pt m, hgrown.ptContent_eq hfresh]
  · intro q hq
    have hne : ¬ ptePath vaddr <:+ q := fun hs => hq ((List.suffix_cons _ _).trans hs)
    rw [hoff q hne, htab.off q hq]
    exact hgrown.entries q
  · rw [PgTables.store_P2V _ _ hb, ← hpt₁, ← hpde]
    exact htab.pt_eq
  · intro f hf
    have hf₂ : f ∈ s₂.pt := by rwa [PgTables.store_P2V _ _ hb] at hf
    have hf₁ : f ∈ s.pt := by
      rw [htab.pt_eq, hpt₁] at hf₂
      split at hf₂
      · exact List.mem_of_mem_tail hf₂
      · exact hf₂
    rw [PgTables.frames_store hs₂ ht hb (List.mem_append_right _ hf₂), htab.frames f hf₂,
      hgrown.frames f hf₁]
  · intro V hV hnot hsuff
    refine (hgrown.suffice V hV hsuff).congr ?_ fun q hq => ?_
    · rw [PgTables.store_P2V _ _ hb]
      show s₂.table.length = _
      rw [htab.table_eq, hpde, if_neg hnot]
    · rw [hoff q (not_suffix_of_length (by simp; omega)),
        htab.off q (not_suffix_of_length (by simpa using hq))]

/-- What `map_4k_page_p2v` starts from: the entries on the way are in order, and the source has
    frames for the tables to be made. -/
structure PgTables.Ready (s : PgTables) (vaddr : Nat) : Prop where
  way : s.Reachable vaddr
  pde : PdeOpens (s.entry (pdePath vaddr))
  split : isLargePage (s.entry (pdePath vaddr)) = true → tablesMissing s vaddr < s.table.length

/-- The page table entry `map_4k_page_p2v` writes. -/
def pteFor (paddr flag : Nat) : Nat := paddr ||| (flag &&& notPS) ||| pteG

theorem map4kPageP2V_mapped (h : s.Ready vaddr) (hfresh : s.entry (pdePath vaddr) = 0 → s.pt ≠ [])
    (hp : paddr % 0x1000 = 0) (hv : vaddr % 0x1000 = 0) (hf : flag < 0x1000) :
    ∃ s', map4kPageP2V s paddr vaddr flag = .ok (OK, s') ∧ s'.Sound ∧
      Mapped s s' vaddr (pteFor paddr flag) := by
  obtain ⟨s₁, hbuild, hs₁, hgrown⟩ := buildPteWithAddr_grown h.way
  have hpde₁ : s₁.entry (pdePath vaddr) = s.entry (pdePath vaddr) := hgrown.entry_pde (by simp)
  have hpt₁ : s₁.pt = s.pt := by rw [hgrown.same]
  have hready : s₁.PtReady vaddr := by
    refine ⟨fun hlarge => ?_, fun hzero => ?_⟩
    · have := h.split (hpde₁ ▸ hlarge)
      have hcount := hgrown.count
      exact List.ne_nil_of_length_pos (by omega)
    · rw [hpt₁]
      exact hfresh (hpde₁ ▸ hzero)
  obtain ⟨s₂, htable, hs₂, htab⟩ := pageTableFor_tabled hs₁
    hgrown.tableOf_pd hgrown.pdpte.frame.lt (hpde₁ ▸ h.pde) hready
  refine ⟨_, ?_, ?_, .of_store hgrown hfresh hs₂ htab⟩
  · unfold map4kPageP2V
    rw [assert_pos hp, ok_bind, assert_pos hv, ok_bind, assert_pos (by unfold alignDown; omega),
      ok_bind, buildPteWithAddr_alignDown, hbuild, ok_bind]
    dsimp only
    rw [htable, ok_bind]
    rfl
  · exact hs₂.store (PgTables.tableOf_link (by simp) htab.pde) htab.pde.frame.lt (pgLink_pte _)

/-- Without a frame for a missing page table the call fails, and no page changes. -/
theorem map4kPageP2V_dry (h : s.Reachable vaddr) (hzero : s.entry (pdePath vaddr) = 0)
    (hpt : s.pt = []) (hp : paddr % 0x1000 = 0) (hv : vaddr % 0x1000 = 0) (hf : flag < 0x1000) :
    ∃ s', map4kPageP2V s paddr vaddr flag = .ok (ENOMEM, s') ∧ s'.Sound ∧
      s' = { s with frames := s'.frames, table := s'.table } ∧
      ∀ q, s'.entry q = s.entry q ∨
        (q = pml4ePath vaddr ∨ q = pdptePath vaddr) ∧ s.entry q = 0 ∧ IsLink (s'.entry q) := by
  obtain ⟨s₁, hbuild, hs₁, hgrown⟩ := buildPteWithAddr_grown h
  have hpde₁ : s₁.entry (pdePath vaddr) = s.entry (pdePath vaddr) := hgrown.entry_pde (by simp)
  have hpt₁ : s₁.pt = s.pt := by rw [hgrown.same]
  obtain ⟨s₂, htable, hs₂, hsame, hent⟩ := pageTableFor_dry hs₁
    hgrown.tableOf_pd hgrown.pdpte.frame.lt (hpde₁.trans hzero)
    (hpt₁.trans hpt)
  refine ⟨s₂, ?_, hs₂, ?_, fun q => ?_⟩
  · unfold map4kPageP2V
    rw [assert_pos hp, ok_bind, assert_pos hv, ok_bind, assert_pos (by unfold alignDown; omega),
      ok_bind, buildPteWithAddr_alignDown, hbuild, ok_bind]
    dsimp only
    rw [htable, ok_bind]
  · rw [hsame, hgrown.same]
  · rw [hent q]
    exact hgrown.entries q

end Map4k

end Yaos
