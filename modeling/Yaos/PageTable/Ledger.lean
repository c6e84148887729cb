import Yaos.PageTable.MapAlloc

set_option autoImplicit false

/-! # Where the frames for tables go

Every frame that `map_4k_page_p2v` and `map_page_p2v` take for a table is linked, and every link that
was not there before leads to such a frame (`Ledger`). Entries under the page directory entries of a
set `V` of addresses are left out: these may be overwritten by 2 MiB pages. -/

namespace Yaos

open Word TableTree

/-- An entry above the page tables that no page directory entry of `V` is on the way to. -/
def OffLarge (V : Nat → Prop) (q : List (Fin 512)) : Prop :=
  q.length < 4 ∧ ∀ x, V x → ¬ pdePath x <:+ q

theorem OffLarge.of_length {V : Nat → Prop} {q : List (Fin 512)} (hq : q.length < 3) :
    OffLarge V q := ⟨by omega, fun _ _ => not_suffix_of_length (by simpa using hq)⟩

/-- Between `s` and `s'` frames were taken from the front and linked as tables, over `V` only. -/
structure Ledger (V : Nat → Prop) (s s' : PgTables) : Prop where
  table : s'.table <:+ s.table
  pt : s'.pt <:+ s.pt
  kept : ∀ q, OffLarge V q → Kept s s' q
  linked : ∀ f ∈ s.table ++ s.pt, f ∈ s'.table ++ s'.pt ∨
    ∃ q, OffLarge V q ∧ IsLink (s'.entry q) ∧ alignDown 0x1000 (s'.entry q) = f
  fresh : ∀ q : List (Fin 512), q.length < 4 → IsLink (s'.entry q) →
    s'.entry q = s.entry q ∨ alignDown 0x1000 (s'.entry q) ∈ s.table ++ s.pt

namespace Ledger

variable {V : Nat → Prop} {s s₁ s' : PgTables}

theorem subset (h : Ledger V s s') {f : Nat} (hf : f ∈ s'.table ++ s'.pt) : f ∈ s.table ++ s.pt := by
  rcases List.mem_append.1 hf with hf | hf
  · exact List.mem_append_left _ (h.table.subset hf)
  · exact List.mem_append_right _ (h.pt.subset hf)

/-- Nothing is taken and no link is made. -/
theorem of_entries (htable : s'.table = s.table) (hpt : s'.pt = s.pt)
    (hkept : ∀ q, OffLarge V q → s'.entry q = s.entry q)
    (hlink : ∀ q : List (Fin 512), q.length < 4 → IsLink (s'.entry q) → s'.entry q = s.entry q) :
    Ledger V s s' where
  table := by rw [htable]
  pt := by rw [hpt]
  kept := fun q hq => .inl (hkept q hq)
  linked := fun f hf => .inl (by rwa [htable, hpt])
  fresh := fun q hq hl => .inl (hlink q hq hl)

theorem refl : Ledger V s s := of_entries rfl rfl (fun _ _ => rfl) fun _ _ _ => rfl

theorem trans (h₁ : Ledger V s s₁) (h₂ : Ledger V s₁ s') : Ledger V s s' where
  table := h₂.table.trans h₁.table
  pt := h₂.pt.trans h₁.pt
  kept := fun q hq => (h₁.kept q hq).trans (h₂.kept q hq)
  linked := fun f hf => by
    rcases h₁.linked f hf with hf₁ | ⟨q, hq, hlink, hdown⟩
    · exact h₂.linked f hf₁
    · have he := (h₂.kept q hq).eq_of_ne_zero hlink.ne_zero
      exact .inr ⟨q, hq, by rwa [he], by rwa [he]⟩
  fresh := fun q hq hlink => by
    rcases h₂.fresh q hq hlink with he | hmem
    · rw [he] at hlink ⊢
      exact h₁.fresh q hq hlink
    · exact .inr (h₁.subset hmem)

/-- Only the frames for data changed. -/
theorem supply {t : PgTables} (h : Ledger V s s') (hframes : t.frames = s.frames)
    (hpml4 : t.pml4 = s.pml4) (hpt : t.pt = s.pt) (htable : t.table = s.table) :
    Ledger V t s' := by
  have hent : ∀ q, t.entry q = s.entry q := fun q => by
    unfold PgTables.entry
    rw [hpml4, hframes]
  have hsame : Ledger V t s := of_entries htable.symm hpt.symm (fun q _ => (hent q).symm)
    fun q _ _ => (hent q).symm
  exact hsame.trans h

end Ledger

/-! ## One table -/

theorem P2V_injective {a b : Nat} (ha : a < 2 ^ 64) (hb : b < 2 ^ 64) (h : P2V a = P2V b) :
    a = b := by
  rw [← wsub_P2V ha, ← wsub_P2V hb, h]

section Open

variable {V : Nat → Prop} {s s₁ s' : PgTables} {vaddr : Nat} {q : List (Fin 512)}

/-- The frame that was taken is the one that is linked. -/
theorem Opened.ledger (h : Opened s s' q) (hs : s.Sound) (hq : q.length < 3)
    (hpop : s' = s ∨ P2V (alignDown 0x1000 (s'.entry q)) = P2V (s.table.headD 0) ∧
      s'.table = s.table.tail) : Ledger V s s' := by
  have hpt : s'.pt = s.pt := by rw [h.same]
  have hcount := h.count
  have htakes : s'.table = s.table ∨ s.table = alignDown 0x1000 (s'.entry q) :: s'.table := by
    rcases hpop with heq | ⟨hptr, htail⟩
    · rw [heq]
      exact .inl rfl
    · cases htable : s.table with
      | nil =>
          rw [htable] at htail
          exact .inl htail
      | cons f rest =>
          have hf : Frame f := hs.frame f (by simp [htable])
          rw [htable, List.headD_cons] at hptr
          rw [htable, List.tail_cons] at htail
          rw [P2V_injective h.link.frame.lt hf.lt hptr, htail]
          exact .inr rfl
  refine ⟨?_, by rw [hpt], ?_, ?_, ?_⟩
  · rcases htakes with he | he
    · rw [he]
    · rw [he]
      exact List.suffix_cons _ _
  · intro r _
    rcases h.entries r with he | ⟨rfl, hzero, hlink⟩
    · exact .inl he
    · exact .inr ⟨by omega, hzero, hlink⟩
  · intro f hf
    rw [hpt]
    rcases htakes with he | he
    · rw [he]
      exact .inl hf
    · rw [he, List.cons_append, List.mem_cons] at hf
      rcases hf with rfl | hf
      · exact .inr ⟨q, .of_length hq, h.link, rfl⟩
      · exact .inl hf
  · intro r _ _
    rcases h.entries r with he | ⟨rfl, hzero, -⟩
    · exact .inl he
    · rcases htakes with he | he
      · rw [he, missing, if_pos hzero] at hcount
        omega
      · rw [he]
        exact .inr (by simp)

theorem Descended.ledger (hs : s.Sound) (h : Descended s s₁ s' vaddr) : Ledger V s s' :=
  (h.first.ledger hs (by simp) h.popped₁).trans (h.second.ledger h.sound₁ (by simp) h.popped)

/-- Writing an entry that leads nowhere over one that was no link, or under `V`. -/
theorem Ledger.store {p : List (Fin 512)} {t : Nat} {n : Fin 512} {e : Nat} (hs : s.Sound)
    (ht : s.tableOf p = some t) (hb : t < 2 ^ 64) (he : ¬ IsLink e ∨ p.length = 3)
    (hp : p.length = 3 ∨ ∃ x, V x ∧ n :: p = pdePath x) :
    Ledger V s (s.store (P2V t) n e) := by
  have hoff : ∀ q : List (Fin 512), ¬ n :: p <:+ q → (s.store (P2V t) n e).entry q = s.entry q :=
    fun q hq => PgTables.entry_store_off hs ht hb hq
  have hlen : ∀ q : List (Fin 512), q.length < 4 → p.length = 3 → ¬ n :: p <:+ q := by
    intro q hq hp3
    refine not_suffix_of_length ?_
    rw [List.length_cons, hp3]
    exact hq
  refine .of_entries ?_ ?_ ?_ ?_
  · rw [PgTables.store_P2V _ _ hb]
  · rw [PgTables.store_P2V _ _ hb]
  · intro q hq
    rcases hp with hp3 | ⟨x, hx, hpath⟩
    · exact hoff q (hlen q hq.1 hp3)
    · exact hoff q (by rw [hpath]; exact hq.2 x hx)
  · intro q hq hlink
    rcases hp with hp3 | ⟨x, hx, hpath⟩
    · exact hoff q (hlen q hq hp3)
    · by_cases hsuf : n :: p <:+ q
      · have hp2 : (n :: p).length = 3 := by rw [hpath, length_pdePath]
        have hself : n :: p = q := hsuf.eq_of_length_le (by omega)
        rw [← hself, PgTables.entry_store_self hs ht hb] at hlink
        rcases he with he | he
        · exact absurd hlink he
        · rw [List.length_cons, he] at hp2
          exact absurd hp2 (by decide)
      · exact hoff q hsuf

/-- `map_page_p2v` at an address of `V`. -/
theorem mapPageP2V_ledger {paddr flag : Nat} (h : s.Reachable vaddr) (hV : V vaddr)
    (hp : paddr % 0x200000 = 0) (hv : vaddr % 0x200000 = 0) (hf : flag < 0x1000)
    (hlarge : Large flag) (hrun : mapPageP2V s paddr vaddr flag = .ok (OK, s')) :
    Ledger V s s' ∧ ∀ q : List (Fin 512), q.length = 3 → q ≠ pdePath vaddr →
      s'.entry q = s.entry q := by
  obtain ⟨s₁, s₂, hok, hway⟩ := mapPageP2V_opened h hp hv hf
  have hgrown : Grown s s₂ vaddr := hway.grown
  have hpd := hgrown.tableOf_pd
  have hb := hgrown.pdpte.frame.lt
  obtain rfl := congrArg Prod.snd (Except.ok.inj (hok.symm.trans hrun))
  constructor
  · refine (hway.ledger h.sound).trans
      (.store hway.sound hpd hb (.inl fun hlink => hlink.small ?_) (.inr ⟨vaddr, hV, rfl⟩))
    rw [or_flags (by omega) hf]
    omega
  · intro q hq hne
    rw [PgTables.entry_store_off hway.sound hpd hb fun hsuf => hne (hsuf.eq_of_length (by
      rw [List.length_cons, length_pdptePath, hq])).symm]
    exact hgrown.entry_pde (by omega)

/-! ## Page tables -/

theorem pageTableFor_pops {p r : Nat} {k : Fin 512} (hzero : s.load p k = 0)
    (h : pageTableFor s p k = .ok (some r, s')) :
    r = alignDown 0x1000 (P2V (s.pt.headD 0 ||| (pteW ||| pteP))) := by
  dsimp only [pageTableFor] at h
  rw [hzero, if_neg (by decide), if_pos (by decide), assert_pos (by decide), ok_bind] at h
  have ⟨_, h'⟩ := assert_bind_eq_ok.1 h
  split at h'
  · cases h'
  · exact (Option.some.inj (Prod.mk.inj (Except.ok.inj h')).1).symm

theorem pageTableFor_ledger {t : Nat} (hs : s.Sound) (ht : s.tableOf (pdptePath vaddr) = some t)
    (hb : t < 2 ^ 64) (hopen : Opens (s.entry (pdePath vaddr)))
    (hfresh : s.entry (pdePath vaddr) = 0 → s.pt ≠ []) (hV : OffLarge V (pdePath vaddr)) :
    ∃ s', pageTableFor s (P2V t) (tableIndex pdShift vaddr) =
        .ok (some (P2V (alignDown 0x1000 (s'.entry (pdePath vaddr)))), s') ∧
      s'.Sound ∧ Tabled s s' vaddr ∧ Ledger V s s' := by
  have hnot : ¬ isLargePage (s.entry (pdePath vaddr)) = true := by
    rcases hopen with hzero | hlink
    · rw [hzero]
      exact isLargePage_zero
    · exact hlink.not_largePage
  obtain ⟨s', hrun, hs', htab⟩ := pageTableFor_tabled hs ht hb (.inl hopen)
    ⟨fun hl => absurd hl hnot, hfresh⟩
  refine ⟨s', hrun, hs', htab, ?_⟩
  have htable : s'.table = s.table := by rw [htab.table_eq, if_neg hnot]
  have hself : ∀ q : List (Fin 512), q.length < 4 → q = pdePath vaddr ∨
      s'.entry q = s.entry q := by
    intro q hq
    by_cases hsuf : pdePath vaddr <:+ q
    · exact .inl (hsuf.eq_of_length_le (by rw [length_pdePath]; omega)).symm
    · exact .inr (htab.off q hsuf)
  rcases hopen with hzero | hlink
  · -- the frame from the source becomes the page table
    obtain ⟨f, rest, hlist⟩ := List.exists_cons_of_ne_nil (hfresh hzero)
    have hf : Frame f := hs.frame f (by simp [hlist])
    have hpt : s'.pt = rest := by rw [htab.pt_eq, if_pos hzero, hlist, List.tail_cons]
    have hdown : alignDown 0x1000 (s'.entry (pdePath vaddr)) = f := by
      have hptr := pageTableFor_pops (by rwa [PgTables.load_P2V _ ht hb]) hrun
      obtain ⟨hl, hfd⟩ := isLink_or hf linkFlags_pt.lt linkFlags_pt.present linkFlags_pt.small
      rw [hlist, List.headD_cons, alignDown_P2V hl.frame, hfd] at hptr
      exact P2V_injective htab.pde.frame.lt hf.lt hptr
    refine ⟨by rw [htable], ?_, ?_, ?_, ?_⟩
    · rw [hpt, hlist]
      exact List.suffix_cons _ _
    · intro q hq
      rcases hself q hq.1 with rfl | he
      · exact .inr ⟨hq.1, hzero, htab.pde⟩
      · exact .inl he
    · intro g hg
      rw [htable, hpt]
      rw [hlist, List.mem_append, List.mem_cons] at hg
      rcases hg with hg | rfl | hg
      · exact .inl (List.mem_append_left _ hg)
      · exact .inr ⟨pdePath vaddr, hV, htab.pde, hdown⟩
      · exact .inl (List.mem_append_right _ hg)
    · intro q hq _
      rcases hself q hq with rfl | he
      · rw [hdown, hlist]
        exact .inr (by simp)
      · exact .inl he
  · have hpt : s'.pt = s.pt := by rw [htab.pt_eq, if_neg hlink.ne_zero]
    have hent : ∀ q : List (Fin 512), q.length < 4 → s'.entry q = s.entry q := by
      intro q hq
      rcases hself q hq with rfl | he
      · exact htab.kept hlink
      · exact he
    exact .of_entries htable hpt (fun q hq => hent q hq.1) fun q hq _ => hent q hq

/-- `map_4k_page_p2v` away from `V`: a round that succeeds. -/
theorem map4kPageP2V_ledger {paddr flag : Nat} (h : s.Reachable vaddr)
    (hopen : Opens (s.entry (pdePath vaddr))) (hfresh : s.entry (pdePath vaddr) = 0 → s.pt ≠ [])
    (hV : OffLarge V (pdePath vaddr)) (hp : paddr % 0x1000 = 0) (hv : vaddr % 0x1000 = 0)
    (hf : flag < 0x1000) (hrun : map4kPageP2V s paddr vaddr flag = .ok (OK, s')) :
    Ledger V s s' ∧ (∀ q : List (Fin 512), q.length = 3 → q ≠ pdePath vaddr →
      s'.entry q = s.entry q) ∧
      s'.pt = if s.entry (pdePath vaddr) = 0 then s.pt.tail else s.pt := by
  obtain ⟨s₀, s₁, hbuild, hway⟩ := buildPteWithAddr_opened h
  have hs₁ := hway.sound
  have hgrown : Grown s s₁ vaddr := hway.grown
  have hpde₁ : s₁.entry (pdePath vaddr) = s.entry (pdePath vaddr) := hgrown.entry_pde (by simp)
  have hpt₁ : s₁.pt = s.pt := by rw [hgrown.same]
  obtain ⟨s₂, htable, hs₂, htab, hledger₂⟩ := pageTableFor_ledger (V := V) hs₁
    hgrown.tableOf_pd hgrown.pdpte.frame.lt (hpde₁ ▸ hopen) (fun hz => hpt₁ ▸ hfresh (hpde₁ ▸ hz)) hV
  have ht : s₂.tableOf (pdePath vaddr) = some (alignDown 0x1000 (s₂.entry (pdePath vaddr))) :=
    PgTables.tableOf_link (by simp) htab.pde
  have hb := htab.pde.frame.lt
  have hs' : s₂.store (P2V (alignDown 0x1000 (s₂.entry (pdePath vaddr))))
      (tableIndex pteShift vaddr) (paddr ||| (flag &&& notPS) ||| pteG) = s' := by
    unfold map4kPageP2V at hrun
    rw [assert_pos hp, ok_bind, assert_pos hv, ok_bind, assert_pos (by unfold alignDown; omega),
      ok_bind, buildPteWithAddr_alignDown, hbuild, ok_bind] at hrun
    dsimp only at hrun
    rw [htable, ok_bind] at hrun
    exact congrArg Prod.snd (Except.ok.inj hrun)
  rw [← hs']
  refine ⟨((hway.ledger h.sound).trans hledger₂).trans
    (.store hs₂ ht hb (.inr (by simp)) (.inl (by simp))), fun q hq hne => ?_, ?_⟩
  · rw [PgTables.entry_store_off hs₂ ht hb (not_suffix_of_length (by
        rw [List.length_cons, length_pdePath]
        omega)),
      htab.off q fun hsuf => hne (hsuf.eq_of_length (by rw [length_pdePath, hq])).symm]
    exact hgrown.entry_pde (by omega)
  · rw [PgTables.store_P2V _ _ hb, ← hpt₁, ← hpde₁]
    exact htab.pt_eq

/-- A round that finds no frame for the page table. -/
theorem map4kPageP2V_dry_ledger {paddr flag : Nat} (h : s.Reachable vaddr)
    (hzero : s.entry (pdePath vaddr) = 0) (hpt : s.pt = []) (hp : paddr % 0x1000 = 0)
    (hv : vaddr % 0x1000 = 0) (hf : flag < 0x1000) :
    ∃ s', map4kPageP2V s paddr vaddr flag = .ok (ENOMEM, s') ∧ s'.data = s.data ∧
      ∀ V, Ledger V s s' := by
  obtain ⟨s₀, s₁, hbuild, hway⟩ := buildPteWithAddr_opened h
  have hs₁ := hway.sound
  have hgrown : Grown s s₁ vaddr := hway.grown
  have hpde₁ : s₁.entry (pdePath vaddr) = s.entry (pdePath vaddr) := hgrown.entry_pde (by simp)
  have hpt₁ : s₁.pt = s.pt := by rw [hgrown.same]
  obtain ⟨s₂, htable, -, hsame, hent⟩ := pageTableFor_dry hs₁ hgrown.tableOf_pd
    hgrown.pdpte.frame.lt (hpde₁.trans hzero) (hpt₁.trans hpt)
  refine ⟨s₂, ?_, ?_, fun V => (hway.ledger h.sound).trans
    (.of_entries (by rw [hsame]) (by rw [hsame]) (fun q _ => hent q) fun q _ _ => hent q)⟩
  · unfold map4kPageP2V
    rw [assert_pos hp, ok_bind, assert_pos hv, ok_bind, assert_pos (by unfold alignDown; omega),
      ok_bind, buildPteWithAddr_alignDown, hbuild, ok_bind]
    dsimp only
    rw [htable, ok_bind]
  · rw [hsame, hgrown.same]

end Open

end Yaos
