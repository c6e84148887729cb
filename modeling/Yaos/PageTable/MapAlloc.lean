import Yaos.PageTable.Unmap

set_option autoImplicit false

/-! # Mapping a range

The three loops of `map_alloc_at`, on a range whose upper entries hold nothing or links. Each loop maps
the frames it takes one after the other and leaves all other pages as they are (`Kept`); when the frame
source runs dry, what has been mapped is unmapped again. -/

namespace Yaos

open Word TableTree

/-! ## Entries that stay -/

/-- The entry at `q` stays, or a link appears where nothing was. -/
def Kept (s s' : PgTables) (q : List (Fin 512)) : Prop :=
  s'.entry q = s.entry q ∨ q.length < 4 ∧ s.entry q = 0 ∧ IsLink (s'.entry q)

namespace Kept

variable {s s₁ s' : PgTables} {q : List (Fin 512)}

theorem refl : Kept s s q := .inl rfl

theorem trans (h₁ : Kept s s₁ q) (h₂ : Kept s₁ s' q) : Kept s s' q := by
  rcases h₁ with h₁ | ⟨hlen, hzero, hlink⟩
  · rcases h₂ with h₂ | ⟨hlen, hzero, hlink⟩
    · exact .inl (h₂.trans h₁)
    · exact .inr ⟨hlen, h₁ ▸ hzero, hlink⟩
  · rcases h₂ with h₂ | ⟨-, hzero', -⟩
    · exact .inr ⟨hlen, hzero, h₂ ▸ hlink⟩
    · exact absurd hzero' hlink.ne_zero

theorem eq_of_ne_zero (h : Kept s s' q) (hne : s.entry q ≠ 0) : s'.entry q = s.entry q :=
  h.resolve_right fun h' => hne h'.2.1

theorem eq_of_length (h : Kept s s' q) (hlen : q.length = 4) : s'.entry q = s.entry q :=
  h.resolve_right fun h' => absurd h'.1 (by omega)

theorem opens (h : Kept s s' q) (ho : Opens (s.entry q)) : Opens (s'.entry q) := by
  rcases h with h | ⟨-, -, hlink⟩
  · rwa [h]
  · exact .inr hlink

end Kept

theorem PgTables.OpenAt.kept {s s' : PgTables} {vaddr : Nat} (h : s.OpenAt vaddr)
    (hk : ∀ q : List (Fin 512), q.length < 3 → Kept s s' q) : s'.OpenAt vaddr :=
  ⟨(hk _ (by simp)).opens h.pml4e, (hk _ (by simp)).opens h.pdpte⟩

/-- The entries above a page directory serve a whole 2 MiB region. -/
theorem PgTables.OpenAt.region {s : PgTables} {x y : Nat} (h : s.OpenAt x) (hpde : pdePath y = pdePath x) :
    s.OpenAt y := by
  have hpdpte : pdptePath y = pdptePath x := (List.cons.inj hpde).2
  have hpml4e : pml4ePath y = pml4ePath x := (List.cons.inj hpdpte).2
  exact ⟨hpml4e ▸ h.pml4e, hpdpte ▸ h.pdpte⟩

theorem IsLink.not_page {e : Nat} (h : IsLink e) : ¬ (Present e ∧ Large e) := fun h' =>
  h.small h'.2

/-- Below a link nothing is read where nothing was linked before. -/
theorem translate_kept {s s' : PgTables} {vaddr : Nat} (hpdpte : Kept s s' (pdptePath vaddr))
    (hpde : Kept s s' (pdePath vaddr)) (hpte : Kept s s' (ptePath vaddr)) :
    translate s' vaddr = translate s vaddr := by
  have hpte' := hpte.eq_of_length (by simp)
  have hlow : s.entry (pdePath vaddr) = 0 → s.entry (ptePath vaddr) = 0 := fun h =>
    PgTables.entry_cons_none (PgTables.tableOf_zero (by simp) h) _
  have hmid : s.entry (pdptePath vaddr) = 0 → s.entry (pdePath vaddr) = 0 := fun h =>
    PgTables.entry_cons_none (PgTables.tableOf_zero (by simp) h) _
  rw [translate_eq, translate_eq, hpte']
  rcases hpdpte with hpdpte | ⟨-, hz, hl⟩
  · rw [hpdpte]
    rcases hpde with hpde | ⟨-, hz, hl⟩
    · rw [hpde]
    · by_cases hhuge : Present (s.entry (pdptePath vaddr)) ∧ Large (s.entry (pdptePath vaddr))
      · rw [readEntries, readEntries, if_pos hhuge, if_pos hhuge]
      · rw [hlow hz, readEntries_none hhuge hl.not_page (by omega),
          readEntries_none hhuge (by omega) (by omega)]
  · have hz' := hmid hz
    have hpde' : ¬ (Present (s'.entry (pdePath vaddr)) ∧ Large (s'.entry (pdePath vaddr))) := by
      rcases hpde with hpde | ⟨-, -, hl'⟩
      · rw [hpde, hz']
        omega
      · exact hl'.not_page
    rw [hlow hz', readEntries_none hl.not_page hpde' (by omega),
      readEntries_none (by omega) (by omega) (by omega)]

/-! ## The state of a range -/

/-- The addresses with the low 48 bits of one of `size` bytes from `vaddr` on. -/
def InRange (vaddr size x : Nat) : Prop := ∃ y < size, x % 2 ^ 48 = (vaddr + y) % 2 ^ 48

/-- The entries above the page directories of the range hold nothing or links, the frame source has
    the tables missing there, and the page tables it hands out are clear. -/
structure PgTables.RangeReady (s : PgTables) (vaddr size : Nat) : Prop where
  sound : s.Sound
  opens : ∀ x, InRange vaddr size x → s.OpenAt x
  tables : TablesSuffice s (InRange vaddr size)
  zeroed : ∀ f ∈ s.pt, ∀ n, s.frames f n = 0

theorem PgTables.RangeReady.reachable {s : PgTables} {vaddr size x : Nat}
    (h : s.RangeReady vaddr size) (hx : InRange vaddr size x) : s.Reachable x :=
  ⟨h.sound, (h.opens x hx).pml4e, (h.opens x hx).pdpte, h.tables.missing_le hx⟩

/-! ## One page of the range -/

section Step

variable {s s' : PgTables} {vaddr size x e : Nat}

theorem OffRegion.kept (h : OffRegion s s' x) {q : List (Fin 512)} (hq : ¬ pdePath x <:+ q) :
    Kept s s' q := by
  rcases h q hq with he | ⟨hq', hzero, hlink⟩
  · exact .inl he
  · exact .inr ⟨by rcases hq' with rfl | rfl <;> simp, hzero, hlink⟩

/-- In a page table that was there, or comes clear from the source, one entry changes. -/
theorem Mapped.kept_of_ne (h : Mapped s s' x e) (hzeroed : ∀ f ∈ s.pt, ∀ n, s.frames f n = 0)
    (hfresh : s.entry (pdePath x) = 0 → s.pt ≠ []) (hopen : Opens (s.entry (pdePath x)))
    {q : List (Fin 512)} (hq : q ≠ ptePath x) : Kept s s' q := by
  by_cases hsuf : pdePath x <:+ q
  · cases q with
    | nil => exact absurd hsuf.length_le (by simp)
    | cons m q =>
        rcases List.suffix_cons_iff.1 hsuf with heq | hsuf
        · rw [← heq]
          rcases hopen with hzero | hlink
          · exact .inr ⟨by simp, hzero, h.pde⟩
          · exact .inl (h.kept hlink)
        · left
          by_cases hself : q = pdePath x
          · subst hself
            rw [h.pt m fun hm => hq (hm ▸ rfl)]
            rcases hopen with hzero | hlink
            · obtain ⟨f, rest, hlist⟩ := List.exists_cons_of_ne_nil (hfresh hzero)
              rw [ptContent_zero hzero, hlist, List.headD_cons, hzeroed f (by simp [hlist]),
                PgTables.entry_cons_none (PgTables.tableOf_zero (by simp) hzero)]
            · rw [ptContent_link hlink]
          · have hlen : 4 < (m :: q).length := by
              have hle := hsuf.length_le
              have hne : (pdePath x).length ≠ q.length := fun h' =>
                hself (hsuf.eq_of_length h').symm
              rw [length_pdePath] at hle hne
              rw [List.length_cons]
              omega
            rw [PgTables.entry_deep _ hlen, PgTables.entry_deep _ hlen]
  · exact h.off.kept hsuf

theorem PgTables.RangeReady.kept (h : s.RangeReady vaddr size) (hsound : s'.Sound)
    (hk : ∀ q : List (Fin 512), q.length < 3 → Kept s s' q)
    (htables : TablesSuffice s' (InRange vaddr size))
    (hpt : ∀ f ∈ s'.pt, f ∈ s.pt ∧ s'.frames f = s.frames f) : s'.RangeReady vaddr size where
  sound := hsound
  opens := fun x hx => (h.opens x hx).kept hk
  tables := htables
  zeroed := fun f hf n => by
    rw [(hpt f hf).2]
    exact h.zeroed f (hpt f hf).1 n

/-- Taking a frame to be mapped does not touch the tables. -/
theorem PgTables.RangeReady.supply (h : s.RangeReady vaddr size) (hframes : s'.frames = s.frames)
    (hpml4 : s'.pml4 = s.pml4) (hpt : s'.pt = s.pt) (htable : s'.table = s.table) :
    s'.RangeReady vaddr size := by
  cases s
  cases s'
  dsimp only at *
  subst hframes hpml4 hpt htable
  exact h.kept ⟨h.sound.tree, h.sound.root, h.sound.frame, h.sound.unused, h.sound.nodup⟩
    (fun q _ => .inl rfl) h.tables fun f hf => ⟨hf, rfl⟩

/-- There is no page table for `x`, and no frame for one. -/
def PgTables.PtMissing (s : PgTables) (x : Nat) : Prop := s.entry (pdePath x) = 0 ∧ s.pt = []

/-- One round of the loops over 4 KiB pages. -/
theorem map4kPageP2V_round {paddr flag : Nat} (h : s.RangeReady vaddr size)
    (hx : InRange vaddr size x) (hopen : Opens (s.entry (pdePath x))) (hp : paddr % 0x1000 = 0)
    (hv : x % 0x1000 = 0) (hf : flag < 0x1000) :
    (¬ s.PtMissing x ∧ ∃ s', map4kPageP2V s paddr x flag = .ok (OK, s') ∧ s'.RangeReady vaddr size ∧
      s' = { s with frames := s'.frames, table := s'.table, pt := s'.pt } ∧
      s'.entry (ptePath x) = pteFor paddr flag ∧ IsLink (s'.entry (pdePath x)) ∧
      ∀ q, q ≠ ptePath x → Kept s s' q) ∨
    s.PtMissing x ∧ ∃ s', map4kPageP2V s paddr x flag = .ok (ENOMEM, s') ∧ s'.Sound ∧
      s' = { s with frames := s'.frames, table := s'.table } ∧ ∀ q, Kept s s' q := by
  have hreach := h.reachable hx
  have hnot : ¬ isLargePage (s.entry (pdePath x)) = true := by
    rcases hopen with hzero | hlink
    · rw [hzero]
      exact isLargePage_zero
    · exact hlink.not_largePage
  by_cases hdry : s.PtMissing x
  · refine .inr ⟨hdry, ?_⟩
    obtain ⟨s', hrun, hsound, hsame, hent⟩ := map4kPageP2V_dry hreach hdry.1 hdry.2 hp hv hf
    refine ⟨s', hrun, hsound, hsame, fun q => ?_⟩
    rcases hent q with he | ⟨hq, hzero, hlink⟩
    · exact .inl he
    · exact .inr ⟨by rcases hq with rfl | rfl <;> simp, hzero, hlink⟩
  · refine .inl ⟨hdry, ?_⟩
    have hfresh : s.entry (pdePath x) = 0 → s.pt ≠ [] := fun hz hn => hdry ⟨hz, hn⟩
    obtain ⟨s', hrun, hsound, hm⟩ := map4kPageP2V_mapped
      ⟨hreach, .inl hopen, fun hl => absurd hl hnot⟩ hfresh hp hv hf
    have hkept : ∀ q, q ≠ ptePath x → Kept s s' q := fun q hq =>
      hm.kept_of_ne h.zeroed hfresh hopen hq
    refine ⟨s', hrun, ?_, hm.same, hm.pte, hm.pde, hkept⟩
    refine h.kept hsound (fun q hq => hkept q fun he => ?_) (hm.suffice _ hx hnot h.tables)
      fun f hf => ⟨?_, hm.frames f hf⟩
    · rw [he, length_ptePath] at hq
      omega
    · rw [hm.pt_eq] at hf
      split at hf
      · exact List.mem_of_mem_tail hf
      · exact hf

/-- One round of the loop over 2 MiB pages. -/
theorem mapPageP2V_round {paddr flag : Nat} (h : s.RangeReady vaddr size)
    (hx : InRange vaddr size x) (hp : paddr % 0x200000 = 0) (hv : x % 0x200000 = 0)
    (hf : flag < 0x1000) (hlarge : Large flag) :
    ∃ s', mapPageP2V s paddr x flag = .ok (OK, s') ∧ s'.RangeReady vaddr size ∧
      s' = { s with frames := s'.frames, table := s'.table } ∧
      s'.entry (pdePath x) = paddr ||| flag ∧ ∀ q, ¬ pdePath x <:+ q → Kept s s' q := by
  have hleaf : pgLink 2 (paddr ||| flag) = none := by
    rw [or_flags (by omega) hf, pgLink, if_neg]
    rintro ⟨-, -, hsmall⟩
    omega
  obtain ⟨s', hrun, hsound, hm⟩ := mapPageP2V_mapped (h.reachable hx) hp hv hf hleaf
  have hkept : ∀ q, ¬ pdePath x <:+ q → Kept s s' q := fun q hq => hm.off.kept hq
  refine ⟨s', hrun, ?_, hm.same, hm.pde, hkept⟩
  refine h.kept hsound (fun q hq => hkept q (not_suffix_of_length (by simpa using hq)))
    (hm.suffice _ hx h.tables) fun f hf => ?_
  have hf' : f ∈ s.pt := by rwa [hm.same] at hf
  exact ⟨hf', hm.frames f hf'⟩

end Step

/-! ## The loops -/

/-- The frames `taken` are mapped one after the other from `v` on, and nothing else changed. -/
structure SmallMapped (s s' : PgTables) (v : Nat) (taken : List Nat) (flag : Nat) : Prop where
  same : s' = { s with frames := s'.frames, table := s'.table, pt := s'.pt, data := s'.data }
  run : ∀ j a, taken[j]? = some a →
    s'.entry (ptePath (v + 0x1000 * j)) = pteFor a flag ∧
      IsLink (s'.entry (pdePath (v + 0x1000 * j)))
  off : ∀ q, ¬ SmallPaths v taken.length q → Kept s s' q

/-- What a loop over 4 KiB pages did from `m` to `m'`. -/
structure SmallRun (flag stop vaddr size : Nat) (m m' : MapProgress) (taken : List Nat) : Prop where
  done : m'.ret = OK ∧ stop ≤ m'.len ∧ m.tables.data = taken ++ m'.tables.data ∧
      m'.tables.RangeReady vaddr size ∨
    m'.ret = ENOMEM
  taken_prefix : taken <+: m.tables.data
  len : m'.len = m.len + 0x1000 * taken.length
  short : taken ≠ [] → m'.len < stop + 0x1000
  mapvaddr : m'.mapvaddr % 2 ^ 48 = (vaddr + m'.len) % 2 ^ 48
  sound : m'.tables.Sound
  mapped : SmallMapped m.tables m'.tables (vaddr + m.len) taken flag

theorem SmallMapped.nil {s s' : PgTables} {v flag : Nat}
    (hsame : s' = { s with frames := s'.frames, table := s'.table, pt := s'.pt, data := s'.data })
    (hk : ∀ q, Kept s s' q) : SmallMapped s s' v [] flag :=
  ⟨hsame, fun j a h => by simp at h, fun q _ => hk q⟩

theorem SmallMapped.cons {s s₁ s' : PgTables} {v flag a : Nat} {taken : List Nat}
    (hv : v % 0x1000 = 0) (hbound : 0x1000 * taken.length + 0x1000 < 2 ^ 48)
    (hsame : s₁ = { s with frames := s₁.frames, table := s₁.table, pt := s₁.pt, data := s₁.data })
    (hpte : s₁.entry (ptePath v) = pteFor a flag) (hpde : IsLink (s₁.entry (pdePath v)))
    (hk : ∀ q, q ≠ ptePath v → Kept s s₁ q) (h : SmallMapped s₁ s' (v + 0x1000) taken flag) :
    SmallMapped s s' v (a :: taken) flag := by
  have hlater : ¬ SmallPaths (v + 0x1000) taken.length (ptePath v) := by
    rintro ⟨j, hj, heq⟩
    refine ptePath_ne (x := 0) (y := 0x1000 + 0x1000 * j) hv (by omega) (by omega) ?_
    rw [Nat.add_zero, heq, Nat.add_assoc]
  refine ⟨?_, ?_, ?_⟩
  · rw [h.same, hsame]
  · intro j b hb
    cases j with
    | zero =>
        rw [List.getElem?_cons_zero, Option.some.injEq] at hb
        subst hb
        rw [Nat.mul_zero, Nat.add_zero]
        refine ⟨((h.off _ hlater).eq_of_length (by simp)).trans hpte, ?_⟩
        rw [(h.off _ (not_smallPaths_of_length (by simp))).eq_of_ne_zero hpde.ne_zero]
        exact hpde
    | succ j =>
        rw [List.getElem?_cons_succ] at hb
        rw [show v + 0x1000 * (j + 1) = v + 0x1000 + 0x1000 * j by omega]
        exact h.run j b hb
  · intro q hq
    refine (hk q fun he => hq ⟨0, by simp, by simpa using he⟩).trans (h.off q ?_)
    rintro ⟨j, hj, heq⟩
    exact hq ⟨j + 1, by simpa using hj,
      by rw [heq, show v + 0x1000 * (j + 1) = v + 0x1000 + 0x1000 * j by omega]⟩

theorem ENOMEM_ne_OK : ENOMEM ≠ OK := by decide

/-- What a loop of `map_alloc_at` starts from. -/
structure LoopStart (vaddr size : Nat) (m : MapProgress) : Prop where
  ret : m.ret = OK
  ready : m.tables.RangeReady vaddr size
  mapvaddr : m.mapvaddr % 2 ^ 48 = (vaddr + m.len) % 2 ^ 48

theorem InRange.of_lt {vaddr size x y : Nat} (h : y < size)
    (hx : x % 2 ^ 48 = (vaddr + y) % 2 ^ 48) : InRange vaddr size x := ⟨y, h, hx⟩

theorem mapSmall_stop {low : Bool} {flag stop : Nat} {data : List Nat} {m : MapProgress}
    (h : ¬ m.len < stop) : mapSmall low flag stop data m = .ok m := by
  cases data with
  | nil => rw [mapSmall, if_neg h]
  | cons a data => rw [mapSmall, if_neg h]

/-- A turn of a loop over 4 KiB pages that maps the frame `a`. -/
structure SmallTurn (low : Bool) (flag stop vaddr reach a : Nat) (data : List Nat) (m : MapProgress)
    (s₁ : PgTables) : Prop where
  run : map4kPageP2V { m.tables with data := data } a m.mapvaddr flag = .ok (OK, s₁)
  next : mapSmall low flag stop (a :: data) m = mapSmall low flag stop data
    { m with len := m.len + 0x1000, mapvaddr := wadd m.mapvaddr 0x1000, tables := s₁ }
  start : LoopStart vaddr reach
    { m with len := m.len + 0x1000, mapvaddr := wadd m.mapvaddr 0x1000, tables := s₁ }
  same : s₁ = { m.tables with frames := s₁.frames, table := s₁.table, pt := s₁.pt, data := data }
  pte : s₁.entry (ptePath (vaddr + m.len)) = pteFor a flag
  pde : IsLink (s₁.entry (pdePath (vaddr + m.len)))
  kept : ∀ q, q ≠ ptePath (vaddr + m.len) → Kept m.tables s₁ q

/-- A turn that finds no frame for the page table it needs: `a` is mapped nowhere. -/
structure SmallLoss (low : Bool) (flag stop a : Nat) (data : List Nat) (m : MapProgress)
    (s₁ : PgTables) : Prop where
  run : map4kPageP2V { m.tables with data := data } a m.mapvaddr flag = .ok (ENOMEM, s₁)
  next : mapSmall low flag stop (a :: data) m = .ok { m with ret := ENOMEM, tables := s₁ }
  sound : s₁.Sound
  same : s₁ = { m.tables with frames := s₁.frames, table := s₁.table, data := data }
  kept : ∀ q, Kept m.tables s₁ q

/-- One turn of a loop over 4 KiB pages. -/
theorem mapSmall_turn {low : Bool} {flag stop vaddr reach a : Nat} {data : List Nat} {m : MapProgress}
    (hflag : flag < 0x1000) (hstop : stop < 2 ^ 48 - 0x1000) (h : LoopStart vaddr reach m)
    (hv : (vaddr + m.len) % 0x1000 = 0) (hgo : m.len < stop) (hreach : m.len < reach)
    (hopen : Opens (m.tables.entry (pdePath (vaddr + m.len)))) (ha : a ≠ 0 ∧ a % 0x1000 = 0)
    (hlow : low = true → a < 0x200000) :
    (¬ m.tables.PtMissing (vaddr + m.len) ∧ ∃ s₁, SmallTurn low flag stop vaddr reach a data m s₁) ∨
      m.tables.PtMissing (vaddr + m.len) ∧ ∃ s₁, SmallLoss low flag stop a data m s₁ := by
  have hmv := h.mapvaddr
  have hpte : ptePath m.mapvaddr = ptePath (vaddr + m.len) := ptePath_congr hmv
  have hpde : pdePath m.mapvaddr = pdePath (vaddr + m.len) := pdePath_congr hmv
  have hready : PgTables.RangeReady { m.tables with data := data } vaddr reach :=
    h.ready.supply rfl rfl rfl rfl
  have hmissing : PgTables.PtMissing { m.tables with data := data } m.mapvaddr ↔
      m.tables.PtMissing (vaddr + m.len) := by
    rw [PgTables.PtMissing, hpde]
    rfl
  have hturn : mapSmall low flag stop (a :: data) m = (do
      let r ← map4kPageP2V { m.tables with data := data } a m.mapvaddr flag
      if r.1 ≠ OK then .ok { m with ret := r.1, tables := r.2 }
      else
        mapSmall low flag stop data
          { m with len := wadd m.len 0x1000, mapvaddr := wadd m.mapvaddr 0x1000, tables := r.2 }) := by
    rw [mapSmall, if_pos hgo, assert_pos hlow, ok_bind]
    dsimp only
    rw [if_neg ha.1]
  rcases map4kPageP2V_round hready (.of_lt hreach hmv) (by rw [hpde]; exact hopen) ha.2 (by omega)
    hflag with ⟨hnot, s₁, hrun, hready₁, hsame, hent, hlink, hkept⟩ | ⟨hyes, s₁, hrun, hsound, hsame, hkept⟩
  · rw [hpte] at hent hkept
    rw [hpde] at hlink
    refine .inl ⟨fun hm => hnot (hmissing.2 hm), s₁, hrun, ?_,
      ⟨h.ret, hready₁, by dsimp only; unfold wadd; omega⟩, hsame, hent, hlink, hkept⟩
    have hadd : wadd m.len 0x1000 = m.len + 0x1000 := wadd_eq (by omega)
    rw [hturn, hrun, ok_bind, if_neg (fun h => h rfl), hadd]
  · refine .inr ⟨hmissing.1 hyes, s₁, hrun, ?_, hsound, hsame, hkept⟩
    rw [hturn, hrun, ok_bind, if_pos ENOMEM_ne_OK]

/-- The loop ends where it stands: at its end, or for want of a frame. -/
theorem SmallRun.still {flag stop vaddr reach ret : Nat} {m : MapProgress} {s₁ : PgTables}
    (hdone : ret = OK ∧ stop ≤ m.len ∧ m.tables.data = s₁.data ∧ s₁.RangeReady vaddr reach ∨ ret = ENOMEM)
    (hmv : m.mapvaddr % 2 ^ 48 = (vaddr + m.len) % 2 ^ 48) (hsound : s₁.Sound)
    (hsame : s₁ = { m.tables with
      frames := s₁.frames, table := s₁.table, pt := s₁.pt, data := s₁.data })
    (hkept : ∀ q, Kept m.tables s₁ q) :
    SmallRun flag stop vaddr reach m { m with ret := ret, tables := s₁ } [] where
  done := hdone
  taken_prefix := List.nil_prefix
  len := rfl
  short := fun h => absurd rfl h
  mapvaddr := hmv
  sound := hsound
  mapped := .nil hsame hkept

/-- What a turn and the loop behind it did together. -/
theorem SmallRun.cons {low : Bool} {flag stop vaddr reach a : Nat} {data taken : List Nat}
    {m m' : MapProgress} {s₁ : PgTables} (hstop : stop < 2 ^ 48 - 0x1000)
    (hv : (vaddr + m.len) % 0x1000 = 0) (hgo : m.len < stop) (hdata : m.tables.data = a :: data)
    (ht : SmallTurn low flag stop vaddr reach a data m s₁)
    (h : SmallRun flag stop vaddr reach
      { m with len := m.len + 0x1000, mapvaddr := wadd m.mapvaddr 0x1000, tables := s₁ } m' taken) :
    SmallRun flag stop vaddr reach m m' (a :: taken) := by
  have hdata₁ : s₁.data = data := by rw [ht.same]
  have hlen := h.len
  have hshort : m'.len < stop + 0x1000 := by
    by_cases hnil : taken = []
    · dsimp only at hlen
      rw [hnil, List.length_nil] at hlen
      omega
    · exact h.short hnil
  dsimp only at hlen
  refine ⟨?_, ?_, ?_, fun _ => hshort, h.mapvaddr, h.sound, ?_⟩
  · rcases h.done with ⟨hr, hs, hd, hrd⟩ | hr
    · refine .inl ⟨hr, hs, ?_, hrd⟩
      dsimp only at hd
      rw [hdata, List.cons_append, ← hd, hdata₁]
    · exact .inr hr
  · have hpre := h.taken_prefix
    dsimp only at hpre
    rw [hdata₁] at hpre
    rw [hdata]
    exact (List.prefix_cons_inj a).2 hpre
  · rw [hlen, List.length_cons]
    omega
  · refine .cons hv (by omega) (by rw [ht.same]) ht.pte ht.pde ht.kept ?_
    have hm := h.mapped
    dsimp only at hm
    rwa [← Nat.add_assoc] at hm

/-- The frames for the head lie low, as far as they are asked for: without a page table for the first
    page, only one is. -/
theorem mapSmall_run {low : Bool} {flag stop vaddr reach : Nat} (hflag : flag < 0x1000)
    (hv : vaddr % 0x1000 = 0) (hstop : stop < 2 ^ 48 - 0x1000)
    {data : List Nat} {m : MapProgress} (h : LoopStart vaddr reach m) (hdata : m.tables.data = data)
    (hlen : m.len % 0x1000 = 0)
    (hreach : ∀ j < data.length, m.len + 0x1000 * j < stop → m.len + 0x1000 * j < reach)
    (hopen : ∀ j < data.length, m.len + 0x1000 * j < stop →
      Opens (m.tables.entry (pdePath (vaddr + m.len + 0x1000 * j))))
    (hframe : ∀ a ∈ data, a ≠ 0 ∧ a % 0x1000 = 0)
    (hlow : low = true → ∀ j a, data[j]? = some a → m.len + 0x1000 * j < stop →
      j = 0 ∨ ¬ m.tables.PtMissing (vaddr + m.len) → a < 0x200000) :
    ∃ m' taken, mapSmall low flag stop data m = .ok m' ∧
      SmallRun flag stop vaddr reach m m' taken ∧
      (m'.ret = OK → m.len < stop → ¬ m.tables.PtMissing (vaddr + m.len)) := by
  have hstill := @SmallRun.still flag stop vaddr reach
  -- on the frames that are left; a turn takes one of them
  induction data generalizing m with
  | nil =>
      by_cases hgo : m.len < stop
      · refine ⟨_, [], by rw [mapSmall, if_pos hgo], ?_, fun hret => absurd hret ENOMEM_ne_OK⟩
        exact hstill (.inr rfl) h.mapvaddr h.ready.sound rfl fun _ => .refl
      · refine ⟨_, [], mapSmall_stop hgo, ?_, fun _ hgo' => absurd hgo' hgo⟩
        exact hstill (.inl ⟨h.ret, by omega, rfl, h.ready⟩) h.mapvaddr h.ready.sound rfl fun _ => .refl
  | cons a data ih =>
      by_cases hgo : m.len < stop
      · have hopen₀ := hopen 0 (by simp) (by omega)
        rcases @mapSmall_turn low flag stop vaddr reach a data m hflag hstop h (by omega) hgo
          (hreach 0 (by simp) (by omega)) hopen₀ (hframe a List.mem_cons_self)
          (fun hl => hlow hl 0 a rfl (by omega) (.inl rfl)) with ⟨hnot, s₁, ht⟩ | ⟨-, s₁, hloss⟩
        · obtain ⟨m', taken, hloop, hm', -⟩ := ih ht.start (by rw [ht.same]) (by dsimp only; omega)
            (by
              intro j hj hgo'
              have := hreach (j + 1) (by simpa using hj) (by dsimp only at hgo'; omega)
              dsimp only
              omega)
            (by
              intro j hj hgo'
              dsimp only at hgo' ⊢
              rw [show vaddr + (m.len + 0x1000) + 0x1000 * j =
                vaddr + m.len + 0x1000 * (j + 1) by omega]
              -- page directory entries keep what they lead to: the turn wrote a page table entry
              refine (ht.kept _ ?_).opens (hopen (j + 1) (by simpa using hj) (by omega))
              intro he
              simpa using congrArg List.length he)
            (fun b hb => hframe b (List.mem_cons_of_mem a hb))
            (fun hl j b hb hgo' _ => hlow hl (j + 1) b (by rwa [List.getElem?_cons_succ])
              (by dsimp only at hgo'; omega) (.inr hnot))
          exact ⟨m', a :: taken, ht.next.trans hloop, .cons hstop (by omega) hgo hdata ht hm',
            fun _ _ => hnot⟩
        · refine ⟨_, [], hloss.next, ?_, fun hret => absurd hret ENOMEM_ne_OK⟩
          exact hstill (.inr rfl) h.mapvaddr hloss.sound (by rw [hloss.same]) hloss.kept
      · refine ⟨_, [], mapSmall_stop hgo, ?_, fun _ hgo' => absurd hgo' hgo⟩
        exact hstill (.inl ⟨h.ret, by omega, rfl, h.ready⟩) h.mapvaddr h.ready.sound rfl fun _ => .refl

/-- The frames `taken` are mapped as 2 MiB pages one after the other from `v` on, and nothing else
    changed. -/
structure LargeMapped (s s' : PgTables) (v : Nat) (taken : List Nat) (flag : Nat) : Prop where
  same : s' = { s with frames := s'.frames, table := s'.table, large := s'.large }
  run : ∀ i a, taken[i]? = some a → s'.entry (pdePath (v + 0x200000 * i)) = a ||| flag
  off : ∀ q, ¬ LargePaths v taken.length q → Kept s s' q

/-- What the loop over 2 MiB pages did from `m` to `m'`. -/
structure LargeRun (flag vaddr size reach : Nat) (m m' : MapProgress) (taken : List Nat) : Prop where
  done : m'.ret = OK ∧ size < m'.len + 0x200000 ∧ m'.tables.RangeReady vaddr reach ∨
    m'.ret = ENOMEM
  taken_eq : m.tables.large = taken ++ m'.tables.large
  len : m'.len = m.len + 0x200000 * taken.length
  short : taken ≠ [] → m'.len ≤ size
  mapvaddr : m'.mapvaddr % 2 ^ 48 = (vaddr + m'.len) % 2 ^ 48
  sound : m'.tables.Sound
  mapped : LargeMapped m.tables m'.tables (vaddr + m.len) taken flag

theorem LargeMapped.nil {s : PgTables} {v flag : Nat} : LargeMapped s s v [] flag :=
  ⟨rfl, fun j a h => by simp at h, fun _ _ => .refl⟩

theorem LargeMapped.cons {s s₁ s' : PgTables} {v flag a : Nat} {taken : List Nat}
    (hv : v % 0x200000 = 0) (hbound : 0x200000 * taken.length + 0x200000 < 2 ^ 48)
    (hne : a ||| flag ≠ 0)
    (hsame : s₁ = { s with frames := s₁.frames, table := s₁.table, large := s₁.large })
    (hpde : s₁.entry (pdePath v) = a ||| flag) (hk : ∀ q, ¬ pdePath v <:+ q → Kept s s₁ q)
    (h : LargeMapped s₁ s' (v + 0x200000) taken flag) :
    LargeMapped s s' v (a :: taken) flag := by
  have hlater : ¬ LargePaths (v + 0x200000) taken.length (pdePath v) := by
    rintro ⟨i, hi, hsuf⟩
    refine pdePath_ne (x := 0x200000 + 0x200000 * i) hv (by omega) (by omega) ?_
    rw [← Nat.add_assoc]
    exact (hsuf.eq_of_length (by simp)).symm
  refine ⟨?_, ?_, ?_⟩
  · rw [h.same, hsame]
  · intro i b hb
    cases i with
    | zero =>
        rw [List.getElem?_cons_zero, Option.some.injEq] at hb
        subst hb
        rw [Nat.mul_zero, Nat.add_zero, (h.off _ hlater).eq_of_ne_zero (hpde ▸ hne), hpde]
    | succ i =>
        rw [List.getElem?_cons_succ] at hb
        rw [show v + 0x200000 * (i + 1) = v + 0x200000 + 0x200000 * i by omega]
        exact h.run i b hb
  · intro q hq
    refine (hk q fun he => hq ⟨0, by simp, by simpa using he⟩).trans (h.off q ?_)
    rintro ⟨i, hi, hsuf⟩
    refine hq ⟨i + 1, by simpa using hi, ?_⟩
    rwa [show v + 0x200000 * (i + 1) = v + 0x200000 + 0x200000 * i by omega]

/-- One turn of the loop over 2 MiB pages. -/
theorem mapLarge_turn {flag mapsize vaddr size reach a : Nat} {large : List Nat} {m : MapProgress}
    (hflag : flag < 0x1000) (hlarge : Large flag) (hmap : mapsize + 0x200000 = size) (hsize : size < 2 ^ 64)
    (h : LoopStart vaddr reach m) (hv : (vaddr + m.len) % 0x200000 = 0) (hgo : m.len ≤ mapsize)
    (hreach : m.len < reach) (ha : a ≠ 0 ∧ a % 0x200000 = 0) :
    ∃ s₁, mapPageP2V { m.tables with large := large } a m.mapvaddr flag = .ok (OK, s₁) ∧
      mapLarge flag mapsize (a :: large) m = mapLarge flag mapsize large
        { m with len := m.len + 0x200000, mapvaddr := wadd m.mapvaddr 0x200000, tables := s₁ } ∧
      LoopStart vaddr reach
        { m with len := m.len + 0x200000, mapvaddr := wadd m.mapvaddr 0x200000, tables := s₁ } ∧
      s₁ = { m.tables with frames := s₁.frames, table := s₁.table, large := large } ∧
      s₁.entry (pdePath (vaddr + m.len)) = a ||| flag ∧
      ∀ q, ¬ pdePath (vaddr + m.len) <:+ q → Kept m.tables s₁ q := by
  have hmv := h.mapvaddr
  have hpde : pdePath m.mapvaddr = pdePath (vaddr + m.len) := pdePath_congr hmv
  have hready : PgTables.RangeReady { m.tables with large := large } vaddr reach :=
    h.ready.supply rfl rfl rfl rfl
  obtain ⟨s₁, hrun, hready₁, hsame, hent, hkept⟩ := mapPageP2V_round hready (.of_lt hreach hmv)
    ha.2 (by omega) hflag hlarge
  rw [hpde] at hent hkept
  have hadd : wadd m.len 0x200000 = m.len + 0x200000 := wadd_eq (by omega)
  refine ⟨s₁, hrun, ?_, ⟨h.ret, hready₁, by dsimp only; unfold wadd; omega⟩, hsame, hent, hkept⟩
  rw [mapLarge, if_pos hgo]
  dsimp only
  rw [if_neg ha.1, hrun, ok_bind]
  dsimp only
  rw [if_neg (fun h => h rfl), hadd]

theorem mapLarge_run {flag mapsize vaddr size reach : Nat} (hflag : flag < 0x1000)
    (hmap : mapsize + 0x200000 = size) (hsize : size < 2 ^ 64) {large : List Nat} {m : MapProgress}
    (hlarge : large ≠ [] → Large flag) (h : LoopStart vaddr reach m) (hlist : m.tables.large = large)
    (hv : (vaddr + m.len) % 0x200000 = 0) (hcount : 0x200000 * large.length < 2 ^ 48)
    (hreach : ∀ i < large.length, m.len + 0x200000 * i ≤ mapsize → m.len + 0x200000 * i < reach)
    (hframe : ∀ a ∈ large, a ≠ 0 ∧ a % 0x200000 = 0) :
    ∃ m' taken, mapLarge flag mapsize large m = .ok m' ∧
      LargeRun flag vaddr size reach m m' taken := by
  -- on the 2 MiB frames that are left; a turn takes one of them
  induction large generalizing m with
  | nil =>
      unfold mapLarge
      by_cases hgo : m.len ≤ mapsize
      · rw [if_pos hgo]
        exact ⟨_, [], rfl, .inr rfl, rfl, rfl, fun h => absurd rfl h, h.mapvaddr, h.ready.sound,
          .nil⟩
      · rw [if_neg hgo]
        exact ⟨_, [], rfl, .inl ⟨h.ret, by omega, h.ready⟩, rfl, rfl, fun h => absurd rfl h,
          h.mapvaddr, h.ready.sound, .nil⟩
  | cons a large ih =>
      by_cases hgo : m.len ≤ mapsize
      · have ha := hframe a List.mem_cons_self
        have hl := hlarge (List.cons_ne_nil a large)
        obtain ⟨s₁, -, hturn, hstart, hsame, hent, hkept⟩ := @mapLarge_turn flag mapsize vaddr size reach
          a large m hflag hl hmap hsize h hv hgo (hreach 0 (by simp) hgo) ha
        have hlist₁ : s₁.large = large := by rw [hsame]
        rw [List.length_cons] at hcount
        obtain ⟨m', taken, hloop, hm'⟩ := ih (fun _ => hl) hstart hlist₁ (by dsimp only; omega) (by omega)
          (by
            intro i hi hgo'
            have := hreach (i + 1) (by simpa using hi) (by dsimp only at hgo'; omega)
            dsimp only
            omega)
          fun b hb => hframe b (List.mem_cons_of_mem a hb)
        rw [hturn, hloop]
        have hmlen := hm'.len
        have htaken := hm'.taken_eq
        dsimp only at hmlen htaken
        rw [hlist₁] at htaken
        refine ⟨m', a :: taken, rfl, hm'.done, ?_, ?_, ?_, hm'.mapvaddr, hm'.sound, ?_⟩
        · rw [hlist, List.cons_append, htaken]
        · rw [hmlen, List.length_cons]
          omega
        · intro _
          by_cases ht : taken = []
          · rw [hmlen, ht, List.length_nil]
            omega
          · exact hm'.short ht
        · refine .cons hv ?_ ?_ (by rw [hsame]) hent hkept ?_
          · rw [htaken, List.length_append] at hcount
            omega
          · rw [or_flags (by omega) hflag]
            omega
          · have := hm'.mapped
            dsimp only at this
            rwa [← Nat.add_assoc] at this
      · rw [mapLarge, if_neg hgo]
        exact ⟨_, [], rfl, .inl ⟨h.ret, by omega, h.ready⟩, rfl, rfl, fun h => absurd rfl h,
          h.mapvaddr, h.ready.sound, .nil⟩

/-! ## The stages -/

/-- The bytes before the first 2 MiB boundary. -/
def headSize (vaddr size : Nat) : Nat :=
  if vaddr % 0x200000 = 0 then 0 else min size (0x200000 - vaddr % 0x200000)

/-- Where the pages after the 2 MiB pages begin. -/
def tailStart (vaddr size : Nat) : Nat :=
  headSize vaddr size + (size - headSize vaddr size) / 0x200000 * 0x200000

/-- There is a frame for the first page before the boundary, and no page table to put it in. -/
def PgTables.HeadShort (s : PgTables) (vaddr size : Nat) : Prop :=
  0 < headSize vaddr size ∧ s.data ≠ [] ∧ s.entry (pdePath vaddr) = 0 ∧ s.pt = []

/-- The pages before the boundary can all be mapped. -/
def PgTables.HeadFits (s : PgTables) (vaddr size : Nat) : Prop :=
  headSize vaddr size ≤ 0x1000 * s.data.length ∧ ¬ s.HeadShort vaddr size

/-- A call of `map_alloc_at` that runs into none of its own assertions: the flags fit, the frames for
    the head lie low, the head does not end inside a page, and 2 MiB pages are asked for with the
    page-size flag. -/
structure AllocArgs (s : PgTables) (vaddr size flag : Nat) : Prop where
  vaddr_aligned : vaddr % 0x1000 = 0
  size_lt : size < 2 ^ 64
  flag_lt : flag < 0x1000
  low : ∀ j a, s.data[j]? = some a → 0x1000 * j < headSize vaddr size → a < 0x200000
  head : headSize vaddr size % 0x1000 = 0
  paged : 0x200000 ≤ size - headSize vaddr size → Large flag

/-- The same, asked only of what the call comes to. -/
structure AllocCall (s : PgTables) (vaddr size flag : Nat) : Prop where
  vaddr_aligned : vaddr % 0x1000 = 0
  size_lt : size < 2 ^ 64
  flag_lt : flag < 0x1000
  low : ∀ j a, s.data[j]? = some a → 0x1000 * j < headSize vaddr size →
    j = 0 ∨ ¬ s.HeadShort vaddr size → a < 0x200000
  head : headSize vaddr size % 0x1000 = 0
  paged : s.HeadFits vaddr size → 0x200000 ≤ size - headSize vaddr size → s.large ≠ [] → Large flag

theorem AllocArgs.call {s : PgTables} {vaddr size flag : Nat} (h : AllocArgs s vaddr size flag) :
    AllocCall s vaddr size flag :=
  ⟨h.vaddr_aligned, h.size_lt, h.flag_lt, fun j a ha hj _ => h.low j a ha hj, h.head,
    fun _ hgo _ => h.paged hgo⟩

/-- The range and the frames for it. -/
structure PgTables.AllocReady (s : PgTables) (vaddr size : Nat) : Prop where
  range : s.RangeReady vaddr size
  pde : ∀ x, InRange vaddr size x → Opens (s.entry (pdePath x))
  data : ∀ a ∈ s.data, a ≠ 0 ∧ a % 0x1000 = 0
  large : ∀ a ∈ s.large, a ≠ 0 ∧ a % 0x200000 = 0
  count : 0x200000 * s.large.length < 2 ^ 47

/-- The tables are in order only up to `reach`: no page behind it is mapped, for the frames run out
    before. -/
structure PgTables.AllocReach (s : PgTables) (vaddr size reach : Nat) : Prop where
  range : s.RangeReady vaddr reach
  pde : ∀ y < size, y < reach → y % 0x1000 = 0 → y < headSize vaddr size ∨ tailStart vaddr size ≤ y →
    Opens (s.entry (pdePath (vaddr + y)))
  data : ∀ a ∈ s.data, a ≠ 0 ∧ a % 0x1000 = 0
  large : ∀ a ∈ s.large, a ≠ 0 ∧ a % 0x200000 = 0
  count : 0x200000 * s.large.length < 2 ^ 47
  head_reach : ∀ j < s.data.length, 0x1000 * j < headSize vaddr size → 0x1000 * j < reach
  large_reach : s.HeadFits vaddr size → ∀ i < s.large.length,
    headSize vaddr size + 0x200000 * (i + 1) ≤ size → headSize vaddr size + 0x200000 * i < reach
  tail_reach : s.HeadFits vaddr size → (size - headSize vaddr size) / 0x200000 ≤ s.large.length →
    ∀ j, headSize vaddr size / 0x1000 + j < s.data.length → tailStart vaddr size + 0x1000 * j < size →
    tailStart vaddr size + 0x1000 * j < reach

theorem headSize_le (vaddr size : Nat) : headSize vaddr size ≤ size ∧ headSize vaddr size ≤ 0x200000 := by
  unfold headSize
  split <;> omega

theorem PgTables.AllocReady.reach {s : PgTables} {vaddr size : Nat} (h : s.AllocReady vaddr size) :
    s.AllocReach vaddr size size where
  range := h.range
  pde := fun y hy _ _ _ => h.pde _ ⟨y, hy, rfl⟩
  data := h.data
  large := h.large
  count := h.count
  head_reach := fun j _ hj => lt_of_lt_of_le hj (headSize_le vaddr size).1
  large_reach := fun _ i _ hi => by omega
  tail_reach := fun _ _ j _ hj => hj

section Stages

variable {s : PgTables} {vaddr size flag : Nat}

/-- The variables of `map_alloc_at` at the start. -/
def MapProgress.start (s : PgTables) (vaddr : Nat) : MapProgress :=
  { ret := OK, len := 0, mapvaddr := vaddr, tables := s }

theorem MapProgress.start_loop {reach : Nat} (h : s.AllocReach vaddr size reach) :
    LoopStart vaddr reach (.start s vaddr) := ⟨rfl, h.range, rfl⟩

theorem mapHead_eq (hv : vaddr % 0x200000 ≠ 0) {m : MapProgress} :
    mapHead flag vaddr size m = mapSmall true flag (headSize vaddr size) m.tables.data m := by
  have hstop : (if size > 0x200000 - vaddr % 0x200000 then 0x200000 - vaddr % 0x200000 else size) =
      headSize vaddr size := by
    rw [headSize, if_neg hv]
    split <;> omega
  rw [mapHead, if_pos hv]
  dsimp only
  rw [hstop]

/-- How the call ends, from the end of its loops. -/
theorem mapAllocAt_of_loops {m₁ m₂ m : MapProgress}
    (h₁ : mapHead flag vaddr size (.start s vaddr) = .ok m₁) (h₂ : mapMiddle flag size m₁ = .ok m₂)
    (h₃ : mapTail flag size m₂ = .ok m) :
    mapAllocAt s vaddr size flag =
      if m.ret = OK then .ok (OK, m.tables)
      else if 0 < m.len then do
        let s ← unmapFreeAt m.tables vaddr m.len
        .ok (m.ret, s)
      else .ok (m.ret, m.tables) := by
  unfold mapAllocAt
  rw [← MapProgress.start, h₁, ok_bind, h₂, ok_bind, h₃, ok_bind]

theorem mapHead_run {reach : Nat} (hargs : AllocCall s vaddr size flag)
    (h : s.AllocReach vaddr size reach) :
    ∃ m hs, mapHead flag vaddr size (.start s vaddr) = .ok m ∧
      SmallRun flag (headSize vaddr size) vaddr reach (.start s vaddr) m hs ∧
      (m.ret = OK → ¬ s.HeadShort vaddr size) := by
  by_cases hv : vaddr % 0x200000 = 0
  · rw [mapHead, if_neg (fun h => h hv)]
    have hzero : headSize vaddr size = 0 := if_pos hv
    refine ⟨_, [], rfl, ⟨.inl ⟨rfl, by rw [hzero]; exact Nat.zero_le _, rfl, h.range⟩,
      List.nil_prefix, rfl, fun h => absurd rfl h, rfl, h.range.sound, .nil rfl fun _ => .refl⟩,
      fun _ hshort => ?_⟩
    exact absurd hshort.1 (by omega)
  · rw [mapHead_eq hv]
    have hle := headSize_le vaddr size
    have hstart : (MapProgress.start s vaddr).len = 0 := rfl
    obtain ⟨m, hs, hrun, hm, hdry⟩ := @mapSmall_run true flag (headSize vaddr size) vaddr reach
      hargs.flag_lt hargs.vaddr_aligned (by omega : headSize vaddr size < 2 ^ 48 - 0x1000) _ _
      (MapProgress.start_loop h) rfl rfl
      (fun j hj hgo => by
        have := h.head_reach j hj (by omega)
        omega)
      (fun j hj hgo => by
        rw [Nat.add_assoc]
        have := h.head_reach j hj (by omega)
        exact h.pde _ (by omega) (by omega) (by omega) (.inl hgo))
      h.data
      (fun _ j a ha hgo hj => hargs.low j a ha (by omega)
        (hj.imp_right fun hno hshort => hno ⟨hshort.2.2.1, hshort.2.2.2⟩))
    exact ⟨m, hs, hrun, hm, fun hret hshort => hdry hret hshort.1 ⟨hshort.2.2.1, hshort.2.2.2⟩⟩

variable {reach : Nat} {m₁ m₂ : MapProgress} {hs ls : List Nat}

theorem SmallRun.data_eq {stop : Nat} {m m' : MapProgress} {taken : List Nat}
    (h : SmallRun flag stop vaddr reach m m' taken) (hret : m'.ret = OK) :
    m.tables.data = taken ++ m'.tables.data := by
  rcases h.done with ⟨-, -, hd, -⟩ | hmem
  · exact hd
  · exact absurd (hmem.symm.trans hret) ENOMEM_ne_OK

theorem middle_large (hhead : SmallRun flag (headSize vaddr size) vaddr reach (.start s vaddr) m₁ hs)
    (hmid : LargeRun flag vaddr size reach m₁ m₂ ls) : s.large = ls ++ m₂.tables.large := by
  rw [← hmid.taken_eq, hhead.mapped.same]
  rfl

theorem middle_large_le
    (hhead : SmallRun flag (headSize vaddr size) vaddr reach (.start s vaddr) m₁ hs)
    (hmid : LargeRun flag vaddr size reach m₁ m₂ ls) : ls.length ≤ s.large.length := by
  rw [middle_large hhead hmid, List.length_append]
  exact Nat.le_add_right _ _

theorem SmallRun.len_le {stop : Nat} {m m' : MapProgress} {taken : List Nat}
    (h : SmallRun flag stop vaddr reach m m' taken) (hstop : stop % 0x1000 = 0)
    (hm : m.len % 0x1000 = 0) (hle : m.len ≤ stop) : m'.len ≤ stop := by
  have hlen := h.len
  by_cases ht : taken = []
  · rw [hlen, ht, List.length_nil]
    omega
  · have := h.short ht
    omega

/-- The loop ends exactly at the boundary. -/
theorem SmallRun.head_len (h : SmallRun flag (headSize vaddr size) vaddr reach (.start s vaddr) m₁ hs)
    (hargs : AllocCall s vaddr size flag) :
    m₁.len ≤ headSize vaddr size ∧ (m₁.ret = OK → m₁.len = headSize vaddr size) := by
  have hle := h.len_le hargs.head rfl (Nat.zero_le _)
  refine ⟨hle, fun hret => ?_⟩
  rcases h.done with ⟨-, hstop, -⟩ | hmem
  · omega
  · rw [hret] at hmem
    exact absurd hmem (by decide)

/-- 2 MiB pages after a head start at a boundary. -/
theorem headSize_boundary (hargs : AllocCall s vaddr size flag)
    (hmore : headSize vaddr size < size) : (vaddr + headSize vaddr size) % 0x200000 = 0 := by
  have := hargs.vaddr_aligned
  by_cases hv : vaddr % 0x200000 = 0
  · rw [headSize, if_pos hv]
    exact hv
  · rw [headSize, if_neg hv] at hmore ⊢
    omega

/-- Where the loop over 2 MiB pages begins: after the head the address is on a boundary. -/
theorem SmallRun.middle (h : SmallRun flag (headSize vaddr size) vaddr reach (.start s vaddr) m₁ hs)
    (hargs : AllocCall s vaddr size flag) (hgo : m₁.ret = OK ∧ 0x200000 ≤ wsub size m₁.len) :
    m₁.len = headSize vaddr size ∧ 0x200000 ≤ size - headSize vaddr size ∧
      m₁.tables.RangeReady vaddr reach ∧ (vaddr + m₁.len) % 0x200000 = 0 := by
  obtain ⟨hret, hmore⟩ := hgo
  have hl := (h.head_len hargs).2 hret
  rw [hl, wsub_eq (headSize_le vaddr size).1 hargs.size_lt] at hmore
  refine ⟨hl, hmore, ?_, ?_⟩
  · rcases h.done with ⟨-, -, -, hready⟩ | hmem
    · exact hready
    · exact absurd (hmem.symm.trans hret) ENOMEM_ne_OK
  · rw [hl]
    exact headSize_boundary hargs (by omega)

theorem SmallRun.headFits (h : SmallRun flag (headSize vaddr size) vaddr reach (.start s vaddr) m₁ hs)
    (hargs : AllocCall s vaddr size flag) (hret : m₁.ret = OK) (hshort : ¬ s.HeadShort vaddr size) :
    s.HeadFits vaddr size := by
  have hl := (h.head_len hargs).2 hret
  have hlen := h.len
  have hstart : (MapProgress.start s vaddr).len = 0 := rfl
  have hle : hs.length ≤ s.data.length := h.taken_prefix.length_le
  exact ⟨by omega, hshort⟩

theorem mapMiddle_run (hargs : AllocCall s vaddr size flag) (h : s.AllocReach vaddr size reach)
    (hhead : SmallRun flag (headSize vaddr size) vaddr reach (.start s vaddr) m₁ hs)
    (hshort : m₁.ret = OK → ¬ s.HeadShort vaddr size) :
    ∃ m ls, mapMiddle flag size m₁ = .ok m ∧ LargeRun flag vaddr size reach m₁ m ls ∧
      (ls ≠ [] → m₁.ret = OK ∧ (vaddr + m₁.len) % 0x200000 = 0 ∧ Large flag) ∧
      (m.ret = OK → m₁.ret = OK) := by
  have hlen := hhead.head_len hargs
  have hle := headSize_le vaddr size
  have hsize := hargs.size_lt
  have hlarge₁ : m₁.tables.large = s.large := by rw [hhead.mapped.same]; rfl
  unfold mapMiddle
  by_cases hgo : m₁.ret = OK ∧ 0x200000 ≤ wsub size m₁.len
  · obtain ⟨hl, hgo', hready, halign⟩ := hhead.middle hargs hgo
    have hfits := hhead.headFits hargs hgo.1 (hshort hgo.1)
    have hpaged : m₁.tables.large ≠ [] → Large flag := by
      rw [hlarge₁]
      exact hargs.paged hfits hgo'
    have hmap : wsub size 0x200000 = size - 0x200000 := wsub_eq (by omega) hsize
    rw [if_pos hgo, hmap]
    have hend : size - 0x200000 + 0x200000 = size := by omega
    have hreach : ∀ i < m₁.tables.large.length, m₁.len + 0x200000 * i ≤ size - 0x200000 →
        m₁.len + 0x200000 * i < reach := by
      intro i hi hfit
      rw [hlarge₁] at hi
      rw [hl] at hfit ⊢
      refine h.large_reach hfits i hi ?_
      rw [Nat.mul_succ, ← Nat.add_assoc]
      exact Nat.add_le_of_le_sub (le_trans hgo' (Nat.sub_le ..)) hfit
    obtain ⟨m, ls, hrun, hm⟩ := mapLarge_run hargs.flag_lt hend hsize hpaged
      ⟨hgo.1, hready, hhead.mapvaddr⟩ rfl halign
      (by rw [hlarge₁]; have := h.count; omega) hreach (by rw [hlarge₁]; exact h.large)
    refine ⟨m, ls, hrun, hm, fun hne => ⟨hgo.1, halign, hpaged fun hnil => hne ?_⟩, fun _ => hgo.1⟩
    have htaken := hm.taken_eq
    rw [hnil] at htaken
    exact (List.append_eq_nil_iff.1 htaken.symm).1
  · rw [if_neg hgo]
    refine ⟨m₁, [], rfl, ⟨?_, rfl, rfl, fun h => absurd rfl h, hhead.mapvaddr, hhead.sound, .nil⟩,
      fun h => absurd rfl h, fun h => h⟩
    rcases hhead.done with ⟨hr, -, -, hready⟩ | hmem
    · refine .inl ⟨hr, ?_, hready⟩
      have hl := hlen.2 hr
      have hsub : wsub size m₁.len = size - headSize vaddr size := by
        rw [hl]
        exact wsub_eq hle.1 hsize
      have : ¬ 0x200000 ≤ wsub size m₁.len := fun h' => hgo ⟨hr, h'⟩
      omega
    · exact .inr hmem

/-- The tail begins where the 2 MiB pages end. -/
theorem middle_len (hargs : AllocCall s vaddr size flag)
    (hhead : SmallRun flag (headSize vaddr size) vaddr reach (.start s vaddr) m₁ hs)
    (hmid : LargeRun flag vaddr size reach m₁ m₂ ls) (hret₁ : m₁.ret = OK) (hret₂ : m₂.ret = OK) :
    m₂.len = tailStart vaddr size ∧ (size - headSize vaddr size) / 0x200000 = ls.length := by
  have hl := (hhead.head_len hargs).2 hret₁
  have hlen := hmid.len
  have hle := headSize_le vaddr size
  have hdone : size < m₂.len + 0x200000 := by
    rcases hmid.done with ⟨-, hd, -⟩ | hmem
    · exact hd
    · exact absurd (hmem.symm.trans hret₂) ENOMEM_ne_OK
  have hshort : m₂.len ≤ size := by
    by_cases hnil : ls = []
    · rw [hnil, List.length_nil] at hlen
      omega
    · exact hmid.short hnil
  have hcount : (size - headSize vaddr size) / 0x200000 = ls.length := by omega
  refine ⟨?_, hcount⟩
  rw [tailStart, hcount]
  omega

/-- What lies behind `l` 2 MiB pages is in none of their regions. -/
theorem not_largePaths_later {w l x : Nat} (hw : w % 0x200000 = 0) (hx : 0x200000 * l ≤ x)
    (hlt : x < 2 ^ 48) :
    ¬ LargePaths w l (pdePath (w + x)) ∧ ¬ LargePaths w l (ptePath (w + x)) := by
  have hne : ∀ i < l, pdePath (w + 0x200000 * i) ≠ pdePath (w + x) := by
    intro i hi
    rw [show w + x = w + 0x200000 * i + (x - 0x200000 * i) by omega]
    exact pdePath_ne (by omega) (by omega) (by omega)
  refine ⟨?_, ?_⟩
  · rintro ⟨i, hi, hsuf⟩
    exact hne i hi (hsuf.eq_of_length (by simp))
  · rintro ⟨i, hi, hsuf⟩
    rw [pdePath_suffix_ptePath, ← pdePath_eq_iff] at hsuf
    exact hne i hi hsuf

theorem not_largePaths_zero {w : Nat} {q : List (Fin 512)} : ¬ LargePaths w 0 q := by
  rintro ⟨i, hi, -⟩
  exact absurd hi (Nat.not_lt_zero i)

theorem LargeRun.count_lt (h : s.AllocReach vaddr size reach)
    (hhead : SmallRun flag (headSize vaddr size) vaddr reach (.start s vaddr) m₁ hs)
    (hmid : LargeRun flag vaddr size reach m₁ m₂ ls) : 0x200000 * ls.length < 2 ^ 47 := by
  have hcount := h.count
  have hle := middle_large_le hhead hmid
  omega

theorem mapTail_run (hargs : AllocCall s vaddr size flag) (h : s.AllocReach vaddr size reach)
    (hhead : SmallRun flag (headSize vaddr size) vaddr reach (.start s vaddr) m₁ hs)
    (hshort : m₁.ret = OK → ¬ s.HeadShort vaddr size) (hmid : LargeRun flag vaddr size reach m₁ m₂ ls)
    (hls : ls ≠ [] → m₁.ret = OK ∧ (vaddr + m₁.len) % 0x200000 = 0 ∧ Large flag)
    (hret : m₂.ret = OK → m₁.ret = OK) :
    ∃ m ds, mapTail flag size m₂ = .ok m ∧ SmallRun flag size vaddr reach m₂ m ds ∧
      (ds ≠ [] → m₂.ret = OK) ∧ (m.ret = OK → m₂.ret = OK) := by
  have hlen := hhead.head_len hargs
  have hle := headSize_le vaddr size
  have hcount := hmid.count_lt h hhead
  have hlen₁ := hhead.len
  have hlen₂ := hmid.len
  unfold mapTail
  by_cases hgo : m₂.ret = OK
  · rw [if_pos hgo]
    have hdone : size < m₂.len + 0x200000 ∧ m₂.tables.RangeReady vaddr reach := by
      rcases hmid.done with ⟨-, hd⟩ | hmem
      · exact hd
      · exact absurd (hmem.symm.trans hgo) ENOMEM_ne_OK
    have hdata : s.data = hs ++ m₁.tables.data := hhead.data_eq (hret hgo)
    have hdata₂ : m₂.tables.data = m₁.tables.data := by rw [hmid.mapped.same]
    have hstart0 : (MapProgress.start s vaddr).len = 0 := rfl
    obtain ⟨htail, hcnt⟩ := middle_len hargs hhead hmid (hret hgo) hgo
    have hfits := hhead.headFits hargs (hret hgo) (hshort (hret hgo))
    have hl := hlen.2 (hret hgo)
    have hlarge := middle_large_le hhead hmid
    -- the pages of the tail that there are frames for
    have hreach : ∀ j < m₂.tables.data.length, m₂.len + 0x1000 * j < size →
        m₂.len + 0x1000 * j < reach := by
      intro j hj hgo'
      rw [htail] at hgo' ⊢
      refine h.tail_reach hfits (by omega) j ?_ hgo'
      rw [hdata, ← hdata₂, List.length_append]
      omega
    obtain ⟨m, ds, hrun, hm, -⟩ := @mapSmall_run false flag size vaddr reach hargs.flag_lt
      hargs.vaddr_aligned (by omega) _ m₂ ⟨hgo, hdone.2, hmid.mapvaddr⟩ rfl (by omega) hreach
      (by
        intro j hj hgo'
        -- the page directory entries behind the 2 MiB pages are as they were before the call
        have hkept₁ : Kept s m₁.tables (pdePath (vaddr + m₂.len + 0x1000 * j)) :=
          hhead.mapped.off _ (not_smallPaths_of_length (by simp))
        have hkept₂ : Kept m₁.tables m₂.tables (pdePath (vaddr + m₂.len + 0x1000 * j)) := by
          refine hmid.mapped.off _ ?_
          by_cases hnil : ls = []
          · rw [hnil]
            exact not_largePaths_zero
          · rw [hlen₂, ← Nat.add_assoc vaddr, Nat.add_assoc (vaddr + m₁.len)]
            exact (not_largePaths_later (hls hnil).2.1 (by omega) (by omega)).1
        refine (hkept₁.trans hkept₂).opens ?_
        rw [Nat.add_assoc]
        exact h.pde _ hgo' (hreach j hj hgo') (by omega) (.inr (by omega)))
      (by
        intro a ha
        refine h.data a ?_
        rw [hdata, ← hdata₂]
        exact List.mem_append_right _ ha)
      (fun hl => absurd hl (by decide))
    exact ⟨m, ds, hrun, hm, fun _ => hgo, fun _ => hgo⟩
  · rw [if_neg hgo]
    refine ⟨m₂, [], rfl, ⟨?_, List.nil_prefix, rfl, fun h => absurd rfl h, hmid.mapvaddr,
      hmid.sound, .nil rfl fun _ => .refl⟩, fun h => absurd rfl h, fun h => h⟩
    rcases hmid.done with ⟨hr, -⟩ | hmem
    · exact absurd hr hgo
    · exact .inr hmem

/-- The three parts of the range are mapped to the frames `hs`, `ls` and `ds`. -/
structure MappedParts (s : PgTables) (vaddr : Nat) (hs ls ds : List Nat) (flag : Nat) : Prop where
  head : ∀ j a, hs[j]? = some a →
    s.entry (ptePath (vaddr + 0x1000 * j)) = pteFor a flag ∧
      IsLink (s.entry (pdePath (vaddr + 0x1000 * j)))
  large : ∀ i a, ls[i]? = some a →
    s.entry (pdePath (vaddr + 0x1000 * hs.length + 0x200000 * i)) = a ||| flag
  small : ∀ j a, ds[j]? = some a →
    s.entry (ptePath (vaddr + 0x1000 * hs.length + 0x200000 * ls.length + 0x1000 * j)) =
        pteFor a flag ∧
      IsLink (s.entry
        (pdePath (vaddr + 0x1000 * hs.length + 0x200000 * ls.length + 0x1000 * j)))

/-- What the loops of `map_alloc_at` did, up to the final `m`. -/
structure AllocRun (s : PgTables) (vaddr size flag : Nat) (m : MapProgress) (hs ls ds : List Nat) :
    Prop where
  parts : Parts vaddr hs.length ls.length ds.length
  len : m.len = 0x1000 * hs.length + 0x200000 * ls.length + 0x1000 * ds.length
  sound : m.tables.Sound
  same : m.tables = { s with
    frames := m.tables.frames
    table := m.tables.table
    pt := m.tables.pt
    data := m.tables.data
    large := m.tables.large }
  mapped : MappedParts m.tables vaddr hs ls ds flag
  off : ∀ q, ¬ PartPaths vaddr hs.length ls.length ds.length q → Kept s m.tables q
  small_mem : ∀ a ∈ hs ++ ds, a ∈ s.data
  large_mem : ∀ a ∈ ls, a ∈ s.large
  flagged : ls ≠ [] → Large flag
  opened : ∀ y < m.len, s.OpenAt (vaddr + y)
  len_lt : m.len < size + 0x1000
  done : m.ret = OK ∧ size ≤ m.len ∧ s.data = hs ++ ds ++ m.tables.data ∧
      s.large = ls ++ m.tables.large ∨
    m.ret = ENOMEM

/-- A page before the 2 MiB pages is in none of their regions. -/
theorem not_largePaths_before {v h l j : Nat} (hw : (v + 0x1000 * h) % 0x200000 = 0) (hj : j < h)
    (hh : v / 0x1000 % 512 + h ≤ 512) (hl : 0x200000 * l < 2 ^ 47) :
    ¬ LargePaths (v + 0x1000 * h) l (ptePath (v + 0x1000 * j)) := by
  rintro ⟨i, hi, hsuf⟩
  rw [pdePath_suffix_ptePath] at hsuf
  unfold virtRegion at hsuf
  omega

variable {m : MapProgress} {ds : List Nat}

/-- The parts laid out by the three loops. -/
theorem Parts.of_runs (hargs : AllocCall s vaddr size flag) (h : s.AllocReach vaddr size reach)
    (hhead : SmallRun flag (headSize vaddr size) vaddr reach (.start s vaddr) m₁ hs)
    (hmid : LargeRun flag vaddr size reach m₁ m₂ ls) (htail : SmallRun flag size vaddr reach m₂ m ds)
    (hls : ls ≠ [] → m₁.ret = OK ∧ (vaddr + m₁.len) % 0x200000 = 0 ∧ Large flag)
    (hret₂ : m₂.ret = OK → m₁.ret = OK) (hds : ds ≠ [] → m₂.ret = OK) :
    Parts vaddr hs.length ls.length ds.length := by
  have hva := hargs.vaddr_aligned
  have hlen := hhead.head_len hargs
  have hle := headSize_le vaddr size
  have hcount := hmid.count_lt h hhead
  have hlen₁ : m₁.len = 0x1000 * hs.length := by
    have := hhead.len
    rwa [show (MapProgress.start s vaddr).len = 0 from rfl, Nat.zero_add] at this
  have hlen₂ := hmid.len
  have hlen₃ := htail.len
  -- the tail is shorter than 2 MiB
  have hd : ds.length ≤ 512 := by
    by_cases hnil : ds = []
    · rw [hnil]
      decide
    · have hshort := htail.short hnil
      rcases hmid.done with ⟨-, hdone, -⟩ | hmem
      · omega
      · exact absurd (hmem.symm.trans (hds hnil)) ENOMEM_ne_OK
  have hhead_fit : vaddr / 0x1000 % 512 + hs.length ≤ 512 := by
    have := hlen.1
    unfold headSize at this
    split at this <;> omega
  refine ⟨hva, hd, hhead_fit, ?_, by omega⟩
  by_cases hrest : ls = [] ∧ ds = []
  · rw [hrest.1, hrest.2]
    exact .inr (.inr ⟨rfl, rfl⟩)
  · have hok : m₁.ret = OK := by
      by_cases hnil : ls = []
      · exact hret₂ (hds fun hd => hrest ⟨hnil, hd⟩)
      · exact (hls hnil).1
    have heq := hlen.2 hok
    by_cases hv : vaddr % 0x200000 = 0
    · refine .inl ⟨?_, hv⟩
      rw [headSize, if_pos hv] at heq
      omega
    · refine .inr (.inl ?_)
      rw [headSize, if_neg hv] at heq
      -- a head that ends with the range leaves nothing to the other loops
      by_cases hshort : 0x200000 - vaddr % 0x200000 ≤ size
      · omega
      · exfalso
        by_cases hnil : ls = []
        · have hshort' := htail.short fun hd => hrest ⟨hnil, hd⟩
          have hpos : 0 < ds.length := List.length_pos_iff.2 fun hd => hrest ⟨hnil, hd⟩
          omega
        · have := hmid.short hnil
          have hpos : 0 < ls.length := List.length_pos_iff.2 hnil
          omega

theorem largePaths_ptePath {w l x : Nat} (h : LargePaths w l (pdePath x)) :
    LargePaths w l (ptePath x) := by
  obtain ⟨i, hi, hsuf⟩ := h
  exact ⟨i, hi, hsuf.trans (List.suffix_cons _ _)⟩

/-- The loops map different pages, so what one has mapped stays. -/
theorem MappedParts.of_maps {s₁ s₂ s₃ : PgTables} (hparts : Parts vaddr hs.length ls.length ds.length)
    (hcount : 0x200000 * ls.length < 2 ^ 47)
    (hw : ls ≠ [] → (vaddr + 0x1000 * hs.length) % 0x200000 = 0) (hne : ∀ a ∈ ls, a ≠ 0)
    (h₁ : SmallMapped s s₁ vaddr hs flag)
    (h₂ : LargeMapped s₁ s₂ (vaddr + 0x1000 * hs.length) ls flag)
    (h₃ : SmallMapped s₂ s₃ (vaddr + 0x1000 * hs.length + 0x200000 * ls.length) ds flag) :
    MappedParts s₃ vaddr hs ls ds flag := by
  have hbound := hparts.bound
  refine ⟨?_, ?_, h₃.run⟩
  · intro j a ha
    have hj := (List.getElem?_eq_some_iff.1 ha).1
    obtain ⟨hpte, hlink⟩ := h₁.run j a ha
    have hlarge : ¬ LargePaths (vaddr + 0x1000 * hs.length) ls.length
        (ptePath (vaddr + 0x1000 * j)) := by
      by_cases hnil : ls = []
      · rw [hnil]
        exact not_largePaths_zero
      · exact not_largePaths_before (hw hnil) hj hparts.head hcount
    have hsmall : ¬ SmallPaths (vaddr + 0x1000 * hs.length + 0x200000 * ls.length) ds.length
        (ptePath (vaddr + 0x1000 * j)) := by
      rintro ⟨i, hi, heq⟩
      rw [Nat.add_assoc, Nat.add_assoc] at heq
      exact ptePath_ne hparts.aligned (by omega) (by omega) heq
    have hpte' : Kept s₁ s₃ (ptePath (vaddr + 0x1000 * j)) :=
      (h₂.off _ hlarge).trans (h₃.off _ hsmall)
    have hpde' : Kept s₁ s₃ (pdePath (vaddr + 0x1000 * j)) :=
      (h₂.off _ fun hl => hlarge (largePaths_ptePath hl)).trans
        (h₃.off _ (not_smallPaths_of_length (by simp)))
    rw [hpte'.eq_of_length (by simp), hpde'.eq_of_ne_zero hlink.ne_zero]
    exact ⟨hpte, hlink⟩
  · intro i a ha
    have hent := h₂.run i a ha
    have hkept := h₃.off (pdePath (vaddr + 0x1000 * hs.length + 0x200000 * i))
      (not_smallPaths_of_length (by simp))
    rw [hkept.eq_of_ne_zero, hent]
    rw [hent, Ne, Nat.or_eq_zero_iff]
    exact fun h => hne a (List.mem_of_getElem? ha) h.1

/-- What has been mapped lies within reach. -/
theorem PgTables.AllocReach.opened (h : s.AllocReach vaddr size reach)
    (hargs : AllocCall s vaddr size flag)
    (hhead : SmallRun flag (headSize vaddr size) vaddr reach (.start s vaddr) m₁ hs)
    (hshort : m₁.ret = OK → ¬ s.HeadShort vaddr size)
    (hmid : LargeRun flag vaddr size reach m₁ m₂ ls) (htail : SmallRun flag size vaddr reach m₂ m ds)
    (hls : ls ≠ [] → m₁.ret = OK ∧ (vaddr + m₁.len) % 0x200000 = 0 ∧ Large flag)
    (hret₂ : m₂.ret = OK → m₁.ret = OK) (hds : ds ≠ [] → m₂.ret = OK) {y : Nat} (hy : y < m.len) :
    s.OpenAt (vaddr + y) := by
  have hva := hargs.vaddr_aligned
  have hlen := hhead.head_len hargs
  have hstart : (MapProgress.start s vaddr).len = 0 := rfl
  have hlen₁ := hhead.len
  have hlen₂ := hmid.len
  have hlen₃ := htail.len
  have hhs : hs.length ≤ s.data.length := hhead.taken_prefix.length_le
  by_cases h₁ : y < m₁.len
  · -- page `y / 0x1000` of the head
    have hreach := h.head_reach (y / 0x1000) (by omega) (by omega)
    refine (h.range.opens (vaddr + 0x1000 * (y / 0x1000)) ⟨_, hreach, rfl⟩).region ?_
    rw [pdePath_eq_iff]
    unfold virtRegion
    omega
  · by_cases h₂ : y < m₂.len
    · have hne : ls ≠ [] := by
        rintro rfl
        rw [List.length_nil] at hlen₂
        omega
      obtain ⟨hret, hal, -⟩ := hls hne
      have hl := hlen.2 hret
      have hfit := hmid.short hne
      have hle := middle_large_le hhead hmid
      have hi : (y - m₁.len) / 0x200000 < ls.length := by omega
      have hreach := h.large_reach (hhead.headFits hargs hret (hshort hret)) ((y - m₁.len) / 0x200000)
        (by omega) (by omega)
      rw [← hl] at hreach
      refine (h.range.opens (vaddr + (m₁.len + 0x200000 * ((y - m₁.len) / 0x200000)))
        ⟨_, hreach, rfl⟩).region ?_
      rw [pdePath_eq_iff]
      unfold virtRegion
      omega
    · have hne : ds ≠ [] := by
        rintro rfl
        rw [List.length_nil] at hlen₃
        omega
      have hgo := hds hne
      have hret := hret₂ hgo
      have hl := hlen.2 hret
      obtain ⟨htl, hcnt⟩ := middle_len hargs hhead hmid hret hgo
      have hle := middle_large_le hhead hmid
      have hdata : s.data = hs ++ m₁.tables.data := hhead.data_eq hret
      have hdata₂ : m₂.tables.data = m₁.tables.data := by rw [hmid.mapped.same]
      have htaken : hs.length + ds.length ≤ s.data.length := by
        rw [hdata, List.length_append, ← hdata₂]
        exact Nat.add_le_add_left htail.taken_prefix.length_le _
      have hshort₃ := htail.short hne
      have hreach := h.tail_reach (hhead.headFits hargs hret (hshort hret)) (by omega)
        ((y - m₂.len) / 0x1000) (by omega) (by omega)
      rw [← htl] at hreach
      refine (h.range.opens (vaddr + (m₂.len + 0x1000 * ((y - m₂.len) / 0x1000)))
        ⟨_, hreach, rfl⟩).region ?_
      rw [pdePath_eq_iff]
      unfold virtRegion
      omega

theorem AllocRun.of_runs (hargs : AllocCall s vaddr size flag) (h : s.AllocReach vaddr size reach)
    (hhead : SmallRun flag (headSize vaddr size) vaddr reach (.start s vaddr) m₁ hs)
    (hshort : m₁.ret = OK → ¬ s.HeadShort vaddr size)
    (hmid : LargeRun flag vaddr size reach m₁ m₂ ls) (htail : SmallRun flag size vaddr reach m₂ m ds)
    (hls : ls ≠ [] → m₁.ret = OK ∧ (vaddr + m₁.len) % 0x200000 = 0 ∧ Large flag)
    (hret₂ : m₂.ret = OK → m₁.ret = OK) (hds : ds ≠ [] → m₂.ret = OK)
    (hret : m.ret = OK → m₂.ret = OK) : AllocRun s vaddr size flag m hs ls ds := by
  have hparts := Parts.of_runs hargs h hhead hmid htail hls hret₂ hds
  have hcount := hmid.count_lt h hhead
  have hlen₁ : m₁.len = 0x1000 * hs.length := by
    have := hhead.len
    rwa [show (MapProgress.start s vaddr).len = 0 from rfl, Nat.zero_add] at this
  have hlen₂ : m₂.len = 0x1000 * hs.length + 0x200000 * ls.length := by
    rw [hmid.len, hlen₁]
  have hlen₃ := htail.len
  have hbound := hparts.bound
  have hbase₂ : vaddr + m₁.len = vaddr + 0x1000 * hs.length := by rw [hlen₁]
  have hbase₃ : vaddr + m₂.len = vaddr + 0x1000 * hs.length + 0x200000 * ls.length := by
    rw [hlen₂, Nat.add_assoc]
  have hmap₁ : SmallMapped s m₁.tables vaddr hs flag := hhead.mapped
  have hmap₂ := hmid.mapped
  have hmap₃ := htail.mapped
  rw [hbase₂] at hmap₂
  rw [hbase₃] at hmap₃
  -- a stage that takes a frame starts where the stages before it ended
  have hwalign : ls ≠ [] → (vaddr + 0x1000 * hs.length) % 0x200000 = 0 := fun hne => by
    rw [← hbase₂]
    exact (hls hne).2.1
  have hlarge : s.large = ls ++ m₂.tables.large := middle_large hhead hmid
  have hdata : m₁.ret = OK → s.data = hs ++ m₁.tables.data := hhead.data_eq
  have hdata₂ : m₂.tables.data = m₁.tables.data := by rw [hmid.mapped.same]
  have hlarge_mem : ∀ a ∈ ls, a ∈ s.large := fun a ha => by
    rw [hlarge]
    exact List.mem_append_left _ ha
  refine
    { parts := hparts
      len := by rw [hlen₃, hlen₂]
      sound := htail.sound
      same := by rw [hmap₃.same, hmap₂.same, hmap₁.same]
      mapped := .of_maps hparts hcount hwalign (fun a ha => (h.large a (hlarge_mem a ha)).1) hmap₁
        hmap₂ hmap₃
      off := ?_
      small_mem := ?_
      large_mem := hlarge_mem
      flagged := fun hne => (hls hne).2.2
      opened := fun y hy => h.opened hargs hhead hshort hmid htail hls hret₂ hds hy
      len_lt := ?_
      done := ?_ }
  · intro q hq
    simp only [PartPaths, not_or] at hq
    exact ((hmap₁.off q hq.1).trans (hmap₂.off q hq.2.1)).trans (hmap₃.off q hq.2.2)
  · intro a ha
    rcases List.mem_append.1 ha with ha | ha
    · exact hhead.taken_prefix.subset ha
    · rw [hdata (hret₂ (hds (List.ne_nil_of_mem ha))), ← hdata₂]
      exact List.mem_append_right _ (htail.taken_prefix.subset ha)
  · by_cases hnil : ds = []
    · have hle₁ := (hhead.head_len hargs).1
      have hle := headSize_le vaddr size
      rw [hnil, List.length_nil] at hlen₃
      by_cases hnil' : ls = []
      · rw [hnil', List.length_nil] at hlen₂
        omega
      · have := hmid.short hnil'
        omega
    · exact htail.short hnil
  · rcases htail.done with ⟨hr, hstop, hd, -⟩ | hmem
    · refine .inl ⟨hr, hstop, ?_, ?_⟩
      · rw [hdata (hret₂ (hret hr)), ← hdata₂, hd, List.append_assoc]
      · rw [hlarge, hmap₃.same]
    · exact .inr hmem

theorem mapAllocAt_run (hargs : AllocCall s vaddr size flag) (h : s.AllocReach vaddr size reach) :
    ∃ m hs ls ds, AllocRun s vaddr size flag m hs ls ds ∧
      mapAllocAt s vaddr size flag =
        if m.ret = OK then .ok (OK, m.tables)
        else if 0 < m.len then do
          let s ← unmapFreeAt m.tables vaddr m.len
          .ok (m.ret, s)
        else .ok (m.ret, m.tables) := by
  obtain ⟨m₁, hs, hrun₁, hhead, hshort⟩ := mapHead_run hargs h
  obtain ⟨m₂, ls, hrun₂, hmid, hls, hret₂⟩ := mapMiddle_run hargs h hhead hshort
  obtain ⟨m, ds, hrun₃, htail, hds, hret⟩ := mapTail_run hargs h hhead hshort hmid hls hret₂
  refine ⟨m, hs, ls, ds, .of_runs hargs h hhead hshort hmid htail hls hret₂ hds hret,
    mapAllocAt_of_loops hrun₁ hrun₂ hrun₃⟩

end Stages

end Yaos
