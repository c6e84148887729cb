import Yaos.PageTable.Ledger
import Yaos.PageTable.Range

set_option autoImplicit false

/-! # When `map_alloc_at` fails

On a failure `map_alloc_at` unmaps what it has mapped so far. The frame it has just obtained for the
next page is not mapped yet; when the page table for it cannot be made, that frame is neither mapped
nor freed. This is the only frame ever lost (`mapAllocAt_failsClean_iff`): each loop over 4 KiB pages
stays in one 2 MiB region, so it needs a page table at its first page or not at all. -/

namespace Yaos

open Word TableTree

/-! ## The loops -/

/-- A loop over 4 KiB pages below the PDE at `q₀` will ask for a page table in vain. -/
def PtShort (stop : Nat) (q₀ : List (Fin 512)) (m : MapProgress) : Prop :=
  m.len < stop ∧ m.tables.data ≠ [] ∧ m.tables.entry q₀ = 0 ∧ m.tables.pt = []

/-- How the loop ends when it is not short of a page table. -/
structure SmallTaken (stop : Nat) (q₀ : List (Fin 512)) (m m' : MapProgress) (taken : List Nat) :
    Prop where
  data : m.tables.data = taken ++ m'.tables.data
  len : m'.len = m.len + 0x1000 * taken.length
  failed : m'.ret ≠ OK → m'.tables.data = [] ∧ m'.len < stop
  pt : m'.tables.pt =
    if taken ≠ [] ∧ m.tables.entry q₀ = 0 then m.tables.pt.tail else m.tables.pt

/-- What the loop over 4 KiB pages has done with the frames it took. -/
structure SmallAccount (V : Nat → Prop) (stop : Nat) (q₀ : List (Fin 512)) (m m' : MapProgress) :
    Prop where
  ledger : Ledger V m.tables m'.tables
  pde : ∀ q : List (Fin 512), q.length = 3 → q ≠ q₀ → m'.tables.entry q = m.tables.entry q
  outcome : PtShort stop q₀ m ∧ m'.ret = ENOMEM ∧ m'.len = m.len ∧
      (∃ a, m.tables.data = a :: m'.tables.data) ∨
    ¬ PtShort stop q₀ m ∧ ∃ taken, SmallTaken stop q₀ m m' taken

/-- The loop does not run, or finds no frame. -/
theorem SmallAccount.still {V : Nat → Prop} {stop ret : Nat} {q₀ : List (Fin 512)} {m : MapProgress}
    (hshort : ¬ PtShort stop q₀ m) (hret : ret ≠ OK → m.tables.data = [] ∧ m.len < stop) :
    SmallAccount V stop q₀ m { m with ret := ret } where
  ledger := .refl
  pde := fun _ _ _ => rfl
  outcome := .inr ⟨hshort, [], rfl, rfl, hret, by simp⟩

theorem mapSmall_account {V : Nat → Prop} {low : Bool} {flag stop vaddr reach : Nat}
    (hflag : flag < 0x1000) (hv : vaddr % 0x1000 = 0) (hstop : stop < 2 ^ 48 - 0x1000)
    {q₀ : List (Fin 512)} {data : List Nat} {m m' : MapProgress} (h : LoopStart vaddr reach m)
    (hdata : m.tables.data = data) (hlen : m.len % 0x1000 = 0)
    (hreach : ∀ j < data.length, m.len + 0x1000 * j < stop → m.len + 0x1000 * j < reach)
    (hregion : ∀ j, m.len + 0x1000 * j < stop → pdePath (vaddr + m.len + 0x1000 * j) = q₀)
    (hV : m.len < stop → OffLarge V q₀)
    (hopen : data ≠ [] → m.len < stop → Opens (m.tables.entry q₀))
    (hframe : ∀ a ∈ data, a ≠ 0 ∧ a % 0x1000 = 0)
    (hrun : mapSmall low flag stop data m = .ok m') : SmallAccount V stop q₀ m m' := by
  -- on the frames that are left; only the first turn can find the page table missing
  induction data generalizing m with
  | nil =>
      have hshort : ¬ PtShort stop q₀ m := fun hs => hs.2.1 hdata
      by_cases hgo : m.len < stop
      · rw [mapSmall, if_pos hgo] at hrun
        cases hrun
        exact .still hshort fun _ => ⟨hdata, hgo⟩
      · rw [mapSmall_stop hgo] at hrun
        cases hrun
        exact .still hshort fun hne => absurd h.ret hne
  | cons a data ih =>
      by_cases hgo : m.len < stop
      · obtain ⟨hne, halign⟩ := hframe a List.mem_cons_self
        have hmv := h.mapvaddr
        have hregion₀ : pdePath (vaddr + m.len) = q₀ := hregion 0 (by omega)
        have hpde : pdePath m.mapvaddr = q₀ := (pdePath_congr hmv).trans hregion₀
        have hx : InRange vaddr reach m.mapvaddr := .of_lt (hreach 0 (by simp) (by omega)) hmv
        have hready : PgTables.RangeReady { m.tables with data := data } vaddr reach :=
          h.ready.supply rfl rfl rfl rfl
        have hreached := hready.reachable hx
        have hv0 : m.mapvaddr % 0x1000 = 0 := by omega
        have hopen₀ := hopen (List.cons_ne_nil a data) hgo
        have hmissing : m.tables.PtMissing (vaddr + m.len) ↔ m.tables.entry q₀ = 0 ∧ m.tables.pt = [] := by
          rw [PgTables.PtMissing, hregion₀]
        rcases @mapSmall_turn low flag stop vaddr reach a data m hflag hstop h (by omega) hgo
          (hreach 0 (by simp) (by omega)) (by rw [hregion₀]; exact hopen₀) ⟨hne, halign⟩
          (mapSmall_asks hrun hgo hne).1 with ⟨hnot, s₁, ht⟩ | ⟨hyes, s₁, hloss⟩
        · have hdry : ¬ (m.tables.entry q₀ = 0 ∧ m.tables.pt = []) := fun hd => hnot (hmissing.2 hd)
          have hlink := ht.pde
          rw [hregion₀] at hlink
          obtain ⟨hledger, hpdes, hpt⟩ := map4kPageP2V_ledger (V := V) hreached (by rw [hpde]; exact hopen₀)
            (by rw [hpde]; exact fun hz hn => hdry ⟨hz, hn⟩) (by rw [hpde]; exact hV hgo) halign hv0 hflag
            ht.run
          rw [hpde] at hpdes hpt
          rw [ht.next] at hrun
          have hdata₁ : s₁.data = data := by rw [ht.same]
          -- the turns behind this one start 4 KiB further, below the table that is now there
          have hacc := ih ht.start hdata₁ (by dsimp only; omega)
            (fun j hj hgo' => by
              have := hreach (j + 1) (by simpa using hj) (by dsimp only at hgo'; omega)
              dsimp only
              omega)
            (fun j hj => by
              dsimp only at hj ⊢
              rw [show vaddr + (m.len + 0x1000) + 0x1000 * j =
                vaddr + m.len + 0x1000 * (j + 1) by omega]
              exact hregion (j + 1) (by omega))
            (fun _ => hV hgo) (fun _ _ => .inr hlink)
            (fun b hb => hframe b (List.mem_cons_of_mem a hb)) hrun
          refine ⟨(hledger.supply (t := m.tables) rfl rfl rfl rfl).trans hacc.ledger, fun q hq hne => ?_,
            .inr ⟨fun hs => hdry ⟨hs.2.2.1, hs.2.2.2⟩, ?_⟩⟩
          · rw [hacc.pde q hq hne]
            exact hpdes q hq hne
          · rcases hacc.outcome with ⟨hs, -⟩ | ⟨-, taken, hd⟩
            · exact absurd hs.2.2.1 hlink.ne_zero
            · have hlen' := hd.len
              have hpt' := hd.pt
              dsimp only at hlen' hpt'
              refine ⟨a :: taken, ?_, ?_, hd.failed, ?_⟩
              · have := hd.data
                dsimp only at this
                rw [hdata, List.cons_append, ← this, hdata₁]
              · rw [hlen', List.length_cons]
                omega
              · rw [hpt', if_neg (fun hc => hlink.ne_zero hc.2), hpt]
                simp
                rfl
        · -- no page table: the frame `a` is lost
          have hdry := hmissing.1 hyes
          obtain ⟨s₂, hfail, hdata₂, hledger⟩ := map4kPageP2V_dry_ledger hreached
            (by rw [hpde]; exact hdry.1) hdry.2 halign hv0 hflag
          obtain ⟨s₃, hfail', -, -, hent⟩ := map4kPageP2V_dry hreached
            (by rw [hpde]; exact hdry.1) hdry.2 halign hv0 hflag
          rw [hloss.run] at hfail hfail'
          cases hfail
          cases hfail'
          rw [hloss.next] at hrun
          cases hrun
          refine ⟨(hledger V).supply rfl rfl rfl rfl, fun q hq _ => ?_,
            .inl ⟨⟨hgo, by simp [hdata], hdry⟩, rfl, rfl, a, ?_⟩⟩
          · rcases hent q with he | ⟨he | he, -⟩
            · exact he
            · exact absurd hq (by simp [he])
            · exact absurd hq (by simp [he])
          · rw [hdata, hdata₂]
      · rw [mapSmall_stop hgo] at hrun
        cases hrun
        exact .still (fun hs => hgo hs.1) fun hne => absurd h.ret hne

/-- What the loop over 2 MiB pages takes and leaves. -/
structure LargeAccount (V : Nat → Prop) (mapsize : Nat) (m m' : MapProgress) : Prop where
  ledger : Ledger V m.tables m'.tables
  pde : ∀ q : List (Fin 512), q.length = 3 → (∀ x, V x → q ≠ pdePath x) →
    m'.tables.entry q = m.tables.entry q
  pt : m'.tables.pt = m.tables.pt
  data : m'.tables.data = m.tables.data
  failed : m'.ret ≠ OK → m'.tables.large = [] ∧ m'.len ≤ mapsize

theorem LargeAccount.still {V : Nat → Prop} {mapsize ret : Nat} {m : MapProgress}
    (hret : ret ≠ OK → m.tables.large = [] ∧ m.len ≤ mapsize) :
    LargeAccount V mapsize m { m with ret := ret } where
  ledger := .refl
  pde := fun _ _ _ => rfl
  pt := rfl
  data := rfl
  failed := hret

theorem mapLarge_account {V : Nat → Prop} {flag mapsize vaddr size reach : Nat}
    (hflag : flag < 0x1000) (hmap : mapsize + 0x200000 = size) (hsize : size < 2 ^ 64)
    {large : List Nat} {m m' : MapProgress} (hlarge : large ≠ [] → Large flag)
    (h : LoopStart vaddr reach m) (hlist : m.tables.large = large) (hv : (vaddr + m.len) % 0x200000 = 0)
    (hreach : ∀ i < large.length, m.len + 0x200000 * i ≤ mapsize → m.len + 0x200000 * i < reach)
    (hV : ∀ i < large.length, m.len + 0x200000 * i ≤ mapsize →
      ∀ x, pdePath x = pdePath (vaddr + m.len + 0x200000 * i) → V x)
    (hframe : ∀ a ∈ large, a ≠ 0 ∧ a % 0x200000 = 0)
    (hrun : mapLarge flag mapsize large m = .ok m') : LargeAccount V mapsize m m' := by
  induction large generalizing m with
  | nil =>
      unfold mapLarge at hrun
      by_cases hgo : m.len ≤ mapsize
      · rw [if_pos hgo] at hrun
        cases hrun
        exact .still fun _ => ⟨hlist, hgo⟩
      · rw [if_neg hgo] at hrun
        cases hrun
        exact .still fun hne => absurd h.ret hne
  | cons a large ih =>
      by_cases hgo : m.len ≤ mapsize
      · have ha := hframe a List.mem_cons_self
        have hl := hlarge (List.cons_ne_nil a large)
        have hx := hreach 0 (by simp) hgo
        obtain ⟨s₁, hok, hturn, hstart, hsame, -, -⟩ := @mapLarge_turn flag mapsize vaddr size reach
          a large m hflag hl hmap hsize h hv hgo hx ha
        have hmv := h.mapvaddr
        have hready : PgTables.RangeReady { m.tables with large := large } vaddr reach :=
          h.ready.supply rfl rfl rfl rfl
        have hVx : V m.mapvaddr := hV 0 (by simp) hgo _ (pdePath_congr hmv)
        obtain ⟨hledger, hpdes⟩ := mapPageP2V_ledger (hready.reachable (.of_lt hx hmv)) hVx ha.2
          (by omega) hflag hl hok
        have hlist₁ : s₁.large = large := by rw [hsame]
        rw [hturn] at hrun
        have hacc := ih (fun _ => hl) hstart hlist₁ (by dsimp only; omega)
          (fun i hi hgo' => by
            have := hreach (i + 1) (by simpa using hi) (by dsimp only at hgo'; omega)
            dsimp only
            omega)
          (fun i hi hle x hpath => hV (i + 1) (by simpa using hi) (by dsimp only at hle; omega) x (by
            dsimp only at hpath
            rw [hpath, show vaddr + (m.len + 0x200000) + 0x200000 * i =
              vaddr + m.len + 0x200000 * (i + 1) by omega]))
          (fun b hb => hframe b (List.mem_cons_of_mem a hb)) hrun
        refine ⟨(hledger.supply (t := m.tables) rfl rfl rfl rfl).trans hacc.ledger, ?_, ?_, ?_,
          hacc.failed⟩
        · intro q hq hoff
          rw [hacc.pde q hq hoff]
          exact hpdes q hq (hoff _ hVx)
        · rw [hacc.pt]
          show s₁.pt = _
          rw [hsame]
        · rw [hacc.data]
          show s₁.data = _
          rw [hsame]
      · rw [mapLarge, if_neg hgo] at hrun
        cases hrun
        exact .still fun hne => absurd h.ret hne

/-! ## The stages -/

/-- The addresses `map_alloc_at` may map as 2 MiB pages. -/
def LargeStage (s : PgTables) (vaddr size x : Nat) : Prop :=
  ∃ i < s.large.length, headSize vaddr size + 0x200000 * (i + 1) ≤ size ∧
    pdePath x = pdePath (vaddr + headSize vaddr size + 0x200000 * i)

/-- A frame obtained for a page is lost, because the page table for it cannot be made: at the first
    page before the first 2 MiB boundary, or at the first page after the 2 MiB pages. -/
def LosesFrame (s : PgTables) (vaddr size : Nat) : Prop :=
  (0 < headSize vaddr size ∧ s.data ≠ [] ∧ s.entry (pdePath vaddr) = 0 ∧ s.pt = []) ∨
  (tailStart vaddr size < size ∧ headSize vaddr size / 0x1000 < s.data.length ∧
    (size - headSize vaddr size) / 0x200000 ≤ s.large.length ∧
    s.entry (pdePath (vaddr + tailStart vaddr size)) = 0 ∧
    (if 0 < headSize vaddr size ∧ s.entry (pdePath vaddr) = 0 then s.pt.tail else s.pt) = [])

section Stages

variable {s : PgTables} {vaddr size reach flag : Nat} {m₁ m₂ m : MapProgress}

theorem headSize_room (hpos : 0 < headSize vaddr size) :
    headSize vaddr size ≤ 0x200000 - vaddr % 0x200000 := by
  by_cases hv : vaddr % 0x200000 = 0
  · rw [headSize, if_pos hv] at hpos
    exact absurd hpos (Nat.lt_irrefl 0)
  · rw [headSize, if_neg hv]
    exact Nat.min_le_right ..

/-- The region of the head is no region of the 2 MiB pages. -/
theorem largeStage_off_head (hargs : AllocCall s vaddr size flag) (h : s.AllocReach vaddr size reach)
    (hpos : 0 < headSize vaddr size) : OffLarge (LargeStage s vaddr size) (pdePath vaddr) := by
  have hcount := h.count
  refine ⟨by simp, ?_⟩
  rintro x ⟨i, hi, hle, hpath⟩ hsuf
  have heq := hsuf.eq_of_length (by simp)
  rw [hpath, pdePath_eq_iff] at heq
  have hb := headSize_boundary hargs (by omega)
  have hroom := headSize_room hpos
  unfold virtRegion at heq
  omega

theorem largeStage_off_tail (hargs : AllocCall s vaddr size flag) (h : s.AllocReach vaddr size reach)
    (hl : (size - headSize vaddr size) / 0x200000 ≤ s.large.length) :
    OffLarge (LargeStage s vaddr size) (pdePath (vaddr + tailStart vaddr size)) := by
  have hcount := h.count
  have hle := headSize_le vaddr size
  refine ⟨by simp, ?_⟩
  rintro x ⟨i, hi, hfit, hpath⟩ hsuf
  have heq := hsuf.eq_of_length (by simp)
  have hb := headSize_boundary hargs (by omega)
  rw [hpath, pdePath_eq_iff] at heq
  unfold virtRegion tailStart at heq
  omega

theorem mapHead_account (hargs : AllocCall s vaddr size flag) (h : s.AllocReach vaddr size reach)
    (hrun : mapHead flag vaddr size (.start s vaddr) = .ok m₁) :
    SmallAccount (LargeStage s vaddr size) (headSize vaddr size) (pdePath vaddr) (.start s vaddr)
      m₁ := by
  by_cases hv : vaddr % 0x200000 = 0
  · rw [mapHead, if_neg (fun h => h hv)] at hrun
    cases hrun
    have hzero : headSize vaddr size = 0 := if_pos hv
    refine .still (fun hs => ?_) fun hne => absurd rfl hne
    have := hs.1
    rw [hzero] at this
    exact absurd this (Nat.not_lt_zero _)
  · rw [mapHead_eq hv] at hrun
    have hle := headSize_le vaddr size
    have hstart : (MapProgress.start s vaddr).len = 0 := rfl
    refine mapSmall_account hargs.flag_lt hargs.vaddr_aligned (by omega) (MapProgress.start_loop h) rfl rfl
      (fun j hj hgo => ?_) (fun j hj => ?_) (largeStage_off_head hargs h) (fun hne hpos => ?_) h.data hrun
    · have := h.head_reach j hj (by omega)
      omega
    swap
    · have hreach := h.head_reach 0 (List.length_pos_iff.2 hne) hpos
      exact h.pde 0 (by omega) hreach rfl (.inl hpos)
    rw [pdePath_eq_iff]
    change 0 + 0x1000 * j < headSize vaddr size at hj
    have hpos : 0 < headSize vaddr size := by omega
    have hroom := headSize_room hpos
    show virtRegion (vaddr + 0 + 0x1000 * j) = virtRegion vaddr
    unfold virtRegion
    omega

theorem mapMiddle_account (hargs : AllocCall s vaddr size flag) (h : s.AllocReach vaddr size reach)
    {hs : List Nat} (hhead : SmallRun flag (headSize vaddr size) vaddr reach (.start s vaddr) m₁ hs)
    (hshort : m₁.ret = OK → ¬ s.HeadShort vaddr size) (hrun : mapMiddle flag size m₁ = .ok m₂) :
    LargeAccount (LargeStage s vaddr size) (size - 0x200000) m₁ m₂ ∨ m₁.ret ≠ OK ∧ m₂ = m₁ := by
  have hsize := hargs.size_lt
  have hlarge₁ : m₁.tables.large = s.large := by rw [hhead.mapped.same]; rfl
  unfold mapMiddle at hrun
  by_cases hgo : m₁.ret = OK ∧ 0x200000 ≤ wsub size m₁.len
  · obtain ⟨hl, hgo', hready, halign⟩ := hhead.middle hargs hgo
    have hfits := hhead.headFits hargs hgo.1 (hshort hgo.1)
    have hend : size - 0x200000 + 0x200000 = size := by omega
    have hpaged : m₁.tables.large ≠ [] → Large flag := by
      rw [hlarge₁]
      exact hargs.paged hfits hgo'
    -- a 2 MiB page that the loop comes to lies in the range
    have hfit : ∀ i, m₁.len + 0x200000 * i ≤ size - 0x200000 →
        headSize vaddr size + 0x200000 * (i + 1) ≤ size := by
      intro i hi
      rw [hl] at hi
      rw [Nat.mul_succ, ← Nat.add_assoc]
      exact Nat.add_le_of_le_sub (le_trans hgo' (Nat.sub_le ..)) hi
    rw [if_pos hgo, show wsub size 0x200000 = size - 0x200000 from wsub_eq (by omega) hsize] at hrun
    refine .inl (mapLarge_account hargs.flag_lt hend hsize hpaged ⟨hgo.1, hready, hhead.mapvaddr⟩ rfl
      halign (fun i hi hle => ?_) (fun i hi hle x hpath => ?_) (by rw [hlarge₁]; exact h.large) hrun)
    · rw [hlarge₁] at hi
      rw [hl]
      exact h.large_reach hfits i hi (hfit i hle)
    · rw [hlarge₁] at hi
      rw [hl] at hpath
      exact ⟨i, hi, hfit i hle, hpath⟩
  · rw [if_neg hgo] at hrun
    cases hrun
    by_cases hret : m₁.ret = OK
    · left
      exact ⟨.refl, fun _ _ _ => rfl, rfl, rfl, fun hne => absurd hret hne⟩
    · exact .inr ⟨hret, rfl⟩

theorem prefix_unique {l₁ l₂ l : List Nat} (h₁ : l₁ <+: l) (h₂ : l₂ <+: l)
    (hlen : l₁.length = l₂.length) : l₁ = l₂ :=
  (List.prefix_of_prefix_length_le h₁ h₂ hlen.le).eq_of_length hlen

/-- What was taken is what was mapped. -/
theorem SmallTaken.eq_run {stop : Nat} {q₀ : List (Fin 512)} {m m' : MapProgress}
    {taken run : List Nat} (h : SmallTaken stop q₀ m m' taken)
    (hrun : SmallRun flag stop vaddr reach m m' run) : taken = run := by
  refine prefix_unique (h.data ▸ List.prefix_append _ _) hrun.taken_prefix ?_
  have h₁ := h.len
  have h₂ := hrun.len
  omega

section Tail

variable {hs ls ds : List Nat} (hargs : AllocCall s vaddr size flag) (h : s.AllocReach vaddr size reach)
  (hhead : SmallRun flag (headSize vaddr size) vaddr reach (.start s vaddr) m₁ hs)
  (hmid : LargeRun flag vaddr size reach m₁ m₂ ls) (hret₁ : m₁.ret = OK) (hret₂ : m₂.ret = OK)

include hargs hhead hret₁ in
theorem head_length : 0x1000 * hs.length = headSize vaddr size := by
  have h₁ := (hhead.head_len hargs).2 hret₁
  have h₂ := hhead.len
  rw [show (MapProgress.start s vaddr).len = 0 from rfl] at h₂
  omega

include hargs hhead hmid hret₁ hret₂

include h

/-- The PDE of the tail is not touched before. -/
theorem tail_pde (hhacc : SmallAccount (LargeStage s vaddr size) (headSize vaddr size)
      (pdePath vaddr) (.start s vaddr) m₁)
    (hhrun : mapHead flag vaddr size (.start s vaddr) = .ok m₁)
    (hmacc : LargeAccount (LargeStage s vaddr size) (size - 0x200000) m₁ m₂)
    (hlt : tailStart vaddr size < size) :
    m₂.tables.entry (pdePath (vaddr + tailStart vaddr size)) =
      s.entry (pdePath (vaddr + tailStart vaddr size)) := by
  have hcount := (middle_len hargs hhead hmid hret₁ hret₂).2
  have hlarge := middle_large hhead hmid
  have hle : (size - headSize vaddr size) / 0x200000 ≤ s.large.length := by
    rw [hcount, hlarge, List.length_append]
    omega
  have hoff := largeStage_off_tail hargs h hle
  rw [hmacc.pde _ (by simp) fun x hx he => hoff.2 x hx (he ▸ List.suffix_rfl)]
  by_cases hv : vaddr % 0x200000 = 0
  · rw [mapHead, if_neg (fun hne => hne hv)] at hhrun
    cases hhrun
    rfl
  · refine hhacc.pde _ (by simp) fun he => ?_
    have hb := headSize_boundary hargs (lt_of_le_of_lt (Nat.le_add_right _ _) hlt)
    have hroom : 0 < headSize vaddr size → _ := headSize_room
    have hcnt := h.count
    rw [pdePath_eq_iff] at he
    unfold virtRegion tailStart at he
    omega

theorem mapTail_account (hhacc : SmallAccount (LargeStage s vaddr size) (headSize vaddr size)
      (pdePath vaddr) (.start s vaddr) m₁)
    (hhrun : mapHead flag vaddr size (.start s vaddr) = .ok m₁)
    (hmacc : LargeAccount (LargeStage s vaddr size) (size - 0x200000) m₁ m₂)
    (hrun : mapTail flag size m₂ = .ok m) :
    SmallAccount (LargeStage s vaddr size) size (pdePath (vaddr + tailStart vaddr size)) m₂ m := by
  obtain ⟨hlen, hcount⟩ := middle_len hargs hhead hmid hret₁ hret₂
  have hlarge := middle_large hhead hmid
  have hle : (size - headSize vaddr size) / 0x200000 ≤ s.large.length := by
    rw [hcount, hlarge, List.length_append]
    omega
  have hready : m₂.tables.RangeReady vaddr reach := by
    rcases hmid.done with ⟨-, -, hr⟩ | hmem
    · exact hr
    · exact absurd (hmem.symm.trans hret₂) ENOMEM_ne_OK
  have hfits : s.HeadFits vaddr size := by
    rcases hhacc.outcome with ⟨-, hbad, -⟩ | ⟨hno, -⟩
    · exact absurd (hbad.symm.trans hret₁) ENOMEM_ne_OK
    · exact hhead.headFits hargs hret₁ hno
  have hdata : s.data = hs ++ m₂.tables.data := by
    rw [hmacc.data]
    exact hhead.data_eq hret₁
  have hhl := head_length hargs hhead hret₁
  have hcnt := h.count
  have hbig := hmid.count_lt h hhead
  rw [mapTail, if_pos hret₂] at hrun
  have hsz : tailStart vaddr size % 0x1000 = 0 := by
    unfold tailStart
    omega
  have hsmall : size < tailStart vaddr size + 0x200000 := by
    unfold tailStart
    omega
  have hhle := headSize_le vaddr size
  have hts : tailStart vaddr size = headSize vaddr size + 0x200000 * ls.length := by
    rw [tailStart, hcount, Nat.mul_comm]
  -- the pages of the tail that there are frames for
  have hreach : ∀ j < m₂.tables.data.length, tailStart vaddr size + 0x1000 * j < size →
      tailStart vaddr size + 0x1000 * j < reach := fun j hj hgo => by
    refine h.tail_reach hfits hle j ?_ hgo
    rw [hdata, List.length_append]
    omega
  refine mapSmall_account hargs.flag_lt hargs.vaddr_aligned (by omega) ⟨hret₂, hready, hmid.mapvaddr⟩ rfl
    (by rw [hlen]; exact hsz) (by rwa [hlen]) (fun j hj => ?_)
    (fun _ => largeStage_off_tail hargs h hle) (fun hne hlt => ?_) (fun a ha => h.data a ?_) hrun
  · rw [hlen] at hj ⊢
    have hb := headSize_boundary hargs (by omega)
    rw [pdePath_eq_iff]
    unfold virtRegion
    omega
  · rw [hlen] at hlt
    rw [tail_pde hargs h hhead hmid hret₁ hret₂ hhacc hhrun hmacc hlt]
    have hfirst := hreach 0 (List.length_pos_iff.2 hne)
    rw [Nat.mul_zero, Nat.add_zero] at hfirst
    exact h.pde _ hlt (hfirst hlt) hsz (.inr le_rfl)
  · rw [hdata]
    exact List.mem_append_right _ ha

end Tail

/-! ## The whole call -/

/-- What the loops took, mapped and lost. -/
structure AllocAccount (s : PgTables) (vaddr size : Nat) (m : MapProgress)
    (hs ls ds lost : List Nat) : Prop where
  ledger : Ledger (LargeStage s vaddr size) s m.tables
  data : s.data = hs ++ ds ++ lost ++ m.tables.data
  large : s.large = ls ++ m.tables.large
  stage : ∀ i < ls.length, LargeStage s vaddr size (vaddr + 0x1000 * hs.length + 0x200000 * i)
  lost : LosesFrame s vaddr size ∧ m.ret = ENOMEM ∧ lost ≠ [] ∨ ¬ LosesFrame s vaddr size ∧ lost = []

/-- Where the tail is not reached, it loses nothing. -/
theorem not_losesFrame (hhead : ¬ PtShort (headSize vaddr size) (pdePath vaddr) (.start s vaddr))
    (htail : headSize vaddr size / 0x1000 < s.data.length →
      (size - headSize vaddr size) / 0x200000 ≤ s.large.length → False) :
    ¬ LosesFrame s vaddr size := by
  rintro (hl | ⟨-, hd, hl, -⟩)
  · exact hhead hl
  · exact htail hd hl

section Account

variable {hs ls ds : List Nat} (hargs : AllocCall s vaddr size flag) (h : s.AllocReach vaddr size reach)
  (hhrun : mapHead flag vaddr size (.start s vaddr) = .ok m₁)
  (hhead : SmallRun flag (headSize vaddr size) vaddr reach (.start s vaddr) m₁ hs)

include hargs h hhrun hhead in
/-- The call fails before the first 2 MiB boundary. -/
theorem AllocAccount.of_head (hret : m₁.ret ≠ OK) :
    ∃ lost, AllocAccount s vaddr size m₁ hs [] [] lost := by
  have hacc := mapHead_account hargs h hhrun
  have hlarge : s.large = [] ++ m₁.tables.large := by rw [hhead.mapped.same]; rfl
  have hstage : ∀ i < ([] : List Nat).length,
      LargeStage s vaddr size (vaddr + 0x1000 * hs.length + 0x200000 * i) :=
    fun i hi => absurd hi (Nat.not_lt_zero i)
  have hlen := hhead.len
  rcases hacc.outcome with ⟨hshort, hmem, hlen', a, hdata⟩ | ⟨hno, taken, ht⟩
  · have hnil : hs = [] := List.length_eq_zero_iff.1 (by omega)
    subst hnil
    exact ⟨[a], hacc.ledger, hdata, hlarge, hstage, .inl ⟨.inl hshort, hmem, by simp⟩⟩
  · obtain ⟨hempty, hlt⟩ := ht.failed hret
    have heq := ht.eq_run hhead
    subst heq
    have hdata := ht.data
    rw [hempty, List.append_nil] at hdata
    refine ⟨[], hacc.ledger, ?_, hlarge, hstage, .inr ⟨not_losesFrame hno fun hd _ => ?_, rfl⟩⟩
    · rw [hempty, List.append_nil, List.append_nil, List.append_nil]
      exact hdata
    · change s.data = taken at hdata
      have hlen₀ : m₁.len = 0 + 0x1000 * taken.length := ht.len
      rw [hdata] at hd
      omega

variable (hmrun : mapMiddle flag size m₁ = .ok m₂) (hmid : LargeRun flag vaddr size reach m₁ m₂ ls)
  (hret₁ : m₁.ret = OK)

include hargs h hhrun hhead hret₁ in
theorem head_outcome : ¬ PtShort (headSize vaddr size) (pdePath vaddr) (.start s vaddr) ∧
    SmallTaken (headSize vaddr size) (pdePath vaddr) (.start s vaddr) m₁ hs := by
  rcases (mapHead_account hargs h hhrun).outcome with ⟨-, hmem, -⟩ | ⟨hno, taken, ht⟩
  · exact absurd (hmem.symm.trans hret₁) ENOMEM_ne_OK
  · exact ⟨hno, ht.eq_run hhead ▸ ht⟩

include hargs h hhrun hhead hmrun hret₁ in
theorem middle_account :
    LargeAccount (LargeStage s vaddr size) (size - 0x200000) m₁ m₂ := by
  have hno := (head_outcome hargs h hhrun hhead hret₁).1
  rcases mapMiddle_account hargs h hhead (fun _ => hno) hmrun with hacc | ⟨hne, -⟩
  · exact hacc
  · exact absurd hret₁ hne

include hargs hhead hmid hret₁ in
/-- The 2 MiB pages are those of the middle stage. -/
theorem middle_stage :
    ∀ i < ls.length, LargeStage s vaddr size (vaddr + 0x1000 * hs.length + 0x200000 * i) := by
  intro i hi
  have hhl := head_length hargs hhead hret₁
  have hl := (hhead.head_len hargs).2 hret₁
  have hshort := hmid.short (List.ne_nil_of_length_pos (by omega))
  have hlen := hmid.len
  refine ⟨i, ?_, by omega, by rw [hhl]⟩
  rw [middle_large hhead hmid, List.length_append]
  omega

include hargs h hhrun hhead hmrun hmid hret₁

/-- The call fails at a 2 MiB page. -/
theorem AllocAccount.of_middle (hret₂ : m₂.ret ≠ OK) :
    AllocAccount s vaddr size m₂ hs ls [] [] := by
  have hhacc := mapHead_account hargs h hhrun
  obtain ⟨hno, ht⟩ := head_outcome hargs h hhrun hhead hret₁
  have hmacc := middle_account hargs h hhrun hhead hmrun hret₁
  have hlarge := middle_large hhead hmid
  obtain ⟨hempty, hle⟩ := hmacc.failed hret₂
  refine ⟨hhacc.ledger.trans hmacc.ledger, ?_, hlarge,
    middle_stage hargs hhead hmid hret₁, .inr ⟨not_losesFrame hno fun _ hl => ?_, rfl⟩⟩
  · rw [hmacc.data, List.append_nil, List.append_nil]
    exact ht.data
  · have hhl := (hhead.head_len hargs).2 hret₁
    have hlen := hmid.len
    rw [hlarge, hempty, List.append_nil] at hl
    have hne : m₂.tables.large = [] → ls.length = s.large.length := fun h0 => by
      rw [hlarge, h0, List.append_nil]
    have hsz : 0x200000 ≤ size := by
      by_contra hlt
      rw [mapMiddle, if_neg] at hmrun
      · cases hmrun
        exact hret₂ hret₁
      · rintro ⟨-, hgo⟩
        have := headSize_le vaddr size
        rw [hhl, wsub_eq this.1 hargs.size_lt] at hgo
        omega
    omega

/-- The call gets to the last loop. -/
theorem AllocAccount.of_tail (htrun : mapTail flag size m₂ = .ok m)
    (htail : SmallRun flag size vaddr reach m₂ m ds) (hret₂ : m₂.ret = OK) :
    ∃ lost, AllocAccount s vaddr size m hs ls ds lost := by
  have hhacc := mapHead_account hargs h hhrun
  obtain ⟨hno, ht⟩ := head_outcome hargs h hhrun hhead hret₁
  have hmacc := middle_account hargs h hhrun hhead hmrun hret₁
  have htacc := mapTail_account hargs h hhead hmid hret₁ hret₂ hhacc hhrun hmacc htrun
  obtain ⟨hlen₂, hcount⟩ := middle_len hargs hhead hmid hret₁ hret₂
  have hlarge := middle_large hhead hmid
  have hlarge' : s.large = ls ++ m.tables.large := by rw [hlarge, htail.mapped.same]
  have hledger := (hhacc.ledger.trans hmacc.ledger).trans htacc.ledger
  have hstage := middle_stage hargs hhead hmid hret₁
  have hhl := head_length hargs hhead hret₁
  have hdata₂ : s.data = hs ++ m₂.tables.data := by
    rw [hmacc.data]
    exact ht.data
  have hfit : (size - headSize vaddr size) / 0x200000 ≤ s.large.length := by
    rw [hcount, hlarge, List.length_append]
    omega
  -- the tail is short of a page table exactly when the state before the call says so
  have hiff : PtShort size (pdePath (vaddr + tailStart vaddr size)) m₂ ↔
      LosesFrame s vaddr size := by
    have hpt : m₂.tables.pt =
        if 0 < headSize vaddr size ∧ s.entry (pdePath vaddr) = 0 then s.pt.tail else s.pt := by
      have hpos : hs ≠ [] ↔ 0 < headSize vaddr size := by
        rw [← List.length_pos_iff]
        omega
      rw [hmacc.pt, ht.pt]
      exact if_congr (and_congr_left' hpos) rfl rfl
    have hne : m₂.tables.data ≠ [] ↔ headSize vaddr size / 0x1000 < s.data.length := by
      rw [← List.length_pos_iff, hdata₂, List.length_append]
      omega
    rw [PtShort, hlen₂, hne, hpt]
    constructor
    · rintro ⟨hlt, hd, hz, hp⟩
      rw [tail_pde hargs h hhead hmid hret₁ hret₂ hhacc hhrun hmacc hlt] at hz
      exact .inr ⟨hlt, hd, hfit, hz, hp⟩
    · rintro (hbad | ⟨hlt, hd, -, hz, hp⟩)
      · exact absurd hbad hno
      · rw [tail_pde hargs h hhead hmid hret₁ hret₂ hhacc hhrun hmacc hlt]
        exact ⟨hlt, hd, hz, hp⟩
  rcases htacc.outcome with ⟨hshort, hmem, hlen, a, hdata⟩ | ⟨hnoT, taken, htt⟩
  · have hnil : ds = [] := List.length_eq_zero_iff.1 (by have := htail.len; omega)
    subst hnil
    refine ⟨[a], hledger, ?_, hlarge', hstage, .inl ⟨hiff.1 hshort, hmem, by simp⟩⟩
    rw [hdata₂, hdata, List.append_nil]
    simp
  · have heq := htt.eq_run htail
    subst heq
    refine ⟨[], hledger, ?_, hlarge', hstage, .inr ⟨mt hiff.2 hnoT, rfl⟩⟩
    rw [hdata₂, htt.data, List.append_nil, List.append_assoc]

end Account

theorem mapAllocAt_account (hargs : AllocCall s vaddr size flag) (h : s.AllocReach vaddr size reach) :
    ∃ m hs ls ds lost, AllocRun s vaddr size flag m hs ls ds ∧
      AllocAccount s vaddr size m hs ls ds lost ∧
      mapAllocAt s vaddr size flag =
        if m.ret = OK then .ok (OK, m.tables)
        else if 0 < m.len then do
          let s ← unmapFreeAt m.tables vaddr m.len
          .ok (m.ret, s)
        else .ok (m.ret, m.tables) := by
  obtain ⟨m₁, hs, hrun₁, hhead, hshort⟩ := mapHead_run hargs h
  obtain ⟨m₂, ls, hrun₂, hmid, hls, hret₂⟩ := mapMiddle_run hargs h hhead hshort
  obtain ⟨m, ds, hrun₃, htail, hds, hret⟩ := mapTail_run hargs h hhead hshort hmid hls hret₂
  have hrun := AllocRun.of_runs hargs h hhead hshort hmid htail hls hret₂ hds hret
  suffices hacc : ∃ lost, AllocAccount s vaddr size m hs ls ds lost by
    obtain ⟨lost, hacc⟩ := hacc
    exact ⟨m, hs, ls, ds, lost, hrun, hacc, mapAllocAt_of_loops hrun₁ hrun₂ hrun₃⟩
  by_cases hok₁ : m₁.ret = OK
  · by_cases hok₂ : m₂.ret = OK
    · exact AllocAccount.of_tail hargs h hrun₁ hhead hrun₂ hmid hok₁ hrun₃ htail hok₂
    · have hnil : ds = [] := by_contra fun hne => hok₂ (hds hne)
      rw [mapTail, if_neg hok₂] at hrun₃
      cases hrun₃
      subst hnil
      exact ⟨[], .of_middle hargs h hrun₁ hhead hrun₂ hmid hok₁ hok₂⟩
  · have hls' : ls = [] := by_contra fun hne => hok₁ (hls hne).1
    have hok₂ : m₂.ret ≠ OK := fun h' => hok₁ (hret₂ h')
    have hnil : ds = [] := by_contra fun hne => hok₂ (hds hne)
    rw [mapMiddle, if_neg (fun hc => hok₁ hc.1)] at hrun₂
    cases hrun₂
    rw [mapTail, if_neg hok₁] at hrun₃
    cases hrun₃
    subst hls' hnil
    exact AllocAccount.of_head hargs h hrun₁ hhead hok₁

end Stages

/-! ## Nothing changed, nothing lost -/

/-- Every page is mapped as before, and every frame that was free is free again or a linked table. -/
structure Restored (s s' : PgTables) : Prop where
  translate : ∀ x, translate s' x = translate s x
  small : ∀ f ∈ s.data ++ (s.table ++ s.pt), f ∈ s'.data ++ (s'.table ++ s'.pt) ∨
    f ∈ s'.freedSmall.drop s.freedSmall.length ∨ ∃ q, s'.tableOf q = some f
  large : ∀ f ∈ s.large, f ∈ s'.large ∨ f ∈ s'.freedLarge.drop s.freedLarge.length

/-- `map_alloc_at` returns, and when it returns an error everything is as it was. -/
def FailsClean (s : PgTables) (vaddr size flag : Nat) : Prop :=
  ∃ ret s', mapAllocAt s vaddr size flag = .ok (ret, s') ∧ (ret ≠ OK → Restored s s')

section Clean

variable {s s' : PgTables} {vaddr size flag : Nat} {m : MapProgress} {hs ls ds lost : List Nat}

/-- Whether a page is mapped does not depend on the place in it. -/
theorem translate_none_congr {x y : Nat} (hpath : ptePath x = ptePath y)
    (h : Yaos.translate s y = none) : Yaos.translate s x = none := by
  have hpde : pdePath x = pdePath y := (List.cons.inj hpath).2
  have hpdpte : pdptePath x = pdptePath y := (List.cons.inj hpde).2
  rw [translate_eq] at h ⊢
  rw [hpath, hpde, hpdpte]
  unfold readEntries at h ⊢
  split at h
  · cases h
  · rename_i h₁
    split at h
    · cases h
    · rename_i h₂
      split at h
      · cases h
      · rename_i h₃
        rw [if_neg h₁, if_neg h₂, if_neg h₃]

/-- What has been mapped was not mapped before. -/
theorem AllocRun.unmapped (h : AllocRun s vaddr size flag m hs ls ds)
    (hnone : ∀ x, InRange vaddr size x → Yaos.translate s x = none) {x : Nat}
    (hx : InRange vaddr (0x1000 * hs.length + 0x200000 * ls.length + 0x1000 * ds.length) x) :
    Yaos.translate s x = none := by
  obtain ⟨y, hy, hxy⟩ := hx
  have hlen := h.len
  have hlt := h.len_lt
  have hal := h.parts.aligned
  refine translate_none_congr ?_ (hnone (vaddr + (y - y % 0x1000)) ⟨y - y % 0x1000, by omega, rfl⟩)
  rw [ptePath_eq_iff]
  unfold virtPage
  omega

/-- The state `map_alloc_at` leaves behind when it fails. -/
structure Undone (s s' : PgTables) (m : MapProgress) (vaddr size : Nat) (hs ls ds : List Nat) :
    Prop where
  translate : ∀ x, Yaos.translate s' x = Yaos.translate s x
  ledger : Ledger (LargeStage s vaddr size) s s'
  root : s'.tableOf [] = s.tableOf []
  data : s'.data = m.tables.data
  large : s'.large = m.tables.large
  freedSmall : s'.freedSmall = s.freedSmall ++ (hs ++ ds)
  freedLarge : s'.freedLarge = s.freedLarge ++ ls

/-- Unmapping keeps all tables. -/
theorem FreedParts.ledger {V : Nat → Prop} (h : FreedParts s s' vaddr hs ls ds)
    (hV : ∀ i < ls.length, V (vaddr + 0x1000 * hs.length + 0x200000 * i)) : Ledger V s s' := by
  have hoff : ∀ q : List (Fin 512), q.length < 4 →
      ¬ LargePaths (vaddr + 0x1000 * hs.length) ls.length q → s'.entry q = s.entry q := by
    intro q hq hl
    refine h.off q ?_
    rintro (hs | hl' | hs)
    · exact not_smallPaths_of_length (by omega) hs
    · exact hl hl'
    · exact not_smallPaths_of_length (by omega) hs
  refine .of_entries (by rw [h.same]) (by rw [h.same]) (fun q hq => hoff q hq.1 ?_)
    fun q hq hlink => hoff q hq ?_
  · rintro ⟨i, hi, hsuf⟩
    exact hq.2 _ (hV i hi) hsuf
  · rintro ⟨i, hi, hsuf⟩
    rw [← hsuf.eq_of_length_le (by rw [length_pdePath]; omega), h.large i hi] at hlink
    exact hlink.ne_zero rfl

theorem AllocRun.undone (h : AllocRun s vaddr size flag m hs ls ds)
    (hacc : AllocAccount s vaddr size m hs ls ds lost) (hready : s.AllocReach vaddr size size)
    (hf : flag < 0x1000) (hp : Present flag)
    (hnone : ∀ x, InRange vaddr size x → Yaos.translate s x = none) (hret : m.ret ≠ OK)
    (heq : mapAllocAt s vaddr size flag =
      if m.ret = OK then .ok (OK, m.tables)
      else if 0 < m.len then do
        let s ← unmapFreeAt m.tables vaddr m.len
        .ok (m.ret, s)
      else .ok (m.ret, m.tables)) :
    ∃ s', mapAllocAt s vaddr size flag = .ok (m.ret, s') ∧ Undone s s' m vaddr size hs ls ds := by
  have hlen := h.len
  rw [heq, if_neg hret]
  by_cases hpos : 0 < m.len
  · obtain ⟨s', hrun, hfreed⟩ := h.unmap hready hf hp rfl
    rw [if_pos hpos, hrun]
    have hroot : s'.pml4 = s.pml4 := by rw [hfreed.same, h.same]
    refine ⟨s', rfl, ⟨fun x => ?_, hacc.ledger.trans (hfreed.ledger hacc.stage),
      congrArg some hroot, by rw [hfreed.same], by rw [hfreed.same], by rw [hfreed.same, h.same],
      by rw [hfreed.same, h.same]⟩⟩
    by_cases hx : InRange vaddr
        (0x1000 * hs.length + 0x200000 * ls.length + 0x1000 * ds.length) x
    · have hopen : m.tables.OpenAt x := by
        obtain ⟨y, hy, hxy⟩ := hx
        exact (h.openAt (by omega : y < m.len)).region (pdePath_congr hxy)
      rw [hfreed.translate_none h.parts (h.holds hready hf hp) hopen hx, h.unmapped hnone hx]
    · exact h.parts.translate_off (fun q hq => (h.off q hq).trans (.inl (hfreed.off q hq))) hx
  -- nothing was mapped, so nothing is unmapped
  · have hhs : hs = [] := List.length_eq_zero_iff.1 (by omega)
    have hls : ls = [] := List.length_eq_zero_iff.1 (by omega)
    have hds : ds = [] := List.length_eq_zero_iff.1 (by omega)
    subst hhs hls hds
    rw [if_neg hpos]
    have hroot : m.tables.pml4 = s.pml4 := by rw [h.same]
    refine ⟨m.tables, rfl, ⟨fun x => h.parts.translate_off h.off ?_, hacc.ledger,
      congrArg some hroot, rfl, rfl, ?_, ?_⟩⟩
    · rintro ⟨y, hy, -⟩
      exact absurd hy (Nat.not_lt_zero y)
    · rw [h.same, List.append_nil, List.append_nil]
    · rw [h.same, List.append_nil]

theorem Undone.restored (h : Undone s s' m vaddr size hs ls ds)
    (hacc : AllocAccount s vaddr size m hs ls ds []) : Restored s s' where
  translate := h.translate
  small := fun f hf => by
    rcases List.mem_append.1 hf with hf | hf
    · rw [hacc.data, List.append_nil] at hf
      rcases List.mem_append.1 hf with hf | hf
      · right; left
        rwa [h.freedSmall, List.drop_left]
      · exact .inl (List.mem_append_left _ (h.data ▸ hf))
    · rcases h.ledger.linked f hf with hf | ⟨q, hq, hlink, hdown⟩
      · exact .inl (List.mem_append_right _ hf)
      · right; right
        cases q with
        | nil => exact absurd rfl hlink.ne_zero
        | cons n p =>
            refine ⟨n :: p, ?_⟩
            rw [PgTables.tableOf_link ⟨by simp, Nat.le_of_lt_succ hq.1⟩ hlink, hdown]
  large := fun f hf => by
    rw [hacc.large] at hf
    rcases List.mem_append.1 hf with hf | hf
    · right
      rwa [h.freedLarge, List.drop_left]
    · exact .inl (h.large ▸ hf)

/-- A lost frame is neither free nor a table. -/
theorem Undone.not_restored (h : Undone s s' m vaddr size hs ls ds)
    (hacc : AllocAccount s vaddr size m hs ls ds lost) (hne : lost ≠ [])
    (hnodup : s.data.Nodup) (hframe : ∀ a ∈ s.data, Frame a)
    (hunused : ∀ a ∈ s.data, a ∉ s.table ++ s.pt ∧ ∀ q, s.tableOf q ≠ some a) :
    ¬ Restored s s' := by
  intro hres
  obtain ⟨a, rest, rfl⟩ := List.exists_cons_of_ne_nil hne
  have hmem : a ∈ s.data := by
    rw [hacc.data]
    simp
  have hdis : a ∉ hs ++ ds ∧ a ∉ m.tables.data := by
    have hnd := hnodup
    rw [hacc.data, List.append_assoc, List.nodup_append] at hnd
    obtain ⟨-, hnd₂, hnd₃⟩ := hnd
    refine ⟨fun ha => hnd₃ a ha a (by simp) rfl, fun ha => ?_⟩
    rw [List.cons_append, List.nodup_cons] at hnd₂
    exact hnd₂.1 (List.mem_append_right _ ha)
  rcases hres.small a (List.mem_append_left _ hmem) with hin | hin | ⟨q, hq⟩
  · rcases List.mem_append.1 hin with hin | hin
    · exact hdis.2 (h.data ▸ hin)
    · exact (hunused a hmem).1 (h.ledger.subset hin)
  · rw [h.freedSmall, List.drop_left] at hin
    exact hdis.1 hin
  · cases q with
    | nil =>
        have hroot : s.tableOf [] = some a := by rwa [← h.root]
        exact (hunused a hmem).2 [] hroot
    | cons n p =>
        rw [PgTables.tableOf_cons, pgLink] at hq
        split at hq
        · rename_i hgo
          have hdown := Option.some.inj hq
          have hlink : IsLink (s'.entry (n :: p)) := ⟨hgo.2.1, hgo.2.2, by
            rw [hdown]
            exact hframe a hmem⟩
          rcases h.ledger.fresh (n :: p) (by simp; omega) hlink with heq | hin
          · refine (hunused a hmem).2 (n :: p) ?_
            rw [heq] at hlink hdown
            rw [PgTables.tableOf_link ⟨by simp, by simp; omega⟩ hlink, hdown]
          · exact (hunused a hmem).1 (hdown ▸ hin)
        · cases hq

/-- Frames for data that are not at the same time frames for tables. -/
def PgTables.DataApart (s : PgTables) : Prop :=
  ∀ a ∈ s.data, a ∉ s.table ++ s.pt ∧ ∀ q, s.tableOf q ≠ some a

section Whole

variable (hargs : AllocArgs s vaddr size flag) (hp : Present flag) (htables : s.RangeTables vaddr size)
  (hpde : ∀ x, InRange vaddr size x → PdeOpens (s.entry (pdePath x)))
  (hnone : ∀ x, InRange vaddr size x → Yaos.translate s x = none)

include hargs hp htables hpde hnone

theorem mapAllocAt_clean (hno : ¬ LosesFrame s vaddr size) : FailsClean s vaddr size flag := by
  have hready := (htables.ready fun x hx =>
    .of_unmapped (htables.upper x hx) (hpde x hx) (hnone x hx)).reach
  obtain ⟨m, hs, ls, ds, lost, hrun, hacc, heq⟩ := mapAllocAt_account hargs.call hready
  by_cases hret : m.ret = OK
  · exact ⟨OK, m.tables, by rw [heq, if_pos hret], fun hne => absurd rfl hne⟩
  · obtain ⟨s', hfail, hundone⟩ := hrun.undone hacc hready hargs.flag_lt hp hnone hret heq
    rcases hacc.lost with ⟨hloses, -⟩ | ⟨-, rfl⟩
    · exact absurd hloses hno
    · exact ⟨m.ret, s', hfail, fun _ => hundone.restored hacc⟩

theorem mapAllocAt_loses (hapart : s.DataApart) (hloses : LosesFrame s vaddr size) :
    ¬ FailsClean s vaddr size flag := by
  have hready := (htables.ready fun x hx =>
    .of_unmapped (htables.upper x hx) (hpde x hx) (hnone x hx)).reach
  obtain ⟨m, hs, ls, ds, lost, hrun, hacc, heq⟩ := mapAllocAt_account hargs.call hready
  rcases hacc.lost with ⟨-, hmem, hne⟩ | ⟨hno, -⟩
  · have hret : m.ret ≠ OK := fun h => ENOMEM_ne_OK (hmem.symm.trans h)
    obtain ⟨s', hfail, hundone⟩ := hrun.undone hacc hready hargs.flag_lt hp hnone hret heq
    rintro ⟨ret, s'', h, hres⟩
    rw [hfail] at h
    obtain ⟨rfl, rfl⟩ := Prod.mk.inj (Except.ok.inj h)
    exact hundone.not_restored hacc hne htables.fresh.data_nodup htables.fresh.data hapart (hres hret)
  · exact absurd hloses hno

/-- On a range of which no page is mapped, a failing `map_alloc_at` restores everything exactly when
    it is not short of a page table for a frame it already holds. -/
theorem mapAllocAt_failsClean_iff (hapart : s.DataApart) :
    FailsClean s vaddr size flag ↔ ¬ LosesFrame s vaddr size :=
  ⟨fun h hl => mapAllocAt_loses hargs hp htables hpde hnone hapart hl h,
    mapAllocAt_clean hargs hp htables hpde hnone⟩

end Whole

end Clean

/-! ## Two failing calls -/

theorem emptySpace_tableOf_ne {data pt table large : List Nat} {b : Nat} (hb : b ≠ 0x1000)
    (q : List (Fin 512)) : (emptySpace data pt table large).tableOf q ≠ some b := by
  cases q with
  | nil => exact fun h => hb (Option.some.inj h).symm
  | cons n p =>
      rw [PgTables.tableOf_cons, emptySpace_entry, pgLink_zero]
      exact Option.some_ne_none b ∘ Eq.symm

theorem emptySpace_dataApart {data pt table large : List Nat}
    (h : ∀ a ∈ data, a ∉ table ++ pt ∧ a ≠ 0x1000) : (emptySpace data pt table large).DataApart :=
  fun a ha => ⟨(h a ha).1, emptySpace_tableOf_ne (h a ha).2⟩

/-- As `onePage`, without a frame for the page table. -/
def noPageTable : PgTables := emptySpace [0x5000] [] [0x2000, 0x3000] []

theorem noPageTable_rangeTables : noPageTable.RangeTables 0x1000 0x1000 :=
  emptySpace_rangeTables (emptySpace_sound (by decide) (by decide))
    { data := by decide
      large := by decide
      data_nodup := by decide
      large_nodup := by decide
      apart := by decide } le_rfl fun _ => inRange_first (by decide)

/-- Two pages are asked for and there is a frame for one: it is unmapped and freed again. -/
theorem mapAllocAt_failsClean_iff_onePage :
    FailsClean (onePage 0x5000) 0x1000 0x2000 0x3 ∧ ¬ LosesFrame (onePage 0x5000) 0x1000 0x2000 := by
  have hno : ¬ LosesFrame (onePage 0x5000) 0x1000 0x2000 := by
    rintro (⟨-, -, -, h⟩ | ⟨h, -⟩)
    · exact absurd h (by decide)
    · exact absurd h (by decide)
  have hlow : ∀ a ∈ [0x5000], a < 0x200000 := by decide
  have hargs : AllocArgs (onePage 0x5000) 0x1000 0x2000 0x3 :=
    ⟨by decide, by decide, by decide, fun j a ha _ => hlow a (List.mem_of_getElem? ha), by decide, by decide⟩
  have hapart : (onePage 0x5000).DataApart := by
    change (emptySpace [0x5000] [0x4000] [0x2000, 0x3000] []).DataApart
    exact emptySpace_dataApart (by decide)
  exact ⟨(mapAllocAt_failsClean_iff hargs (by decide) (onePage_rangeTables (by decide) (by decide))
    (fun _ _ => .inl (.inl (onePage_entry _ _))) (fun _ _ => onePage_unmapped _ _) hapart).2 hno, hno⟩

/-- The frame for the page is taken, the page table cannot be made, and the frame is gone. -/
theorem mapAllocAt_loses_frame :
    (∀ x, InRange 0x1000 0x1000 x → translate noPageTable x = none) ∧
      (∃ s', mapAllocAt noPageTable 0x1000 0x1000 0x3 = .ok (ENOMEM, s') ∧ s'.data = [] ∧
        s'.freedSmall = []) ∧
      ¬ FailsClean noPageTable 0x1000 0x1000 0x3 := by
  have hunmapped : ∀ x, translate noPageTable x = none := emptySpace_unmapped _ _ _ _
  have hlow : ∀ a ∈ [0x5000], a < 0x200000 := by decide
  have hargs : AllocArgs noPageTable 0x1000 0x1000 0x3 :=
    ⟨by decide, by decide, by decide, fun j a ha _ => hlow a (List.mem_of_getElem? ha), by decide, by decide⟩
  have hobs : (mapAllocAt noPageTable 0x1000 0x1000 0x3).map (fun r => (r.1, r.2.data, r.2.freedSmall)) =
      .ok (ENOMEM, [], []) := by
    decide +kernel
  obtain ⟨⟨ret, s'⟩, hrun, hs⟩ := map_eq_ok.1 hobs
  simp only [Prod.mk.injEq] at hs
  obtain ⟨rfl, hdata, hfreed⟩ := hs
  refine ⟨fun x _ => hunmapped x, ⟨s', hrun, hdata, hfreed⟩, ?_⟩
  exact mapAllocAt_loses hargs (by decide) noPageTable_rangeTables
    (fun _ _ => .inl (.inl (emptySpace_entry ..))) (fun x _ => hunmapped x)
    (emptySpace_dataApart (by decide)) (.inl ⟨by decide, by decide, emptySpace_entry .., rfl⟩)

end Yaos
