import Yaos.Boot.Pml4
import Yaos.PageTable.Giant
import Mathlib.Order.Interval.Finset.Nat

set_option autoImplicit false

/-! # The direct map after boot

After the first two passes the contents of all tables are known (`Booted`); they form a tree and map the
first GiB of RAM twice. The last pass is a loop of `map_page_p2v`: each round maps 2 MiB and leaves the
rest of the address space alone, and the tables it still needs are counted by the entries on its way
that lead to no table yet. -/

namespace Yaos

open Word TableTree

/-- The static tables in the order of their declarations. -/
def BootTables.frames (t : BootTables) : List Nat :=
  [t.firstPdp, t.secondPdp, t.firstPd, t.secondPd, t.thirdPd, t.fourthPd, t.phyFirstPd, t.phySecondPd,
    t.phyThirdPd, t.phyFourthPd]

/-- The static tables and the frames of the source are page frames, all different. -/
structure BootReady (t : BootTables) (s : PgTables) : Prop where
  frame : ∀ f ∈ s.pml4 :: t.frames ++ (s.table ++ s.pt), Frame f
  nodup : (s.pml4 :: t.frames ++ (s.table ++ s.pt)).Nodup

/-! ## The first pass -/

/-- The number of 1 GiB pages that cover `[0, maxPhyMemAddr)`. -/
def gigabytes (maxPhyMemAddr : Nat) : Nat := (maxPhyMemAddr + 0x3fffffff) / 0x40000000

/-- `first_pdp` with its first `m` entries written. -/
def gigaRow (m : Nat) (n : Fin 512) : Nat :=
  if n < m then n * 0x40000000 ||| pteP ||| pteW ||| ptePS else 0

theorem gigaRow_step {m : Nat} (hm : m < 512) :
    Function.update (gigaRow m) (Fin.ofNat 512 m) (m * 0x40000000 ||| pteP ||| pteW ||| ptePS) =
      gigaRow (m + 1) := by
  funext n
  by_cases hn : n = Fin.ofNat 512 m
  · subst hn
    have hval : ((Fin.ofNat 512 m : Fin 512) : Nat) = m := Nat.mod_eq_of_lt hm
    rw [Function.update_self, gigaRow, hval, if_pos (Nat.lt_succ_self m)]
  · have hval : (n : Nat) ≠ m := fun h => hn (Fin.ext (h.trans (Nat.mod_eq_of_lt hm).symm))
    rw [Function.update_of_ne hn, gigaRow, gigaRow]
    by_cases hlt : (n : Nat) < m
    · rw [if_pos hlt, if_pos (by omega)]
    · rw [if_neg hlt, if_neg (by omega)]

/-- From 512 on there is no further entry. -/
theorem gigaRow_full {m : Nat} (hm : 512 ≤ m) : gigaRow m = gigaRow 512 := by
  funext n
  have := n.isLt
  rw [gigaRow, gigaRow, if_pos (by omega), if_pos this]

theorem physVirt_index {m : Nat} (hm : m < 512) :
    tableIndex pml4Shift (physVirtStart + m * 0x40000000) = 260 ∧
      tableIndex pdpShift (physVirtStart + m * 0x40000000) = Fin.ofNat 512 m := by
  unfold physVirtStart
  constructor
  · apply Fin.ext
    show (0xffff820000000000 + m * 0x40000000) / 2 ^ 39 % 512 = 260
    omega
  · apply Fin.ext
    show (0xffff820000000000 + m * 0x40000000) / 2 ^ 30 % 512 = m % 512
    omega

theorem mapGigabytes_row {t : BootTables} {maxPhyMemAddr fuel m : Nat} {s : PgTables}
    (hne : t.firstPdp ≠ s.pml4) (hpml4 : ∀ n, s.frames s.pml4 n ≠ 0 ↔ n = 260)
    (hrow : s.frames t.firstPdp = gigaRow m) (hm : m ≤ 512) (hle : m ≤ gigabytes maxPhyMemAddr)
    (hfuel : gigabytes maxPhyMemAddr < m + fuel) :
    mapGigabytes t maxPhyMemAddr fuel (m * 0x40000000) (physVirtStart + m * 0x40000000) s =
      .ok (s.fillStatic t.firstPdp (gigaRow (gigabytes maxPhyMemAddr))) := by
  -- on the rounds; row `m` of the table is the one after `m` GiB
  induction fuel generalizing m s with
  | zero => omega
  | succ fuel ih =>
      have hdone : s.fillStatic t.firstPdp (gigaRow m) = s := by
        rw [PgTables.fillStatic, ← hrow, Function.update_eq_self]
      unfold mapGigabytes
      by_cases hlt : m * 0x40000000 < maxPhyMemAddr
      · rw [if_pos hlt]
        by_cases hfull : m = 512
        · -- the next PML4 entry is empty
          subst hfull
          have hidx : tableIndex pml4Shift (physVirtStart + 512 * 0x40000000) ≠ 260 := by decide
          rw [if_pos (not_not.1 fun h => hidx ((hpml4 _).1 h)), gigaRow_full, hdone]
          unfold gigabytes
          omega
        · have hlt512 : m < 512 := by omega
          obtain ⟨hidx, hidx'⟩ := physVirt_index hlt512
          have hV2P : V2P (physVirtStart + m * 0x40000000) = .ok (m * 0x40000000) := by
            rw [V2P_eq ⟨Nat.le_add_right _ _, by unfold physVirtStart physVirtEnd; omega⟩,
              Nat.add_sub_cancel_left]
          have hlen : wadd (m * 0x40000000) 0x40000000 = (m + 1) * 0x40000000 := by
            unfold wadd
            omega
          have hvaddr : wadd (physVirtStart + m * 0x40000000) 0x40000000 =
              physVirtStart + (m + 1) * 0x40000000 := by
            unfold wadd physVirtStart
            omega
          have hnext : m + 1 ≤ gigabytes maxPhyMemAddr := by
            unfold gigabytes
            omega
          rw [if_neg (by rw [hidx]; exact (hpml4 260).2 rfl), hV2P, ok_bind, hidx', hlen, hvaddr]
          rw [ih]
          · simp [PgTables.fillStatic, PgTables.setStatic, setEntry]
          · exact hne
          · intro n
            show setEntry s.frames t.firstPdp _ _ s.pml4 n ≠ 0 ↔ n = 260
            rw [setEntry_frame _ _ _ hne.symm]
            exact hpml4 n
          · show setEntry s.frames t.firstPdp _ _ t.firstPdp = _
            rw [setEntry, Function.update_self, hrow, gigaRow_step hlt512]
          · exact hlt512
          · exact hnext
          · omega
      · have heq : m = gigabytes maxPhyMemAddr := by
          unfold gigabytes at hle ⊢
          omega
        rw [if_neg hlt, ← heq, hdone]

/-! ## The tables after the second pass -/

/-- The flags of a link. -/
theorem or_link (f : Nat) : f ||| pteP ||| pteW = f ||| (pteP ||| pteW) := Nat.lor_assoc ..

/-- What the tables hold. -/
structure Booted (t : BootTables) (maxPhyMemAddr : Nat) (s : PgTables) : Prop where
  pml4 : ∀ n, s.frames s.pml4 n =
    if n = 511 then t.secondPdp ||| (pteP ||| pteW)
    else if n = 260 then t.firstPdp ||| (pteP ||| pteW) else 0
  firstPdp : ∀ n, s.frames t.firstPdp n =
    if n = 3 then t.phyFourthPd ||| (pteP ||| pteW)
    else if n = 2 then t.phyThirdPd ||| (pteP ||| pteW)
    else if n = 1 then t.phySecondPd ||| (pteP ||| pteW)
    else if n = 0 then t.phyFirstPd ||| (pteP ||| pteW)
    else gigaRow (gigabytes maxPhyMemAddr) n
  secondPdp : ∀ n, s.frames t.secondPdp n =
    if n = 511 then t.secondPd ||| (pteP ||| pteW)
    else if n = 510 then t.firstPd ||| (pteP ||| pteW) else 0
  firstPd : s.frames t.firstPd = bootPde 0
  secondPd : s.frames t.secondPd = bootPde 1
  phyFirstPd : s.frames t.phyFirstPd = bootPde 0
  phySecondPd : s.frames t.phySecondPd = bootPde 1
  phyThirdPd : s.frames t.phyThirdPd = bootPde 2
  phyFourthPd : s.frames t.phyFourthPd = bootPde 3

section Tables

variable {t : BootTables} {s : PgTables} {maxPhyMemAddr : Nat}

/-- The state before the last pass. -/
def bootTables (t : BootTables) (maxPhyMemAddr : Nat) (s : PgTables) : PgTables :=
  fillPds t (linkKernelPds t (linkPhyPds t
    ((((s.fillStatic s.pml4 fun _ => 0).fillStatic t.firstPdp fun _ => 0).fillStatic t.secondPdp
      fun _ => 0).setStatic s.pml4 260 (t.firstPdp ||| pteP ||| pteW)
      |>.fillStatic t.firstPdp (gigaRow (gigabytes maxPhyMemAddr)))))

theorem linkPhyPds_eq (t : BootTables) (s : PgTables) :
    linkPhyPds t s =
      (((s.setStatic t.firstPdp 0 (t.phyFirstPd ||| pteP ||| pteW)).setStatic t.firstPdp 1
        (t.phySecondPd ||| pteP ||| pteW)).setStatic t.firstPdp 2
        (t.phyThirdPd ||| pteP ||| pteW)).setStatic t.firstPdp 3
        (t.phyFourthPd ||| pteP ||| pteW) := rfl

theorem linkKernelPds_eq (t : BootTables) (s : PgTables) :
    linkKernelPds t s =
      ((s.setStatic s.pml4 511 (t.secondPdp ||| pteP ||| pteW)).setStatic t.secondPdp 510
        (t.firstPd ||| pteP ||| pteW)).setStatic t.secondPdp 511
        (t.secondPd ||| pteP ||| pteW) := rfl

theorem bootTables_booted (hnodup : (s.pml4 :: t.frames).Nodup) :
    Booted t maxPhyMemAddr (bootTables t maxPhyMemAddr s) := by
  simp only [BootTables.frames, List.nodup_cons, List.mem_cons, List.not_mem_nil, or_false, not_or,
    List.nodup_nil, and_true, not_false_eq_true] at hnodup
  have hpml4 : t.firstPdp ≠ s.pml4 ∧ t.secondPdp ≠ s.pml4 := ⟨Ne.symm hnodup.1.1, Ne.symm hnodup.1.2.1⟩
  have hpdp : t.secondPdp ≠ t.firstPdp := Ne.symm hnodup.2.1.1
  refine ⟨fun n => ?_, fun n => ?_, fun n => ?_, ?_, ?_, ?_, ?_, ?_, ?_⟩ <;>
    simp [bootTables, fillPds, linkKernelPds_eq, linkPhyPds_eq, PgTables.fillStatic,
      PgTables.setStatic, setEntry, Function.update_apply, hnodup, hpml4, hpdp, or_link]

/-- An entry of a static page directory is a 2 MiB page. -/
theorem bootPde_flags (k : Nat) (i : Fin 512) : bootPde k i % 0x1000 = 0x83 := by
  have hor : (i + k * 512) * 0x200000 ||| ptePS ||| pteW ||| pteP =
      (i + k * 512) * 0x200000 + 0x83 := by
    rw [Nat.lor_assoc, Nat.lor_assoc]
    exact or_flags (by omega) (by decide)
  rw [bootPde, hor, signExtend]
  split <;> omega

theorem bootPde_zero (i : Fin 512) : bootPde 0 i = i * 0x200000 + 0x83 := by
  have hi := i.isLt
  have hor : (i + 0 * 512) * 0x200000 ||| ptePS ||| pteW ||| pteP = i * 0x200000 + 0x83 := by
    rw [Nat.lor_assoc, Nat.lor_assoc, Nat.zero_mul, Nat.add_zero]
    exact or_flags (by omega) (by decide)
  rw [bootPde, hor, signExtend, if_pos (by omega)]
  omega

theorem bootPde_page (k : Nat) (i : Fin 512) : Present (bootPde k i) ∧ Large (bootPde k i) := by
  have := bootPde_flags k i
  omega

theorem gigaRow_page {m : Nat} {n : Fin 512} (h : n < m) : gigaRow m n = n * 0x40000000 + 0x83 := by
  rw [gigaRow, if_pos h, Nat.lor_assoc, Nat.lor_assoc]
  exact or_flags (by omega) (by decide)

/-- The tables and their paths. -/
def bootLinks (t : BootTables) (pml4 : Nat) : List (List (Fin 512) × Nat) :=
  [([], pml4), ([260], t.firstPdp), ([511], t.secondPdp), ([510, 511], t.firstPd),
    ([511, 511], t.secondPd), ([0, 260], t.phyFirstPd), ([1, 260], t.phySecondPd),
    ([2, 260], t.phyThirdPd), ([3, 260], t.phyFourthPd)]

theorem pgLink_page {d e : Nat} (h : Large e) : pgLink d e = none := by
  rw [pgLink, if_neg fun h' => h'.2.2 h]

theorem gigaRow_unlinked (d m : Nat) (n : Fin 512) : pgLink d (gigaRow m n) = none := by
  by_cases h : (n : Nat) < m
  · rw [gigaRow_page h]
    exact pgLink_page (by omega)
  · rw [gigaRow, if_neg h, pgLink_zero]

/-- A link to a static table. -/
theorem pgLink_static {d f : Nat} (hf : Frame f) (hd : d < 3) :
    pgLink d (f ||| (pteP ||| pteW)) = some f := by
  obtain ⟨hlink, hdown⟩ := isLink_or hf linkFlags_rw.lt linkFlags_rw.present linkFlags_rw.small
  rw [hlink.pgLink_eq hd, hdown]

theorem Booted.tableOf_one (h : Booted t maxPhyMemAddr s) (hframe : ∀ f ∈ t.frames, Frame f)
    {n : Fin 512} {f : Nat} (hn : s.tableOf [n] = some f) :
    n = 511 ∧ f = t.secondPdp ∨ n = 260 ∧ f = t.firstPdp := by
  rw [PgTables.tableOf_cons, PgTables.entry_cons rfl, h.pml4] at hn
  split at hn
  case isTrue h511 =>
    rw [pgLink_static (hframe t.secondPdp (by simp [BootTables.frames])) (by simp)] at hn
    exact .inl ⟨h511, (Option.some.inj hn).symm⟩
  case isFalse =>
    split at hn
    case isTrue h260 =>
      rw [pgLink_static (hframe t.firstPdp (by simp [BootTables.frames])) (by simp)] at hn
      exact .inr ⟨h260, (Option.some.inj hn).symm⟩
    case isFalse =>
      rw [pgLink_zero] at hn
      cases hn

/-- A table has a parent. -/
theorem PgTables.tableOf_parent {n : Fin 512} {p : List (Fin 512)} {f : Nat}
    (h : s.tableOf (n :: p) = some f) : ∃ g, s.tableOf p = some g := by
  cases hp : s.tableOf p with
  | none =>
      have hnone : s.tableOf (n :: p) = none := tableAt_none_of_suffix (List.suffix_cons n p) hp
      rw [hnone] at h
      cases h
  | some g => exact ⟨g, rfl⟩

theorem Booted.tableOf_two (h : Booted t maxPhyMemAddr s) (hframe : ∀ f ∈ t.frames, Frame f)
    {m n : Fin 512} {f : Nat} (hm : s.tableOf [m, n] = some f) :
    ([m, n], f) ∈ (bootLinks t s.pml4).drop 3 := by
  have hstatic : ∀ g ∈ t.frames, pgLink 1 (g ||| (pteP ||| pteW)) = some g := fun g hg =>
    pgLink_static (hframe g hg) (by decide)
  simp only [BootTables.frames, List.forall_mem_cons] at hstatic
  obtain ⟨-, -, h₁, h₂, -, -, h₃, h₄, h₅, h₆, -⟩ := hstatic
  obtain ⟨g, hg⟩ := PgTables.tableOf_parent hm
  rw [PgTables.tableOf_cons, PgTables.entry_cons hg] at hm
  rcases h.tableOf_one hframe hg with ⟨rfl, rfl⟩ | ⟨rfl, rfl⟩
  · rw [h.secondPdp] at hm
    split_ifs at hm with ha hb
    · simp [bootLinks, ha, ← Option.some.inj (h₂.symm.trans hm)]
    · simp [bootLinks, hb, ← Option.some.inj (h₁.symm.trans hm)]
    · rw [pgLink_zero] at hm
      cases hm
  · rw [h.firstPdp] at hm
    split_ifs at hm with ha hb hc hd
    · simp [bootLinks, ha, ← Option.some.inj (h₆.symm.trans hm)]
    · simp [bootLinks, hb, ← Option.some.inj (h₅.symm.trans hm)]
    · simp [bootLinks, hc, ← Option.some.inj (h₄.symm.trans hm)]
    · simp [bootLinks, hd, ← Option.some.inj (h₃.symm.trans hm)]
    · rw [gigaRow_unlinked] at hm
      cases hm

/-- The page directories hold pages only. -/
theorem Booted.tableOf_three (h : Booted t maxPhyMemAddr s) (hframe : ∀ f ∈ t.frames, Frame f)
    {p : List (Fin 512)} (hp : 3 ≤ p.length) : s.tableOf p = none := by
  induction p with
  | nil => exact absurd hp (by decide)
  | cons k p ih =>
      by_cases hlong : 3 ≤ p.length
      · exact tableAt_none_of_suffix (List.suffix_cons k p) (ih hlong)
      · have hrow : ∀ f, s.tableOf p = some f → ∃ i, s.frames f = bootPde i := by
          match p, hp, hlong with
          | [m, n], _, _ =>
              intro f hf
              have hmem := h.tableOf_two hframe hf
              simp only [bootLinks, List.drop_succ_cons, List.drop_zero, List.mem_cons,
                List.not_mem_nil, or_false, Prod.mk.injEq] at hmem
              rcases hmem with ⟨-, rfl⟩ | ⟨-, rfl⟩ | ⟨-, rfl⟩ | ⟨-, rfl⟩ | ⟨-, rfl⟩ | ⟨-, rfl⟩
              · exact ⟨0, h.firstPd⟩
              · exact ⟨1, h.secondPd⟩
              · exact ⟨0, h.phyFirstPd⟩
              · exact ⟨1, h.phySecondPd⟩
              · exact ⟨2, h.phyThirdPd⟩
              · exact ⟨3, h.phyFourthPd⟩
          | _ :: _ :: _ :: _, _, hlong => exact absurd (by simp) hlong
        cases hf : s.tableOf p with
        | none => exact tableAt_none_of_suffix (List.suffix_cons k p) hf
        | some f =>
            obtain ⟨i, hi⟩ := hrow f hf
            rw [PgTables.tableOf_cons, PgTables.entry_cons hf, hi]
            exact pgLink_page (bootPde_page i k).2

theorem Booted.mem_links (h : Booted t maxPhyMemAddr s) (hframe : ∀ f ∈ t.frames, Frame f)
    {p : List (Fin 512)} {f : Nat} (hp : s.tableOf p = some f) : (p, f) ∈ bootLinks t s.pml4 := by
  match p with
  | [] =>
      have hf : s.pml4 = f := Option.some.inj hp
      simp [bootLinks, hf]
  | [n] =>
      rcases h.tableOf_one hframe hp with ⟨rfl, rfl⟩ | ⟨rfl, rfl⟩ <;> simp [bootLinks]
  | [m, n] => exact List.mem_of_mem_drop (h.tableOf_two hframe hp)
  | k :: m :: n :: p =>
      rw [h.tableOf_three hframe (by simp)] at hp
      cases hp

theorem Booted.sound (h : Booted t maxPhyMemAddr s) (hready : BootReady t s) : s.Sound := by
  have hframe : ∀ f ∈ t.frames, Frame f := fun f hf => hready.frame f (by simp [hf])
  have hsub : ((bootLinks t s.pml4).map Prod.snd).Sublist (s.pml4 :: t.frames) := by
    simp [bootLinks, BootTables.frames]
  have hnodup := hready.nodup
  have hlinks := hnodup.of_append_left.sublist hsub
  refine ⟨fun p q f hp hq => ?_, ?_, fun f hf => hready.frame f ?_, fun f hf p hp => ?_, ?_⟩
  · have hpq := List.inj_on_of_nodup_map hlinks (h.mem_links hframe hp) (h.mem_links hframe hq) rfl
    exact congrArg Prod.fst hpq
  · exact (hready.frame s.pml4 (by simp)).lt
  · exact List.mem_append_right _ hf
  · have hmem := hsub.subset (List.mem_map_of_mem (h.mem_links hframe hp))
    exact List.disjoint_of_nodup_append hnodup hmem hf
  · exact hnodup.of_append_right

theorem isLink_static {f : Nat} (hf : Frame f) :
    IsLink (f ||| (pteP ||| pteW)) ∧ alignDown 0x1000 (f ||| (pteP ||| pteW)) = f :=
  isLink_or hf linkFlags_rw.lt linkFlags_rw.present linkFlags_rw.small

theorem Booted.tableOf_first (h : Booted t maxPhyMemAddr s) (hf : Frame t.firstPdp) :
    s.tableOf [260] = some t.firstPdp := by
  rw [PgTables.tableOf_cons, PgTables.entry_cons rfl, h.pml4, if_neg (by decide), if_pos rfl]
  exact pgLink_static hf (by decide)

theorem Booted.tableOf_second (h : Booted t maxPhyMemAddr s) (hf : Frame t.secondPdp) :
    s.tableOf [511] = some t.secondPdp := by
  rw [PgTables.tableOf_cons, PgTables.entry_cons rfl, h.pml4, if_pos rfl]
  exact pgLink_static hf (by decide)

theorem gigaRow_shape (m : Nat) (n : Fin 512) : PdpteShape (gigaRow m n) := by
  have := n.isLt
  by_cases h : (n : Nat) < m
  · rw [gigaRow_page h]
    exact .inr ⟨isLargePage_iff.2 (by omega), by omega, by omega⟩
  · rw [gigaRow, if_neg h]
    exact .inl (.inl rfl)

theorem Booted.mixed (h : Booted t maxPhyMemAddr s) (hready : BootReady t s) : s.Mixed := by
  have hframe : ∀ f ∈ t.frames, Frame f := fun f hf => hready.frame f (by simp [hf])
  have hlink : ∀ f ∈ t.frames, Opens (f ||| (pteP ||| pteW)) := fun f hf =>
    .inr (isLink_static (hframe f hf)).1
  simp only [BootTables.frames, List.forall_mem_cons] at hlink
  obtain ⟨h₁, h₂, h₃, h₄, -, -, h₅, h₆, h₇, h₈, -⟩ := hlink
  refine ⟨h.sound hready, fun x => ?_, fun x => ?_⟩
  · rw [PgTables.entry_pml4e, h.pml4]
    split_ifs
    · exact h₂
    · exact h₁
    · exact .inl rfl
  · cases hpdp : s.tableOf (pml4ePath x) with
    | none =>
        rw [pdptePath, PgTables.entry_cons_none hpdp]
        exact .inl (.inl rfl)
    | some f =>
        rw [pdptePath, PgTables.entry_cons hpdp]
        rcases h.tableOf_one hframe hpdp with ⟨-, rfl⟩ | ⟨-, rfl⟩
        · rw [h.secondPdp]
          split_ifs
          · exact .inl h₄
          · exact .inl h₃
          · exact .inl (.inl rfl)
        · rw [h.firstPdp]
          split_ifs
          · exact .inl h₈
          · exact .inl h₇
          · exact .inl h₆
          · exact .inl h₅
          · exact gigaRow_shape _ _

/-- The first GiB, through a page directory of its own. -/
theorem translate_bootPde {x f : Nat} (hf : Frame f)
    (hpdpte : s.entry (pdptePath x) = f ||| (pteP ||| pteW)) (hrow : s.frames f = bootPde 0) :
    translate s x = some (x % 0x40000000) := by
  obtain ⟨hlink, hdown⟩ := isLink_static hf
  have hpd : s.tableOf (pdptePath x) = some f := by
    rw [PgTables.tableOf_link (by simp) (hpdpte ▸ hlink), hpdpte, hdown]
  have hpde : s.entry (pdePath x) = x / 0x200000 % 512 * 0x200000 + 0x83 := by
    rw [pdePath, PgTables.entry_cons hpd, hrow, bootPde_zero]
    rfl
  rw [translate_eq, readEntries, hpdpte, if_neg hlink.not_page, hpde, if_pos (by omega)]
  congr 1
  unfold alignDown
  omega

theorem P2V_add {p : Nat} (hp : p + physVirtStart ≤ physVirtEnd) : P2V p = physVirtStart + p := by
  rw [P2V, wadd_eq (by unfold physVirtEnd at hp; omega), Nat.add_comm]

theorem Booted.direct (h : Booted t maxPhyMemAddr s) (hready : BootReady t s) {p : Nat}
    (hp : p < 0x40000000) : translate s (P2V p) = some p := by
  have hframe : ∀ f ∈ t.frames, Frame f := fun f hf => hready.frame f (by simp [hf])
  have haddr : P2V p = physVirtStart + p := P2V_add (by unfold physVirtStart physVirtEnd; omega)
  have hpath : pdptePath (P2V p) = [0, 260] := by
    rw [haddr]
    unfold pdptePath pml4ePath tableIndex physVirtStart
    simp only [List.cons.injEq, and_true]
    constructor
    · apply Fin.ext
      show (0xffff820000000000 + p) / 2 ^ 30 % 512 = 0
      omega
    · apply Fin.ext
      show (0xffff820000000000 + p) / 2 ^ 39 % 512 = 260
      omega
  have hentry : s.entry (pdptePath (P2V p)) = t.phyFirstPd ||| (pteP ||| pteW) := by
    rw [hpath, PgTables.entry_cons (h.tableOf_first (hframe _ (by simp [BootTables.frames]))),
      h.firstPdp]
    rfl
  have hoff : P2V p % 0x40000000 = p := by
    rw [haddr]
    unfold physVirtStart
    omega
  rw [translate_bootPde (hframe _ (by simp [BootTables.frames])) hentry h.phyFirstPd, hoff]

theorem Booted.kernel (h : Booted t maxPhyMemAddr s) (hready : BootReady t s) {p : Nat}
    (hp : p < 0x40000000) : translate s (kernelBase + p) = some p := by
  have hframe : ∀ f ∈ t.frames, Frame f := fun f hf => hready.frame f (by simp [hf])
  have hpath : pdptePath (kernelBase + p) = [510, 511] := by
    unfold pdptePath pml4ePath tableIndex kernelBase
    simp only [List.cons.injEq, and_true]
    constructor
    · apply Fin.ext
      show (0xffffffff80000000 + p) / 2 ^ 30 % 512 = 510
      omega
    · apply Fin.ext
      show (0xffffffff80000000 + p) / 2 ^ 39 % 512 = 511
      omega
  have hentry : s.entry (pdptePath (kernelBase + p)) = t.firstPd ||| (pteP ||| pteW) := by
    rw [hpath, PgTables.entry_cons (h.tableOf_second (hframe _ (by simp [BootTables.frames]))),
      h.secondPdp]
    rfl
  have hoff : (kernelBase + p) % 0x40000000 = p := by
    unfold kernelBase
    omega
  rw [translate_bootPde (hframe _ (by simp [BootTables.frames])) hentry h.firstPd, hoff]

end Tables

/-! ## The last pass -/

section Unmade

open Classical in
/-- The paths of `l` that lead to no table. -/
noncomputable def unmade (s : PgTables) (l : Finset (List (Fin 512))) : Finset (List (Fin 512)) :=
  l.filter fun q => ¬ IsLink (s.entry q)

variable {s s' : PgTables} {paddr vaddr : Nat} {l : Finset (List (Fin 512))}

theorem mem_unmade {q : List (Fin 512)} : q ∈ unmade s l ↔ q ∈ l ∧ ¬ IsLink (s.entry q) := by
  simp [unmade]

/-- The tables `map_page_p2v` makes are those missing on its way. -/
theorem card_unmade_way (h : s.Mixed) :
    (unmade s {pml4ePath vaddr, pdptePath vaddr}).card = tablesFor2M s vaddr := by
  classical
  have hne := pml4ePath_ne_pdptePath vaddr vaddr
  have hpml4 : missing s (pml4ePath vaddr) = if IsLink (s.entry (pml4ePath vaddr)) then 0 else 1 := by
    rcases h.pml4e vaddr with hzero | hlink
    · rw [missing, if_pos hzero, if_neg fun hl => hl.ne_zero hzero]
    · rw [missing, if_neg hlink.ne_zero, if_pos hlink]
  have hpdpt : directoryMissing s vaddr =
      if IsLink (s.entry (pdptePath vaddr)) then 0 else 1 := by
    unfold directoryMissing
    rcases h.pdpte vaddr with (hzero | hlink) | ⟨hl, -⟩
    · rw [if_pos (.inl hzero), if_neg fun hl => hl.ne_zero hzero]
    · rw [if_neg (not_or.2 ⟨hlink.ne_zero, hlink.not_largePage⟩), if_pos hlink]
    · rw [if_pos (.inr hl), if_neg fun hlink => hlink.not_largePage hl]
  rw [tablesFor2M, hpml4, hpdpt, unmade, Finset.filter_insert, Finset.filter_singleton]
  split_ifs <;> simp [hne]

theorem unmade_way_subset (hl : pml4ePath vaddr ∈ l ∧ pdptePath vaddr ∈ l) :
    unmade s {pml4ePath vaddr, pdptePath vaddr} ⊆ unmade s l := by
  intro q hq
  obtain ⟨hmem, hno⟩ := mem_unmade.1 hq
  refine mem_unmade.2 ⟨?_, hno⟩
  rcases Finset.mem_insert.1 hmem with rfl | hmem
  · exact hl.1
  · rw [Finset.mem_singleton.1 hmem]
    exact hl.2

theorem LargeMap.card_unmade (hm : LargeMap s s' paddr vaddr) (h : s.Mixed)
    (hshort : ∀ q ∈ l, q.length < 3) (hl : pml4ePath vaddr ∈ l ∧ pdptePath vaddr ∈ l) :
    (unmade s' l).card + tablesFor2M s vaddr ≤ (unmade s l).card := by
  have hsub : unmade s' l ⊆ unmade s l := by
    intro q hq
    obtain ⟨hmem, hno⟩ := mem_unmade.1 hq
    refine mem_unmade.2 ⟨hmem, ?_⟩
    rcases hm.upper q (hshort q hmem) with he | ⟨-, hno'⟩
    · rwa [← he]
    · exact hno'
  have hdisj : Disjoint (unmade s' l) (unmade s {pml4ePath vaddr, pdptePath vaddr}) := by
    rw [Finset.disjoint_left]
    intro q hq hway
    have hno := (mem_unmade.1 hq).2
    rcases Finset.mem_insert.1 (mem_unmade.1 hway).1 with rfl | hmem
    · exact hno hm.links.1
    · rw [Finset.mem_singleton.1 hmem] at hno
      exact hno hm.links.2
  rw [← card_unmade_way h, ← Finset.card_union_of_disjoint hdisj]
  exact Finset.card_le_card (Finset.union_subset hsub (unmade_way_subset hl))

end Unmade

/-- The number of PDPs that cover `[0, maxPhyMemAddr)`. -/
def pdps (maxPhyMemAddr : Nat) : Nat := (maxPhyMemAddr + 0x7fffffffff) / 0x8000000000

/-- The entries above the page directories of the direct map. -/
def directPaths (maxPhyMemAddr : Nat) : Finset (List (Fin 512)) :=
  (Finset.range (pdps maxPhyMemAddr)).image (fun k => pml4ePath (P2V (k * 0x8000000000))) ∪
    (Finset.range (gigabytes maxPhyMemAddr)).image fun g => pdptePath (P2V (g * 0x40000000))

section Direct

variable {t : BootTables} {s s' : PgTables} {maxPhyMemAddr addr : Nat}

theorem length_of_mem_directPaths {q : List (Fin 512)} (hq : q ∈ directPaths maxPhyMemAddr) :
    q.length < 3 := by
  simp only [directPaths, Finset.mem_union, Finset.mem_image] at hq
  rcases hq with ⟨k, -, rfl⟩ | ⟨g, -, rfl⟩ <;> simp

theorem mem_directPaths (hlt : addr < maxPhyMemAddr) (hmax : maxPhyMemAddr ≤ 0x460000000000) :
    pml4ePath (P2V addr) ∈ directPaths maxPhyMemAddr ∧
      pdptePath (P2V addr) ∈ directPaths maxPhyMemAddr := by
  have haddr : P2V addr = physVirtStart + addr := P2V_add (by unfold physVirtStart physVirtEnd; omega)
  simp only [directPaths, Finset.mem_union, Finset.mem_image, Finset.mem_range]
  refine ⟨.inl ⟨addr / 0x8000000000, by unfold pdps; omega, ?_⟩,
    .inr ⟨addr / 0x40000000, by unfold gigabytes; omega, ?_⟩⟩
  · rw [haddr, P2V_add (by unfold physVirtStart physVirtEnd; omega)]
    simp only [pml4ePath, List.cons.injEq, tableIndex, Fin.mk.injEq, pml4Shift, physVirtStart, and_true]
    omega
  · rw [haddr, P2V_add (by unfold physVirtStart physVirtEnd; omega)]
    simp only [pdptePath, pml4ePath, List.cons.injEq, tableIndex, Fin.mk.injEq, pdpShift, pml4Shift,
      physVirtStart, and_true]
    omega

/-- The direct map is there up to `addr`, and the source has the tables for the rest. -/
structure DirectUpTo (maxPhyMemAddr addr : Nat) (s : PgTables) : Prop where
  mixed : s.Mixed
  direct : ∀ p < addr, p < maxPhyMemAddr → translate s (P2V p) = some p
  kernel : ∀ p < 0x40000000, translate s (kernelBase + p) = some p
  tables : (unmade s (directPaths maxPhyMemAddr)).card ≤ s.table.length

theorem LargeMap.translate_off {paddr vaddr x : Nat} (hm : LargeMap s s' paddr vaddr)
    (hx : virtRegion x ≠ virtRegion vaddr) : translate s' x = translate s x := by
  rw [translate_eq_pageView, translate_eq_pageView, hm.view x hx]

theorem DirectUpTo.step (h : DirectUpTo maxPhyMemAddr addr s) (hlt : addr < maxPhyMemAddr)
    (hmax : maxPhyMemAddr ≤ 0x460000000000) (hal : addr % 0x200000 = 0) :
    ∃ s', mapPageP2V s addr (P2V addr) (ptePS ||| pteP ||| pteW) = .ok (OK, s') ∧
      DirectUpTo maxPhyMemAddr (addr + 0x200000) s' := by
  have hP2V : ∀ {p}, p < maxPhyMemAddr → P2V p = physVirtStart + p := fun hp =>
    P2V_add (by unfold physVirtStart physVirtEnd; omega)
  have hmem := mem_directPaths hlt hmax
  have htab : tablesFor2M s (P2V addr) ≤ s.table.length := by
    rw [← card_unmade_way h.mixed]
    exact (Finset.card_le_card (unmade_way_subset hmem)).trans h.tables
  have hv : P2V addr % 0x200000 = 0 := by
    rw [hP2V hlt]
    unfold physVirtStart
    omega
  have hflag : ptePS ||| pteP ||| pteW < 0x1000 := by decide
  obtain ⟨s', hrun, hm⟩ := mapPageP2V_largeMap h.mixed htab hal hv hflag (by decide) (by decide)
  refine ⟨s', hrun, hm.mixed, fun p hp hpmax => ?_, fun p hp => ?_, ?_⟩
  · by_cases hdone : p < addr
    · rw [hm.translate_off, h.direct p hdone hpmax]
      rw [hP2V hlt, hP2V hpmax]
      unfold virtRegion physVirtStart
      omega
    · have hmaps := hm.maps (p - addr) (by omega)
      rw [hP2V hpmax]
      rw [hP2V hlt] at hmaps
      rwa [show physVirtStart + addr + (p - addr) = physVirtStart + p by omega,
        show addr + (p - addr) = p by omega] at hmaps
  · rw [hm.translate_off, h.kernel p hp]
    rw [hP2V hlt]
    unfold virtRegion physVirtStart kernelBase
    omega
  · have hcard := hm.card_unmade h.mixed (fun q hq => length_of_mem_directPaths hq) hmem
    have hcount := hm.count
    have := h.tables
    omega

theorem mapDirect_upTo {fuel : Nat} (h : DirectUpTo maxPhyMemAddr addr s)
    (hmax : maxPhyMemAddr ≤ 0x460000000000) (hal : addr % 0x200000 = 0)
    (hfuel : maxPhyMemAddr ≤ addr + fuel * 0x200000) :
    ∃ s' last, mapDirect maxPhyMemAddr (fuel + 1) addr s = .ok s' ∧ maxPhyMemAddr ≤ last ∧
      DirectUpTo maxPhyMemAddr last s' := by
  induction fuel generalizing addr s with
  | zero =>
      refine ⟨s, addr, ?_, by omega, h⟩
      rw [mapDirect, if_neg (by omega)]
  | succ fuel ih =>
      rw [mapDirect]
      by_cases hlt : addr < maxPhyMemAddr
      · obtain ⟨s₁, hrun, h₁⟩ := h.step hlt hmax hal
        have hnext : wadd addr 0x200000 = addr + 0x200000 := wadd_eq (by omega)
        obtain ⟨s', last, hrest, hlast, h'⟩ := ih h₁ (by omega) (by omega)
        refine ⟨s', last, ?_, hlast, h'⟩
        rw [if_pos hlt, hrun, ok_bind]
        dsimp only
        rw [if_neg (not_not.2 rfl), hnext, hrest]
      · exact ⟨s, addr, if_neg hlt, by omega, h⟩

/-- The tables the last pass makes: a page directory for each GiB above the fourth, and a PDP for each
    512 GiB above the first. -/
def bootTablesNeeded (maxPhyMemAddr : Nat) : Nat :=
  (pdps maxPhyMemAddr - 1) + (gigabytes maxPhyMemAddr - 4)

theorem Booted.pml4e_link (h : Booted t maxPhyMemAddr s) (hready : BootReady t s) :
    IsLink (s.entry (pml4ePath (P2V (0 * 0x8000000000)))) := by
  have hframe : Frame t.firstPdp := hready.frame _ (by simp [BootTables.frames])
  have hpath : pml4ePath (P2V (0 * 0x8000000000)) = [260] := rfl
  rw [hpath, PgTables.entry_cons rfl, h.pml4, if_neg (by decide), if_pos rfl]
  exact (isLink_static hframe).1

theorem Booted.pdpte_link (h : Booted t maxPhyMemAddr s) (hready : BootReady t s) {g : Nat}
    (hg : g < 4) : IsLink (s.entry (pdptePath (P2V (g * 0x40000000)))) := by
  have hframe : ∀ f ∈ t.frames, Frame f := fun f hf => hready.frame f (by simp [hf])
  have hlink : ∀ f ∈ t.frames, IsLink (f ||| (pteP ||| pteW)) := fun f hf =>
    (isLink_static (hframe f hf)).1
  simp only [BootTables.frames, List.forall_mem_cons] at hlink
  obtain ⟨-, -, -, -, -, -, h₁, h₂, h₃, h₄, -⟩ := hlink
  obtain ⟨hidx, hidx'⟩ := physVirt_index (show g < 512 by omega)
  have hfirst := h.tableOf_first (hframe t.firstPdp (by simp [BootTables.frames]))
  rw [P2V_add (by unfold physVirtStart physVirtEnd; omega), pdptePath, pml4ePath, hidx, hidx',
    PgTables.entry_cons hfirst, h.firstPdp]
  split_ifs with h3 h2 h1 h0
  · exact h₄
  · exact h₃
  · exact h₂
  · exact h₁
  · have : g % 512 ≠ 3 ∧ g % 512 ≠ 2 ∧ g % 512 ≠ 1 ∧ g % 512 ≠ 0 :=
      ⟨fun h => h3 (Fin.ext h), fun h => h2 (Fin.ext h), fun h => h1 (Fin.ext h),
        fun h => h0 (Fin.ext h)⟩
    omega

theorem Booted.card_unmade (h : Booted t maxPhyMemAddr s) (hready : BootReady t s) :
    (unmade s (directPaths maxPhyMemAddr)).card ≤ bootTablesNeeded maxPhyMemAddr := by
  have hsub : unmade s (directPaths maxPhyMemAddr) ⊆
      (Finset.Ico 1 (pdps maxPhyMemAddr)).image (fun k => pml4ePath (P2V (k * 0x8000000000))) ∪
        (Finset.Ico 4 (gigabytes maxPhyMemAddr)).image fun g => pdptePath (P2V (g * 0x40000000)) := by
    intro q hq
    obtain ⟨hmem, hno⟩ := mem_unmade.1 hq
    simp only [directPaths, Finset.mem_union, Finset.mem_image, Finset.mem_range] at hmem
    simp only [Finset.mem_union, Finset.mem_image, Finset.mem_Ico]
    rcases hmem with ⟨k, hk, rfl⟩ | ⟨g, hg, rfl⟩
    · refine .inl ⟨k, ⟨?_, hk⟩, rfl⟩
      by_contra hzero
      have hk0 : k = 0 := by omega
      subst hk0
      exact hno (h.pml4e_link hready)
    · refine .inr ⟨g, ⟨?_, hg⟩, rfl⟩
      by_contra hlow
      exact hno (h.pdpte_link hready (by omega))
  calc (unmade s (directPaths maxPhyMemAddr)).card
      ≤ _ := Finset.card_le_card hsub
    _ ≤ _ := Finset.card_union_le _ _
    _ ≤ (Finset.Ico 1 (pdps maxPhyMemAddr)).card + (Finset.Ico 4 (gigabytes maxPhyMemAddr)).card :=
        Nat.add_le_add Finset.card_image_le Finset.card_image_le
    _ = bootTablesNeeded maxPhyMemAddr := by
        rw [Nat.card_Ico, Nat.card_Ico, bootTablesNeeded]

theorem Booted.directUpTo (h : Booted t maxPhyMemAddr s) (hready : BootReady t s)
    (htab : bootTablesNeeded maxPhyMemAddr ≤ s.table.length) :
    DirectUpTo maxPhyMemAddr 0x40000000 s where
  mixed := h.mixed hready
  direct := fun _ hp _ => h.direct hready hp
  kernel := fun _ hp => h.kernel hready hp
  tables := (h.card_unmade hready).trans htab

theorem P2K_aligned {f : Nat} (hf : Frame f) : P2K f % 0x1000 = 0 := by
  have := hf.aligned
  unfold P2K wadd kernelBase
  omega

/-- The first two passes. -/
theorem initPml4_eq (hready : BootReady t s) :
    initPml4 t maxPhyMemAddr s =
      if maxPhyMemAddr > 0x200000 then
        mapDirect maxPhyMemAddr (maxPhyMemAddr / 0x200000 + 1) 0x40000000
          (bootTables t maxPhyMemAddr s)
      else .ok (bootTables t maxPhyMemAddr s) := by
  have hframe : ∀ f ∈ s.pml4 :: t.frames, Frame f := fun f hf =>
    hready.frame f (List.mem_append_left _ hf)
  have hnodup := hready.nodup.of_append_left
  simp only [BootTables.frames, List.nodup_cons, List.mem_cons, not_or] at hnodup
  have hne : t.firstPdp ≠ s.pml4 := Ne.symm hnodup.1.1
  have hsecond : s.pml4 ≠ t.secondPdp := hnodup.1.2.1
  have hpdp : t.firstPdp ≠ t.secondPdp := hnodup.2.1.1
  let cleared := ((s.fillStatic s.pml4 fun _ => 0).fillStatic t.firstPdp fun _ => 0).fillStatic
    t.secondPdp fun _ => 0
  let linked := cleared.setStatic s.pml4 260 (t.firstPdp ||| pteP ||| pteW)
  have hpml4 : ∀ n, linked.frames s.pml4 n ≠ 0 ↔ n = 260 := by
    intro n
    have hlink := (isLink_static (hframe t.firstPdp (by simp [BootTables.frames]))).1.ne_zero
    simp [linked, cleared, PgTables.fillStatic, PgTables.setStatic, setEntry, Function.update_apply,
      hsecond, hne.symm, or_link, hlink]
  have hzero : linked.frames t.firstPdp = gigaRow 0 := by
    funext n
    simp [linked, cleared, PgTables.fillStatic, PgTables.setStatic, setEntry, Function.update_apply,
      hne, hpdp, gigaRow]
  have hrow : mapGigabytes t maxPhyMemAddr (maxPhyMemAddr / 0x40000000 + 2) (0 * 0x40000000)
      (physVirtStart + 0 * 0x40000000) linked =
        .ok (linked.fillStatic t.firstPdp (gigaRow (gigabytes maxPhyMemAddr))) :=
    mapGigabytes_row hne hpml4 hzero (by decide) (Nat.zero_le _) (by unfold gigabytes; omega)
  rw [Nat.zero_mul, Nat.add_zero] at hrow
  refine (assert_bind (P2K_aligned (hframe _ List.mem_cons_self))).trans ?_
  refine (assert_bind (P2K_aligned (hframe _ (by simp [BootTables.frames])))).trans ?_
  refine (assert_bind (P2K_aligned (hframe _ (by simp [BootTables.frames])))).trans ?_
  exact (congrArg (· >>= _) hrow).trans rfl

/-- **The direct map after boot.** For every amount of RAM that fits the window, `init_pml4` returns, and
    then every physical address is mapped at its place in the direct map, and the first GiB also above
    `KERNEL_BASE`. -/
theorem initPml4_directMap (hready : BootReady t s)
    (hmax : physVirtStart + maxPhyMemAddr ≤ physVirtEnd + 1)
    (htab : bootTablesNeeded maxPhyMemAddr ≤ s.table.length) :
    ∃ s', initPml4 t maxPhyMemAddr s = .ok s' ∧
      (∀ p < maxPhyMemAddr, translate s' (P2V p) = some p) ∧
      ∀ p < 0x40000000, translate s' (kernelBase + p) = some p := by
  have hmax' : maxPhyMemAddr ≤ 0x460000000000 := by
    unfold physVirtStart physVirtEnd at hmax
    omega
  have hready' : BootReady t (bootTables t maxPhyMemAddr s) := ⟨hready.frame, hready.nodup⟩
  have hbooted : Booted t maxPhyMemAddr (bootTables t maxPhyMemAddr s) :=
    bootTables_booted hready.nodup.of_append_left
  have hupTo : DirectUpTo maxPhyMemAddr 0x40000000 (bootTables t maxPhyMemAddr s) :=
    hbooted.directUpTo hready' htab
  rw [initPml4_eq hready]
  split
  · have hfuel : maxPhyMemAddr ≤ 0x40000000 + maxPhyMemAddr / 0x200000 * 0x200000 := by omega
    obtain ⟨s', last, hrun, hlast, h'⟩ := mapDirect_upTo hupTo hmax' (by decide) hfuel
    exact ⟨s', hrun, fun p hp => h'.direct p (by omega) hp, h'.kernel⟩
  · exact ⟨_, rfl, fun p hp => hupTo.direct p (by omega) hp, hupTo.kernel⟩

/-- 5 GiB of RAM: one page directory is made, for the fifth GiB. -/
theorem initPml4_directMap_5G : ∃ s', initPml4
      ⟨0x102000, 0x103000, 0x104000, 0x105000, 0x106000, 0x107000, 0x108000, 0x109000, 0x10a000, 0x10b000⟩
      0x140000000 { onePage 0 with pml4 := 0x101000 } = .ok s' ∧
    translate s' (P2V 0x123456789) = some 0x123456789 ∧
    translate s' (kernelBase + 0x101000) = some 0x101000 := by
  have hready : BootReady
      ⟨0x102000, 0x103000, 0x104000, 0x105000, 0x106000, 0x107000, 0x108000, 0x109000, 0x10a000, 0x10b000⟩
      { onePage 0 with pml4 := 0x101000 } := by
    refine ⟨fun f hf => ?_, by decide⟩
    have hall : ∀ g ∈ [0x101000, 0x102000, 0x103000, 0x104000, 0x105000, 0x106000, 0x107000, 0x108000,
        0x109000, 0x10a000, 0x10b000, 0x2000, 0x3000, 0x4000],
        g ≠ 0 ∧ g % 0x1000 = 0 ∧ g + physVirtStart ≤ physVirtEnd := by decide
    obtain ⟨h0, hal, hr⟩ := hall f hf
    exact ⟨h0, hal, hr⟩
  have hmax : physVirtStart + 0x140000000 ≤ physVirtEnd + 1 := by decide
  obtain ⟨s', hrun, hdirect, hkernel⟩ := initPml4_directMap hready hmax (by decide)
  exact ⟨s', hrun, hdirect _ (by decide), hkernel _ (by decide)⟩

end Direct

end Yaos
