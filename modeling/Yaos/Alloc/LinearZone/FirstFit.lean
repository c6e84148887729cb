import Yaos.Alloc.LinearZone.Tidy

set_option autoImplicit false

/-! # First fit

Without hints a zone is a set of free pages: an allocation takes the front of the lowest hole that is
large enough, and a free puts the pages back. Splitting a hole, unlinking one that is used up and
merging a freed range with the hole below it are not seen from there.

The one size that goes wrong is one that cannot be rounded up: above `2 ^ 64 - 2 ^ 21` the number of
bytes wraps to 0, and the allocator hands out the front of the first hole without taking anything. -/

namespace Yaos

open Chains Word HolePool

/-- `size` rounded up to whole 2 MiB pages. -/
def wholePages (size : Nat) : Nat := (size + 0x1fffff) / 0x200000 * 0x200000

/-- `ret` is where the lowest hole of at least `need` bytes starts. -/
def LowestFit (s : HolePool) (need ret : Nat) : Prop :=
  ∃ i, s.IsHole i ∧ (s.nodes i).addr = ret ∧ need ≤ (s.nodes i).size ∧
    ∀ j, s.IsHole j → need ≤ (s.nodes j).size → ret ≤ (s.nodes j).addr

/-- Nothing but the record of lock operations differs. -/
structure SameZone (z z' : LinearZone) : Prop where
  nodes : z'.pool.nodes = z.pool.nodes
  pfree : z'.pool.pfree = z.pool.pfree
  phead : z'.pool.phead = z.pool.phead
  alloced : z'.alloced = z.alloced

/-- An allocation on the set of free pages. -/
structure Allocates (z z' : LinearZone) (size ret : Nat) : Prop where
  taken : ret ≠ 0 → LowestFit z.pool (wholePages size) ret ∧
    Set.Ico ret (ret + wholePages size) ⊆ z.pool.freeSet ∧
    z'.pool.freeSet = z.pool.freeSet \ Set.Ico ret (ret + wholePages size)
  failed : ret = 0 → (∀ i, z.pool.IsHole i → (z.pool.nodes i).size < wholePages size) ∧ SameZone z z'

/-- A free on the set of free pages. -/
structure Frees (z z' : LinearZone) (r : LiveRange) : Prop where
  fresh : Disjoint r.pages z.pool.freeSet
  added : z'.pool.freeSet = z.pool.freeSet ∪ r.pages

/-- Allocating and freeing again leaves the set of free pages as it was. -/
theorem Allocates.restored {z z₁ z₂ : LinearZone} {size ret record : Nat}
    (h₁ : Allocates z z₁ size ret) (hret : ret ≠ 0) (h₂ : Frees z₁ z₂ ⟨ret, size, record⟩) :
    z₂.pool.freeSet = z.pool.freeSet := by
  obtain ⟨-, hsub, htaken⟩ := h₁.taken hret
  rw [h₂.added, htaken]
  exact Set.sdiff_union_of_subset hsub

/-- Calls without a hint. -/
def ZoneOp.Unhinted : ZoneOp → Prop
  | .alloc hint _ => hint = 0
  | .free _ => True

/-- The call does what it does on the set of free pages. -/
def ZoneRun.Refines (st : ZoneRun) (op : ZoneOp) (st' : ZoneRun) : Prop :=
  match op with
  | .alloc hint size => ∃ ret, allocLinearZoneImpl st.zone hint size = .ok (ret, st'.zone) ∧
      Allocates st.zone st'.zone size ret
  | .free r => Frees st.zone st'.zone r

/-- The size can be rounded up, or there is no hole at all. -/
def ZoneRun.Rounds (st : ZoneRun) : ZoneOp → Prop
  | .alloc _ size => size + 0x200000 ≤ 2 ^ 64 ∨ st.zone.pool.phead = none
  | .free _ => True

/-- One call of a run without hints. -/
def FirstFitStep (st st' : ZoneRun) : Prop :=
  ∃ op, st.legal op ∧ op.Unhinted ∧ st.Rounds op ∧ st.exec op = .ok st'

section Step

variable {z z' : LinearZone} {live : List LiveRange} {free holes recs : List Nat}
  {lo hi size ret : Nat}

theorem roundUp_wholePages (h : size + 0x200000 ≤ 2 ^ 64) : roundUp 0x200000 size = wholePages size :=
  roundUp_2M_eq (by omega)

theorem roundUp_wraps (h : 2 ^ 64 < size + 0x200000) (hlt : size < 2 ^ 64) :
    roundUp 0x200000 size = 0 := by
  unfold roundUp
  rw [if_pos (by omega)]
  unfold wadd alignDown
  omega

theorem freeSet_of_rep (h : ZoneRep z free holes recs) : z.pool.freeSet = z.pool.cover holes :=
  h.rep.freeSet_eq

theorem isHole_iff (h : ZoneRep z free holes recs) {i : Nat} : z.pool.IsHole i ↔ i ∈ holes :=
  h.rep.phead.visits_iff

/-- The first hole that fits is the lowest one. -/
theorem lowestFit_of_find (h : ZoneTidy lo hi z live free holes recs) {need p : Nat}
    (hfind : firstFit linearHoles z.pool need = some (some p)) :
    p ∈ holes ∧ LowestFit z.pool need (z.pool.nodes p).addr := by
  rw [firstFit_eq linearHoles h.rep.rep.phead h.rep.holes_le] at hfind
  have hfind := Option.some.inj hfind
  obtain ⟨pre, post, hsplit, hfit, hpre⟩ := find_split hfind
  have hp : p ∈ holes := hsplit ▸ List.mem_append_right _ List.mem_cons_self
  refine ⟨hp, p, (isHole_iff h.rep).2 hp, rfl, by simpa using hfit, fun j hj hfits => ?_⟩
  have hsorted := h.tidy.sorted.sorted
  rw [isHole_iff h.rep, hsplit] at hj
  rw [hsplit] at hsorted
  rcases List.mem_append.1 hj with hj | hj
  · have := hpre j hj
    simp at this
    omega
  · rcases List.mem_cons.1 hj with rfl | hj
    · exact le_rfl
    · have hlater := (List.pairwise_cons.1 (List.pairwise_append.1 hsorted).2.1).1 j hj
      omega

theorem servedBy_zero (z : LinearZone) (size : Nat) : servedBy z 0 size = [] := if_pos rfl

theorem Touched.same {l : List Nat} (ht : Touched z z' l) (hl : l = []) : SameZone z z' :=
  ⟨funext fun i => ht.nodes i (by simp [hl]), ht.pfree, ht.phead, ht.alloced⟩

/-- What is taken, and where from, when the size can be rounded up. -/
theorem allocates_of_rounds (h : ZoneTidy lo hi z live free holes recs) (hhi : hi < 2 ^ 64)
    (hlo : 0 < lo) (hsize : size + 0x200000 ≤ 2 ^ 64)
    (hok : allocLinearZoneImpl z 0 size = .ok (ret, z')) : Allocates z z' size ret := by
  have hneed := roundUp_wholePages hsize
  cases allocLinearZoneImpl_cases h.rep hok with
  | served hne | front hne | middle hne => exact absurd rfl hne
  | full _ hnone ht _ =>
    refine ⟨fun hret => absurd rfl hret, fun _ => ⟨fun i hi => ?_, ht.same (servedBy_zero z size)⟩⟩
    rw [hneed, firstFit_eq linearHoles h.rep.rep.phead h.rep.holes_le, Option.some.injEq,
      List.find?_eq_none] at hnone
    simpa using hnone i ((isHole_iff h.rep).1 hi)
  | @anywhere z₁ _ _ pfree p _ hfit ht _ hpf htake =>
    rw [hneed] at hfit htake
    obtain ⟨hp, hlow⟩ := lowestFit_of_find h hfit
    have hle : wholePages size ≤ (z.pool.nodes p).size := by
      obtain ⟨-, hstop⟩ := visits_of_walk_some hfit
      simpa using hstop
    have hn : z₁.pool.nodes = z.pool.nodes := (ht.same (servedBy_zero z size)).nodes
    have h₁ := h.congr hn (ht.rep h.rep)
    have hpages : wholePages size % 0x200000 = 0 := Nat.mul_mod_left _ _
    obtain ⟨hret, htook⟩ := takeLinear_tidy h₁.rep h₁.tidy hhi hp hpf (by rw [hn]; exact hle) hpages htake
    have hin := h.tidy.inside p hp
    rw [hn, Nat.zero_mod, wadd_eq (by omega), Nat.add_zero] at hret
    obtain ⟨free', holes', pfree', hrep', -, hcover, -⟩ := htook.lists
    have hsub := htook.wasFree
    rw [hn, cover_congr hn] at hcover hsub
    rw [hret]
    refine ⟨fun _ => ⟨hlow, ?_, ?_⟩, fun hzero => by omega⟩
    · rw [freeSet_of_rep h.rep]
      exact hsub
    · rw [freeSet_of_rep h.rep, freeSet_of_rep hrep', hcover]

/-- Without a hole there is nothing to take. -/
theorem alloc_no_hole (hnone : z.pool.phead = none) (hok : allocLinearZoneImpl z 0 size = .ok (ret, z')) :
    ret = 0 ∧ SameZone z z' := by
  rw [allocLinearZoneImpl, if_neg (fun h => h rfl)] at hok
  dsimp only [allocLinearAny] at hok
  split at hok
  case h_1 => cases hok
  case h_2 =>
    have hwalk : firstFit linearHoles z.pool.spinLock (roundUp 0x200000 size) = some none := by
      show walk _ _ _ z.pool.phead = _
      rw [hnone]
      rfl
    rw [hwalk] at hok
    obtain ⟨hret, hz'⟩ := Prod.mk.inj (Except.ok.inj hok)
    exact ⟨hret.symm, hz' ▸ ⟨rfl, rfl, rfl, rfl⟩⟩

theorem no_isHole (hnone : z.pool.phead = none) (i : Nat) : ¬ z.pool.IsHole i := by
  unfold HolePool.IsHole
  rw [hnone]
  rintro ⟨⟩

theorem only_isHole {s : HolePool} {i j : Nat} (h : Chain s.next s.phead [i]) (hj : s.IsHole j) :
    j = i :=
  List.mem_singleton.1 (h.visits_iff.1 hj)

/-- A size that wraps is served with nothing, from the first hole. -/
theorem not_allocates_of_wraps (h : ZoneTidy lo hi z live free holes recs) (hhi : hi < 2 ^ 64)
    (hlo : 0 < lo) (hsize : 2 ^ 64 < size + 0x200000) (hlt : size < 2 ^ 64)
    (hhole : z.pool.phead ≠ none) (hok : allocLinearZoneImpl z 0 size = .ok (ret, z')) :
    ¬ Allocates z z' size ret := by
  have hneed := roundUp_wraps hsize hlt
  have hbig : 2 ^ 64 ≤ wholePages size := by
    unfold wholePages
    omega
  intro ha
  obtain ⟨i, hi⟩ := Option.ne_none_iff_exists'.1 hhole
  have hmem : i ∈ holes := (isHole_iff h.rep).1 (by
    unfold HolePool.IsHole
    rw [hi]
    exact .here i)
  cases allocLinearZoneImpl_cases h.rep hok with
  | served hne | front hne | middle hne => exact absurd rfl hne
  | full _ hnone ht _ =>
    rw [hneed, firstFit_eq linearHoles h.rep.rep.phead h.rep.holes_le, Option.some.injEq,
      List.find?_eq_none] at hnone
    simpa using hnone i hmem
  | @anywhere z₁ _ _ pfree p _ hfit ht _ hpf htake =>
    rw [hneed] at hfit htake
    have hp := (lowestFit_of_find h hfit).1
    have hin := h.tidy.inside p hp
    have hn : z₁.pool.nodes = z.pool.nodes := (ht.same (servedBy_zero z size)).nodes
    have h₁ := h.congr hn (ht.rep h.rep)
    obtain ⟨hret, -⟩ := takeLinear_tidy h₁.rep h₁.tidy hhi hp hpf (Nat.zero_le _) rfl htake
    rw [hn, Nat.zero_mod, wadd_eq (by omega), Nat.add_zero] at hret
    obtain ⟨⟨j, hj, -, hfits, -⟩, -, -⟩ := ha.taken (by omega)
    have hbound := h.tidy.sorted.bound j ((isHole_iff h.rep).1 hj)
    omega

theorem frees_of_live (h : ZoneTidy lo hi z live free holes recs) (hhi : hi < 2 ^ 64) {r : LiveRange}
    (hr : r ∈ live) (hok : freeLinearZone z r.addr r.size = .ok z') : Frees z z' r := by
  obtain ⟨hal, hok⟩ := assert_bind_eq_ok.1 hok
  obtain ⟨pool', hfree, hok⟩ := bind_eq_ok.1 hok
  obtain ⟨hpos, hlo, hin⟩ := h.inside r hr hal
  rw [roundUp_2M_eq (by omega)] at hfree
  obtain ⟨free', holes', hrep', -, hcover, -⟩ := freeHole_tidy h.rep h.tidy hhi hlo hin hal (by omega)
    (by omega) (h.taken r hr hal) hfree
  rw [← Except.ok.inj hok]
  refine ⟨?_, ?_⟩
  · rw [freeSet_of_rep h.rep]
    exact h.taken r hr hal
  · rw [freeSet_of_rep h.rep, freeSet_of_rep hrep']
    exact hcover

end Step

/-! ## Whole runs -/

section Runs

variable {lo hi : Nat} {st st' : ZoneRun} {op : ZoneOp}

/-- The invariant of `ZoneTidy`, for the lists of the zone whatever they are. -/
def ZoneRun.Tidy (lo hi : Nat) (st : ZoneRun) : Prop :=
  ∃ free holes recs, ZoneTidy lo hi st.zone st.live free holes recs

theorem FirstFitStep.preserves (hhi : hi < 2 ^ 64) (step : FirstFitStep st st') (h : st.Tidy lo hi) :
    st'.Tidy lo hi := by
  obtain ⟨op, hlegal, hunhinted, hrounds, hok⟩ := step
  cases op with
  | free r => exact TidyStep.preserves hhi ⟨.free r, hlegal, trivial, hok⟩ h
  | alloc hint size =>
    obtain rfl : hint = 0 := hunhinted
    rcases hrounds with hsize | hnone
    · refine TidyStep.preserves hhi ⟨.alloc 0 size, hlegal, ⟨⟨by omega, ?_⟩, ?_⟩, hok⟩ h
      · exact fun p hne => absurd rfl hne
      · exact fun p hne => absurd rfl hne
    · obtain ⟨⟨ret, z'⟩, halloc, hok⟩ := bind_eq_ok.1 hok
      obtain ⟨rfl, hsame⟩ := alloc_no_hole hnone halloc
      obtain ⟨free, holes, recs, h⟩ := h
      rw [← Except.ok.inj hok]
      have hrep : ZoneRep z' free holes recs := by
        have ht : Touched st.zone z' (servedBy st.zone 0 size) :=
          ⟨hsame.pfree, hsame.phead, hsame.alloced, fun i => by simp only [HolePool.next, hsame.nodes],
            fun i _ => by rw [hsame.nodes]⟩
        exact ht.rep h.rep
      exact ⟨free, holes, recs, h.congr hsame.nodes hrep⟩

/-- One call: it refines the set of free pages exactly when its size can be rounded up. -/
theorem refines_iff_rounds (h : st.Tidy lo hi) (hhi : hi < 2 ^ 64) (hlo : 0 < lo) (hlegal : st.legal op)
    (hunhinted : op.Unhinted) (hok : st.exec op = .ok st') : st.Refines op st' ↔ st.Rounds op := by
  obtain ⟨free, holes, recs, h⟩ := h
  cases op with
  | free r =>
    obtain ⟨z', hfree, hok⟩ := bind_eq_ok.1 hok
    rw [← Except.ok.inj hok]
    exact iff_of_true (frees_of_live h hhi hlegal hfree) trivial
  | alloc hint size =>
    obtain rfl : hint = 0 := hunhinted
    obtain ⟨⟨ret, z'⟩, halloc, hok⟩ := bind_eq_ok.1 hok
    rw [← Except.ok.inj hok]
    constructor
    · rintro ⟨ret', halloc', ha⟩
      by_contra hwraps
      obtain ⟨hbig, hhole⟩ := not_or.1 hwraps
      exact not_allocates_of_wraps h hhi hlo (Nat.lt_of_not_le hbig) hlegal.2.1 hhole halloc' ha
    · rintro (hsize | hnone)
      · exact ⟨ret, halloc, allocates_of_rounds h hhi hlo hsize halloc⟩
      · obtain ⟨rfl, hsame⟩ := alloc_no_hole hnone halloc
        exact ⟨0, halloc, fun hne => absurd rfl hne, fun _ =>
          ⟨fun i hi => absurd hi (no_isHole hnone i), hsame⟩⟩

/-- **First fit.** After any run of calls without hints from `init_vm_zone`, each with a size that can be
    rounded up, the next call refines the set of free pages if and only if its size can be rounded up
    too, or there is no hole left. -/
theorem linearZone_firstFit_iff {start size : Nat} {z : LinearZone}
    (hinit : initVmZone start size = .ok z) (hb : start + roundUp 0x200000 size < 2 ^ 64)
    (hpos : 0 < roundUp 0x200000 size) (hstart : 0 < start)
    (run : Relation.ReflTransGen FirstFitStep ⟨z, []⟩ st) (hlegal : st.legal op)
    (hunhinted : op.Unhinted) (hok : st.exec op = .ok st') : st.Refines op st' ↔ st.Rounds op := by
  have h : st.Tidy start (start + roundUp 0x200000 size) := by
    clear hlegal hunhinted hok
    induction run with
    | refl => exact initVmZone_tidy hinit hb hpos
    | tail _ step ih => exact step.preserves hb ih
  exact refines_iff_rounds h hb hstart hlegal hunhinted hok

/-- Two allocations from the `low` zone and a free of the first. -/
theorem linearZone_firstFit_lowMmap : ∃ z st st', initVmZone 0x700000000000 0x40000000000 = .ok z ∧
    Relation.ReflTransGen FirstFitStep ⟨z, []⟩ st ∧
    st.exec (.free ⟨0x700000000000, 0x1000, 1⟩) = .ok st' ∧
    st.Refines (.free ⟨0x700000000000, 0x1000, 1⟩) st' := by
  have hrun : ∃ z st st', initVmZone 0x700000000000 0x40000000000 = .ok z ∧
      Relation.ReflTransGen FirstFitStep ⟨z, []⟩ st ∧
      st.legal (.free ⟨0x700000000000, 0x1000, 1⟩) ∧
      st.exec (.free ⟨0x700000000000, 0x1000, 1⟩) = .ok st' := by
    refine ⟨_, _, _, rfl, .tail (.tail .refl
      ⟨.alloc 0 0x1000, ⟨by decide, by decide, by decide⟩, rfl, .inl (by decide), rfl⟩)
      ⟨.alloc 0 0x300000, ⟨by decide, by decide, by decide⟩, rfl, .inl (by decide), rfl⟩,
      List.mem_cons_of_mem _ List.mem_cons_self, rfl⟩
  obtain ⟨z, st, st', hinit, run, hlegal, hok⟩ := hrun
  exact ⟨z, st, st', hinit, run, hok, (linearZone_firstFit_iff hinit (by decide) (by decide)
    (by decide) run hlegal trivial hok).2 trivial⟩

/-- A request for all but 4 KiB of the address space gets the start of the zone, which stays free. -/
theorem firstFit_wraps : ∃ z st', initVmZone 0x700000000000 0x40000000000 = .ok z ∧
    ZoneRun.legal ⟨z, []⟩ (.alloc 0 (2 ^ 64 - 0x1000)) ∧
    ZoneRun.exec ⟨z, []⟩ (.alloc 0 (2 ^ 64 - 0x1000)) = .ok st' ∧
    st'.live = [⟨0x700000000000, 2 ^ 64 - 0x1000, 1⟩] ∧
    ¬ ZoneRun.Refines ⟨z, []⟩ (.alloc 0 (2 ^ 64 - 0x1000)) st' := by
  obtain ⟨z, st', hinit, hchain, hsize, hexec, hlive⟩ : ∃ z st',
      initVmZone 0x700000000000 0x40000000000 = .ok z ∧ Chain z.pool.next z.pool.phead [0] ∧
      (z.pool.nodes 0).size = 0x40000000000 ∧
      ZoneRun.exec ⟨z, []⟩ (.alloc 0 (2 ^ 64 - 0x1000)) = .ok st' ∧
      st'.live = [⟨0x700000000000, 2 ^ 64 - 0x1000, 1⟩] := ⟨_, _, rfl, ⟨rfl, rfl⟩, rfl, rfl, rfl⟩
  refine ⟨z, st', hinit, ⟨by decide, by decide, by decide⟩, hexec, hlive, ?_⟩
  rintro ⟨ret, hok, ha⟩
  have hret : ret ≠ 0 := by
    rintro rfl
    obtain ⟨⟨ret, z'⟩, halloc, hexec⟩ := bind_eq_ok.1 hexec
    obtain ⟨rfl, -⟩ := Prod.mk.inj (Except.ok.inj (halloc.symm.trans hok))
    rw [← Except.ok.inj hexec] at hlive
    cases hlive
  obtain ⟨⟨i, hi, -, hfits, -⟩, -⟩ := ha.taken hret
  rw [only_isHole hchain hi, hsize] at hfits
  exact absurd hfits (by decide)

end Runs

end Yaos
