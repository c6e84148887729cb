import Yaos.Alloc.LinearZone.Blocks
import Yaos.Alloc.LinearZone.FirstFit

set_option autoImplicit false

/-! # Address hints

The search for a hint stops at the first hole that is large enough, whether or not the hint lies in it;
the call is then retried without the hint. So a free range is handed out at the hint only when the
first hole that is large enough is the one that contains it. Cutting the range out of the middle of the
hole also takes a second unused node, for what is left above. -/

namespace Yaos

open Chains Word HolePool

/-- The hole `i` contains the whole pages of `size` bytes at `hint`. -/
def HoldsRange (s : HolePool) (hint size i : Nat) : Prop :=
  (s.nodes i).addr ≤ hint ∧ hint + wholePages size ≤ (s.nodes i).addr + (s.nodes i).size

/-- The hole `p` contains the range, and the holes before it in the list are too small. -/
structure FirstLarge (s : HolePool) (hint size p : Nat) : Prop where
  hole : s.IsHole p
  contains : HoldsRange s hint size p
  first : ∀ i, s.IsHole i → Visits s.next (s.next i) p → (s.nodes i).size < wholePages size

/-- The first hole that is large enough contains the range, and there are the nodes to take it. -/
def HintReached (z : LinearZone) (hint size : Nat) : Prop :=
  ∃ p q, FirstLarge z.pool hint size p ∧ z.pool.pfree = some q ∧
    ((z.pool.nodes p).addr ≠ hint → z.pool.next q ≠ none)

/-! ## Runs without hints -/

/-- What freeing a range hands to `free_linear_zone`. -/
def LiveRange.lent (r : LiveRange) : Set Nat := Set.Ico r.addr (r.addr + roundUp 0x200000 r.size)

/-- The ranges handed out are off the holes and off each other. -/
structure ZoneRun.Lends (lo hi : Nat) (st : ZoneRun) : Prop where
  zone : OffHoles lo hi st.zone { a | ∃ r ∈ st.live, a ∈ r.lent }
  inside : ∀ r ∈ st.live, lo ≤ r.addr ∧ r.addr + roundUp 0x200000 r.size ≤ hi
  apart : st.live.Pairwise fun r r' => Disjoint r.lent r'.lent

/-- One call of a run without hints, of any size. -/
def UnhintedStep (st st' : ZoneRun) : Prop := ∃ op, st.legal op ∧ op.Unhinted ∧ st.exec op = .ok st'

theorem OffHoles.mono {lo hi : Nat} {z : LinearZone} {busy busy' : Set Nat} (h : OffHoles lo hi z busy)
    (hsub : busy' ⊆ busy) : OffHoles lo hi z busy' := by
  obtain ⟨free, holes, recs, hrep, hz, hd⟩ := h
  exact ⟨free, holes, recs, hrep, hz, hd.mono_left hsub⟩

section Runs

variable {lo hi : Nat} {st st' : ZoneRun}

theorem UnhintedStep.preserves (hhi : hi < 2 ^ 64) (step : UnhintedStep st st') (h : st.Lends lo hi) :
    st'.Lends lo hi := by
  obtain ⟨op, hlegal, hunhinted, hok⟩ := step
  cases op with
  | alloc hint size =>
    obtain rfl : hint = 0 := hunhinted
    obtain ⟨⟨ret, z'⟩, halloc, hok⟩ := bind_eq_ok.1 hok
    rw [← Except.ok.inj hok]
    rcases h.zone.alloc hhi halloc with ⟨rfl, -, hz⟩ | ⟨i, -, hret, hlow, hhigh, hd, hz⟩
    · rw [if_pos rfl]
      exact ⟨hz, h.inside, h.apart⟩
    · by_cases hzero : ret = 0
      · simp only [if_pos hzero]
        exact ⟨hz.mono Set.subset_union_left, h.inside, h.apart⟩
      · simp only [if_neg hzero]
        refine ⟨hz.mono ?_, fun r hr => ?_, List.pairwise_cons.2 ⟨fun r hr => ?_, h.apart⟩⟩
        · rintro a ⟨r, hr, ha⟩
          rcases List.mem_cons.1 hr with rfl | hr
          · exact .inr ha
          · exact .inl ⟨r, hr, ha⟩
        · rcases List.mem_cons.1 hr with rfl | hr
          · exact ⟨hlow, hhigh⟩
          · exact h.inside r hr
        · exact (hd.mono_left fun a ha => ⟨r, hr, ha⟩).symm
  | free r =>
    obtain ⟨z', hfree, hok⟩ := bind_eq_ok.1 hok
    rw [← Except.ok.inj hok]
    have hpair : (r :: st.live.erase r).Pairwise fun r r' => Disjoint r.lent r'.lent :=
      ((List.perm_cons_erase hlegal).pairwise_iff fun hab => hab.symm).1 h.apart
    obtain ⟨hfirst, hrest⟩ := List.pairwise_cons.1 hpair
    obtain ⟨hlow, hhigh⟩ := h.inside r hlegal
    refine ⟨OffHoles.free (h.zone.mono ?_) ?_ hhi hlow hhigh hfree, fun r' hr' =>
      h.inside r' (List.mem_of_mem_erase hr'), hrest⟩
    · rintro a (⟨r', hr', ha⟩ | ha)
      · exact ⟨r', List.mem_of_mem_erase hr', ha⟩
      · exact ⟨r, hlegal, ha⟩
    · rw [Set.disjoint_left]
      rintro a ⟨r', hr', ha⟩ ha'
      exact Set.disjoint_left.1 (hfirst r' hr') ha' ha

theorem initVmZone_lends {start size : Nat} {z : LinearZone} (hinit : initVmZone start size = .ok z)
    (hb : start + roundUp 0x200000 size < 2 ^ 64) :
    ZoneRun.Lends start (start + roundUp 0x200000 size) ⟨z, []⟩ := by
  obtain ⟨free, holes, recs, top, hown⟩ := initVmZone_inv hinit hb
  refine ⟨⟨free, holes, recs, hown.rep, hown.shape, ?_⟩, by simp, List.Pairwise.nil⟩
  simp [Set.disjoint_left]

end Runs

/-! ## A request at a hint -/

section Request

variable {lo hi : Nat} {z z' : LinearZone} {free holes recs : List Nat} {hint size : Nat}

/-- A hint at the start of a 2 MiB page where no record starts, in front of pages that one of the holes
    has. -/
structure FreeAt (lo hi : Nat) (z : LinearZone) (free holes recs : List Nat) (hint size : Nat) : Prop
    where
  rep : ZoneRep z free holes recs
  shape : ZoneHoles lo hi z.pool holes
  high : hi < 2 ^ 64
  given : hint ≠ 0
  aligned : hint % 0x200000 = 0
  unrecorded : ∀ i ∈ recs, (z.pool.nodes i).addr ≠ hint
  hole : ∃ i ∈ holes, HoldsRange z.pool hint size i

theorem FreeAt.bound (h : FreeAt lo hi z free holes recs hint size) : hint + wholePages size ≤ hi := by
  obtain ⟨i, hi', -, hhigh⟩ := h.hole
  exact hhigh.trans (h.shape.inside i hi').2

theorem FreeAt.needs (h : FreeAt lo hi z free holes recs hint size) :
    roundUp 0x200000 size = wholePages size ∧ hintedSize hint size = wholePages size ∧
      alignDown 0x200000 hint = hint := by
  have hbound := h.bound
  have hhi := h.high
  have hround : roundUp 0x200000 size = wholePages size := roundUp_2M_eq (by
    unfold wholePages at hbound
    omega)
  refine ⟨hround, ?_, alignDown_eq_self h.aligned⟩
  rw [hintedSize, hround, h.aligned, wadd_eq (by omega), Nat.add_zero]

/-- `check_alloced` finds nothing. -/
theorem FreeAt.unserved (h : FreeAt lo hi z free holes recs hint size) :
    checkAlloced z hint size = .ok (0, { z with pool := z.pool.spinLock.spinUnlock }) := by
  have hnone : servingRecord z hint size = some none := by
    rw [servingRecord, walk_eq_find h.rep.alloced h.rep.recs_le, Option.some.injEq, List.find?_eq_none]
    intro i hi'
    have hne := h.unrecorded i hi'
    rw [h.needs.2.2]
    simp [hne]
  rw [checkAlloced, hnone]

theorem holeContains_iff (h : FreeAt lo hi z free holes recs hint size) {i : Nat} (hi' : i ∈ holes) :
    holeContains z.pool hint (wholePages size) i = true ↔ HoldsRange z.pool hint size i := by
  have hin := h.shape.inside i hi'
  have hhi := h.high
  have hbound := h.bound
  rw [holeContains, Bool.and_eq_true, decide_eq_true_eq, decide_eq_true_eq, wadd_eq (by omega),
    holeEnd_eq (by omega)]
  rfl

/-- What a request does at the hole that its range fits in. -/
theorem allocLinearHinted_placed {p q : Nat} (hq : z.pool.pfree = some q) (h : Placed z hint size p) :
    allocLinearHinted z hint size =
      if (z.pool.nodes p).addr ≠ alignDown 0x200000 hint then
        splitLinear { z with pool := z.pool.spinLock } q p (alignDown 0x200000 hint) (hintedSize hint size)
          hint size
      else takeLinear { z with pool := z.pool.spinLock } q p (hintedSize hint size) hint size := by
  obtain ⟨hfound, hfits, hcontains⟩ := h
  have hpick : (decide ((z.pool.nodes p).size < hintedSize hint size) ||
      !holeContains z.pool (alignDown 0x200000 hint) (hintedSize hint size) p) = false := by
    rw [hcontains]
    simpa using hfits
  have hscan : walk z.pool.spinLock.next (fun p => !((z.pool.spinLock.nodes p).size <
      hintedSize hint size) || holeContains z.pool.spinLock (alignDown 0x200000 hint)
      (hintedSize hint size) p) linearHoles.capacity z.pool.spinLock.phead = some (some p) := hfound
  unfold hintedSize at hscan hpick
  simp only [allocLinearHinted, hq, hscan]
  exact if_neg (Bool.eq_false_iff.1 hpick)

/-- A hole that contains the range is large enough, so the search stops at the first hole that is. -/
theorem FreeAt.search (h : FreeAt lo hi z free holes recs hint size) :
    hintedHole z hint size = firstFit linearHoles z.pool (wholePages size) := by
  obtain ⟨-, hsize, hbase⟩ := h.needs
  rw [hintedHole, hsize, hbase, walk_eq_find h.rep.rep.phead h.rep.holes_le,
    firstFit_eq linearHoles h.rep.rep.phead h.rep.holes_le]
  refine congrArg some (List.find?_congr fun i hi' => ?_)
  by_cases hc : holeContains z.pool hint (wholePages size) i = true
  · have hr := (holeContains_iff h hi').1 hc
    have hfits : ¬ (z.pool.nodes i).size < wholePages size := by
      unfold HoldsRange at hr
      omega
    simp [hc, hfits]
  · simp [hc]

theorem FreeAt.placed_iff (h : FreeAt lo hi z free holes recs hint size) {p : Nat} :
    Placed z hint size p ↔ FirstLarge z.pool hint size p := by
  obtain ⟨-, hsize, hbase⟩ := h.needs
  have hchain := h.rep.rep.phead
  have hfit : HoldsRange z.pool hint size p → wholePages size ≤ (z.pool.nodes p).size := fun hr => by
    unfold HoldsRange at hr
    omega
  constructor
  · rintro ⟨hfound, -, hcontains⟩
    rw [h.search] at hfound
    have hp := (isHole_iff h.rep).1 (visits_of_walk_some hfound).1
    rw [hsize, hbase, holeContains_iff h hp] at hcontains
    rw [firstFit_eq linearHoles hchain h.rep.holes_le, Option.some.injEq,
      hchain.find_eq_some_iff hp (by simpa using hfit hcontains)] at hfound
    exact ⟨(isHole_iff h.rep).2 hp, hcontains, fun i hi' hahead =>
      by simpa using hfound i ((isHole_iff h.rep).1 hi') hahead⟩
  · rintro ⟨hp, hr, hfirst⟩
    replace hp := (isHole_iff h.rep).1 hp
    refine ⟨h.search.trans ?_, hsize ▸ hfit hr, ?_⟩
    · rw [firstFit_eq linearHoles hchain h.rep.holes_le, Option.some.injEq,
        hchain.find_eq_some_iff hp (by simpa using hfit hr)]
      exact fun i hi' hahead => by simpa using hfirst i ((isHole_iff h.rep).2 hi') hahead
    · rw [hsize, hbase, holeContains_iff h hp]
      exact hr

theorem ZoneRep.pfree_ne_none (h : ZoneRep z free holes recs) : z.pool.pfree ≠ none ↔ free ≠ [] := by
  have hchain := h.rep.pfree
  cases free with
  | nil => exact iff_of_false (fun hne => hne hchain) (fun hne => hne rfl)
  | cons q free => exact iff_of_true (by simp [hchain.head_eq]) (List.cons_ne_nil _ _)

theorem ZoneRep.next_ne_none {q : Nat} (h : ZoneRep z (q :: free) holes recs) :
    z.pool.next q ≠ none ↔ free ≠ [] := by
  have hchain := h.rep.pfree.2
  cases free with
  | nil => exact iff_of_false (fun hne => hne hchain) (fun hne => hne rfl)
  | cons q' free => exact iff_of_true (by simp [hchain.head_eq]) (List.cons_ne_nil _ _)

/-- Giving back what is left above the block needs an unused node. -/
theorem freeLinearZone_total (h : ZoneRep z free holes recs) {addr n : Nat} (hal : addr % 0x200000 = 0) :
    (∃ z', freeLinearZone z addr n = .ok z') ↔ z.pool.pfree ≠ none := by
  rw [freeLinearZone, assert_bind hal]
  rcases freeHole_spec linearHoles h.rep h.holes_le addr (roundUp 0x200000 n) with
    ⟨rfl, herr⟩ | ⟨p, free', s', rfl, hok, -⟩
  · have hnone : z.pool.pfree = none := h.rep.pfree
    rw [herr]
    refine iff_of_false ?_ (fun hne => hne hnone)
    rintro ⟨_, hz⟩
    cases hz
  · have hsome : z.pool.pfree = some p := h.rep.pfree.head_eq
    rw [hok]
    exact iff_of_true ⟨_, rfl⟩ (by simp [hsome])

theorem FreeAt.reached_of_returns (h : FreeAt lo hi z free holes recs hint size)
    (hok : allocLinearZoneImpl z hint size = .ok (hint, z')) : HintReached z hint size := by
  obtain ⟨hround, hsize, hbase⟩ := h.needs
  have hbound := h.bound
  have hne := h.given
  have hhi := h.high
  cases allocLinearZoneImpl_cases h.rep hok with
  | served _ _ hcheck =>
    exact absurd (Prod.mk.inj (Except.ok.inj (hcheck.symm.trans h.unserved))).1 hne
  | full => exact absurd rfl hne
  | @anywhere z₁ _ _ pfree p hu hfit ht _ hpf htake =>
    -- the block handed out starts its hole; at the hint, that hole would have been taken before
    rw [hround] at hfit htake
    obtain ⟨hvisit, hstop⟩ := visits_of_walk_some hfit
    have hp : p ∈ holes := (isHole_iff h.rep).1 hvisit
    have hle : wholePages size ≤ (z.pool.nodes p).size := by simpa using hstop
    have hnode := ht.hole h.rep hp
    have hin := h.shape.inside p hp
    obtain ⟨free', rfl⟩ := (ht.rep h.rep).free_cons hpf
    obtain ⟨z₂, htake₂, -⟩ := takeLinear_spec (ht.rep h.rep) (h.shape.congr fun i hi' => by
      rw [SameRange, ht.hole h.rep hi']; exact ⟨rfl, rfl⟩) hhi hp (hnode ▸ hle) 0 size
    have haddr := (Prod.mk.inj (Except.ok.inj (htake.symm.trans htake₂))).1
    rw [hnode, Nat.zero_mod, wadd_eq (by omega), Nat.add_zero] at haddr
    have hrange : HoldsRange z.pool hint size p := ⟨haddr.ge, by omega⟩
    refine absurd ⟨h.search.trans hfit, hsize ▸ hle, ?_⟩ ((hu.resolve_left hne).2 p)
    rw [hsize, hbase, holeContains_iff h hp]
    exact hrange
  | @front z₁ _ _ pfree p _ _ hp haddr ht _ hpf =>
    exact ⟨p, pfree, h.placed_iff.1 hp, ht.pfree ▸ hpf, fun h' => absurd (haddr.trans hbase) h'⟩
  | @middle z₁ _ _ pfree p _ _ hp _ ht _ hpf hsplit =>
    refine ⟨p, pfree, h.placed_iff.1 hp, ht.pfree ▸ hpf, fun _ => ?_⟩
    obtain ⟨free', rfl⟩ := (ht.rep h.rep).free_cons hpf
    rw [splitLinear_eq] at hsplit
    obtain ⟨z₂, hfree, -⟩ := bind_eq_ok.1 hsplit
    have hcut := cutLinear_nodes (p := p) (ht.rep h.rep) (alignDown 0x200000 hint)
      (wadd size (hint % 0x200000))
    have hspare := (freeLinearZone_total hcut (alignDown_mod _ _)).1 ⟨z₂, hfree⟩
    rw [← ht.next]
    exact (ht.rep h.rep).next_ne_none.2 (hcut.pfree_ne_none.1 hspare)

theorem FreeAt.returns_of_reached (h : FreeAt lo hi z free holes recs hint size)
    (hr : HintReached z hint size) : ∃ z', allocLinearZoneImpl z hint size = .ok (hint, z') := by
  obtain ⟨-, hsize, hbase⟩ := h.needs
  have hbound := h.bound
  have hne := h.given
  have hhi := h.high
  obtain ⟨p, q, hlarge, hq, hspare⟩ := hr
  have hp : p ∈ holes := (isHole_iff h.rep).1 hlarge.hole
  have hin := h.shape.inside p hp
  have hle : wholePages size ≤ (z.pool.nodes p).size := by
    have hrange := hlarge.contains
    unfold HoldsRange at hrange
    omega
  have hback : wadd hint (hint % 0x200000) = hint := by
    rw [h.aligned, wadd_eq (by omega), Nat.add_zero]
  obtain ⟨free', rfl⟩ := h.rep.free_cons hq
  have hrep : ZoneRep { z with pool := z.pool.spinLock.spinUnlock.spinLock } (q :: free') holes recs :=
    h.rep.lock.unlock.lock
  obtain ⟨hfound, hfits, hcontains⟩ := h.placed_iff.2 hlarge
  have hplaced : Placed { z with pool := z.pool.spinLock.spinUnlock } hint size p :=
    ⟨hfound, hfits, hcontains⟩
  have hunlocked : ({ z with pool := z.pool.spinLock.spinUnlock } : LinearZone).pool.pfree = some q := hq
  rw [allocLinearZoneImpl, if_pos hne, h.unserved, ok_bind]
  dsimp only
  rw [if_neg (fun hn => hn rfl), allocLinearHinted_placed hunlocked hplaced, hsize, hbase]
  by_cases haddr : (z.pool.nodes p).addr = hint
  · -- the range starts the hole
    obtain ⟨z₂, hz₂, -⟩ := takeLinear_spec hrep (h.shape.congr fun i _ => ⟨rfl, rfl⟩) hhi hp hle hint size
    refine ⟨z₂, (if_neg (not_not.2 haddr)).trans (hz₂.trans ?_)⟩
    show Except.ok (wadd (z.pool.nodes p).addr _, z₂) = _
    rw [haddr, hback]
  · -- the hole keeps what is below the range, and what is above it is given back
    have hcut := cutLinear_nodes (p := p) hrep hint (wadd size (hint % 0x200000))
    have hfree := hcut.pfree_ne_none.2 (h.rep.next_ne_none.1 (hspare haddr))
    have hz₂ : ∀ n, ∃ z₂, freeLinearZone (cutLinear { z with pool := z.pool.spinLock.spinUnlock.spinLock }
        q p hint (wadd size (hint % 0x200000))) (alignDown 0x200000
        (wadd (wadd hint (wholePages size)) 0x1fffff)) n = .ok z₂ := fun n =>
      (freeLinearZone_total hcut (alignDown_mod ..)).2 hfree
    obtain ⟨z₂, hz₂⟩ := hz₂ (wsub (z.pool.holeEnd p) (alignDown 0x200000
      (wadd (wadd hint (wholePages size)) 0x1fffff)))
    refine ⟨z₂, (if_pos haddr).trans ?_⟩
    rw [splitLinear_eq]
    refine bind_eq_ok.2 ⟨z₂, hz₂, ?_⟩
    rw [hback]

end Request

/-! ## The result -/

/-- **Hints.** After any run of calls without hints from `init_vm_zone`, a request at the start of a 2 MiB
    page where no record starts, for pages that a hole has, returns the hint if and only if that hole is
    the first one that is large enough and there are the nodes to take the range out of it. -/
theorem hints_honoured_iff {start size₀ : Nat} {z : LinearZone} (hinit : initVmZone start size₀ = .ok z)
    (hb : start + roundUp 0x200000 size₀ < 2 ^ 64) {st : ZoneRun}
    (run : Relation.ReflTransGen UnhintedStep ⟨z, []⟩ st) {hint size : Nat} (hgiven : hint ≠ 0)
    (haligned : hint % 0x200000 = 0)
    (hunrecorded : ∀ i, Visits st.zone.pool.next st.zone.alloced i → (st.zone.pool.nodes i).addr ≠ hint)
    (hhole : ∃ i, st.zone.pool.IsHole i ∧ HoldsRange st.zone.pool hint size i) :
    (∃ z', allocLinearZoneImpl st.zone hint size = .ok (hint, z')) ↔ HintReached st.zone hint size := by
  have hlends : st.Lends start (start + roundUp 0x200000 size₀) := by
    clear hunrecorded hhole
    induction run with
    | refl => exact initVmZone_lends hinit hb
    | tail _ step ih => exact step.preserves hb ih
  obtain ⟨free, holes, recs, hrep, hshape, -⟩ := hlends.zone
  obtain ⟨i, hi, hr⟩ := hhole
  have h : FreeAt start (start + roundUp 0x200000 size₀) st.zone free holes recs hint size :=
    ⟨hrep, hshape, hb, hgiven, haligned, fun i hi => hunrecorded i (hrep.alloced.visits_iff.2 hi),
      i, (isHole_iff hrep).1 hi, hr⟩
  exact ⟨fun ⟨_, hok⟩ => h.reached_of_returns hok, h.returns_of_reached⟩

/-- The fresh `low` zone grants a page in its middle. -/
theorem hints_honoured_fresh : ∃ z z', initVmZone 0x700000000000 0x40000000000 = .ok z ∧
    allocLinearZoneImpl z 0x700000800000 0x1000 = .ok (0x700000800000, z') := by
  obtain ⟨z, hinit, hchain, hrecs, haddr, hsize, hpfree, hnext⟩ : ∃ z,
      initVmZone 0x700000000000 0x40000000000 = .ok z ∧ Chain z.pool.next z.pool.phead [0] ∧
      z.alloced = none ∧ (z.pool.nodes 0).addr = 0x700000000000 ∧
      (z.pool.nodes 0).size = 0x40000000000 ∧ z.pool.pfree = some 1 ∧ z.pool.next 1 = some 2 :=
    ⟨_, rfl, ⟨rfl, rfl⟩, rfl, rfl, rfl, rfl, rfl⟩
  have hhole : z.pool.IsHole 0 := hchain.visits_iff.2 List.mem_cons_self
  have hr : HoldsRange z.pool 0x700000800000 0x1000 0 := by
    rw [HoldsRange, haddr, hsize]
    decide
  have hfirst : ∀ i, z.pool.IsHole i → Visits z.pool.next (z.pool.next i) 0 →
      (z.pool.nodes i).size < wholePages 0x1000 := by
    intro i hi hahead
    rw [only_isHole hchain hi] at hahead
    rw [show z.pool.next 0 = none from hchain.2] at hahead
    cases hahead
  obtain ⟨z', hok⟩ := (hints_honoured_iff hinit (by decide) .refl (by decide) (by decide)
    (fun i hi => by rw [hrecs] at hi; cases hi) ⟨0, hhole, hr⟩).2
    ⟨0, 1, ⟨hhole, hr, hfirst⟩, hpfree, fun _ => by simp [hnext]⟩
  exact ⟨z, z', hinit, hok⟩

/-- A freed page at the start of the zone is large enough, and the request for a page above it gets
    that one. -/
theorem hint_missed : ∃ z st z', initVmZone 0x700000000000 0x40000000000 = .ok z ∧
    Relation.ReflTransGen UnhintedStep ⟨z, []⟩ st ∧
    (∀ i, Visits st.zone.pool.next st.zone.alloced i → (st.zone.pool.nodes i).addr ≠ 0x700000800000) ∧
    (∃ i, st.zone.pool.IsHole i ∧ HoldsRange st.zone.pool 0x700000800000 0x200000 i) ∧
    allocLinearZoneImpl st.zone 0x700000800000 0x200000 = .ok (0x700000000000, z') := by
  obtain ⟨z, st, z', hinit, run, hrecs, haddr₁, haddr₂, hholes, haddr, hsize, hok⟩ : ∃ z st z',
      initVmZone 0x700000000000 0x40000000000 = .ok z ∧
      Relation.ReflTransGen UnhintedStep ⟨z, []⟩ st ∧
      Chain st.zone.pool.next st.zone.alloced [2, 1] ∧ (st.zone.pool.nodes 1).addr = 0x700000000000 ∧
      (st.zone.pool.nodes 2).addr = 0x700000200000 ∧
      Chain st.zone.pool.next st.zone.pool.phead [3, 0] ∧
      (st.zone.pool.nodes 0).addr = 0x700000400000 ∧
      (st.zone.pool.nodes 0).size = 0x3ffffc00000 ∧
      allocLinearZoneImpl st.zone 0x700000800000 0x200000 = .ok (0x700000000000, z') := by
    refine ⟨_, _, _, rfl, .tail (.tail (.tail .refl
      ⟨.alloc 0 0x200000, ⟨by decide, by decide, by decide⟩, rfl, rfl⟩)
      ⟨.alloc 0 0x200000, ⟨by decide, by decide, by decide⟩, rfl, rfl⟩)
      ⟨.free ⟨0x700000000000, 0x200000, 1⟩, List.mem_cons_of_mem _ List.mem_cons_self, trivial, rfl⟩,
      ⟨rfl, rfl, rfl⟩, rfl, rfl, ⟨rfl, rfl, rfl⟩, rfl, rfl, rfl⟩
  refine ⟨z, st, z', hinit, run, fun i hi => ?_, ⟨0, hholes.visits_iff.2 (by simp), ?_⟩, hok⟩
  · obtain rfl | rfl : i = 2 ∨ i = 1 := by simpa using hrecs.visits_iff.1 hi
    · rw [haddr₂]
      decide
    · rw [haddr₁]
      decide
  · rw [HoldsRange, haddr, hsize]
    decide

end Yaos
