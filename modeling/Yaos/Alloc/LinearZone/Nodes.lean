import Yaos.Alloc.LinearZone.Runs
import Yaos.Alloc.HolePool.Spin
import Mathlib.Data.List.Find

set_option autoImplicit false

/-! # The nodes of a linear zone

Which of the three lists a node is on, over any run, whatever addresses and sizes the calls are
given. `ZoneAlloc` lists the ways out of the allocator in terms of the state before the call. Nodes
are lost in one place: a request that uses up a hole gives the node of the hole back in front of
`pfree`, and then takes the unused nodes from behind `pfree`. Records are never given back. -/

namespace Yaos

open Chains Word HolePool

/-! ## The ways out of the allocator, for any addresses -/

/-- The number of bytes a hinted request cuts out of a hole. -/
def hintedSize (hint size : Nat) : Nat := wadd (roundUp 0x200000 size) (hint % 0x200000)

/-- Where the rest of a split hole begins. -/
def tailAddr (hint size : Nat) : Nat :=
  alignDown 0x200000 (wadd (wadd (alignDown 0x200000 hint) (hintedSize hint size)) 0x1fffff)

/-- The hole where the search of a hinted request stops. -/
def hintedHole (z : LinearZone) (hint size : Nat) : Option (Option Nat) :=
  walk z.pool.next (fun p => !((z.pool.nodes p).size < hintedSize hint size) ||
    holeContains z.pool (alignDown 0x200000 hint) (hintedSize hint size) p) linearHoles.capacity
    z.pool.phead

/-- A hinted request that the hole `p` serves at the hint. -/
structure Placed (z : LinearZone) (hint size p : Nat) : Prop where
  found : hintedHole z hint size = some (some p)
  fits : hintedSize hint size ≤ (z.pool.nodes p).size
  contains : holeContains z.pool (alignDown 0x200000 hint) (hintedSize hint size) p = true

/-- `check_alloced` returns NULL. -/
def Unserved (z : LinearZone) (hint size : Nat) : Prop := ∃ z', checkAlloced z hint size = .ok (0, z')

theorem Unserved.returns {z : LinearZone} {hint size : Nat} (h : Unserved z hint size) :
    (checkAlloced z hint size).toOption.map Prod.fst = some 0 := by
  obtain ⟨z', h⟩ := h
  rw [h]
  rfl

/-- The request is made without a hint, or is retried without it. -/
def Unhinted (z : LinearZone) (hint size : Nat) : Prop :=
  hint = 0 ∨ Unserved z hint size ∧ ∀ p, ¬ Placed z hint size p

/-- The record that `check_alloced` serves the request from. -/
def servedBy (z : LinearZone) (hint size : Nat) : List Nat :=
  if hint = 0 then []
  else
    match servingRecord z hint size with
    | some (some p) => [p]
    | _ => []

/-- Only the lock and the sizes of the nodes of `l` may differ. -/
structure Touched (z z' : LinearZone) (l : List Nat) : Prop where
  pfree : z'.pool.pfree = z.pool.pfree
  phead : z'.pool.phead = z.pool.phead
  alloced : z'.alloced = z.alloced
  next : ∀ i, z'.pool.next i = z.pool.next i
  nodes : ∀ i, i ∉ l → z'.pool.nodes i = z.pool.nodes i

section Touched

variable {z z₁ z' : LinearZone} {free holes recs l : List Nat} {hint size : Nat}

theorem Touched.refl : Touched z z l := ⟨rfl, rfl, rfl, fun _ => rfl, fun _ _ => rfl⟩

theorem Touched.lock (h : Touched z z' l) : Touched z { z' with pool := z'.pool.spinLock } l :=
  ⟨h.pfree, h.phead, h.alloced, h.next, h.nodes⟩

theorem Touched.unlock (h : Touched z z' l) : Touched z { z' with pool := z'.pool.spinUnlock } l :=
  ⟨h.pfree, h.phead, h.alloced, h.next, h.nodes⟩

theorem servedBy_subset (h : ZoneRep z free holes recs) : ∀ i ∈ servedBy z hint size, i ∈ recs := by
  intro i hi
  unfold servedBy at hi
  split at hi
  · cases hi
  · split at hi
    · rename_i p hserve
      rw [List.mem_singleton] at hi
      exact hi ▸ h.alloced.visits_iff.1 (visits_of_walk_some hserve).1
    · cases hi

variable (h : ZoneRep z free holes recs) (ht : Touched z z' (servedBy z hint size))

include h ht

theorem Touched.rep : ZoneRep z' free holes recs where
  rep :=
    { pfree := by rw [ht.pfree]; exact h.rep.pfree.congr fun i _ => ht.next i
      phead := by rw [ht.phead]; exact h.rep.phead.congr fun i _ => ht.next i
      disj := h.rep.disj }
  alloced := by rw [ht.alloced]; exact h.alloced.congr fun i _ => ht.next i
  nodup := h.nodup
  bound := h.bound

theorem Touched.hole {i : Nat} (hi : i ∈ holes) : z'.pool.nodes i = z.pool.nodes i :=
  ht.nodes i fun hr => (h.not_recs (servedBy_subset h i hr)).2 hi

theorem Touched.find_eq {stop stop' : Nat → Bool} (heq : ∀ i ∈ holes, stop' i = stop i) :
    walk z'.pool.next stop' linearHoles.capacity z'.pool.phead =
      walk z.pool.next stop linearHoles.capacity z.pool.phead := by
  rw [walk_eq_find (ht.rep h).rep.phead h.holes_le, walk_eq_find h.rep.phead h.holes_le]
  exact congrArg some (List.find?_congr heq)

theorem Touched.firstFit_eq (n : Nat) :
    firstFit linearHoles z'.pool n = firstFit linearHoles z.pool n :=
  ht.find_eq h fun i hi => by rw [ht.hole h hi]

theorem Touched.contains_eq {addr n i : Nat} (hi : i ∈ holes) :
    holeContains z'.pool addr n i = holeContains z.pool addr n i := by
  rw [holeContains, holeContains, holeEnd, holeEnd, ht.hole h hi]

theorem Touched.hintedHole_eq : hintedHole z' hint size = hintedHole z hint size :=
  ht.find_eq h fun i hi => by rw [ht.hole h hi, ht.contains_eq h hi]

end Touched

/-- How a call of the allocator ends: `z₁` is the zone with the lock taken, when a hole has been
    chosen. -/
inductive ZoneAlloc (z : LinearZone) (hint size : Nat) : Nat → LinearZone → Prop
  | served {ret : Nat} {z' : LinearZone} (hint_ne : hint ≠ 0) (ret_ne : ret ≠ 0)
      (check : checkAlloced z hint size = .ok (ret, z'))
      (touched : Touched z z' (servedBy z hint size))
      (lock : z.pool.Released → z'.pool.Released) : ZoneAlloc z hint size ret z'
  | full {z' : LinearZone} (unhinted : Unhinted z hint size)
      (none_fits : firstFit linearHoles z.pool (roundUp 0x200000 size) = some none)
      (touched : Touched z z' (servedBy z hint size)) (lock : z.pool.Released → z'.pool.Released) :
      ZoneAlloc z hint size 0 z'
  | anywhere {z₁ z' : LinearZone} {ret pfree p : Nat} (unhinted : Unhinted z hint size)
      (fits : firstFit linearHoles z.pool (roundUp 0x200000 size) = some (some p))
      (touched : Touched z z₁ (servedBy z hint size)) (lock : z.pool.Released → z₁.pool.Held)
      (unused : z₁.pool.pfree = some pfree)
      (takes : takeLinear z₁ pfree p (roundUp 0x200000 size) 0 size = .ok (ret, z')) :
      ZoneAlloc z hint size ret z'
  | front {z₁ z' : LinearZone} {ret pfree p : Nat} (hint_ne : hint ≠ 0)
      (unserved : Unserved z hint size) (placed : Placed z hint size p)
      (addr_eq : (z.pool.nodes p).addr = alignDown 0x200000 hint) (touched : Touched z z₁ (servedBy z hint size))
      (lock : z.pool.Released → z₁.pool.Held) (unused : z₁.pool.pfree = some pfree)
      (takes : takeLinear z₁ pfree p (hintedSize hint size) hint size = .ok (ret, z')) :
      ZoneAlloc z hint size ret z'
  | middle {z₁ z' : LinearZone} {ret pfree p : Nat} (hint_ne : hint ≠ 0)
      (unserved : Unserved z hint size) (placed : Placed z hint size p)
      (addr_ne : (z.pool.nodes p).addr ≠ alignDown 0x200000 hint) (touched : Touched z z₁ (servedBy z hint size))
      (lock : z.pool.Released → z₁.pool.Held) (unused : z₁.pool.pfree = some pfree)
      (splits : splitLinear z₁ pfree p (alignDown 0x200000 hint) (hintedSize hint size) hint size
        = .ok (ret, z')) : ZoneAlloc z hint size ret z'

section Alloc

variable {z z₁ z' : LinearZone} {free holes recs : List Nat} {hint size ret : Nat}

theorem allocLinearAny_alloc (h : ZoneRep z free holes recs) (hu : Unhinted z hint size)
    (ht : Touched z z₁ (servedBy z hint size)) (hl : z.pool.Released → z₁.pool.Released)
    (hok : allocLinearAny z₁ size = .ok (ret, z')) : ZoneAlloc z hint size ret z' := by
  dsimp only [allocLinearAny] at hok
  split at hok
  · cases hok
  · rename_i pfree hpf
    have hff := ht.lock.firstFit_eq h (roundUp 0x200000 size)
    split at hok
    · cases hok
    · rename_i hnone
      obtain ⟨hret, hz'⟩ := Prod.mk.inj (Except.ok.inj hok)
      rw [← hret, ← hz']
      exact .full hu (hff.symm.trans hnone) ht.lock.unlock fun hr => (hl hr).lock.unlock
    · rename_i p hsome
      exact .anywhere hu (hff.symm.trans hsome) ht.lock (fun hr => (hl hr).lock) hpf hok

theorem allocLinearHinted_alloc (h : ZoneRep z free holes recs) (hne : hint ≠ 0)
    (hu : Unserved z hint size) (ht : Touched z z₁ (servedBy z hint size))
    (hl : z.pool.Released → z₁.pool.Released)
    (hok : allocLinearHinted z₁ hint size = .ok (ret, z')) : ZoneAlloc z hint size ret z' := by
  dsimp only [allocLinearHinted] at hok
  have hretry : (∀ p, ¬ Placed z hint size p) →
      allocLinearAny { z₁ with pool := z₁.pool.spinLock.spinUnlock } size = .ok (ret, z') →
      ZoneAlloc z hint size ret z' := fun hno =>
    allocLinearAny_alloc h (.inr ⟨hu, hno⟩) ht.lock.unlock fun hr => (hl hr).lock.unlock
  have hsearch : hintedHole { z₁ with pool := z₁.pool.spinLock } hint size = hintedHole z hint size :=
    ht.lock.hintedHole_eq h
  split at hok
  · cases hok
  · rename_i pfree hpf
    split at hok
    · cases hok
    · rename_i hnone
      refine hretry (fun p hp => ?_) hok
      have : hintedHole z hint size = some none := hsearch.symm.trans hnone
      rw [hp.found] at this
      cases this
    · rename_i p hsome
      have hfound : hintedHole z hint size = some (some p) := hsearch.symm.trans hsome
      have hp : p ∈ holes := h.rep.phead.visits_iff.1 (visits_of_walk_some hfound).1
      have hnode : z₁.pool.spinLock.nodes p = z.pool.nodes p := ht.lock.hole h hp
      have hcont : holeContains z₁.pool.spinLock (alignDown 0x200000 hint) (hintedSize hint size) p
          = holeContains z.pool (alignDown 0x200000 hint) (hintedSize hint size) p :=
        ht.lock.contains_eq h hp
      split at hok
      · rename_i hbad
        -- the hole that was found cannot take the request in place, and there is only one such hole
        refine hretry (fun q hq => ?_) hok
        have hqp : q = p := Option.some.inj (Option.some.inj (hq.found.symm.trans hfound))
        subst hqp
        have hfit := hq.fits
        have hc := hq.contains
        rw [← hnode] at hfit
        rw [← hcont] at hc
        rw [Bool.or_eq_true, decide_eq_true_eq, Bool.not_eq_true'] at hbad
        rcases hbad with hlt | hnot
        · exact absurd hlt (Nat.not_lt.2 hfit)
        · exact absurd (hc.symm.trans hnot) (by decide)
      · rename_i hgood
        rw [Bool.or_eq_true, decide_eq_true_eq, Bool.not_eq_true', not_or, Nat.not_lt,
          Bool.not_eq_false] at hgood
        have hplaced : Placed z hint size p :=
          ⟨hfound, hnode ▸ hgood.1, hcont.symm.trans hgood.2⟩
        split at hok
        · rename_i haddr
          exact .middle hne hu hplaced (by rw [← hnode]; exact haddr) ht.lock
            (fun hr => (hl hr).lock) hpf hok
        · rename_i haddr
          exact .front hne hu hplaced (by rw [← hnode]; exact not_not.1 haddr) ht.lock
            (fun hr => (hl hr).lock) hpf hok

/-- `check_alloced` changes at most the size of the record that serves the request. -/
theorem checkAlloced_touched (hne : hint ≠ 0) (hok : checkAlloced z hint size = .ok (ret, z')) :
    Touched z z' (servedBy z hint size) ∧ (z.pool.Released → z'.pool.Released) := by
  have hresize : ∀ {p n : Nat}, servingRecord z hint size = some (some p) →
      Touched z { z with pool := (z.pool.spinLock.modify p fun m =>
        { m with size := n }).spinUnlock } (servedBy z hint size) := by
    intro p n hserve
    refine ⟨rfl, rfl, rfl, fun i => ?_, fun i hi => ?_⟩
    · by_cases hip : i = p
      · subst hip
        simp [HolePool.next]
      · simp [HolePool.next, hip]
    · have hip : i ≠ p := by simpa [servedBy, hne, hserve] using hi
      simp [hip]
  have hlock : ∀ {p : Nat} {f : HoleNode → HoleNode}, z.pool.Released →
      (z.pool.spinLock.modify p f).spinUnlock.Released := by
    intro p f hr
    have hheld : (z.pool.spinLock.modify p f).Held := hr.lock.congr rfl
    exact hheld.unlock
  dsimp only [checkAlloced] at hok
  split at hok
  · cases hok
  · rw [← (Prod.mk.inj (Except.ok.inj hok)).2]
    exact ⟨Touched.refl.lock.unlock, fun hr => hr.lock.unlock⟩
  · rename_i p hserve
    split at hok
    · rw [← (Prod.mk.inj (Except.ok.inj hok)).2]
      exact ⟨hresize hserve, hlock⟩
    · rw [← (Prod.mk.inj (Except.ok.inj hok)).2]
      exact ⟨hresize hserve, hlock⟩

/-- **The ways out of `alloc_linear_zone_impl`.** -/
theorem allocLinearZoneImpl_cases (h : ZoneRep z free holes recs)
    (hok : allocLinearZoneImpl z hint size = .ok (ret, z')) : ZoneAlloc z hint size ret z' := by
  unfold allocLinearZoneImpl at hok
  split at hok
  · rename_i hne
    obtain ⟨⟨addr, z₁⟩, hcheck, hok⟩ := bind_eq_ok.1 hok
    obtain ⟨ht, hl⟩ := checkAlloced_touched hne hcheck
    dsimp only at hok
    split at hok
    · rename_i haddr
      obtain ⟨rfl, rfl⟩ := Prod.mk.inj (Except.ok.inj hok)
      exact .served hne haddr hcheck ht hl
    · rename_i haddr
      rw [not_not] at haddr
      subst haddr
      exact allocLinearHinted_alloc h hne ⟨z₁, hcheck⟩ ht hl hok
  · rename_i hzero
    exact allocLinearAny_alloc h (.inl (not_not.1 hzero)) .refl id hok

end Alloc

/-! ## What a call does to the lists -/

section Lists

variable {z z' : LinearZone} {free holes recs : List Nat} {hint size ret : Nat}

theorem freeLinearZone_lists {addr : Nat} (h : ZoneRep z free holes recs)
    (hok : freeLinearZone z addr size = .ok z') :
    ∃ free' holes', ZoneRep z' free' holes' recs ∧
      ∀ i, i ∈ free ++ (holes ++ recs) → i ∈ free' ++ (holes' ++ recs) := by
  obtain ⟨-, hok⟩ := assert_bind_eq_ok.1 hok
  obtain ⟨pool', hfree, hok⟩ := bind_eq_ok.1 hok
  obtain ⟨-, ⟨ph, -, hrep⟩ | ⟨p, free', rfl, -, hrep⟩⟩ := freeHole_nodes h hfree
  · rw [← Except.ok.inj hok]
    exact ⟨free, holes, hrep, fun i hi => hi⟩
  · rw [← Except.ok.inj hok]
    exact ⟨free', _, hrep, fun i hi => (inserted_perm ..).mem_iff.2 hi⟩

/-- A hole that a request for `n` bytes uses up. -/
def UsedUp (z : LinearZone) (n p : Nat) : Prop := wsub (z.pool.nodes p).size n = 0

instance (z : LinearZone) (n p : Nat) : Decidable (UsedUp z n p) :=
  inferInstanceAs (Decidable (_ = _))

theorem takeLinear_lists {pfree p n off : Nat} (h : ZoneRep z free holes recs) (hp : p ∈ holes)
    (hpf : z.pool.pfree = some pfree) (hok : takeLinear z pfree p n off size = .ok (ret, z')) :
    ret = wadd (z.pool.nodes p).addr (off % 0x200000) ∧
      ∃ free' holes', ZoneRep z' free' holes' (pfree :: recs) ∧ (¬ UsedUp z n p →
        ∀ i, i ∈ free ++ (holes ++ recs) → i ∈ free' ++ (holes' ++ pfree :: recs)) := by
  obtain ⟨pre, post, rfl⟩ := List.append_of_mem hp
  obtain ⟨free, rfl⟩ := h.free_cons hpf
  obtain ⟨z₁, pool', hok₁, -, -, -, -, hrep⟩ := takeLinear_nodes h n off size
  rw [hok] at hok₁
  obtain ⟨hret, rfl⟩ := Prod.mk.inj (Except.ok.inj hok₁)
  refine ⟨hret, free, _, hrep, fun hleft i hi => ?_⟩
  rw [if_neg (fun hz => hleft (Nat.le_zero.1 hz))]
  exact (recorded_perm ..).mem_iff.2 hi

theorem splitLinear_lists {pfree p addr n : Nat} (h : ZoneRep z free holes recs)
    (hpf : z.pool.pfree = some pfree)
    (hok : splitLinear z pfree p addr n hint size = .ok (ret, z')) :
    ret = wadd addr (hint % 0x200000) ∧
      ∃ free' holes', ZoneRep z' free' holes' (pfree :: recs) ∧
        ∀ i, i ∈ free ++ (holes ++ recs) → i ∈ free' ++ (holes' ++ pfree :: recs) := by
  obtain ⟨free, rfl⟩ := h.free_cons hpf
  rw [splitLinear_eq] at hok
  obtain ⟨z₂, hfree, hok⟩ := bind_eq_ok.1 hok
  obtain ⟨hret, rfl⟩ := Prod.mk.inj (Except.ok.inj hok)
  obtain ⟨free', holes', hrep, hkeep⟩ := freeLinearZone_lists (cutLinear_nodes h _ _) hfree
  exact ⟨hret.symm, free', holes', hrep, fun i hi => hkeep i ((recorded_perm ..).mem_iff.2 hi)⟩

/-- A request that uses up the hole it takes from. -/
def AllocUsesUp (z : LinearZone) (hint size : Nat) : Prop :=
  (∃ p, Unhinted z hint size ∧ firstFit linearHoles z.pool (roundUp 0x200000 size) = some (some p) ∧
    UsedUp z (roundUp 0x200000 size) p) ∨
  ∃ p, hint ≠ 0 ∧ Unserved z hint size ∧ Placed z hint size p ∧
    (z.pool.nodes p).addr = alignDown 0x200000 hint ∧ UsedUp z (hintedSize hint size) p

/-- A request that takes a block at address 0, which is also what the allocator returns when it
    fails. -/
def AllocAtNull (z : LinearZone) (hint size : Nat) : Prop :=
  ∃ p, Unhinted z hint size ∧ firstFit linearHoles z.pool (roundUp 0x200000 size) = some (some p) ∧
    (z.pool.nodes p).addr % 2 ^ 64 = 0

theorem hint_ne_zero (hint_lt : hint < 2 ^ 64) (hne : hint ≠ 0) :
    wadd (alignDown 0x200000 hint) (hint % 0x200000) ≠ 0 := by
  have hadd := alignDown_add_mod 0x200000 hint
  rw [wadd_eq (by omega), hadd]
  exact hne

/-- The three lists after a call. One that does not use up a hole loses no node, and one that does
    not take a block at address 0 makes a record only for a range it returns. -/
theorem ZoneAlloc.lists (h : ZoneRep z free holes recs) (ha : ZoneAlloc z hint size ret z') :
    ∃ free' holes' recs', ZoneRep z' free' holes' recs' ∧
      (¬ AllocUsesUp z hint size →
        ∀ i, i ∈ free ++ (holes ++ recs) → i ∈ free' ++ (holes' ++ recs')) ∧
      (hint < 2 ^ 64 → ¬ AllocAtNull z hint size →
        recs'.length ≤ recs.length + if ret = 0 then 0 else 1) := by
  cases ha with
  | served _ hret _ ht _ =>
      exact ⟨free, holes, recs, ht.rep h, fun _ i hi => hi, fun _ _ => Nat.le_add_right ..⟩
  | full _ _ ht _ =>
      exact ⟨free, holes, recs, ht.rep h, fun _ i hi => hi, fun _ _ => le_rfl⟩
  | @anywhere z₁ _ _ pfree p hu hff ht _ hpf hok =>
      have hp : p ∈ holes := h.rep.phead.visits_iff.1 (visits_of_walk_some hff).1
      have hnode := ht.hole h hp
      obtain ⟨hret, free', holes', hrep, hkeep⟩ := takeLinear_lists (ht.rep h) hp hpf hok
      refine ⟨free', holes', pfree :: recs, hrep, fun hleft => hkeep fun hz => ?_,
        fun _ hnull => ?_⟩
      · exact hleft (.inl ⟨p, hu, hff, by rwa [UsedUp, ← hnode]⟩)
      · have hne : ret ≠ 0 := by
          intro h0
          refine hnull ⟨p, hu, hff, ?_⟩
          rw [← hnode]
          simpa [wadd] using hret.symm.trans h0
        rw [if_neg hne, List.length_cons]
  | @front z₁ _ _ pfree p hne hu hplaced haddr ht _ hpf hok =>
      have hp : p ∈ holes := h.rep.phead.visits_iff.1 (visits_of_walk_some hplaced.found).1
      have hnode := ht.hole h hp
      obtain ⟨hret, free', holes', hrep, hkeep⟩ := takeLinear_lists (ht.rep h) hp hpf hok
      refine ⟨free', holes', pfree :: recs, hrep, fun hleft => hkeep fun hz => ?_,
        fun hlt _ => ?_⟩
      · exact hleft (.inr ⟨p, hne, hu, hplaced, haddr, by rwa [UsedUp, ← hnode]⟩)
      · rw [hnode, haddr] at hret
        rw [if_neg (hret ▸ hint_ne_zero hlt hne), List.length_cons]
  | @middle z₁ _ _ pfree p hne hu hplaced haddr ht _ hpf hok =>
      obtain ⟨hret, free', holes', hrep, hkeep⟩ := splitLinear_lists (ht.rep h) hpf hok
      refine ⟨free', holes', pfree :: recs, hrep, fun _ => hkeep, fun hlt _ => ?_⟩
      rw [if_neg (hret ▸ hint_ne_zero hlt hne), List.length_cons]

end Lists

/-! ## Whole runs -/

/-- Every node is on exactly one of the three lists, none of which has a cycle, and there are no
    more records than allocated ranges. -/
def NodesKept (st : ZoneRun) : Prop :=
  ∃ free holes recs, ZoneRep st.zone free holes recs ∧
    (∀ i < linearHoles.capacity, i ∈ free ++ (holes ++ recs)) ∧ recs.length ≤ st.live.length

/-- The calls of a run: any request, and frees of ranges that are allocated. -/
def ZoneRun.calls (st : ZoneRun) : ZoneOp → Prop
  | .alloc hint size => hint < 2 ^ 64 ∧ size < 2 ^ 64
  | .free r => r ∈ st.live

/-- The condition under which a call keeps the nodes. For an allocation: it does not use up the hole
    it takes from (and that hole is not at address 0). For a free: there are fewer records than
    allocated ranges. -/
def ZoneRun.keepsNodes (st : ZoneRun) : ZoneOp → Prop
  | .alloc hint size => ¬ AllocUsesUp st.zone hint size ∧ ¬ AllocAtNull st.zone hint size
  | .free _ => ∃ recs, Chain st.zone.pool.next st.zone.alloced recs ∧ recs.length < st.live.length

/-- One of the calls leads from `st` to `st'`. -/
def ZoneCall (st st' : ZoneRun) : Prop := ∃ op, st.calls op ∧ st.exec op = .ok st'

/-- Such a call that keeps the nodes. -/
def NodeStep (st st' : ZoneRun) : Prop := ∃ op, st.calls op ∧ st.keepsNodes op ∧ st.exec op = .ok st'

theorem NodeStep.preserves {st st' : ZoneRun} (step : NodeStep st st') (h : NodesKept st) :
    NodesKept st' := by
  obtain ⟨free, holes, recs, hrep, hall, hle⟩ := h
  obtain ⟨op, hcall, hkeep, hok⟩ := step
  cases op with
  | alloc hint size =>
      obtain ⟨⟨ret, z'⟩, halloc, hok⟩ := bind_eq_ok.1 hok
      obtain ⟨free', holes', recs', hrep', hmem, hlen⟩ :=
        ZoneAlloc.lists hrep (allocLinearZoneImpl_cases hrep halloc)
      rw [← Except.ok.inj hok]
      refine ⟨free', holes', recs', hrep', fun i hi => hmem hkeep.1 i (hall i hi), ?_⟩
      replace hlen := hlen hcall.1 hkeep.2
      dsimp only
      split at hlen
      · rename_i hret
        rw [if_pos hret]
        omega
      · rename_i hret
        rw [if_neg hret, List.length_cons]
        omega
  | free r =>
      obtain ⟨z', hfree, hok⟩ := bind_eq_ok.1 hok
      obtain ⟨free', holes', hrep', hmem⟩ := freeLinearZone_lists hrep hfree
      obtain ⟨recs', hchain, hlt⟩ := hkeep
      rw [← Except.ok.inj hok]
      refine ⟨free', holes', recs, hrep', fun i hi => hmem i (hall i hi), ?_⟩
      rw [hrep.alloced.unique hchain]
      have hmem : r ∈ st.live := hcall
      show recs'.length ≤ (st.live.erase r).length
      rw [List.length_erase_of_mem hmem]
      omega

theorem initVmZone_nodes {start size : Nat} {z : LinearZone} (hok : initVmZone start size = .ok z) :
    NodesKept ⟨z, []⟩ := by
  obtain ⟨free', holes', hrep', hmem⟩ := freeLinearZone_lists initZone_rep hok
  exact ⟨free', holes', [], hrep', fun i hi => hmem i (by simpa using hi), le_rfl⟩

/-- **Node conservation.** In every run from `init_vm_zone` whose calls meet
    `ZoneRun.keepsNodes`, every node stays on exactly one list, and the records never outnumber the
    allocated ranges. -/
theorem linearZone_run_nodesKept {start size : Nat} {z : LinearZone}
    (hinit : initVmZone start size = .ok z) {st : ZoneRun}
    (run : Relation.ReflTransGen NodeStep ⟨z, []⟩ st) : NodesKept st := by
  induction run with
  | refl => exact initVmZone_nodes hinit
  | tail _ step ih => exact step.preserves ih

/-- A block of the `low` zone, a second range served from its record, and a free. -/
theorem linearZone_run_nodesKept_lowMmap : ∃ z st,
    initVmZone 0x700000000000 0x40000000000 = .ok z ∧
    Relation.ReflTransGen NodeStep ⟨z, []⟩ st ∧ st.live.length = 1 ∧ NodesKept st := by
  have hrun : ∃ z st, initVmZone 0x700000000000 0x40000000000 = .ok z ∧
      Relation.ReflTransGen NodeStep ⟨z, []⟩ st ∧ st.live.length = 1 := by
    refine ⟨_, _, rfl, .tail (.tail (.tail .refl
      ⟨.alloc 0 0x1000, ⟨by decide, by decide⟩, ⟨?_, ?_⟩, rfl⟩)
      ⟨.alloc 0x700000000000 0x1000, ⟨by decide, by decide⟩, ⟨?_, ?_⟩, rfl⟩)
      ⟨.free ⟨0x700000000000, 0x1000, 1⟩, List.mem_cons_of_mem _ List.mem_cons_self,
        ⟨[1], ⟨rfl, rfl⟩, by decide⟩, rfl⟩, rfl⟩
    · rintro (⟨p, -, hff, hused⟩ | ⟨p, hne, -⟩)
      · cases Option.some.inj (Option.some.inj hff)
        exact absurd hused (by decide +kernel)
      · exact hne rfl
    · rintro ⟨p, -, hff, hnull⟩
      cases Option.some.inj (Option.some.inj hff)
      exact absurd hnull (by decide +kernel)
    · rintro (⟨p, hu | ⟨hu, -⟩, -⟩ | ⟨p, -, hu, -⟩)
      · exact absurd hu (by decide)
      · exact absurd hu.returns (by decide +kernel)
      · exact absurd hu.returns (by decide +kernel)
    · rintro ⟨p, hu | ⟨hu, -⟩, -⟩
      · exact absurd hu (by decide)
      · exact absurd hu.returns (by decide +kernel)
  obtain ⟨z, st, hinit, run, hlen⟩ := hrun
  exact ⟨z, st, hinit, run, hlen, linearZone_run_nodesKept hinit run⟩

/-- Allocate `size` bytes anywhere and free them again, `n` times. -/
def allocFree (size : Nat) : Nat → LinearZone → Except Fault LinearZone
  | 0, z => .ok z
  | n + 1, z => do
      let (addr, z) ← allocLinearZoneImpl z 0 size
      let z ← freeLinearZone z addr size
      allocFree size n z

/-- Why a call did not return. -/
def faultOf {α : Type} : Except Fault α → Option Fault
  | .ok _ => none
  | .error f => some f

/-- The record of a block outlives the block, and fifty rounds use up all nodes. -/
theorem allocFree_exhausts :
    (∃ z st, initVmZone 0x700000000000 0x40000000000 = .ok z ∧
      Relation.ReflTransGen ZoneCall ⟨z, []⟩ st ∧ st.live = [] ∧ ¬ NodesKept st) ∧
    faultOf (initVmZone 0x700000000000 0x40000000000 >>= allocFree 0x200000 50) =
      some (.panic "MAX_LINEAR_HOLE too small!\n") := by
  refine ⟨⟨_, _, rfl, .tail (.tail .refl ⟨.alloc 0 0x200000, ⟨by decide, by decide⟩, rfl⟩)
    ⟨.free ⟨0x700000000000, 0x200000, 1⟩, List.mem_cons_self, rfl⟩, rfl, ?_⟩, by decide +kernel⟩
  rintro ⟨free, holes, recs, hrep, -, hle⟩
  have hrecs : recs = [1] := hrep.alloced.unique ⟨rfl, rfl⟩
  subst hrecs
  exact absurd hle (by decide)

end Yaos
