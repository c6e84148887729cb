import Yaos.Alloc.KHeap
import Yaos.Alloc.LinearZone.Nodes

set_option autoImplicit false

/-! # The locks of the hole allocators

`spin_4k`, `spin_small`, `spin_page` and `spin_vm` over any run of the allocators. Every path of
every call releases the lock it takes, with one exception: `free_kheap_4k` and `free_linear_zone`
return with the lock held when the freed range extends a hole (`free_phy_page_small`, the third copy
of the code, has the unlock there). So a call is in order exactly when none of the ranges it frees
begins where a hole ends, be it the range it is given, the page it refills the heap with, or the rest
of a hole it splits. -/

namespace Yaos

open Chains Word HolePool

/-! ## The kernel heaps -/

section KHeap

variable {s s' : HolePool} {addr size ret : Nat} {pages rest : List Nat}

theorem freeKheap4k_locks (hs : s.Released) (h : freeKheap4k s addr size = .ok s') :
    (s.EndsAt addr ∧ s'.Held) ∨ (¬ s.EndsAt addr ∧ s'.Released) := by
  obtain ⟨-, h⟩ := assert_bind_eq_ok.1 h
  rcases freeHole_locks hs h with ⟨hm, -, hheld⟩ | ⟨hno, hrel⟩
  · exact .inl ⟨hm, hheld⟩
  · exact .inr ⟨fun hm => absurd (hno hm) (by decide), hrel⟩

/-- `alloc_kheap_4k` refills the heap with a page that begins where a hole ends. -/
def RefillMerges (s : HolePool) (pages : List Nat) (size : Nat) : Prop :=
  (∀ i, s.IsHole i → (s.nodes i).size < roundUp 0x1000 size) ∧ P2V (pages.headD 0) ≠ 0 ∧
    s.EndsAt (P2V (pages.headD 0))

/-- A refill makes one turn. Its second `spin_lock` is in vain when the free has kept the lock. -/
theorem refillKheap4kOnce_locks {page : Nat} {r : Option Nat}
    {again : HolePool → Except Fault (Option Nat × HolePool × List Nat)} (hs : s.Held)
    (h : refillKheap4kOnce size page s pages again = .ok (r, s', rest)) :
    (P2V page = 0 ∧ r = none ∧ s'.Released) ∨
      (P2V page ≠ 0 ∧ s.EndsAt (P2V page) ∧ r ≠ none ∧ s'.lockState = none) ∨
      (¬ s.EndsAt (P2V page) ∧ r ≠ none ∧ s'.Held) := by
  dsimp only [refillKheap4kOnce] at h
  split at h
  · rename_i hz
    obtain ⟨hr, hs'⟩ := Prod.mk.inj (Except.ok.inj h)
    rw [← (Prod.mk.inj hs').1]
    exact .inl ⟨hz, hr.symm, hs.unlock⟩
  · rename_i hz
    obtain ⟨s₁, hfree, h⟩ := bind_eq_ok.1 h
    have hlocks := freeKheap4k_locks hs.unlock hfree
    have hhead : s₁.phead ≠ none := freeHole_phead (assert_bind_eq_ok.1 hfree).2
    split at h
    · cases h
    · rename_i p _
      obtain ⟨hr, hs'⟩ := Prod.mk.inj (Except.ok.inj h)
      rw [← (Prod.mk.inj hs').1, ← hr]
      rcases hlocks with ⟨hm, hheld⟩ | ⟨hno, hrel⟩
      · exact .inr (.inl ⟨hz, hm, Option.some_ne_none p, hheld.lock_none⟩)
      · exact .inr (.inr ⟨hno, Option.some_ne_none p, hrel.lock⟩)
    · rename_i hnone
      exact absurd hnone (firstFitOrLast_ne_none hhead)

theorem refillKheap4k_locks {r : Option Nat} (hs : s.Held)
    (h : refillKheap4k size pages s = .ok (r, s', rest)) :
    (P2V (pages.headD 0) = 0 ∧ r = none ∧ s'.Released) ∨
      (P2V (pages.headD 0) ≠ 0 ∧ s.EndsAt (P2V (pages.headD 0)) ∧ r ≠ none ∧ s'.lockState = none) ∨
      (¬ s.EndsAt (P2V (pages.headD 0)) ∧ r ≠ none ∧ s'.Held) := by
  cases pages with
  | nil => exact refillKheap4kOnce_locks hs h
  | cons page pages => exact refillKheap4kOnce_locks hs h

theorem allocKheap4k_locks (hs : s.Released)
    (h : allocKheap4k s pages size = .ok (ret, s', rest)) :
    (RefillMerges s pages size ∧ ¬ s'.Released) ∨ (¬ RefillMerges s pages size ∧ s'.Released) := by
  dsimp only [allocKheap4k] at h
  -- the end of the call, once a hole has been chosen
  have hcarve : ∀ {p : Nat} {s₁ : HolePool} {pages₁ : List Nat},
      (do
        let r ← carveHole kheap4kHoles 0 s₁ p (roundUp 0x1000 size)
        Except.ok (r.1, r.2.spinUnlock, pages₁)) = .ok (ret, s', rest) →
      (s₁.Held → s'.Released) ∧ (s₁.lockState = none → ¬ s'.Released) := by
    intro p s₁ pages₁ h
    obtain ⟨⟨pret, s₂⟩, hc, h⟩ := bind_eq_ok.1 h
    have hspin := carveHole_spin hc
    rw [← (Prod.mk.inj (Prod.mk.inj (Except.ok.inj h)).2).1]
    refine ⟨fun hheld => (hheld.congr hspin).unlock, fun hnone hrel => ?_⟩
    rw [Released, spinUnlock_none ((lockState_congr hspin).trans hnone)] at hrel
    cases hrel
  cases hff : firstFit kheap4kHoles s.spinLock (roundUp 0x1000 size) with
  | none =>
      rw [hff] at h
      cases h
  | some q =>
      rw [hff] at h
      have hiff := firstFit_some_iff hff
      cases q with
      | some p =>
          refine .inr ⟨fun hm => ?_, (hcarve h).1 hs.lock⟩
          exact Option.some_ne_none p (hiff.2 hm.1)
      | none =>
          have hall := hiff.1 rfl
          obtain ⟨⟨r, s₁, pages₁⟩, hrefill, h⟩ := bind_eq_ok.1 h
          rcases refillKheap4k_locks hs.lock hrefill with
            ⟨hz, rfl, hrel⟩ | ⟨hz, hm, hr, hnone⟩ | ⟨hno, hr, hheld⟩
          · rw [← (Prod.mk.inj (Prod.mk.inj (Except.ok.inj h)).2).1]
            exact .inr ⟨fun hm => hm.2.1 hz, hrel⟩
          · obtain ⟨p, rfl⟩ := Option.ne_none_iff_exists'.1 hr
            exact .inl ⟨⟨hall, hz, hm⟩, (hcarve h).2 hnone⟩
          · obtain ⟨p, rfl⟩ := Option.ne_none_iff_exists'.1 hr
            exact .inr ⟨fun hm => hno hm.2.2, (hcarve h).1 hheld⟩

theorem freeKheapSmall_locks (hs : s.Released) (h : freeKheapSmall s addr size = .ok s') :
    s'.Released ∧ ∃ p, s'.phead = some p ∧ (s'.nodes p).size = size := by
  obtain ⟨-, h⟩ := assert_bind_eq_ok.1 h
  dsimp only at h
  split at h
  · cases h
  · rename_i p _
    rw [← Except.ok.inj h]
    refine ⟨hs.lock.unlock.congr rfl, p, rfl, ?_⟩
    simp [HolePool.pushHead]

/-- A refill of the small heap makes one turn: the new hole is large enough. -/
theorem refillKheapSmall_locks {turns : Nat} {h h' : KHeap} {r : Option Nat}
    (hsize : size < 0x1000) (hs : h.poolSmall.Held)
    (hok : refillKheapSmall size turns h pages = .ok (r, h', rest)) :
    (∃ newaddr rest', allocKheap4k h.pool4k pages 0x1000 = .ok (newaddr, h'.pool4k, rest')) ∧
      (r = none ∧ h'.poolSmall.Released ∨ r ≠ none ∧ h'.poolSmall.Held) := by
  cases turns with
  | zero => cases hok
  | succ turns =>
      unfold refillKheapSmall at hok
      obtain ⟨⟨newaddr, pool4k, pages₁⟩, halloc, hok⟩ := bind_eq_ok.1 hok
      dsimp only at hok
      split at hok
      · obtain ⟨hr, hh'⟩ := Prod.mk.inj (Except.ok.inj hok)
        rw [← (Prod.mk.inj hh').1]
        exact ⟨⟨newaddr, pages₁, halloc⟩, .inl ⟨hr.symm, hs.unlock⟩⟩
      · obtain ⟨s₁, hfree, hok⟩ := bind_eq_ok.1 hok
        obtain ⟨hrel, p, hhead, hp⟩ := freeKheapSmall_locks hs.unlock hfree
        have hff : firstFit kheapSmallHoles s₁.spinLock size = some (some p) := by
          unfold firstFit
          rw [spinLock_phead, hhead, show kheapSmallHoles.capacity = 99 + 1 from rfl, walk, if_pos]
          simp only [spinLock_nodes, hp, Bool.not_eq_true', decide_eq_false_iff_not]
          omega
        rw [hff] at hok
        obtain ⟨hr, hh'⟩ := Prod.mk.inj (Except.ok.inj hok)
        rw [← (Prod.mk.inj hh').1, ← hr]
        exact ⟨⟨newaddr, pages₁, halloc⟩, .inr ⟨Option.some_ne_none p, hrel.lock⟩⟩

/-- `alloc_kheap_small` refills through `alloc_kheap_4k`, which refills in turn. -/
def SmallRefillMerges (h : KHeap) (pages : List Nat) (size : Nat) : Prop :=
  (∀ i, h.poolSmall.IsHole i → (h.poolSmall.nodes i).size < size) ∧
    RefillMerges h.pool4k pages 0x1000

theorem allocKheapSmall_locks {h h' : KHeap} (h4k : h.pool4k.Released)
    (hsmall : h.poolSmall.Released) (hok : allocKheapSmall h pages size = .ok (ret, h', rest)) :
    h'.poolSmall.Released ∧
      ((SmallRefillMerges h pages size ∧ ¬ h'.pool4k.Released) ∨
        (¬ SmallRefillMerges h pages size ∧ h'.pool4k.Released)) := by
  obtain ⟨hsize, hok⟩ := assert_bind_eq_ok.1 hok
  dsimp only at hok
  have hcarve : ∀ {p : Nat} {h₁ : KHeap} {pages₁ : List Nat}, h₁.poolSmall.Held →
      (do
        let r ← carveHole kheapSmallHoles 16 h₁.poolSmall p size
        Except.ok (r.1, { h₁ with poolSmall := r.2.spinUnlock }, pages₁)) = .ok (ret, h', rest) →
      h'.poolSmall.Released ∧ h'.pool4k = h₁.pool4k := by
    intro p h₁ pages₁ hheld hc
    obtain ⟨⟨pret, s₂⟩, hc, hok⟩ := bind_eq_ok.1 hc
    rw [← (Prod.mk.inj (Prod.mk.inj (Except.ok.inj hok)).2).1]
    exact ⟨(hheld.congr (carveHole_spin hc)).unlock, rfl⟩
  cases hff : firstFit kheapSmallHoles h.poolSmall.spinLock size with
  | none =>
      rw [hff] at hok
      cases hok
  | some q =>
      rw [hff] at hok
      have hiff := firstFit_some_iff hff
      cases q with
      | some p =>
          let locked : KHeap := { h with poolSmall := h.poolSmall.spinLock }
          have hheld : locked.poolSmall.Held := hsmall.lock
          obtain ⟨hrel, h4⟩ := hcarve hheld hok
          refine ⟨hrel, .inr ⟨fun hm => Option.some_ne_none p (hiff.2 hm.1), ?_⟩⟩
          rw [h4]
          exact h4k
      | none =>
          have hall := hiff.1 rfl
          obtain ⟨⟨r, h₁, pages₁⟩, hrefill, hok⟩ := bind_eq_ok.1 hok
          obtain ⟨⟨newaddr, rest', halloc⟩, hr⟩ := refillKheapSmall_locks
            (h := { h with poolSmall := h.poolSmall.spinLock }) hsize hsmall.lock hrefill
          have hrel : h'.poolSmall.Released ∧ h'.pool4k = h₁.pool4k := by
            rcases hr with ⟨rfl, hrel⟩ | ⟨hr, hheld⟩
            · rw [← (Prod.mk.inj (Prod.mk.inj (Except.ok.inj hok)).2).1]
              exact ⟨hrel, rfl⟩
            · obtain ⟨p, rfl⟩ := Option.ne_none_iff_exists'.1 hr
              exact hcarve hheld hok
          refine ⟨hrel.1, ?_⟩
          rw [hrel.2]
          rcases allocKheap4k_locks h4k halloc with ⟨hm, hnot⟩ | ⟨hno, hrel⟩
          · exact .inl ⟨⟨hall, hm⟩, hnot⟩
          · exact .inr ⟨fun hm => hno hm.2, hrel⟩

end KHeap

/-! ## Physical pages -/

section PhyPage

variable {s s' : HolePool} {addr size ret : Nat} {pages rest : List Nat}

theorem freePhyPageSmall_locks (hs : s.Released) (h : freePhyPageSmall s addr size = .ok s') :
    s'.Released := by
  obtain ⟨-, h⟩ := assert_bind_eq_ok.1 h
  rcases freeHole_locks hs h with ⟨-, hunlock, -⟩ | ⟨-, hrel⟩
  · cases hunlock
  · exact hrel

theorem refillPhyPageSmall_locks {r : Option Nat} (hs : s.Held)
    (h : refillPhyPageSmall size s pages = .ok (r, s', rest)) :
    r = none ∧ s'.Released ∨ r ≠ none ∧ s'.Held := by
  induction pages generalizing s with
  | nil =>
      obtain ⟨hr, hs'⟩ := Prod.mk.inj (Except.ok.inj h)
      rw [← (Prod.mk.inj hs').1]
      exact .inl ⟨hr.symm, hs.unlock⟩
  | cons newaddr pages ih =>
      unfold refillPhyPageSmall at h
      split at h
      · obtain ⟨hr, hs'⟩ := Prod.mk.inj (Except.ok.inj h)
        rw [← (Prod.mk.inj hs').1]
        exact .inl ⟨hr.symm, hs.unlock⟩
      · obtain ⟨s₁, hfree, h⟩ := bind_eq_ok.1 h
        have hheld := (freePhyPageSmall_locks hs.unlock hfree).lock
        dsimp only at h
        split at h
        · cases h
        · rename_i p _
          obtain ⟨hr, hs'⟩ := Prod.mk.inj (Except.ok.inj h)
          rw [← (Prod.mk.inj hs').1, ← hr]
          exact .inr ⟨Option.some_ne_none p, hheld⟩
        · exact ih hheld h

theorem allocPhyPageSmall_locks (hs : s.Released)
    (h : allocPhyPageSmall s pages size = .ok (ret, s', rest)) : s'.Released := by
  dsimp only [allocPhyPageSmall] at h
  have hcarve : ∀ {p : Nat} {s₁ : HolePool} {pages₁ : List Nat}, s₁.Held →
      (do
        let r ← carveHole phyPageHoles 0 s₁ p (roundUp 0x1000 size)
        Except.ok (r.1, r.2.spinUnlock, pages₁)) = .ok (ret, s', rest) → s'.Released := by
    intro p s₁ pages₁ hheld h
    obtain ⟨⟨pret, s₂⟩, hc, h⟩ := bind_eq_ok.1 h
    rw [← (Prod.mk.inj (Prod.mk.inj (Except.ok.inj h)).2).1]
    exact (hheld.congr (carveHole_spin hc)).unlock
  split at h
  · cases h
  · exact hcarve hs.lock h
  · obtain ⟨⟨r, s₁, pages₁⟩, hrefill, h⟩ := bind_eq_ok.1 h
    rcases refillPhyPageSmall_locks hs.lock hrefill with ⟨rfl, hrel⟩ | ⟨hr, hheld⟩
    · rw [← (Prod.mk.inj (Prod.mk.inj (Except.ok.inj h)).2).1]
      exact hrel
    · obtain ⟨p, rfl⟩ := Option.ne_none_iff_exists'.1 hr
      exact hcarve hheld h

end PhyPage

/-! ## Linear zones -/

section Zone

variable {z z' : LinearZone} {free holes recs : List Nat} {addr hint size ret : Nat}

theorem freeLinearZone_locks (hs : z.pool.Released) (h : freeLinearZone z addr size = .ok z') :
    (z.pool.EndsAt addr ∧ z'.pool.Held) ∨ (¬ z.pool.EndsAt addr ∧ z'.pool.Released) := by
  obtain ⟨-, h⟩ := assert_bind_eq_ok.1 h
  obtain ⟨pool', hfree, h⟩ := bind_eq_ok.1 h
  rw [← Except.ok.inj h]
  rcases freeHole_locks hs hfree with ⟨hm, -, hheld⟩ | ⟨hno, hrel⟩
  · exact .inl ⟨hm, hheld⟩
  · exact .inr ⟨fun hm => absurd (hno hm) (by decide), hrel⟩

theorem takeLinear_locks {pfree p n : Nat} (hs : z.pool.Held)
    (h : takeLinear z pfree p n hint size = .ok (ret, z')) : z'.pool.Released := by
  obtain ⟨⟨pret, pool'⟩, hc, h⟩ := bind_eq_ok.1 h
  have hspin : pool'.spin = z.pool.spin := carveHole_spin hc
  rw [← (Prod.mk.inj (Except.ok.inj h)).2]
  exact hs.unlock.congr (congrArg (· ++ [SpinOp.unlock]) hspin)

/-- The rest of the hole that the request splits begins where a hole ends: another hole, or what is
    left of the same one. -/
def TailMerges (z : LinearZone) (hint size : Nat) : Prop :=
  hint ≠ 0 ∧ Unserved z hint size ∧ ∃ p, Placed z hint size p ∧
    (z.pool.nodes p).addr ≠ alignDown 0x200000 hint ∧
    ∃ i, z.pool.IsHole i ∧
      (if i = p then alignDown 0x200000 hint else z.pool.holeEnd i) = tailAddr hint size

/-- What ends where after the cut, in terms of the state before the call. -/
theorem cutLinear_endsAt_iff {z₁ : LinearZone} {pfree p : Nat}
    (h : ZoneRep z (pfree :: free) holes recs) (ht : Touched z z₁ (servedBy z hint size)) (hint_lt : hint < 2 ^ 64)
    (hp : Placed z hint size p) (recsize : Nat) :
    (cutLinear z₁ pfree p (alignDown 0x200000 hint) recsize).pool.EndsAt addr ↔
      ∃ i, z.pool.IsHole i ∧
        (if i = p then alignDown 0x200000 hint else z.pool.holeEnd i) = addr := by
  have hcut := cutLinear_nodes (p := p) (ht.rep h) (alignDown 0x200000 hint) recsize
  have hunused : ∀ i ∈ holes, i ≠ pfree := fun i hi he =>
    h.rep.disj pfree List.mem_cons_self (he ▸ hi)
  have hend : ∀ i ∈ holes, (cutLinear z₁ pfree p (alignDown 0x200000 hint) recsize).pool.holeEnd i
      = if i = p then alignDown 0x200000 hint else z.pool.holeEnd i := by
    intro i hi
    by_cases hip : i = p
    · subst hip
      have hle : (z.pool.nodes i).addr ≤ alignDown 0x200000 hint := by
        have := hp.contains
        rw [holeContains, Bool.and_eq_true, decide_eq_true_eq] at this
        exact this.1
      have hbase := alignDown_add_mod 0x200000 hint
      rw [if_pos rfl, holeEnd, cutLinear_nodes_hole _ _ _ (hunused i hi), ht.hole h hi]
      dsimp only
      rw [wsub_eq hle (by omega), wadd_eq (by omega)]
      omega
    · rw [if_neg hip, holeEnd, cutLinear_nodes_ne _ _ _ (hunused i hi) hip, ht.hole h hi, holeEnd]
  refine exists_congr fun i => ?_
  have hsame : (cutLinear z₁ pfree p (alignDown 0x200000 hint) recsize).pool.IsHole i ↔
      z.pool.IsHole i := hcut.rep.phead.visits_iff.trans h.rep.phead.visits_iff.symm
  rw [hsame]
  exact and_congr_right fun hi => by rw [hend i (h.rep.phead.visits_iff.1 hi)]

theorem allocLinearZoneImpl_locks (h : ZoneRep z free holes recs) (hint_lt : hint < 2 ^ 64)
    (hs : z.pool.Released) (hok : allocLinearZoneImpl z hint size = .ok (ret, z')) :
    (TailMerges z hint size ∧ ¬ z'.pool.Released) ∨
      (¬ TailMerges z hint size ∧ z'.pool.Released) := by
  cases allocLinearZoneImpl_cases h hok with
  | served _ hret hcheck _ hl =>
      refine .inr ⟨?_, hl hs⟩
      rintro ⟨-, ⟨z₁, hz₁⟩, -⟩
      rw [hcheck] at hz₁
      exact hret (Prod.mk.inj (Except.ok.inj hz₁)).1
  | full hu _ _ hl =>
      refine .inr ⟨?_, hl hs⟩
      rintro ⟨hne, -, p, hp, -⟩
      exact hu.elim hne fun hno => hno.2 p hp
  | anywhere hu _ _ hl _ htake =>
      refine .inr ⟨?_, takeLinear_locks (hl hs) htake⟩
      rintro ⟨hne, -, p, hp, -⟩
      exact hu.elim hne fun hno => hno.2 p hp
  | @front _ _ _ _ q _ _ hq haddr _ hl _ htake =>
      refine .inr ⟨?_, takeLinear_locks (hl hs) htake⟩
      rintro ⟨-, -, p, hp, hne, -⟩
      have hpq : p = q := Option.some.inj (Option.some.inj (hp.found.symm.trans hq.found))
      exact hne (hpq ▸ haddr)
  | @middle z₁ _ _ pfree p hne hu hp haddr ht hl hpf hsplit =>
      obtain ⟨free', rfl⟩ := (ht.rep h).free_cons hpf
      rw [splitLinear_eq] at hsplit
      obtain ⟨z₂, hfree, hsplit⟩ := bind_eq_ok.1 hsplit
      have hz' := (Prod.mk.inj (Except.ok.inj hsplit)).2
      subst hz'
      have hiff : (cutLinear z₁ pfree p (alignDown 0x200000 hint)
          (wadd size (hint % 0x200000))).pool.EndsAt (tailAddr hint size) ↔ _ :=
        cutLinear_endsAt_iff h ht hint_lt hp (wadd size (hint % 0x200000))
      have hrel : (cutLinear z₁ pfree p (alignDown 0x200000 hint)
          (wadd size (hint % 0x200000))).pool.Released := (hl hs).unlock.congr rfl
      rcases freeLinearZone_locks hrel hfree with ⟨hm, hheld⟩ | ⟨hno, hfinal⟩
      · exact .inl ⟨⟨hne, hu, p, hp, haddr, hiff.1 hm⟩, hheld.not_released⟩
      · refine .inr ⟨?_, hfinal⟩
        rintro ⟨-, -, q, hq, -, hends⟩
        have hqp : q = p := Option.some.inj (Option.some.inj (hq.found.symm.trans hp.found))
        subst hqp
        exact hno (hiff.2 hends)

end Zone

/-! ## All of them together -/

/-- The state of the allocators. -/
structure Allocators where
  heap : KHeap
  page : HolePool
  zone : LinearZone

/-- The calls. Each allocation comes with what `alloc_phy_page` answers during it. -/
inductive AllocatorOp
  | freeKheap4k (addr size : Nat)
  | allocKheap4k (pages : List Nat) (size : Nat)
  | freeKheapSmall (addr size : Nat)
  | allocKheapSmall (pages : List Nat) (size : Nat)
  | freePhyPageSmall (addr size : Nat)
  | allocPhyPageSmall (pages : List Nat) (size : Nat)
  | freeLinearZone (addr size : Nat)
  | allocLinearZoneImpl (hint size : Nat)

/-- One call. -/
def Allocators.exec (a : Allocators) : AllocatorOp → Except Fault Allocators
  | .freeKheap4k addr size => do
      let s ← Yaos.freeKheap4k a.heap.pool4k addr size
      .ok { a with heap := { a.heap with pool4k := s } }
  | .allocKheap4k pages size => do
      let (_, s, _) ← Yaos.allocKheap4k a.heap.pool4k pages size
      .ok { a with heap := { a.heap with pool4k := s } }
  | .freeKheapSmall addr size => do
      let s ← Yaos.freeKheapSmall a.heap.poolSmall addr size
      .ok { a with heap := { a.heap with poolSmall := s } }
  | .allocKheapSmall pages size => do
      let (_, h, _) ← Yaos.allocKheapSmall a.heap pages size
      .ok { a with heap := h }
  | .freePhyPageSmall addr size => do
      let s ← Yaos.freePhyPageSmall a.page addr size
      .ok { a with page := s }
  | .allocPhyPageSmall pages size => do
      let (_, s, _) ← Yaos.allocPhyPageSmall a.page pages size
      .ok { a with page := s }
  | .freeLinearZone addr size => do
      let z ← Yaos.freeLinearZone a.zone addr size
      .ok { a with zone := z }
  | .allocLinearZoneImpl hint size => do
      let (_, z) ← Yaos.allocLinearZoneImpl a.zone hint size
      .ok { a with zone := z }

/-- The arguments are machine words. -/
def AllocatorOp.legal : AllocatorOp → Prop
  | .allocLinearZoneImpl hint _ => hint < 2 ^ 64
  | _ => True

/-- The call frees a range that begins where a hole ends, in a heap or a zone that does not unlock
    then. -/
def Allocators.merges (a : Allocators) : AllocatorOp → Prop
  | .freeKheap4k addr _ => a.heap.pool4k.EndsAt addr
  | .allocKheap4k pages size => RefillMerges a.heap.pool4k pages size
  | .freeKheapSmall _ _ => False
  | .allocKheapSmall pages size => SmallRefillMerges a.heap pages size
  | .freePhyPageSmall _ _ => False
  | .allocPhyPageSmall _ _ => False
  | .freeLinearZone addr _ => a.zone.pool.EndsAt addr
  | .allocLinearZoneImpl hint size => TailMerges a.zone hint size

/-- All four locks are free, and none has ever been taken while it was held. -/
structure Allocators.LocksFree (a : Allocators) : Prop where
  kheap4k : a.heap.pool4k.Released
  kheapSmall : a.heap.poolSmall.Released
  page : a.page.Released
  zone : a.zone.pool.Released

/-- The lists of the zone are lists. -/
def Allocators.ZoneListed (a : Allocators) : Prop :=
  ∃ free holes recs, ZoneRep a.zone free holes recs

/-- **What a call does to the locks.** From a state with all locks free, all locks are free again
    exactly when no range it frees extends a hole. -/
theorem Allocators.exec_locksFree_iff {a a' : Allocators} {op : AllocatorOp} (hlegal : op.legal)
    (hz : a.ZoneListed) (h : a.LocksFree) (hok : a.exec op = .ok a') :
    a'.LocksFree ↔ ¬ a.merges op := by
  obtain ⟨free, holes, recs, hrep⟩ := hz
  cases op with
  | freeKheap4k addr size =>
      obtain ⟨s, hs, hok⟩ := bind_eq_ok.1 hok
      rw [← Except.ok.inj hok]
      rcases freeKheap4k_locks h.kheap4k hs with ⟨hm, hheld⟩ | ⟨hno, hrel⟩
      · exact iff_of_false (fun hl => hheld.not_released hl.kheap4k) (not_not.2 hm)
      · exact iff_of_true ⟨hrel, h.kheapSmall, h.page, h.zone⟩ hno
  | allocKheap4k pages size =>
      obtain ⟨⟨ret, s, rest⟩, hs, hok⟩ := bind_eq_ok.1 hok
      rw [← Except.ok.inj hok]
      rcases allocKheap4k_locks h.kheap4k hs with ⟨hm, hnot⟩ | ⟨hno, hrel⟩
      · exact iff_of_false (fun hl => hnot hl.kheap4k) (not_not.2 hm)
      · exact iff_of_true ⟨hrel, h.kheapSmall, h.page, h.zone⟩ hno
  | freeKheapSmall addr size =>
      obtain ⟨s, hs, hok⟩ := bind_eq_ok.1 hok
      rw [← Except.ok.inj hok]
      have hrel := (freeKheapSmall_locks h.kheapSmall hs).1
      exact iff_of_true ⟨h.kheap4k, hrel, h.page, h.zone⟩ not_false
  | allocKheapSmall pages size =>
      obtain ⟨⟨ret, s, rest⟩, hs, hok⟩ := bind_eq_ok.1 hok
      rw [← Except.ok.inj hok]
      obtain ⟨hsmall, ⟨hm, hnot⟩ | ⟨hno, hrel⟩⟩ := allocKheapSmall_locks h.kheap4k h.kheapSmall hs
      · exact iff_of_false (fun hl => hnot hl.kheap4k) (not_not.2 hm)
      · exact iff_of_true ⟨hrel, hsmall, h.page, h.zone⟩ hno
  | freePhyPageSmall addr size =>
      obtain ⟨s, hs, hok⟩ := bind_eq_ok.1 hok
      rw [← Except.ok.inj hok]
      have hrel := freePhyPageSmall_locks h.page hs
      exact iff_of_true ⟨h.kheap4k, h.kheapSmall, hrel, h.zone⟩ not_false
  | allocPhyPageSmall pages size =>
      obtain ⟨⟨ret, s, rest⟩, hs, hok⟩ := bind_eq_ok.1 hok
      rw [← Except.ok.inj hok]
      have hrel := allocPhyPageSmall_locks h.page hs
      exact iff_of_true ⟨h.kheap4k, h.kheapSmall, hrel, h.zone⟩ not_false
  | freeLinearZone addr size =>
      obtain ⟨z, hz, hok⟩ := bind_eq_ok.1 hok
      rw [← Except.ok.inj hok]
      rcases freeLinearZone_locks h.zone hz with ⟨hm, hheld⟩ | ⟨hno, hrel⟩
      · exact iff_of_false (fun hl => hheld.not_released hl.zone) (not_not.2 hm)
      · exact iff_of_true ⟨h.kheap4k, h.kheapSmall, h.page, hrel⟩ hno
  | allocLinearZoneImpl hint size =>
      obtain ⟨⟨ret, z⟩, hz, hok⟩ := bind_eq_ok.1 hok
      rw [← Except.ok.inj hok]
      rcases allocLinearZoneImpl_locks hrep hlegal h.zone hz with ⟨hm, hnot⟩ | ⟨hno, hrel⟩
      · exact iff_of_false (fun hl => hnot hl.zone) (not_not.2 hm)
      · exact iff_of_true ⟨h.kheap4k, h.kheapSmall, h.page, hrel⟩ hno

theorem Allocators.exec_zoneListed {a a' : Allocators} {op : AllocatorOp} (hz : a.ZoneListed)
    (hok : a.exec op = .ok a') : a'.ZoneListed := by
  obtain ⟨free, holes, recs, hrep⟩ := hz
  cases op with
  | freeLinearZone addr size =>
      obtain ⟨z, hz, hok⟩ := bind_eq_ok.1 hok
      obtain ⟨free', holes', hrep', -⟩ := freeLinearZone_lists hrep hz
      rw [← Except.ok.inj hok]
      exact ⟨free', holes', recs, hrep'⟩
  | allocLinearZoneImpl hint size =>
      obtain ⟨⟨ret, z⟩, hz, hok⟩ := bind_eq_ok.1 hok
      obtain ⟨free', holes', recs', hrep', -⟩ :=
        ZoneAlloc.lists hrep (allocLinearZoneImpl_cases hrep hz)
      rw [← Except.ok.inj hok]
      exact ⟨free', holes', recs', hrep'⟩
  | freeKheap4k addr size | allocKheap4k pages size | freeKheapSmall addr size
  | allocKheapSmall pages size | freePhyPageSmall addr size | allocPhyPageSmall pages size =>
      obtain ⟨s, -, hok⟩ := bind_eq_ok.1 hok
      rw [← Except.ok.inj hok]
      exact ⟨free, holes, recs, hrep⟩

/-! ## Whole runs -/

/-- The allocators after their `init_…` functions, with one zone. -/
def initAllocators (addr size : Nat) : Except Fault Allocators := do
  let z ← initVmZone addr size
  .ok { heap := initKheap, page := initPhyPage, zone := z }

/-- One of the calls leads from `a` to `a'`. -/
def AllocatorCall (a a' : Allocators) : Prop := ∃ op : AllocatorOp, op.legal ∧ a.exec op = .ok a'

/-- A call that frees no range that extends a hole. -/
def ApartCall (a a' : Allocators) : Prop :=
  ∃ op : AllocatorOp, op.legal ∧ ¬ a.merges op ∧ a.exec op = .ok a'

theorem initAllocators_locks {addr size : Nat} {a : Allocators}
    (hok : initAllocators addr size = .ok a) : a.ZoneListed ∧ a.LocksFree := by
  obtain ⟨z, hinit, hok⟩ := bind_eq_ok.1 hok
  rw [← Except.ok.inj hok]
  obtain ⟨free, holes, recs, hrep, -⟩ := initVmZone_nodes hinit
  refine ⟨⟨free, holes, recs, hrep⟩, initHoles_released _, initHoles_released _,
    initHoles_released _, ?_⟩
  rcases freeLinearZone_locks (z := { pool := initHoles linearHoles.capacity, alloced := none })
    (initHoles_released _) hinit with ⟨⟨i, hi, -⟩, -⟩ | ⟨-, hrel⟩
  · exact absurd hi (fun hv => nomatch hv)
  · exact hrel

/-- **Lock discipline.** In every run of the allocators in which no freed range begins where a hole
    ends, every call releases the lock it takes, and no call takes a lock that is held. -/
theorem allocators_run_locksFree {addr size : Nat} {a₀ a : Allocators}
    (hinit : initAllocators addr size = .ok a₀) (run : Relation.ReflTransGen ApartCall a₀ a) :
    a.LocksFree := by
  suffices h : a.ZoneListed ∧ a.LocksFree from h.2
  induction run with
  | refl => exact initAllocators_locks hinit
  | tail _ step ih =>
      obtain ⟨op, hlegal, hno, hok⟩ := step
      exact ⟨Allocators.exec_zoneListed ih.1 hok,
        (Allocators.exec_locksFree_iff hlegal ih.1 ih.2 hok).2 hno⟩

theorem allocators_run_locksFree_lowMmap : ∃ a₀ a,
    initAllocators 0x700000000000 0x40000000000 = .ok a₀ ∧
    Relation.ReflTransGen ApartCall a₀ a ∧ a.LocksFree := by
  have hrun : ∃ a₀ a, initAllocators 0x700000000000 0x40000000000 = .ok a₀ ∧
      Relation.ReflTransGen ApartCall a₀ a := by
    refine ⟨_, _, rfl, .tail (.tail (.tail .refl
      ⟨.allocKheap4k [0x200000] 0x1000, trivial, ?_, rfl⟩)
      ⟨.freePhyPageSmall 0x5000 0x1000, trivial, not_false, rfl⟩)
      ⟨.allocLinearZoneImpl 0 0x1000, Nat.two_pow_pos 64, fun hm => hm.1 rfl, rfl⟩⟩
    rintro ⟨-, -, i, hi, -⟩
    exact nomatch hi
  obtain ⟨a₀, a, hinit, run⟩ := hrun
  exact ⟨a₀, a, hinit, run, allocators_run_locksFree hinit run⟩

/-- Two adjacent ranges are given back to the heap, and two to the zone: both locks stay held. -/
theorem adjacent_frees_keep_locks : ∃ a₀ a,
    initAllocators 0x700000000000 0x40000000000 = .ok a₀ ∧
    Relation.ReflTransGen AllocatorCall a₀ a ∧ a.heap.pool4k.Held ∧ a.zone.pool.Held ∧
    ¬ a.LocksFree := by
  have hrun : ∃ a₀ a, initAllocators 0x700000000000 0x40000000000 = .ok a₀ ∧
      Relation.ReflTransGen AllocatorCall a₀ a ∧ a.heap.pool4k.Held ∧ a.zone.pool.Held := by
    refine ⟨_, _, rfl, .tail (.tail (.tail (.tail (.tail (.tail .refl
      ⟨.freeKheap4k 0xffff820000200000 0x1000, trivial, rfl⟩)
      ⟨.freeKheap4k 0xffff820000201000 0x1000, trivial, rfl⟩)
      ⟨.allocLinearZoneImpl 0 0x200000, Nat.two_pow_pos 64, rfl⟩)
      ⟨.allocLinearZoneImpl 0 0x200000, Nat.two_pow_pos 64, rfl⟩)
      ⟨.freeLinearZone 0x700000000000 0x200000, trivial, rfl⟩)
      ⟨.freeLinearZone 0x700000200000 0x200000, trivial, rfl⟩, ?_, ?_⟩
    · decide +kernel
    · decide +kernel
  obtain ⟨a₀, a, hinit, run, hheap, hzone⟩ := hrun
  exact ⟨a₀, a, hinit, run, hheap, hzone, fun h => hheap.not_released h.kheap4k⟩

end Yaos
