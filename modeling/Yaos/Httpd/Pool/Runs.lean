import Yaos.Httpd.Pool.Proofs

set_option autoImplicit false

/-! # Every call keeps a pool in order

A call `Serves` a request when the pool is in order after it, and what it returned is spare. This is
proved for small requests, then for large ones, and `PoolReach.inv` follows for runs of calls. -/

namespace Yaos.Palloc

open Regions Word

variable {A : Malloc} {size n : Nat} {rest lg used : List Region} {s : PoolState} {r : Region}

/-! ## Spare memory comes into use -/

theorem PoolState.Spare.weaken (h : s.Spare [] used r) (lg : List Region) : s.Spare lg used r :=
  ⟨h.apart, h.inside.imp_right fun hmem => by simp at hmem⟩

/-- Spare memory is used by a caller or for a record. -/
theorem PoolInv.use (h : PoolInv A size rest lg used s) (hspare : s.Spare lg used r) {s' : PoolState}
    {used' : List Region} (hevents : s'.events = s.events) (hblocks : s'.pool.blocks = s.pool.blocks)
    (hnow : s'.pool.now = s.pool.now) (hmax : s'.pool.max = s.pool.max)
    (hchain : s'.pool.chain = s.pool.chain) (hallocs : s'.pool.allocs = s.pool.allocs)
    (hown : ∀ q ∈ s'.pool.own, s.Has [] q) (hmem : (s'.memory used').Perm (r :: s.memory used)) :
    PoolInv A size rest lg used' s' := by
  have hhas : ∀ {lg q}, s.Has lg q → s'.Has lg q := by
    intro lg q hq
    rw [PoolState.Has, hblocks]
    exact hq
  refine ⟨?_, ?_, ?_, ?_, ?_, ?_, ?_, ?_, ?_, fun q hq => hhas (hown q hq), ?_⟩
  · rw [hevents]; exact h.history
  · rw [hevents]; exact h.frees
  · rw [hevents, hblocks]; exact h.live
  · rw [hallocs]; exact h.large
  · rw [hmax]; exact h.max_le
  · rw [hchain]; exact h.chain
  · rw [hnow, hblocks]; exact h.now_lt
  · rw [hblocks]; exact h.block
  · exact (hmem.pairwise_iff fun hap => hap.symm).2 (List.pairwise_cons.2 ⟨hspare.apart, h.apart⟩)
  · intro q hq
    rcases List.mem_cons.1 (hmem.mem_iff.1 hq) with rfl | hq
    · exact hhas hspare.inside
    · exact hhas (h.inside q hq)

theorem memory_cons (s : PoolState) (r : Region) (used : List Region) :
    (s.memory (r :: used)).Perm (r :: s.memory used) := by
  unfold PoolState.memory
  rw [← List.append_assoc, ← List.append_assoc]
  exact List.perm_middle

theorem PoolInv.give (h : PoolInv A size rest lg used s) (hspare : s.Spare lg used r) :
    PoolInv A size rest lg (r :: used) s :=
  h.use hspare rfl rfl rfl rfl rfl rfl h.own (memory_cons s r used)

/-- What is allocated apart from the pool lies apart from all it uses. -/
theorem PoolInv.rest_apart (h : PoolInv A size rest lg used s) (hr : r ∈ rest) :
    ∀ q ∈ s.memory used, r.Apart q := by
  obtain ⟨-, hlarge, hcross⟩ := List.pairwise_append.1 h.regions_pairwise
  intro q hq
  rcases h.inside q hq with ⟨p, hp, hbase, hle⟩ | hq
  · have hok := h.block p hp
    have hlast := hok.last_le
    refine (hcross _ (List.mem_map_of_mem hp) r (List.mem_append_right _ hr)).symm.mono (.refl r) ?_
    rw [hok.region_eq]
    exact ⟨hbase, by rw [← hok.end_eq]; exact Nat.le_trans hle hlast⟩
  · exact ((List.pairwise_append.1 hlarge).2.2 q hq r hr).symm

theorem own_congr {pool : HttpdPool} {large : List HttpdPoolLarge}
    (hself : large.map HttpdPoolLarge.self = pool.large.map HttpdPoolLarge.self) :
    HttpdPool.own { pool with large := large } = pool.own := by
  have hmap := congrArg (List.map fun a => (⟨a, largeSize⟩ : Region)) hself
  rw [List.map_map, List.map_map] at hmap
  exact congrArg (pool.heads ++ ·) hmap

/-- A record of the pool takes over the memory `r`, and it is spare then. -/
theorem PoolInv.takeLarge (h : PoolInv A size (r :: rest) lg used s) (large : List HttpdPoolLarge)
    (hself : large.map HttpdPoolLarge.self = s.pool.large.map HttpdPoolLarge.self)
    (hallocs : (HttpdPool.allocs { s.pool with large := large }).Perm (r.base :: s.pool.allocs)) :
    let s' : PoolState := { s with pool := { s.pool with large := large } }
    PoolInv A size rest (r :: lg) used s' ∧ s'.Spare (r :: lg) used r := by
  intro s'
  have hown : s'.pool.own = s.pool.own := own_congr hself
  have hmem : s'.memory used = s.memory used := congrArg (· ++ (s.pool.cleanups ++ used)) hown
  refine ⟨⟨h.history, h.frees, ?_, ?_, h.max_le, h.chain, h.now_lt, h.block, ?_, ?_, ?_⟩, ?_, ?_⟩
  · refine h.live.trans (List.Perm.append_left _ ?_)
    exact List.perm_middle
  · exact hallocs.trans (h.large.cons _)
  · rw [hmem]
    exact h.apart
  · rw [hown]
    exact h.own
  · rw [hmem]
    exact fun q hq => (h.inside q hq).imp_right (List.mem_cons_of_mem r)
  · rw [hmem]
    exact h.rest_apart List.mem_cons_self
  · exact .inr List.mem_cons_self

/-! ## Small requests -/

/-- The pool is in order, and memory of `n` bytes was found or not. -/
def Serves (A : Malloc) (size : Nat) (rest used : List Region) (n : Nat)
    (o : Option Nat × PoolState) : Prop :=
  ∃ lg, PoolInv A size rest lg used o.2 ∧ ∀ a, o.1 = some a → o.2.Spare lg used ⟨a, n⟩

/-- The same for memory that is found in a block. -/
def ServesSmall (A : Malloc) (size : Nat) (rest used : List Region) (n : Nat)
    (o : Option Nat × PoolState) : Prop :=
  ∃ lg, PoolInv A size rest lg used o.2 ∧ ∀ a, o.1 = some a → o.2.Spare [] used ⟨a, n⟩

theorem ServesSmall.serves {o : Option Nat × PoolState} (h : ServesSmall A size rest used n o) :
    Serves A size rest used n o := by
  obtain ⟨lg, hinv, hspare⟩ := h
  exact ⟨lg, hinv, fun a ha => (hspare a ha).weaken lg⟩

theorem PoolInv.fails (h : PoolInv A size rest lg used s) : Serves A size rest used n (none, s) :=
  ⟨lg, h, by simp⟩

theorem PoolInv.pallocBlock (h : PoolInv A size rest lg used s) (hn : dataSize + n ≤ size)
    (hwords : Words size n) : ServesSmall A size rest used n (httpdPallocBlock A s n) := by
  unfold httpdPallocBlock yaosMalloc
  rw [h.psize_eq]
  cases hm : A.answer s.events size with
  | none => exact ⟨lg, h, by simp⟩
  | some m =>
      have hnow := Nat.le_of_lt h.now_lt
      have hgrown : Grown s.pool.blocks (s.pool.blocks.take s.pool.now ++
          (countFailures s.pool.now s.pool.now (s.pool.blocks.drop s.pool.now)).1) := by
        have happend := (Grown.refl (s.pool.blocks.take s.pool.now)).append
          (countFailures_grown s.pool.now s.pool.now (s.pool.blocks.drop s.pool.now))
        rwa [List.take_append_drop] at happend
      have hok : ∀ p ∈ s.pool.blocks.take s.pool.now ++
          (countFailures s.pool.now s.pool.now (s.pool.blocks.drop s.pool.now)).1, p.Ok size := by
        intro p hp
        rcases List.mem_append.1 hp with hp | hp
        · exact h.block p (List.mem_of_mem_take hp)
        · obtain ⟨q, hq, heq⟩ := countFailures_core _ _ _ p hp
          have hqok := h.block q (List.mem_of_mem_drop hq)
          rw [heq]
          exact ⟨hqok.aligned, hqok.below, hqok.end_eq, hqok.self_le, hqok.last_le, hqok.words⟩
      have hlen : (countFailures s.pool.now s.pool.now (s.pool.blocks.drop s.pool.now)).2 ≤
          (s.pool.blocks.take s.pool.now ++
            (countFailures s.pool.now s.pool.now (s.pool.blocks.drop s.pool.now)).1).length := by
        rw [← hgrown.length_eq]
        refine Nat.le_trans (countFailures_now (Nat.le_refl _) _) ?_
        rw [List.length_drop]
        omega
      obtain ⟨hinv, hspare⟩ := h.newBlock hm hn hwords hgrown hok hlen
      refine ⟨lg, hinv, fun a ha => ?_⟩
      obtain rfl := Option.some.inj ha
      exact hspare

theorem PoolInv.pallocSmall (h : PoolInv A size rest lg used s) (hn : dataSize + n ≤ size)
    (hwords : Words size n) (align : Bool) :
    ServesSmall A size rest used n (httpdPallocSmall A s n align) := by
  unfold httpdPallocSmall
  cases hfrom : pallocFrom n align (s.pool.blocks.drop s.pool.now) with
  | none => exact h.pallocBlock hn hwords
  | some r =>
      obtain ⟨m, bs⟩ := r
      obtain ⟨pre, p, post, hdrop, hfits, rfl, rfl⟩ := pallocFrom_eq_some hfrom
      have hblocks : s.pool.blocks = (s.pool.blocks.take s.pool.now ++ pre) ++ p :: post := by
        rw [List.append_assoc, ← hdrop, List.take_append_drop]
      obtain ⟨hinv, hspare⟩ := h.take hblocks hfits hwords
      simp only [List.append_assoc] at hinv hspare
      refine ⟨lg, hinv, fun a ha => ?_⟩
      obtain rfl := Option.some.inj ha
      exact hspare

/-! ## Large requests -/

theorem reuseLarge_eq_some {p k : Nat} (hp : p ≠ 0) {ls ls' : List HttpdPoolLarge}
    (h : reuseLarge p k ls = some ls') :
    ls'.map HttpdPoolLarge.self = ls.map HttpdPoolLarge.self ∧
      ((ls'.map HttpdPoolLarge.alloc).filter (· ≠ 0)).Perm
        (p :: (ls.map HttpdPoolLarge.alloc).filter (· ≠ 0)) := by
  induction ls generalizing k ls' with
  | nil => simp [reuseLarge] at h
  | cons l ls ih =>
      rw [reuseLarge] at h
      split at h
      · next hzero =>
          obtain rfl := Option.some.inj h
          refine ⟨rfl, ?_⟩
          rw [List.map_cons, List.map_cons, List.filter_cons_of_pos (by simpa using hp),
            List.filter_cons_of_neg (a := l.alloc) (by simp [hzero])]
      · next hne =>
          split at h
          · cases h
          · obtain ⟨ls₁, hrec, rfl⟩ := Option.map_eq_some_iff.1 h
            obtain ⟨hself, hperm⟩ := ih hrec
            refine ⟨by rw [List.map_cons, List.map_cons, hself], ?_⟩
            rw [List.map_cons, List.map_cons, List.filter_cons_of_pos (a := l.alloc) (by simpa using hne),
              List.filter_cons_of_pos (a := l.alloc) (by simpa using hne)]
            exact (hperm.cons _).trans (List.Perm.swap _ _ _)

theorem PoolInv.recordLarge {p : Nat} (h : PoolInv A size (⟨p, n⟩ :: rest) lg used s)
    (hp : p ≠ 0) : Serves A size rest used n (recordLarge A s p) := by
  have hsize := h.size_ge
  obtain ⟨lg', hinv, hspare⟩ := h.pallocSmall (n := largeSize)
    (by unfold dataSize largeSize; unfold poolSize at hsize; omega) (.inr rfl) true
  unfold Palloc.recordLarge
  rcases hsmall : httpdPallocSmall A s largeSize true with ⟨_ | a, s'⟩
  · rw [hsmall] at hinv
    -- `p` is given back
    have hlive : (Regions.live s'.events).Perm
        (⟨p, n⟩ :: (s'.pool.blocks.map HttpdPoolData.region ++ (lg' ++ rest))) := by
      refine hinv.live.trans ?_
      rw [← List.append_assoc, ← List.append_assoc]
      exact List.perm_middle
    have hfreed : PoolInv A size rest lg' used { s' with events := .free p :: s'.events } := by
      refine ⟨hinv.history.free p, ?_, ?_, hinv.large, hinv.max_le, hinv.chain, hinv.now_lt, hinv.block,
        hinv.apart, hinv.own, hinv.inside⟩
      · exact ⟨⟨⟨p, n⟩, hlive.mem_iff.2 List.mem_cons_self, rfl⟩, hinv.frees⟩
      · exact hinv.history.free_perm hlive
    exact hfreed.fails
  · rw [hsmall] at hinv hspare
    -- a record without memory first, then it takes over `p`
    have hrecord : PoolInv A size (⟨p, n⟩ :: rest) lg' used
        { s' with pool := { s'.pool with large := { self := a, alloc := 0 } :: s'.pool.large } } := by
      have hspare := hspare a rfl
      have hownPerm : (HttpdPool.own
          { s'.pool with large := { self := a, alloc := 0 } :: s'.pool.large }).Perm
          (⟨a, largeSize⟩ :: s'.pool.own) := List.perm_middle
      refine hinv.use (hspare.weaken lg') rfl rfl rfl rfl rfl ?_ ?_ ?_
      · show (_ :: s'.pool.large.map HttpdPoolLarge.alloc).filter (· ≠ 0) = _
        rw [List.filter_cons_of_neg (by simp)]
        rfl
      · intro q hq
        rcases List.mem_cons.1 (hownPerm.mem_iff.1 hq) with rfl | hq
        · exact hspare.inside
        · exact hinv.own q hq
      · exact hownPerm.append_right _
    obtain ⟨htake, hfree⟩ := hrecord.takeLarge
      ({ self := a, alloc := p } :: s'.pool.large) rfl (by
        show ((p :: s'.pool.large.map HttpdPoolLarge.alloc).filter (· ≠ 0)).Perm
          (p :: (0 :: s'.pool.large.map HttpdPoolLarge.alloc).filter (· ≠ 0))
        rw [List.filter_cons_of_pos (by simpa using hp), List.filter_cons_of_neg (a := 0) (by simp)])
    refine ⟨_, htake, fun b hb => ?_⟩
    obtain rfl := Option.some.inj hb
    exact hfree

/-- Memory that has just been allocated is not yet the pool's. -/
theorem PoolInv.malloc (h : PoolInv A size rest lg used s) {p : Nat}
    (hp : A.answer s.events n = some p) (hn : 0 < n) :
    PoolInv A size (⟨p, n⟩ :: rest) lg used { s with events := .alloc ⟨p, n⟩ :: s.events } := by
  refine ⟨.alloc h.history hn hp, h.frees, ?_, h.large, h.max_le, h.chain, h.now_lt, h.block, h.apart,
    h.own, h.inside⟩
  refine (h.live.cons _).trans ?_
  rw [← List.append_assoc, ← List.append_assoc]
  exact List.perm_middle.symm

theorem PoolInv.pallocLarge (h : PoolInv A size rest lg used s) (hn : 0 < n) :
    Serves A size rest used n (httpdPallocLarge A s n) := by
  unfold httpdPallocLarge yaosMalloc
  cases hp : A.answer s.events n with
  | none => exact h.fails
  | some p =>
      have hmalloc := h.malloc hp hn
      have hne : p ≠ 0 := A.ne_zero hp
      simp only [Option.map_some]
      cases hreuse : reuseLarge p 0 s.pool.large with
      | none => exact hmalloc.recordLarge hne
      | some large =>
          obtain ⟨hself, hperm⟩ := reuseLarge_eq_some hne hreuse
          obtain ⟨htake, hfree⟩ := hmalloc.takeLarge large hself hperm
          refine ⟨_, htake, fun a ha => ?_⟩
          obtain rfl := Option.some.inj ha
          exact hfree

theorem PoolInv.pmemalign (h : PoolInv A size rest lg used s) (hn : 0 < n) (alignment : Nat) :
    Serves A size rest used n (httpdPmemalign A s n alignment) := by
  unfold httpdPmemalign yaosMalloc
  cases hp : A.answer s.events n with
  | none => exact h.fails
  | some p => exact (h.malloc hp hn).recordLarge (A.ne_zero hp)

theorem PoolInv.max_fits (h : PoolInv A size rest lg used s) (hn : n ≤ s.pool.max) :
    dataSize + n ≤ size := by
  have hmax := h.max_le
  unfold poolSize at hmax
  unfold dataSize
  omega

theorem PoolInv.palloc (h : PoolInv A size rest lg used s) (hwords : Words size n) :
    Serves A size rest used n (httpdPalloc A s n) := by
  unfold httpdPalloc
  split
  · next hn => exact (h.pallocSmall (h.max_fits hn) hwords true).serves
  · exact h.pallocLarge (by omega)

theorem PoolInv.pnalloc (h : PoolInv A size rest lg used s) (hwords : Words size n) :
    Serves A size rest used n (httpdPnalloc A s n) := by
  unfold httpdPnalloc
  split
  · next hn => exact (h.pallocSmall (h.max_fits hn) hwords false).serves
  · exact h.pallocLarge (by omega)

theorem PoolInv.allocChainLink (h : PoolInv A size rest lg used s) :
    Serves A size rest used chainSize (httpdAllocChainLink A s) := by
  unfold httpdAllocChainLink
  rw [h.chain]
  exact h.palloc (.inr rfl)

/-! ## The other calls -/

/-- A new record goes to the front of the cleanups. -/
theorem PoolInv.addCleanup {c : HttpdPoolCleanup}
    (h : PoolInv A size rest lg (⟨c.self, cleanupSize⟩ :: used) s) :
    PoolInv A size rest lg used
      { s with pool := { s.pool with cleanup := c :: s.pool.cleanup } } := by
  have hmem : (PoolState.memory { s with pool := { s.pool with cleanup := c :: s.pool.cleanup } }
      used).Perm (s.memory (⟨c.self, cleanupSize⟩ :: used)) :=
    List.Perm.append_left s.pool.own List.perm_middle.symm
  refine ⟨h.history, h.frees, h.live, h.large, h.max_le, h.chain, h.now_lt, h.block, ?_, h.own, ?_⟩
  · exact (hmem.pairwise_iff fun hap => hap.symm).2 h.apart
  · exact fun r hr => h.inside r (hmem.mem_iff.1 hr)

/-- Less memory is in use. -/
theorem PoolInv.forget {used' : List Region} (h : PoolInv A size rest lg used s)
    (hsub : used'.Sublist used) : PoolInv A size rest lg used' s := by
  have hmem : (s.memory used').Sublist (s.memory used) :=
    (List.Sublist.refl _).append ((List.Sublist.refl _).append hsub)
  refine ⟨h.history, h.frees, h.live, h.large, h.max_le, h.chain, h.now_lt, h.block, ?_, h.own, ?_⟩
  · exact h.apart.sublist hmem
  · exact fun r hr => h.inside r (hmem.subset hr)

theorem PoolInv.congr_used {used' : List Region} (h : PoolInv A size rest lg used s)
    (hperm : used.Perm used') : PoolInv A size rest lg used' s := by
  have hmem : (s.memory used).Perm (s.memory used') := (hperm.append_left _).append_left _
  refine ⟨h.history, h.frees, h.live, h.large, h.max_le, h.chain, h.now_lt, h.block, ?_, h.own, ?_⟩
  · exact (hmem.pairwise_iff fun hap => hap.symm).1 h.apart
  · exact fun r hr => h.inside r (hmem.mem_iff.2 hr)

theorem PoolInv.cleanupData (h : PoolInv A size rest lg used s) (hwords : Words size n) :
    ∃ lg', PoolInv A size rest lg' used (cleanupData A s n).2 ∧
      (n ≠ 0 → ∀ a, (cleanupData A s n).1 = some a →
        (cleanupData A s n).2.Spare lg' used ⟨a, n⟩) := by
  unfold Palloc.cleanupData
  split
  · obtain ⟨lg', hinv, hspare⟩ := h.palloc hwords
    exact ⟨lg', hinv, fun _ => hspare⟩
  · next hn => exact ⟨lg, h, fun hne => absurd hne hn⟩

theorem PoolInv.cleanupAdd (h : PoolInv A size rest lg used s) (hwords : Words size n) :
    ∃ lg', PoolInv A size rest lg' (giveCleanup used n (httpdPoolCleanupAdd A s n)).given
      (giveCleanup used n (httpdPoolCleanupAdd A s n)).state := by
  unfold httpdPoolCleanupAdd
  obtain ⟨lg₁, h₁, hspare₁⟩ := h.palloc (n := cleanupSize) (.inr rfl)
  rcases hc : httpdPalloc A s cleanupSize with ⟨_ | c, s₁⟩
  · rw [hc] at h₁
    exact ⟨lg₁, h₁⟩
  · rw [hc] at h₁ hspare₁
    -- the record is in use from now on
    have hrecord := h₁.give (hspare₁ c rfl)
    rcases hdata : Palloc.cleanupData A s₁ n with ⟨_ | data, s₂⟩
    · obtain ⟨lg₂, h₂, -⟩ := hrecord.cleanupData hwords
      rw [hdata] at h₂
      exact ⟨lg₂, by simpa [hdata, giveCleanup] using h₂.forget (List.sublist_cons_self _ _)⟩
    · obtain ⟨lg₂, h₂, hspare₂⟩ := hrecord.cleanupData hwords
      rw [hdata] at h₂ hspare₂
      simp only [hdata, giveCleanup]
      refine ⟨lg₂, PoolInv.addCleanup (c := { self := c, handler := 0, data := data }) ?_⟩
      by_cases hn : n = 0
      · rw [if_neg (by simpa using hn)]
        exact h₂
      · rw [if_pos hn]
        exact (h₂.give (hspare₂ hn data rfl)).congr_used (List.Perm.swap _ _ _)

theorem PoolInv.setCleanup (h : PoolInv A size rest lg used s) (c handler data : Nat) :
    PoolInv A size rest lg used
      { s with
        pool := { s.pool with cleanup := s.pool.cleanup.map (Palloc.setCleanup c handler data) } } := by
  have hself : ∀ r, (Palloc.setCleanup c handler data r).self = r.self := by
    intro r
    unfold Palloc.setCleanup
    split <;> rfl
  have hcleanups : HttpdPool.cleanups
      { s.pool with cleanup := s.pool.cleanup.map (Palloc.setCleanup c handler data) } =
        s.pool.cleanups := by
    simp [HttpdPool.cleanups, hself]
  have hmem : PoolState.memory
      { s with
        pool := { s.pool with cleanup := s.pool.cleanup.map (Palloc.setCleanup c handler data) } }
      used = s.memory used := congrArg (fun l => s.pool.own ++ (l ++ used)) hcleanups
  refine ⟨h.history, h.frees, h.live, h.large, h.max_le, h.chain, h.now_lt, h.block, ?_, h.own, ?_⟩
  · rw [hmem]
    exact h.apart
  · rw [hmem]
    exact h.inside

theorem dropLarge_eq_some {p : Nat} (hp : p ≠ 0) {ls ls' : List HttpdPoolLarge}
    (h : dropLarge p ls = some ls') :
    ls'.map HttpdPoolLarge.self = ls.map HttpdPoolLarge.self ∧
      ((ls.map HttpdPoolLarge.alloc).filter (· ≠ 0)).Perm
        (p :: (ls'.map HttpdPoolLarge.alloc).filter (· ≠ 0)) := by
  induction ls generalizing ls' with
  | nil => simp [dropLarge] at h
  | cons l ls ih =>
      rw [dropLarge] at h
      split at h
      · next heq =>
          obtain rfl := Option.some.inj h
          refine ⟨rfl, ?_⟩
          rw [List.map_cons, List.map_cons, ← heq, List.filter_cons_of_pos (by simpa using hp),
            List.filter_cons_of_neg (a := 0) (by simp)]
      · next hne =>
          obtain ⟨ls₁, hrec, rfl⟩ := Option.map_eq_some_iff.1 h
          obtain ⟨hself, hperm⟩ := ih hrec
          refine ⟨by rw [List.map_cons, List.map_cons, hself], ?_⟩
          rw [List.map_cons, List.map_cons, List.filter_cons, List.filter_cons]
          split
          · exact (hperm.cons _).trans (List.Perm.swap _ _ _)
          · exact hperm

theorem PoolInv.pfree (h : PoolInv A size rest lg used s) {p : Nat} (hp : p ≠ 0)
    (hcleanup : ∀ c ∈ s.pool.cleanup, c.self ≠ p) :
    ∃ lg', PoolInv A size rest lg'
      (if (httpdPfree s p).1 then used.filter (fun g => g.base ≠ p) else used) (httpdPfree s p).2 := by
  unfold httpdPfree
  cases hdrop : dropLarge p s.pool.large with
  | none => exact ⟨lg, h⟩
  | some large =>
      obtain ⟨hself, hperm⟩ := dropLarge_eq_some hp hdrop
      have hallocs : s.pool.allocs.Perm (p :: HttpdPool.allocs { s.pool with large := large }) := hperm
      obtain ⟨r, hr, rfl⟩ := List.mem_map.1 (h.large.mem_iff.1 (hallocs.mem_iff.2 List.mem_cons_self))
      have hlg : lg.Perm (r :: lg.erase r) := List.perm_cons_erase hr
      have hlive : (Regions.live s.events).Perm
          (r :: (s.pool.blocks.map HttpdPoolData.region ++ (lg.erase r ++ rest))) := by
        refine h.live.trans (((hlg.append_right rest).append_left _).trans ?_)
        exact List.perm_middle
      have hown : HttpdPool.own { s.pool with large := large } = s.pool.own := own_congr hself
      simp only [if_true]
      have hfilter := h.forget (List.filter_sublist (p := fun g : Region => g.base ≠ r.base) (l := used))
      have hmem : PoolState.memory
          { events := .free r.base :: s.events, pool := { s.pool with large := large } }
          (used.filter fun g => g.base ≠ r.base) = s.memory (used.filter fun g => g.base ≠ r.base) :=
        congrArg (· ++ _) hown
      refine ⟨lg.erase r, h.history.free _, ⟨⟨r, h.large_mem_live hr, rfl⟩, h.frees⟩,
        h.history.free_perm hlive, ?_, h.max_le, h.chain, h.now_lt, h.block, ?_, ?_, ?_⟩
      · refine (List.perm_cons r.base).1 ?_
        exact hallocs.symm.trans (h.large.trans (hlg.map Region.base))
      · rw [hmem]
        exact hfilter.apart
      · rw [hown]
        exact h.own
      · rw [hmem]
        intro q hq
        have hhas := hfilter.inside q hq
        have hne : s.Has [] q ∨ q.base ≠ r.base := by
          rcases List.mem_append.1 hq with hq | hq
          · exact .inl (h.own q hq)
          rcases List.mem_append.1 hq with hq | hq
          · obtain ⟨c, hc, rfl⟩ := List.mem_map.1 hq
            exact .inr (hcleanup c hc)
          · exact .inr (by simpa using (List.mem_filter.1 hq).2)
        rcases hne with hblock | hne
        · exact hblock.imp_right fun hmem => by simp at hmem
        · refine hhas.imp_right fun hq => (List.mem_erase_of_ne ?_).2 hq
          rintro rfl
          exact hne rfl

end Yaos.Palloc
