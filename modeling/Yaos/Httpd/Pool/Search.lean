import Yaos.Httpd.Pool.Safety

set_option autoImplicit false

/-! # How long a small request searches

A block that another one follows counts a failure each time that a block is made, and `pool->now` moves
past it after the sixth. The blocks from `pool->now` on thus have the ages 0, 0, 1, 2, … from the last one
to the first one, and there are never more than seven of them. -/

namespace Yaos.Palloc

open Regions Word

variable {A : Malloc} {size n : Nat} {s : PoolState}

/-- Each block has as many failures as there are blocks behind the next one. -/
def Aged : List Nat → Prop
  | [] => True
  | f :: fs => f = fs.length - 1 ∧ Aged fs

/-- The failures of the blocks from `pool->now` on. -/
def HttpdPool.failures (pool : HttpdPool) : List Nat :=
  (pool.blocks.drop pool.now).map HttpdPoolData.failed

/-- At most seven blocks are searched. -/
structure HttpdPool.Short (pool : HttpdPool) : Prop where
  now_le : pool.now ≤ pool.blocks.length
  aged : Aged pool.failures
  short : pool.failures.length ≤ 7

/-! ## Making a block -/

/-- `now` stays where it is while the blocks are young. -/
theorem countFailures_young {now i : Nat} {ps : List HttpdPoolData}
    (h : Aged (ps.map HttpdPoolData.failed)) (hlen : ps.length ≤ 6) :
    Aged ((countFailures now i ps).1.map HttpdPoolData.failed ++ [0]) ∧
      (countFailures now i ps).2 = now := by
  induction ps generalizing now i with
  | nil => exact ⟨⟨rfl, trivial⟩, rfl⟩
  | cons p ps ih =>
      cases ps with
      | nil =>
          obtain ⟨hp, -⟩ := h
          exact ⟨⟨hp, rfl, trivial⟩, rfl⟩
      | cons q ps =>
          obtain ⟨hp, hps⟩ := h
          have hp : p.failed = ps.length := by simpa using hp
          have hlen' : ps.length ≤ 4 := Nat.le_of_succ_le_succ (Nat.le_of_succ_le_succ hlen)
          have hyoung : ¬ p.failed > 4 := by omega
          rw [countFailures, if_neg hyoung]
          obtain ⟨haged, hnow⟩ := ih hps (Nat.le_of_succ_le hlen)
          refine ⟨⟨?_, haged⟩, hnow⟩
          have hcount := (countFailures_grown now (i + 1) (q :: ps)).length_eq
          show (p.failed + 1) % 2 ^ 32 =
            ((countFailures now (i + 1) (q :: ps)).1.map HttpdPoolData.failed ++ [0]).length - 1
          rw [List.length_append, List.length_map, ← hcount, hp]
          simp only [List.length_cons, List.length_nil]
          omega

theorem countFailures_old {now i : Nat} {p : HttpdPoolData} {ps : List HttpdPoolData}
    (h : Aged ((p :: ps).map HttpdPoolData.failed)) (hlen : ps.length = 6) :
    Aged ((countFailures now i (p :: ps)).1.map HttpdPoolData.failed ++ [0]).tail ∧
      (countFailures now i (p :: ps)).2 = i + 1 := by
  cases ps with
  | nil => simp at hlen
  | cons q ps =>
      obtain ⟨hp, hps⟩ := h
      have hp : p.failed = ps.length := by simpa using hp
      have hlen' : ps.length = 5 := by simpa using hlen
      have hold : p.failed > 4 := by omega
      rw [countFailures, if_pos hold]
      exact countFailures_young hps (Nat.le_of_eq hlen)

theorem HttpdPool.Short.make {pool : HttpdPool} (h : pool.Short) {b : HttpdPoolData}
    (hb : b.failed = 0) :
    let r := countFailures pool.now pool.now (pool.blocks.drop pool.now)
    HttpdPool.Short
      { pool with blocks := pool.blocks.take pool.now ++ r.1 ++ [b], now := r.2 } := by
  intro r
  have hlen : (pool.blocks.drop pool.now).length ≤ 7 := by simpa [HttpdPool.failures] using h.short
  have htake : (pool.blocks.take pool.now).length = pool.now := List.length_take_of_le h.now_le
  have hcount : r.1.length = (pool.blocks.drop pool.now).length :=
    (countFailures_grown pool.now pool.now _).length_eq.symm
  have hfailures : ∀ now, pool.now ≤ now → HttpdPool.failures
      { pool with blocks := pool.blocks.take pool.now ++ r.1 ++ [b], now := now } =
      (r.1.map HttpdPoolData.failed ++ [0]).drop (now - pool.now) := by
    intro now hnow
    show ((pool.blocks.take pool.now ++ r.1 ++ [b]).drop now).map HttpdPoolData.failed = _
    rw [List.append_assoc, List.drop_append, htake, List.drop_of_length_le (by omega), List.nil_append,
      List.map_drop, List.map_append, List.map_singleton, hb]
  have htotal : (pool.blocks.take pool.now ++ r.1 ++ [b]).length =
      pool.now + (pool.blocks.drop pool.now).length + 1 := by
    rw [List.length_append, List.length_append, htake, hcount, List.length_singleton]
  by_cases h7 : (pool.blocks.drop pool.now).length = 7
  · cases hdrop : pool.blocks.drop pool.now with
    | nil => simp [hdrop] at h7
    | cons p ps =>
        have hps : ps.length = 6 := by simpa [hdrop] using h7
        have haged := h.aged
        rw [HttpdPool.failures, hdrop] at haged
        obtain ⟨htail, hnow⟩ := countFailures_old haged hps
        rw [← hdrop] at htail hnow
        have hmoved := hfailures (pool.now + 1) (Nat.le_succ _)
        rw [Nat.add_sub_cancel_left, List.drop_one] at hmoved
        refine ⟨?_, ?_, ?_⟩
        · show r.2 ≤ (pool.blocks.take pool.now ++ r.1 ++ [b]).length
          rw [htotal, hnow]
          omega
        · show Aged (HttpdPool.failures { pool with blocks := _, now := r.2 })
          rw [hnow, hmoved]
          exact htail
        · show (HttpdPool.failures { pool with blocks := _, now := r.2 }).length ≤ 7
          rw [hnow, hmoved, List.length_tail, List.length_append, List.length_map, hcount, h7]
          decide
  · obtain ⟨haged, hnow⟩ := countFailures_young h.aged (by omega)
    have hsame := hfailures pool.now (Nat.le_refl _)
    rw [Nat.sub_self, List.drop_zero] at hsame
    refine ⟨?_, ?_, ?_⟩
    · show r.2 ≤ (pool.blocks.take pool.now ++ r.1 ++ [b]).length
      rw [htotal, hnow]
      omega
    · show Aged (HttpdPool.failures { pool with blocks := _, now := r.2 })
      rw [hnow, hsame]
      exact haged
    · show (HttpdPool.failures { pool with blocks := _, now := r.2 }).length ≤ 7
      rw [hnow, hsame, List.length_append, List.length_map, hcount, List.length_singleton]
      omega

/-! ## The other calls -/

theorem pallocFrom_failed {align : Bool} {m : Nat} {ps qs : List HttpdPoolData}
    (h : pallocFrom n align ps = some (m, qs)) :
    qs.map HttpdPoolData.failed = ps.map HttpdPoolData.failed := by
  obtain ⟨pre, p, post, rfl, -, -, rfl⟩ := pallocFrom_eq_some h
  simp

theorem HttpdPool.Short.pallocSmall (h : s.pool.Short) (n : Nat) (align : Bool) :
    (httpdPallocSmall A s n align).2.pool.Short := by
  unfold httpdPallocSmall
  cases hfrom : pallocFrom n align (s.pool.blocks.drop s.pool.now) with
  | none =>
      unfold httpdPallocBlock
      cases yaosMalloc A s.events s.pool.psize with
      | none => exact h
      | some r => exact h.make rfl
  | some r =>
      obtain ⟨m, qs⟩ := r
      have htake : (s.pool.blocks.take s.pool.now).length = s.pool.now :=
        List.length_take_of_le h.now_le
      have hfailures : HttpdPool.failures
          { s.pool with blocks := s.pool.blocks.take s.pool.now ++ qs } = s.pool.failures := by
        show ((s.pool.blocks.take s.pool.now ++ qs).drop s.pool.now).map HttpdPoolData.failed = _
        rw [List.drop_append, htake, List.drop_of_length_le (Nat.le_of_eq htake), List.nil_append,
          Nat.sub_self, List.drop_zero, pallocFrom_failed hfrom]
        rfl
      refine ⟨?_, ?_, ?_⟩
      · show s.pool.now ≤ (s.pool.blocks.take s.pool.now ++ qs).length
        rw [List.length_append, htake]
        exact Nat.le_add_right _ _
      · show Aged (HttpdPool.failures _)
        rw [hfailures]
        exact h.aged
      · show (HttpdPool.failures _).length ≤ 7
        rw [hfailures]
        exact h.short

theorem HttpdPool.Short.recordLarge (h : s.pool.Short) (p : Nat) :
    (recordLarge A s p).2.pool.Short := by
  have hsmall := h.pallocSmall (A := A) largeSize true
  unfold Palloc.recordLarge
  generalize httpdPallocSmall A s largeSize true = o at hsmall ⊢
  rcases o with ⟨_ | a, s'⟩
  · exact hsmall
  · exact ⟨hsmall.now_le, hsmall.aged, hsmall.short⟩

theorem HttpdPool.Short.pallocLarge (h : s.pool.Short) (n : Nat) :
    (httpdPallocLarge A s n).2.pool.Short := by
  unfold httpdPallocLarge
  cases yaosMalloc A s.events n with
  | none => exact h
  | some r =>
      dsimp only
      cases reuseLarge r.1 0 s.pool.large with
      | none => exact HttpdPool.Short.recordLarge (s := { s with events := r.2 }) h r.1
      | some large => exact ⟨h.now_le, h.aged, h.short⟩

theorem HttpdPool.Short.palloc (h : s.pool.Short) (n : Nat) : (httpdPalloc A s n).2.pool.Short := by
  unfold httpdPalloc
  split
  · exact h.pallocSmall n true
  · exact h.pallocLarge n

theorem HttpdPool.Short.step {s : PoolRun} (h : s.state.pool.Short) {op : PoolOp}
    (hop : op ≠ .reset) : (op.run A s).state.pool.Short := by
  have hgive : ∀ {n : Nat} {o : Option Nat × PoolState}, o.2.pool.Short →
      (give s.given n o).state.pool.Short := by
    intro n o ho
    rcases o with ⟨_ | a, s'⟩ <;> exact ho
  cases op with
  | palloc n => exact hgive (h.palloc n)
  | pnalloc n =>
      refine hgive ?_
      unfold httpdPnalloc
      split
      · exact h.pallocSmall n false
      · exact h.pallocLarge n
  | pmemalign n alignment =>
      refine hgive ?_
      unfold httpdPmemalign
      cases yaosMalloc A s.state.events n with
      | none => exact h
      | some r => exact HttpdPool.Short.recordLarge (s := { s.state with events := r.2 }) h r.1
  | pfree p =>
      show (httpdPfree s.state p).2.pool.Short
      unfold httpdPfree
      split
      · exact h
      · exact ⟨h.now_le, h.aged, h.short⟩
  | cleanupAdd n =>
      have hrecord := h.palloc (A := A) cleanupSize
      show (giveCleanup s.given n (httpdPoolCleanupAdd A s.state n)).state.pool.Short
      unfold httpdPoolCleanupAdd
      generalize httpdPalloc A s.state cleanupSize = o at hrecord ⊢
      rcases o with ⟨_ | c, s₁⟩
      · exact hrecord
      · have hdata : (cleanupData A s₁ n).2.pool.Short := by
          unfold cleanupData
          split
          · exact HttpdPool.Short.palloc (s := s₁) hrecord n
          · exact hrecord
        dsimp only
        generalize cleanupData A s₁ n = o at hdata ⊢
        rcases o with ⟨_ | data, s₂⟩
        · exact hdata
        · exact ⟨hdata.now_le, hdata.aged, hdata.short⟩
  | setCleanup c handler data => exact ⟨h.now_le, h.aged, h.short⟩
  | allocChainLink =>
      refine hgive ?_
      unfold httpdAllocChainLink
      split
      · exact ⟨h.now_le, h.aged, h.short⟩
      · exact h.palloc chainSize
  | reset => exact absurd rfl hop

end Yaos.Palloc
