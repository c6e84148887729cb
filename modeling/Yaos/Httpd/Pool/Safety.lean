import Yaos.Httpd.Pool.Runs

set_option autoImplicit false

/-! # What a pool guarantees over its life

Memory that a pool hands out is its own, and is handed out once, as long as the end of its blocks is
aligned or every request is a number of words. Where neither holds, rounding up to the next word can
lead past the end of a block, and the room behind that is taken to be huge. In the end a pool has given
back what it took. -/

namespace Yaos.Palloc

open Regions Word

variable {A : Malloc} {size n : Nat} {rest lg used : List Region} {s : PoolState} {r : Region}

/-! ## The invariant of runs -/

theorem PoolInv.reset (h : PoolInv A size rest lg used s) (hcleanup : s.pool.cleanup = []) :
    PoolInv A size rest [] [] (httpdResetPool s) := by
  have hsize := h.size_ge
  have hlive : (Regions.live s.events).Perm (lg ++ (s.pool.blocks.map HttpdPoolData.region ++ rest)) := by
    refine h.live.trans ?_
    rw [← List.append_assoc, ← List.append_assoc]
    exact List.perm_append_comm.append_right rest
  obtain ⟨hfreed, hfrees⟩ := h.history.freeAll_perm h.frees h.large hlive
  have hown : (httpdResetPool s).pool.own = s.pool.heads := by
    show HttpdPool.heads _ ++ [] = _
    rw [List.append_nil]
    refine heads_congr ?_
    show (s.pool.blocks.map _).map HttpdPoolData.self = _
    rw [List.map_map]
    rfl
  have hmem : (httpdResetPool s).memory [] = s.pool.heads := by
    show (httpdResetPool s).pool.own ++ (s.pool.cleanup.map _ ++ []) = _
    rw [hown, hcleanup]
    exact List.append_nil _
  have hheads : ∀ r ∈ s.pool.heads, (httpdResetPool s).Has [] r := by
    intro r hr
    have hbase : ∃ p ∈ s.pool.blocks, r.base = p.self ∧ r.size ≤ poolSize := by
      unfold HttpdPool.heads at hr
      cases hblocks : s.pool.blocks with
      | nil => exact absurd hblocks h.blocks_ne_nil
      | cons p ps =>
          rw [hblocks] at hr
          rcases List.mem_cons.1 hr with rfl | hr
          · exact ⟨p, List.mem_cons_self, rfl, Nat.le_refl _⟩
          · obtain ⟨q, hq, rfl⟩ := List.mem_map.1 hr
            exact ⟨q, List.mem_cons_of_mem p hq, rfl, Nat.le_of_ble_eq_true rfl⟩
    obtain ⟨p, hp, hself, hle⟩ := hbase
    refine .inl ⟨{ p with last := p.self + poolSize, failed := 0 }, List.mem_map.2 ⟨p, hp, rfl⟩, ?_, ?_⟩
    · exact Nat.le_of_eq hself.symm
    · show r.base + r.size ≤ p.self + poolSize
      omega
  refine ⟨h.history.freeAll _, hfrees, ?_, .refl _, h.max_le, rfl, ?_, ?_, ?_, ?_, ?_⟩
  · show (Regions.live (freeAll s.pool.allocs s.events)).Perm
      ((s.pool.blocks.map fun p => { p with last := p.self + poolSize, failed := 0 }).map
        HttpdPoolData.region ++ ([] ++ rest))
    rw [List.map_map]
    exact hfreed
  · show 0 < (s.pool.blocks.map _).length
    rw [List.length_map]
    exact List.length_pos_of_ne_nil h.blocks_ne_nil
  · intro p hp
    obtain ⟨q, hq, rfl⟩ := List.mem_map.1 hp
    have hok := h.block q hq
    have haligned := hok.aligned
    refine ⟨haligned, hok.below, hok.end_eq, Nat.le_add_right _ _, ?_, .inr ?_⟩
    · show q.self + poolSize ≤ q.end_
      rw [hok.end_eq]
      exact Nat.add_le_add_left hsize _
    · show (q.self + 72) % 8 = 0
      omega
  · rw [hmem]
    have hpair := h.apart
    exact (List.pairwise_append.1 (List.pairwise_append.1 hpair).1).1
  · rw [hown]
    exact hheads
  · rw [hmem]
    exact hheads

theorem Serves.give {o : Option Nat × PoolState} (h : Serves A size rest used n o) :
    ∃ lg', PoolInv A size rest lg' (give used n o).given (give used n o).state := by
  obtain ⟨lg', hinv, hspare⟩ := h
  rcases o with ⟨_ | a, s'⟩
  · exact ⟨lg', hinv⟩
  · exact ⟨lg', hinv.give (hspare a rfl)⟩

/-- **Every call keeps the invariant.** -/
theorem PoolInv.step {s : PoolRun} (h : PoolInv A size rest lg s.given s.state) {op : PoolOp}
    (hwords : Words size op.request) (hallowed : op.Allowed s) :
    ∃ lg', PoolInv A size rest lg' (op.run A s).given (op.run A s).state := by
  cases op with
  | palloc n => exact (h.palloc hwords).give
  | pnalloc n => exact (h.pnalloc hwords).give
  | pmemalign n alignment => exact (h.pmemalign hallowed alignment).give
  | pfree p => exact h.pfree hallowed.1 hallowed.2
  | cleanupAdd n => exact h.cleanupAdd hwords
  | setCleanup c handler data => exact ⟨lg, h.setCleanup c handler data⟩
  | allocChainLink => exact h.allocChainLink.give
  | reset => exact ⟨[], h.reset hallowed⟩

theorem PoolReach.inv {ok : PoolOp → Prop} (hok : ∀ op, ok op → Words size op.request)
    {s₀ s : PoolRun} (h₀ : PoolInv A size rest lg s₀.given s₀.state) (h : PoolReach A ok s₀ s) :
    ∃ lg', PoolInv A size rest lg' s.given s.state := by
  induction h with
  | start => exact ⟨lg, h₀⟩
  | step op _ hop hallowed ih =>
      obtain ⟨lg', hinv⟩ := ih
      exact hinv.step (hok _ hop) hallowed

theorem PoolInv.sound {s : PoolRun} (h : PoolInv A size rest lg s.given s.state) : s.Sound := by
  refine ⟨h.apart, fun r hr => ?_⟩
  rcases h.inside r hr with ⟨p, hp, hbase, hle⟩ | hlarge
  · have hok := h.block p hp
    have hlast := hok.last_le
    refine ⟨p.region, List.mem_filter.2 ⟨h.region_mem_live hp, ?_⟩, ?_⟩
    · exact decide_eq_true (List.mem_append_left _ (List.mem_map_of_mem hp))
    · rw [hok.region_eq]
      exact ⟨hbase, by rw [← hok.end_eq]; exact Nat.le_trans hle hlast⟩
  · refine ⟨r, List.mem_filter.2 ⟨h.large_mem_live hlarge, ?_⟩, .refl r⟩
    refine decide_eq_true (List.mem_append_right _ (h.large.mem_iff.2 ?_))
    exact List.mem_map_of_mem hlarge

/-! ## Requests of whole words -/

/-- The end of the last region. -/
def top : List Event → Nat
  | [] => 0x1000
  | .alloc r :: es => max (r.base + r.size) (top es)
  | .free _ :: es => top es

end Yaos.Palloc
