import Yaos.Httpd.Pool
import Mathlib.Data.List.Forall2

set_option autoImplicit false

/-! # Where a pool finds memory

`PoolInv` relates the blocks, the large requests and everything in use to what is allocated. A small
request yields `Spare` memory: bytes of a block that nothing else uses. What they are then used for, a
record of the pool or memory of the caller, makes no difference to the invariant. -/

namespace Yaos.Palloc

open Regions Word

variable {A : Malloc} {size n : Nat} {rest lg used : List Region} {s : PoolState}

theorem alignPtr_spec {p : Nat} (h : p + 7 < 2 ^ 64) :
    p ≤ alignPtr p ∧ alignPtr p < p + 8 ∧ alignPtr p % 8 = 0 := by
  rw [alignPtr, wadd_eq h]
  refine ⟨?_, ?_, alignDown_mod 8 (p + 7)⟩
  · unfold alignDown; omega
  · unfold alignDown; omega

theorem alignPtr_eq_self {p : Nat} (h : p + 7 < 2 ^ 64) (h8 : p % 8 = 0) : alignPtr p = p := by
  obtain ⟨hle, hlt, hmod⟩ := alignPtr_spec h
  omega

/-! ## One block -/

/-- A block of `size` bytes in order. Where its end is not aligned, everything in it is. -/
structure HttpdPoolData.Ok (size : Nat) (p : HttpdPoolData) : Prop where
  aligned : p.self % 8 = 0
  below : p.self + size + 64 ≤ 2 ^ 64
  end_eq : p.end_ = p.self + size
  self_le : p.self ≤ p.last
  last_le : p.last ≤ p.end_
  words : size % 8 = 0 ∨ p.last % 8 = 0

/-- Requests of `n` bytes keep a block of `size` bytes in order. -/
def Words (size n : Nat) : Prop := size % 8 = 0 ∨ n % 8 = 0

namespace HttpdPoolData.Ok

variable {p : HttpdPoolData} {align : Bool}

theorem region_eq (h : p.Ok size) : p.region = ⟨p.self, size⟩ := by
  rw [HttpdPoolData.region, h.end_eq, Nat.add_sub_cancel_left]

theorem last_le_start (h : p.Ok size) (align : Bool) : p.last ≤ p.start align := by
  have hlast := h.last_le
  rw [h.end_eq] at hlast
  unfold HttpdPoolData.start
  split
  · exact (alignPtr_spec (by have := h.below; omega)).1
  · exact Nat.le_refl _

/-- Alignment does not lead past the end. -/
theorem start_le_end (h : p.Ok size) (align : Bool) : p.start align ≤ p.end_ := by
  have hlast := h.last_le
  have hbelow := h.below
  rw [h.end_eq] at hlast ⊢
  unfold HttpdPoolData.start
  split
  · obtain ⟨hle, hlt, hmod⟩ := alignPtr_spec (p := p.last) (by omega)
    have haligned := h.aligned
    rcases h.words with hsize | hwords
    · omega
    · omega
  · exact hlast

theorem fits_iff (h : p.Ok size) : p.Fits n align ↔ p.start align + n ≤ p.end_ := by
  have hle := h.start_le_end align
  have hbelow := h.below
  rw [HttpdPoolData.Fits, wsub_eq hle (by rw [h.end_eq]; omega)]
  omega

theorem start_words (h : p.Ok size) (align : Bool) (hwords : size % 8 ≠ 0) : p.start align % 8 = 0 := by
  have hlast := h.last_le
  have hbelow := h.below
  rw [h.end_eq] at hlast
  rw [HttpdPoolData.start]
  split
  · exact (alignPtr_spec (by omega)).2.2
  · exact h.words.resolve_left hwords

theorem wadd_start (h : p.Ok size) (hfits : p.Fits n align) :
    wadd (p.start align) n = p.start align + n := by
  have hle := h.fits_iff.1 hfits
  have hbelow := h.below
  rw [h.end_eq] at hle
  exact wadd_eq (by omega)

theorem take (h : p.Ok size) (hfits : p.Fits n align) (hwords : Words size n) :
    HttpdPoolData.Ok size { p with last := wadd (p.start align) n } := by
  refine ⟨h.aligned, h.below, h.end_eq, ?_, ?_, ?_⟩
  · show p.self ≤ wadd (p.start align) n
    rw [h.wadd_start hfits]
    exact Nat.le_trans h.self_le (Nat.le_trans (h.last_le_start align) (Nat.le_add_right _ _))
  · show wadd (p.start align) n ≤ p.end_
    rw [h.wadd_start hfits]
    exact h.fits_iff.1 hfits
  · show size % 8 = 0 ∨ wadd (p.start align) n % 8 = 0
    rw [h.wadd_start hfits]
    by_cases hsize : size % 8 = 0
    · exact .inl hsize
    · have hstart := h.start_words align hsize
      have hn := hwords.resolve_left hsize
      exact .inr (by omega)

end HttpdPoolData.Ok

/-! ## The loops over blocks -/

/-- The same block, with no less of it in use. -/
def HttpdPoolData.Grows (p q : HttpdPoolData) : Prop :=
  q.self = p.self ∧ q.end_ = p.end_ ∧ p.last ≤ q.last

/-- Each block has kept what was given out of it. -/
abbrev Grown (ps qs : List HttpdPoolData) : Prop := List.Forall₂ HttpdPoolData.Grows ps qs

theorem Grown.refl (ps : List HttpdPoolData) : Grown ps ps :=
  List.forall₂_same.2 fun _ _ => ⟨rfl, rfl, Nat.le_refl _⟩

theorem Grown.append {ps qs ps' qs' : List HttpdPoolData} (h : Grown ps qs) (h' : Grown ps' qs') :
    Grown (ps ++ ps') (qs ++ qs') := by
  induction h with
  | nil => exact h'
  | cons hp _ ih => exact .cons hp ih

theorem Grown.map_self {ps qs : List HttpdPoolData} (h : Grown ps qs) :
    qs.map HttpdPoolData.self = ps.map HttpdPoolData.self := by
  induction h with
  | nil => rfl
  | cons hp _ ih => rw [List.map_cons, List.map_cons, hp.1, ih]

theorem Grown.map_region {ps qs : List HttpdPoolData} (h : Grown ps qs) :
    qs.map HttpdPoolData.region = ps.map HttpdPoolData.region := by
  induction h with
  | nil => rfl
  | cons hp _ ih => rw [List.map_cons, List.map_cons, HttpdPoolData.region, hp.1, hp.2.1, ih]; rfl

theorem Grown.exists_mem {ps qs : List HttpdPoolData} (h : Grown ps qs) :
    ∀ p ∈ ps, ∃ q ∈ qs, p.Grows q := by
  induction h with
  | nil => simp
  | @cons p q ps qs hp _ ih =>
      intro r hr
      rcases List.mem_cons.1 hr with rfl | hr
      · exact ⟨q, List.mem_cons_self, hp⟩
      · obtain ⟨t, ht, hgrows⟩ := ih r hr
        exact ⟨t, List.mem_cons_of_mem q ht, hgrows⟩

/-- A request is answered from the first block that it fits in. -/
theorem pallocFrom_eq_some {align : Bool} {m : Nat} {ps qs : List HttpdPoolData}
    (h : pallocFrom n align ps = some (m, qs)) :
    ∃ pre p post, ps = pre ++ p :: post ∧ p.Fits n align ∧ m = p.start align ∧
      qs = pre ++ { p with last := wadd (p.start align) n } :: post := by
  induction ps generalizing qs with
  | nil => simp [pallocFrom] at h
  | cons p ps ih =>
      rw [pallocFrom] at h
      split at h
      · next hfits =>
          obtain ⟨rfl, rfl⟩ := Prod.mk.inj (Option.some.inj h)
          exact ⟨[], p, ps, rfl, hfits, rfl, rfl⟩
      · obtain ⟨⟨m', qs'⟩, hrec, heq⟩ := Option.map_eq_some_iff.1 h
        obtain ⟨rfl, rfl⟩ := Prod.mk.inj heq
        obtain ⟨pre, q, post, rfl, hfits, hm, rfl⟩ := ih hrec
        exact ⟨p :: pre, q, post, rfl, hfits, hm, rfl⟩

theorem countFailures_grown (now i : Nat) (ps : List HttpdPoolData) :
    Grown ps (countFailures now i ps).1 := by
  induction ps generalizing now i with
  | nil => exact .nil
  | cons p ps ih =>
      cases ps with
      | nil => exact Grown.refl [p]
      | cons q ps => exact .cons ⟨rfl, rfl, Nat.le_refl _⟩ (ih _ _)

theorem countFailures_core (now i : Nat) (ps : List HttpdPoolData) :
    ∀ q ∈ (countFailures now i ps).1, ∃ p ∈ ps, q = { p with failed := q.failed } := by
  induction ps generalizing now i with
  | nil => simp [countFailures]
  | cons p ps ih =>
      cases ps with
      | nil => simp [countFailures]
      | cons q ps =>
          intro r hr
          rw [countFailures] at hr
          rcases List.mem_cons.1 hr with rfl | hr
          · exact ⟨p, List.mem_cons_self, rfl⟩
          · obtain ⟨t, ht, heq⟩ := ih _ _ r hr
            exact ⟨t, List.mem_cons_of_mem p ht, heq⟩

theorem countFailures_now {now i : Nat} (h : now ≤ i) (ps : List HttpdPoolData) :
    (countFailures now i ps).2 ≤ i + ps.length := by
  induction ps generalizing now i with
  | nil => exact Nat.le_trans h (Nat.le_add_right _ _)
  | cons p ps ih =>
      cases ps with
      | nil => exact Nat.le_trans h (Nat.le_add_right _ _)
      | cons q ps =>
          rw [countFailures]
          refine Nat.le_trans (ih (i := i + 1) ?_) (by simp only [List.length_cons]; omega)
          split
          · exact Nat.le_refl _
          · omega

/-! ## The invariant -/

/-- The pool has the memory `r`, as a part of a block or for a large request. -/
def PoolState.Has (s : PoolState) (lg : List Region) (r : Region) : Prop :=
  (∃ p ∈ s.pool.blocks, p.self ≤ r.base ∧ r.base + r.size ≤ p.last) ∨ r ∈ lg

/-- `lg` is the memory of large requests, `rest` what is allocated apart from the pool, and `used` the
    memory in use beside the pool's own. -/
structure PoolInv (A : Malloc) (size : Nat) (rest lg used : List Region) (s : PoolState) :
    Prop where
  history : History A.toAllocator s.events
  frees : FreesLive s.events
  live : (Regions.live s.events).Perm (s.pool.blocks.map HttpdPoolData.region ++ (lg ++ rest))
  large : s.pool.allocs.Perm (lg.map Region.base)
  max_le : s.pool.max + poolSize ≤ size
  chain : s.pool.chain = []
  now_lt : s.pool.now < s.pool.blocks.length
  block : ∀ p ∈ s.pool.blocks, p.Ok size
  apart : (s.memory used).Pairwise Region.Apart
  own : ∀ r ∈ s.pool.own, s.Has [] r
  inside : ∀ r ∈ s.memory used, s.Has lg r

/-- Memory of the pool that is not in use yet. -/
structure PoolState.Spare (s : PoolState) (lg used : List Region) (r : Region) : Prop where
  apart : ∀ q ∈ s.memory used, r.Apart q
  inside : s.Has lg r

namespace PoolInv

theorem blocks_ne_nil (h : PoolInv A size rest lg used s) : s.pool.blocks ≠ [] := by
  intro hnil
  have hnow := h.now_lt
  simp [hnil] at hnow

theorem size_ge (h : PoolInv A size rest lg used s) : poolSize ≤ size :=
  Nat.le_trans (Nat.le_add_left _ _) h.max_le

theorem psize_eq (h : PoolInv A size rest lg used s) : s.pool.psize = size := by
  cases hblocks : s.pool.blocks with
  | nil => exact absurd hblocks h.blocks_ne_nil
  | cons p ps =>
      have hp := h.block p (by simp [hblocks])
      have hbelow := hp.below
      rw [HttpdPool.psize, hblocks]
      show wsub p.end_ p.self = size
      rw [hp.end_eq, wsub_eq (Nat.le_add_right _ _) (by omega), Nat.add_sub_cancel_left]

theorem region_mem_live (h : PoolInv A size rest lg used s) {p : HttpdPoolData} (hp : p ∈ s.pool.blocks) :
    p.region ∈ Regions.live s.events :=
  h.live.mem_iff.2 (List.mem_append_left _ (List.mem_map_of_mem hp))

theorem large_mem_live (h : PoolInv A size rest lg used s) {r : Region} (hr : r ∈ lg) :
    r ∈ Regions.live s.events :=
  h.live.mem_iff.2 (List.mem_append_right _ (List.mem_append_left _ hr))

theorem regions_pairwise (h : PoolInv A size rest lg used s) :
    (s.pool.blocks.map HttpdPoolData.region ++ (lg ++ rest)).Pairwise Region.Apart :=
  (h.live.pairwise_iff fun hap => hap.symm).1 h.history.pairwise

theorem region_apart_large (h : PoolInv A size rest lg used s) {p : HttpdPoolData}
    (hp : p ∈ s.pool.blocks) {r : Region} (hr : r ∈ lg) : p.region.Apart r :=
  (List.pairwise_append.1 h.regions_pairwise).2.2 _ (List.mem_map_of_mem hp) r
    (List.mem_append_left _ hr)

/-- Two blocks are the same block, or lie apart. -/
theorem eq_or_apart (h : PoolInv A size rest lg used s) {p q : HttpdPoolData} (hp : p ∈ s.pool.blocks)
    (hq : q ∈ s.pool.blocks) : p = q ∨ p.region.Apart q.region := by
  have hpair := (List.pairwise_append.1 h.regions_pairwise).1
  rw [List.pairwise_map] at hpair
  refine List.Pairwise.forall_of_forall_of_flip (R := fun p q => p = q ∨ p.region.Apart q.region)
    ?_ ?_ ?_ hp hq
  · exact fun _ _ => .inl rfl
  · exact hpair.imp fun hap => .inr hap
  · exact hpair.imp fun hap => .inr hap.symm

/-- Bytes of a block behind what is in use there are not used by anything. -/
theorem behind_apart (h : PoolInv A size rest lg used s) {p : HttpdPoolData} (hp : p ∈ s.pool.blocks)
    {r : Region} (hlast : p.last ≤ r.base) (hself : p.self ≤ r.base)
    (hend : r.base + r.size ≤ p.end_) : ∀ q ∈ s.memory used, r.Apart q := by
  intro q hq
  have hok := h.block p hp
  have hin : r.Within p.region := by
    rw [hok.region_eq]
    exact ⟨hself, by rw [← hok.end_eq]; exact hend⟩
  rcases h.inside q hq with ⟨p', hp', hbase, hle⟩ | hlarge
  · rcases h.eq_or_apart hp hp' with rfl | hapart
    · exact .inr (Nat.le_trans hle hlast)
    · have hok' := h.block p' hp'
      have hlast' := hok'.last_le
      refine hapart.mono hin ?_
      rw [hok'.region_eq]
      exact ⟨hbase, by rw [← hok'.end_eq]; exact Nat.le_trans hle hlast'⟩
  · exact (h.region_apart_large hp hlarge).mono hin (.refl q)

end PoolInv

/-- Only where the blocks stand matters for their heads. -/
theorem heads_congr {pool pool' : HttpdPool}
    (h : pool'.blocks.map HttpdPoolData.self = pool.blocks.map HttpdPoolData.self) :
    pool'.heads = pool.heads := by
  unfold HttpdPool.heads
  revert h
  cases pool'.blocks with
  | nil =>
      cases pool.blocks with
      | nil => exact fun _ => rfl
      | cons p ps => exact fun h => absurd h (by simp)
  | cons q qs =>
      cases pool.blocks with
      | nil => exact fun h => absurd h (by simp)
      | cons p ps =>
          intro h
          obtain ⟨hself, hselves⟩ := List.cons.inj h
          have htail := congrArg (List.map fun a => (⟨a, dataSize⟩ : Region)) hselves
          rw [List.map_map, List.map_map] at htail
          exact congrArg₂ List.cons (congrArg (Region.mk · poolSize) hself) htail

/-! ## More of a block comes into use -/

theorem Grown.has {bs : List HttpdPoolData} {now : Nat} (hgrown : Grown s.pool.blocks bs)
    {r : Region} (h : s.Has lg r) :
    PoolState.Has { s with pool := { s.pool with blocks := bs, now := now } } lg r := by
  refine h.imp_left ?_
  rintro ⟨p, hp, hbase, hle⟩
  obtain ⟨q, hq, hself, -, hlast⟩ := hgrown.exists_mem p hp
  exact ⟨q, hq, by rw [hself]; exact hbase, Nat.le_trans hle hlast⟩

theorem PoolInv.grow (h : PoolInv A size rest lg used s) {bs : List HttpdPoolData} {now : Nat}
    (hgrown : Grown s.pool.blocks bs) (hok : ∀ p ∈ bs, p.Ok size) (hnow : now < bs.length) :
    PoolInv A size rest lg used { s with pool := { s.pool with blocks := bs, now := now } } := by
  have hown : HttpdPool.own { s.pool with blocks := bs, now := now } = s.pool.own :=
    congrArg (· ++ _) (heads_congr hgrown.map_self)
  have hmem : PoolState.memory { s with pool := { s.pool with blocks := bs, now := now } } used =
      s.memory used := congrArg (· ++ (s.pool.cleanups ++ used)) hown
  refine ⟨h.history, h.frees, ?_, h.large, h.max_le, h.chain, hnow, hok, ?_, ?_, ?_⟩
  · show (Regions.live s.events).Perm (bs.map HttpdPoolData.region ++ (lg ++ rest))
    rw [hgrown.map_region]
    exact h.live
  · rw [hmem]
    exact h.apart
  · rw [hown]
    exact fun r hr => hgrown.has (h.own r hr)
  · rw [hmem]
    exact fun r hr => hgrown.has (h.inside r hr)

/-- A block with room yields spare memory. -/
theorem PoolInv.take (h : PoolInv A size rest lg used s) {pre post : List HttpdPoolData}
    {p : HttpdPoolData} {align : Bool} (hblocks : s.pool.blocks = pre ++ p :: post)
    (hfits : p.Fits n align) (hwords : Words size n) :
    let bs := pre ++ { p with last := wadd (p.start align) n } :: post
    PoolInv A size rest lg used { s with pool := { s.pool with blocks := bs } } ∧
      PoolState.Spare { s with pool := { s.pool with blocks := bs } } [] used ⟨p.start align, n⟩ := by
  intro bs
  have hp : p ∈ s.pool.blocks := by simp [hblocks]
  have hok := h.block p hp
  have hstart := hok.last_le_start align
  have hgrown : Grown s.pool.blocks bs := by
    rw [hblocks]
    refine (Grown.refl pre).append (.cons ⟨rfl, rfl, ?_⟩ (Grown.refl post))
    show p.last ≤ wadd (p.start align) n
    rw [hok.wadd_start hfits]
    exact Nat.le_trans hstart (Nat.le_add_right _ _)
  have hinv : PoolInv A size rest lg used { s with pool := { s.pool with blocks := bs } } := by
    refine h.grow hgrown (fun q hq => ?_) ?_
    · rcases List.mem_append.1 hq with hq | hq
      · exact h.block q (by simp [hblocks, hq])
      · rcases List.mem_cons.1 hq with rfl | hq
        · exact hok.take hfits hwords
        · exact h.block q (by simp [hblocks, hq])
    · have hnow := h.now_lt
      rw [hblocks] at hnow
      simpa [bs] using hnow
  have hmem : PoolState.memory { s with pool := { s.pool with blocks := bs } } used = s.memory used :=
    congrArg (fun heads => heads ++ _ ++ (s.pool.cleanups ++ used)) (heads_congr hgrown.map_self)
  have hself : p.self ≤ p.start align := Nat.le_trans hok.self_le hstart
  refine ⟨hinv, ?_, .inl ⟨_, List.mem_append_right _ List.mem_cons_self, hself, ?_⟩⟩
  · rw [hmem]
    exact h.behind_apart hp hstart hself (hok.fits_iff.1 hfits)
  · show p.start align + n ≤ wadd (p.start align) n
    exact Nat.le_of_eq (hok.wadd_start hfits).symm

/-- A new block yields spare memory behind its head. -/
theorem PoolInv.newBlock (h : PoolInv A size rest lg used s) {m : Nat}
    (hm : A.answer s.events size = some m) (hn : dataSize + n ≤ size) (hwords : Words size n)
    {bs : List HttpdPoolData} {now : Nat} (hgrown : Grown s.pool.blocks bs)
    (hok : ∀ p ∈ bs, p.Ok size) (hnow : now ≤ bs.length) :
    let s' : PoolState :=
      { s with
        events := .alloc ⟨m, size⟩ :: s.events
        pool := { s.pool with blocks := bs ++ [Palloc.newBlock m size n], now := now } }
    PoolInv A size rest lg used s' ∧ s'.Spare [] used ⟨alignPtr (m + dataSize), n⟩ := by
  intro s'
  have hsize := h.size_ge
  have halign := A.aligned hm
  have hbelow := A.below hm
  have hstart : alignPtr (m + dataSize) = m + dataSize :=
    alignPtr_eq_self (by unfold dataSize; omega) (by unfold dataSize; omega)
  have hnew : (Palloc.newBlock m size n).Ok size := by
    refine ⟨halign, hbelow, rfl, ?_, ?_, ?_⟩
    · show m ≤ alignPtr (m + dataSize) + n
      rw [hstart]
      omega
    · show alignPtr (m + dataSize) + n ≤ m + size
      rw [hstart]
      omega
    · show size % 8 = 0 ∨ (alignPtr (m + dataSize) + n) % 8 = 0
      rw [hstart]
      refine hwords.imp_right fun hn8 => ?_
      unfold dataSize
      omega
  have hregion : (Palloc.newBlock m size n).region = ⟨m, size⟩ := hnew.region_eq
  -- nothing in use lies in the new block
  have hfar : ∀ r : Region, r.Within ⟨m, size⟩ → ∀ q ∈ s.memory used, r.Apart q := by
    intro r hr q hq
    rcases h.inside q hq with ⟨p, hp, hbase, hle⟩ | hlarge
    · have hpok := h.block p hp
      have hlast := hpok.last_le
      refine (A.apart hm _ (h.region_mem_live hp)).mono hr ?_
      rw [hpok.region_eq]
      exact ⟨hbase, by rw [← hpok.end_eq]; exact Nat.le_trans hle hlast⟩
    · exact (A.apart hm _ (h.large_mem_live hlarge)).mono hr (.refl q)
  have hown : s'.pool.own.Perm (⟨m, dataSize⟩ :: s.pool.own) := by
    have hheads : s'.pool.heads = s.pool.heads ++ [⟨m, dataSize⟩] := by
      have hbs : HttpdPool.heads { s.pool with blocks := bs } = s.pool.heads :=
        heads_congr hgrown.map_self
      rw [← hbs]
      cases bs with
      | nil => exact absurd (List.forall₂_nil_right_iff.1 hgrown) h.blocks_ne_nil
      | cons p ps => simp [s', HttpdPool.heads, Palloc.newBlock]
    unfold HttpdPool.own
    rw [hheads, List.append_assoc]
    exact List.perm_middle
  have hmem : (s'.memory used).Perm (⟨m, dataSize⟩ :: s.memory used) :=
    hown.append_right (s.pool.cleanups ++ used)
  have hhead : ∀ q ∈ s.memory used, Region.Apart ⟨m, dataSize⟩ q :=
    hfar _ ⟨Nat.le_refl _, by show m + dataSize ≤ m + size; omega⟩
  have hmemApart : (s'.memory used).Pairwise Region.Apart :=
    (hmem.pairwise_iff fun hap => hap.symm).2 (List.pairwise_cons.2 ⟨hhead, h.apart⟩)
  have hlast : Palloc.newBlock m size n ∈ s'.pool.blocks := by simp [s']
  have hhas : ∀ {lg : List Region} {r : Region}, s.Has lg r → s'.Has lg r := by
    intro lg r hr
    refine hr.imp_left ?_
    rintro ⟨p, hp, hbase, hle⟩
    obtain ⟨q, hq, hself, -, hqlast⟩ := hgrown.exists_mem p hp
    exact ⟨q, List.mem_append_left _ hq, by rw [hself]; exact hbase, Nat.le_trans hle hqlast⟩
  have hheadHas : ∀ lg, s'.Has lg ⟨m, dataSize⟩ := by
    refine fun lg => .inl ⟨_, hlast, Nat.le_refl _, ?_⟩
    show m + dataSize ≤ alignPtr (m + dataSize) + n
    rw [hstart]
    exact Nat.le_add_right _ _
  refine ⟨⟨?_, h.frees, ?_, h.large, h.max_le, h.chain, ?_, ?_, hmemApart, ?_, ?_⟩, ?_, ?_⟩
  · exact .alloc h.history (by unfold poolSize at hsize; omega) hm
  · show (⟨m, size⟩ :: Regions.live s.events).Perm
      ((bs ++ [Palloc.newBlock m size n]).map HttpdPoolData.region ++ (lg ++ rest))
    rw [List.map_append, hgrown.map_region, List.map_singleton, hregion, List.append_assoc]
    exact (h.live.cons _).trans List.perm_middle.symm
  · show now < (bs ++ [Palloc.newBlock m size n]).length
    rw [List.length_append, List.length_singleton]
    omega
  · intro p hp
    rcases List.mem_append.1 hp with hp | hp
    · exact hok p hp
    · rw [List.mem_singleton.1 hp]
      exact hnew
  · intro r hr
    rcases List.mem_cons.1 (hown.mem_iff.1 hr) with rfl | hr
    · exact hheadHas []
    · exact hhas (h.own r hr)
  · intro r hr
    rcases List.mem_cons.1 (hmem.mem_iff.1 hr) with rfl | hr
    · exact hheadHas lg
    · exact hhas (h.inside r hr)
  · intro q hq
    rcases List.mem_cons.1 (hmem.mem_iff.1 hq) with rfl | hq
    · exact .inr (Nat.le_of_eq hstart.symm)
    · refine hfar _ ⟨?_, ?_⟩ q hq
      · show m ≤ alignPtr (m + dataSize)
        rw [hstart]
        exact Nat.le_add_right _ _
      · show alignPtr (m + dataSize) + n ≤ m + size
        rw [hstart]
        omega
  · refine .inl ⟨_, hlast, ?_, Nat.le_refl _⟩
    show m ≤ alignPtr (m + dataSize)
    rw [hstart]
    exact Nat.le_add_right _ _

end Yaos.Palloc
