import Yaos.Slub
import Mathlib.Tactic.IntervalCases

set_option autoImplicit false

/-! # What the slub functions do

The tables give every small request a cache whose objects are large enough; writing one mark leaves
all others alone; the carving loop links the objects of a page in order; and the scan of a large
block stops at the first page that is not marked `LARGE_NEXT`. -/

namespace Yaos

open Chains Word

/-! ## Size classes -/

/-- The indices of the caches that `kmalloc_slab` chooses for requests of at most a page. -/
def slabClasses : List Nat := [1, 2, 4, 5, 6, 7, 8, 9, 10, 11, 12]

/-- The size of the objects of a class. -/
def classSize (i : Nat) : Nat := kmallocInfo.getD i 0

theorem classSize_bounds {i : Nat} (h : i ∈ slabClasses) : 16 ≤ classSize i ∧ classSize i ≤ 0x1000 := by
  have hall : ∀ i ∈ slabClasses, 16 ≤ classSize i ∧ classSize i ≤ 0x1000 := by decide
  exact hall i h

theorem lt_of_mem_slabClasses {i : Nat} (h : i ∈ slabClasses) : i < largeNext := by
  have hall : ∀ i ∈ slabClasses, i < largeNext := by decide
  exact hall i h

/-- Every request of 1 to 4096 bytes has a class, and its objects are large enough. -/
theorem kmallocSlab_small {n : Nat} (hpos : 0 < n) (hle : n ≤ 0x1000) :
    ∃ i ∈ slabClasses, kmallocSlab n = .cache i ∧ n ≤ classSize i := by
  by_cases h192 : n ≤ 192
  · have htable : ∀ e < 24, sizeIndex.getD e 0 ∈ slabClasses ∧
        8 * (e + 1) ≤ classSize (sizeIndex.getD e 0) := by decide
    have helem : sizeIndexElem n < 24 ∧ n ≤ 8 * (sizeIndexElem n + 1) := by
      unfold sizeIndexElem
      omega
    obtain ⟨hmem, hsize⟩ := htable (sizeIndexElem n) helem.1
    refine ⟨_, hmem, ?_, by omega⟩
    rw [kmallocSlab, if_neg (by omega), if_pos h192, if_neg (by omega)]
  · have hfls : fls (n - 1) = Nat.log 2 (n - 1) + 1 := if_neg (by omega)
    have hlow : 7 ≤ Nat.log 2 (n - 1) := Nat.le_log_of_pow_le (by decide) (by omega)
    have hhigh : Nat.log 2 (n - 1) < 12 := Nat.log_lt_of_lt_pow (by omega) (by omega)
    have hlt : n - 1 < 2 ^ (Nat.log 2 (n - 1) + 1) := Nat.lt_pow_succ_log_self (by decide) _
    have hslab : kmallocSlab n = .cache (fls (n - 1)) := by
      rw [kmallocSlab, if_neg (by omega), if_neg h192]
    rw [hslab, hfls]
    generalize Nat.log 2 (n - 1) = k at hlow hhigh hlt
    refine ⟨k + 1, ?_, rfl, ?_⟩
    · interval_cases k <;> decide
    · interval_cases k <;> simp only [classSize, kmallocInfo, List.getD_cons_succ,
        List.getD_cons_zero] <;> omega

/-- The caches keep the index and the object size they were created with. -/
def Slub.Static (s : Slub) : Prop :=
  ∀ i, (s.caches i).idx = (createKmallocCaches i).idx ∧
    (s.caches i).size = (createKmallocCaches i).size

theorem createKmallocCaches_class {i : Nat} (h : i ∈ slabClasses) :
    createKmallocCaches i = { idx := i, size := classSize i, freehead := 0 } := by
  have hall : ∀ i ∈ slabClasses,
      createKmallocCaches i = { idx := i, size := classSize i, freehead := 0 } := by decide
  exact hall i h

theorem Slub.Static.class {s : Slub} (h : s.Static) {i : Nat} (hi : i ∈ slabClasses) :
    (s.caches i).idx = i ∧ (s.caches i).size = classSize i := by
  have := h i
  rwa [createKmallocCaches_class hi] at this

theorem Slub.Static.large {s : Slub} (h : s.Static) : (s.caches largeIdx).idx = largeIdx :=
  (h largeIdx).1.trans (by decide)

/-! ## Marks -/

theorem mark_setMark_self (s : Slub) {o v : Nat} (hv : v < 16) : (s.setMark o v).mark o = v := by
  unfold Slub.mark Slub.setMark
  by_cases ho : o % 2 = 1
  · have hor : s.pageBits (o / 2) % 16 ||| v * 16 % 256 = v * 16 + s.pageBits (o / 2) % 16 := by
      rw [Nat.mod_eq_of_lt (by omega : v * 16 < 256), Nat.lor_comm, Nat.mul_comm v 16]
      exact (Nat.two_pow_add_eq_or_of_lt (i := 4) (Nat.mod_lt _ (by decide)) v).symm
    simp only [ho, if_true, Function.update_self, hor]
    omega
  · have hor : s.pageBits (o / 2) / 16 % 16 * 16 ||| v = s.pageBits (o / 2) / 16 % 16 * 16 + v := by
      rw [Nat.mul_comm _ 16]
      exact (Nat.two_pow_add_eq_or_of_lt (i := 4) hv _).symm
    simp only [ho, if_false, Function.update_self, hor]
    omega

theorem mark_setMark_ne (s : Slub) {o o' v : Nat} (hv : v < 16) (hne : o' ≠ o) :
    (s.setMark o v).mark o' = s.mark o' := by
  unfold Slub.mark Slub.setMark
  by_cases hb : o' / 2 = o / 2
  · -- the other half of the same byte
    by_cases ho : o % 2 = 1
    · have ho' : ¬ o' % 2 = 1 := by omega
      have hor : s.pageBits (o / 2) % 16 ||| v * 16 % 256 = v * 16 + s.pageBits (o / 2) % 16 := by
        rw [Nat.mod_eq_of_lt (by omega : v * 16 < 256), Nat.lor_comm, Nat.mul_comm v 16]
        exact (Nat.two_pow_add_eq_or_of_lt (i := 4) (Nat.mod_lt _ (by decide)) v).symm
      simp only [ho, ho', if_true, if_false, hb, Function.update_self, hor]
      omega
    · have ho' : o' % 2 = 1 := by omega
      have hor : s.pageBits (o / 2) / 16 % 16 * 16 ||| v
          = s.pageBits (o / 2) / 16 % 16 * 16 + v := by
        rw [Nat.mul_comm _ 16]
        exact (Nat.two_pow_add_eq_or_of_lt (i := 4) hv _).symm
      simp only [ho, ho', if_true, if_false, hb, Function.update_self, hor]
      omega
  · simp only [Function.update_of_ne hb]

/-- The number of the physical page behind an address of the direct map. -/
def pageOf (p : Nat) : Nat := (p - physVirtStart) / 0x1000

theorem getIdxFromAddr_eq (s : Slub) {p : Nat} (h : physVirtStart ≤ p ∧ p ≤ physVirtEnd) :
    s.getIdxFromAddr p = .ok (s.mark (pageOf p)) := by
  rw [Slub.getIdxFromAddr, V2P_eq h]
  rfl

theorem setIdxFromAddr_eq (s : Slub) {p : Nat} (h : physVirtStart ≤ p ∧ p ≤ physVirtEnd) (v : Nat) :
    s.setIdxFromAddr p v = .ok (s.setMark (pageOf p) v) := by
  rw [Slub.setIdxFromAddr, V2P_eq h]
  rfl

/-! ## The loops -/

/-- Where the scan of a large block stops. -/
theorem scanLarge_ok {s : Slub} {fuel offset size r : Nat}
    (h : scanLarge s fuel offset size = .ok r) :
    ∃ m, 0 < m ∧ m ≤ fuel ∧ r = (size + m * 0x1000) % 2 ^ 64 ∧
      (∀ k, 0 < k → k < m → s.mark (offset + k) = largeNext) ∧
      s.mark (offset + m) ≠ largeNext := by
  induction fuel generalizing offset size with
  | zero => cases h
  | succ fuel ih =>
      rw [scanLarge] at h
      by_cases hm : s.mark (offset + 1) = largeNext
      · simp only [hm, if_true] at h
        obtain ⟨m, hpos, hle, hr, hmarks, hstop⟩ := ih h
        refine ⟨m + 1, by omega, by omega, ?_, ?_, ?_⟩
        · rw [hr, wadd]; omega
        · intro k hk hkm
          by_cases h1 : k = 1
          · rw [h1]; exact hm
          · have := hmarks (k - 1) (by omega) (by omega)
            rwa [show offset + 1 + (k - 1) = offset + k by omega] at this
        · rwa [show offset + 1 + m = offset + (m + 1) by omega] at hstop
      · simp only [hm, if_false, Except.ok.injEq] at h
        refine ⟨1, by omega, by omega, ?_, fun k _ _ => by omega, hm⟩
        rw [← h, wadd, Nat.one_mul]

theorem scanLarge_eq {s : Slub} {fuel offset size m : Nat} (hpos : 0 < m) (hfuel : m ≤ fuel)
    (hb : size + m * 0x1000 < 2 ^ 64)
    (hmarks : ∀ k, 0 < k → k < m → s.mark (offset + k) = largeNext)
    (hstop : s.mark (offset + m) ≠ largeNext) :
    scanLarge s fuel offset size = .ok (size + m * 0x1000) := by
  induction fuel generalizing offset size m with
  | zero => omega
  | succ fuel ih =>
      rw [scanLarge, wadd_eq (by omega)]
      by_cases h1 : m = 1
      · subst h1
        rw [if_neg hstop, Nat.one_mul]
      · rw [if_pos (hmarks 1 (by omega) (by omega))]
        rw [ih (m := m - 1) (by omega) (by omega) (by omega)]
        · rw [show size + 0x1000 + (m - 1) * 0x1000 = size + m * 0x1000 by omega]
        · intro k hk hkm
          rw [show offset + 1 + k = offset + (k + 1) by omega]
          exact hmarks (k + 1) (by omega) (by omega)
        · rwa [show offset + 1 + (m - 1) = offset + m by omega]

/-- The carving loop links `pfree, pfree + size, …` up to the last object, `m` objects on. -/
theorem carve_eq {size pend fuel m pfree : Nat} (hsize : 0 < size) (hfuel : m < fuel)
    (hlast : pfree + m * size ≤ pend) (hnext : pend < pfree + (m + 1) * size)
    (hb : pfree + (m + 1) * size < 2 ^ 64) (mem : Nat → Nat) :
    ∃ mem', carve size pend fuel mem pfree = .ok (mem', pfree + m * size) ∧
      (∀ k, k < m → mem' (pfree + k * size) = pfree + (k + 1) * size) ∧
      ∀ a, (∀ k, k < m → a ≠ pfree + k * size) → mem' a = mem a := by
  induction m generalizing fuel pfree mem with
  | zero =>
      obtain ⟨fuel, rfl⟩ : ∃ f, fuel = f + 1 := ⟨fuel - 1, by omega⟩
      have hwadd : wadd pfree size = pfree + size := wadd_eq (by omega)
      refine ⟨mem, ?_, by omega, fun _ _ => rfl⟩
      rw [carve]
      simp only [hwadd, if_neg (by omega : ¬ pfree + size ≤ pend), Nat.zero_mul, Nat.add_zero]
  | succ m ih =>
      obtain ⟨fuel, rfl⟩ : ∃ f, fuel = f + 1 := ⟨fuel - 1, by omega⟩
      have hstep : ∀ k, pfree + size + k * size = pfree + (k + 1) * size := by
        intro k
        rw [Nat.add_mul, Nat.one_mul]
        omega
      have hle : pfree + size ≤ pend := by
        have : size ≤ (m + 1) * size := Nat.le_mul_of_pos_left _ (by omega)
        omega
      have hwadd : wadd pfree size = pfree + size := by
        have : size ≤ (m + 1 + 1) * size := Nat.le_mul_of_pos_left _ (by omega)
        exact wadd_eq (by omega)
      obtain ⟨mem', hok, hlinks, hframe⟩ := @ih fuel (pfree + size) (by omega)
        (by rw [hstep]; exact hlast) (by rw [hstep]; exact hnext) (by rw [hstep]; exact hb)
        (Function.update mem pfree (pfree + size))
      refine ⟨mem', ?_, ?_, ?_⟩
      · rw [carve]
        simp only [hwadd, hle, if_true, hok, hstep]
      · intro k hk
        cases k with
        | zero =>
            rw [hframe _ fun k _ => by omega]
            simp
        | succ k =>
            rw [← hstep, hlinks k (by omega), hstep]
      · intro a ha
        have h0 : a ≠ pfree := by simpa using ha 0 (by omega)
        rw [hframe a fun k hk => ?_, Function.update_of_ne h0]
        rw [hstep]
        exact ha (k + 1) (by omega)

/-- Two allocators that differ in their marks only. -/
structure SameButMarks (s s' : Slub) : Prop where
  mem : s'.mem = s.mem
  caches : s'.caches = s.caches
  calls : s'.calls = s.calls

/-- The loop over the later pages of a large block marks these and no others. -/
theorem markLarge_eq {fin fuel m a : Nat} {s : Slub} (hfuel : m < fuel)
    (hal : a % 0x1000 = physVirtStart % 0x1000) (hlo : physVirtStart ≤ a)
    (hfin : fin = a + m * 0x1000) (hhi : fin ≤ physVirtEnd + 1) :
    ∃ s', markLarge fin fuel s a = .ok s' ∧ SameButMarks s s' ∧
      (∀ k, k < m → s'.mark (pageOf a + k) = largeNext) ∧
      ∀ o, (∀ k, k < m → o ≠ pageOf a + k) → s'.mark o = s.mark o := by
  induction m generalizing fuel a s with
  | zero =>
      obtain ⟨fuel, rfl⟩ : ∃ f, fuel = f + 1 := ⟨fuel - 1, by omega⟩
      refine ⟨s, ?_, ⟨rfl, rfl, rfl⟩, by omega, fun _ _ => rfl⟩
      rw [markLarge, if_neg (by omega)]
  | succ m ih =>
      obtain ⟨fuel, rfl⟩ : ∃ f, fuel = f + 1 := ⟨fuel - 1, by omega⟩
      have hend : physVirtEnd + 1 < 2 ^ 64 := by decide
      have hwadd : wadd a 0x1000 = a + 0x1000 := wadd_eq (by omega)
      have hpage : pageOf (a + 0x1000) = pageOf a + 1 := by unfold pageOf; omega
      obtain ⟨s', hok, hsame, hmarks, hframe⟩ := @ih fuel (a + 0x1000)
        (s.setMark (pageOf a) largeNext) (by omega) (by omega) (by omega) (by omega)
      refine ⟨s', ?_, ⟨hsame.mem, hsame.caches, hsame.calls⟩, ?_, ?_⟩
      · rw [markLarge, if_pos (by omega), setIdxFromAddr_eq s ⟨hlo, by omega⟩, hwadd]
        exact hok
      · intro k hk
        cases k with
        | zero =>
            rw [Nat.add_zero, hframe _ fun k _ => by omega]
            exact mark_setMark_self s (by decide)
        | succ k =>
            have := hmarks k (by omega)
            rwa [hpage, show pageOf a + 1 + k = pageOf a + (k + 1) by omega] at this
      · intro o ho
        rw [hframe o fun k hk => ?_, mark_setMark_ne s (by decide) (by simpa using ho 0 (by omega))]
        have := ho (k + 1) (by omega)
        omega

end Yaos
