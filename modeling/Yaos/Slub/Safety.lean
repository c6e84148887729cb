import Yaos.Slub.Runs

set_option autoImplicit false

/-! # What holds in every run of the slub allocator

Live objects never overlap each other or a free object. Freeing a live object passes the alignment
check of `__kmfree` exactly if the mask `size - 1` of its class says nothing wrong about it, which
fails for half of the objects of the two classes that are not powers of two. Freeing a large block
returns exactly its pages exactly if the page behind it does not carry a stale mark. -/

namespace Yaos

open Chains Word

/-! ## Objects -/

/-- The addresses of a live object or block. -/
def LivePtr.extent (s : Slub) (x : LivePtr) : Set Nat :=
  if x.size ≤ 0x1000 then Set.Ico x.ptr (x.ptr + (s.caches (s.mark (pageOf x.ptr))).size)
  else Set.Ico x.ptr (x.ptr + heapSize x.size)

/-- What is promised about a live object of at most a page: the mark of its page is the index of the
    cache chosen for its size, it is large enough, and it is a whole number of objects into its page
    and inside it. -/
structure ObjectOk (s : Slub) (x : LivePtr) (i : Nat) : Prop where
  chosen : kmallocSlab x.size = .cache i
  mark : s.getIdxFromAddr x.ptr = .ok i
  enough : x.size ≤ (s.caches i).size
  onePage : x.ptr % 0x1000 + (s.caches i).size ≤ 0x1000
  carved : x.ptr % 0x1000 % (s.caches i).size = 0

/-- What is promised about the free list of a cache. -/
structure FreeListOk (st : SlubRun) (i : Nat) (ps : List Nat) : Prop where
  list : st.slub.FreeList i ps
  nodup : ps.Nodup
  apart : ∀ q ∈ ps, ∀ x ∈ st.live,
    Disjoint (Set.Ico q (q + (st.slub.caches i).size)) (x.extent st.slub)

theorem disjoint_Ico_of_le {a n b m : Nat} (h : a + n ≤ b ∨ b + m ≤ a) :
    Disjoint (Set.Ico a (a + n)) (Set.Ico b (b + m)) := by
  rw [Set.disjoint_left]
  intro c hc hc'
  have := hc.1
  have := hc.2
  have := hc'.1
  have := hc'.2
  omega

theorem extent_of_slot {s : Slub} {live : List LivePtr} (hp : PagesInv s live) {i : Nat}
    {x : LivePtr} (hi : i ∈ slabClasses) (hs : Slot s i x.ptr) (hsz : x.size ≤ 0x1000) :
    x.extent s = Set.Ico x.ptr (x.ptr + classSize i) := by
  obtain ⟨a, hin⟩ := hs.inPage hp hi
  rw [LivePtr.extent, if_pos hsz, hin.mark, (hp.static.class hi).2]

theorem extent_of_large (s : Slub) {x : LivePtr} (hsz : ¬ x.size ≤ 0x1000) :
    x.extent s = Set.Ico x.ptr (x.ptr + heapSize x.size) := if_neg hsz

/-- A slot shares no address with a live object or block other than itself. -/
theorem Slot.disjoint_extent {s : Slub} {live : List LivePtr} {free : Nat → List Nat}
    (hp : PagesInv s live) (hl : ListsInv s live free) {i q : Nat} (hi : i ∈ slabClasses)
    (hs : Slot s i q) {x : LivePtr} (hx : x ∈ live) (hne : q ≠ x.ptr) :
    Disjoint (Set.Ico q (q + classSize i)) (x.extent s) := by
  by_cases hsz : x.size ≤ 0x1000
  · obtain ⟨j, hj, -, -, hslot⟩ := hl.small x hx hsz
    rw [extent_of_slot hp hj hslot hsz]
    exact disjoint_Ico_of_le (hs.disjoint hp hslot hne)
  · obtain ⟨hmem, hmark⟩ := hp.large x hx (by omega)
    obtain ⟨a, hin⟩ := hs.inPage hp hi
    rw [extent_of_large s hsz]
    have hab : (a, 0x1000) ≠ (x.ptr, heapSize x.size) := by
      intro he
      have ha : a = x.ptr := congrArg Prod.fst he
      have hz : 0x1000 = heapSize x.size := congrArg Prod.snd he
      have := heapSize_of_large (n := x.size) (by omega)
      omega
    have hd := hp.disjoint hin.mem hmem hab
    have hlow := hin.low
    have hhigh := hin.high
    simp only at hd
    exact disjoint_Ico_of_le (by omega)

theorem PagesInv.extent_disjoint {s : Slub} {live : List LivePtr} {free : Nat → List Nat}
    (hp : PagesInv s live) (hl : ListsInv s live free) {x y : LivePtr} (hx : x ∈ live)
    (hy : y ∈ live) (hne : x.ptr ≠ y.ptr) : Disjoint (x.extent s) (y.extent s) := by
  by_cases hsx : x.size ≤ 0x1000
  · obtain ⟨i, hi, -, -, hslot⟩ := hl.small x hx hsx
    rw [extent_of_slot hp hi hslot hsx]
    exact hslot.disjoint_extent hp hl hi hy hne
  by_cases hsy : y.size ≤ 0x1000
  · obtain ⟨i, hi, -, -, hslot⟩ := hl.small y hy hsy
    rw [extent_of_slot hp hi hslot hsy]
    exact (hslot.disjoint_extent hp hl hi hx hne.symm).symm
  · have hd := hp.disjoint (hp.large x hx (by omega)).1 (hp.large y hy (by omega)).1
      fun he => hne (congrArg Prod.fst he)
    rw [extent_of_large s hsx, extent_of_large s hsy]
    exact disjoint_Ico_of_le hd.symm

/-- **Objects stay apart.** In every run of `slub_malloc` and `slub_mfree`, every live object of at
    most a page is as its request needs it, live objects are pairwise disjoint, and every cache has a
    free list without repetition whose objects are disjoint from the live ones. -/
theorem slub_objects_apart {mem : Nat → Nat} {st : SlubRun}
    (run : Relation.ReflTransGen SlubStep ⟨initSlub mem, []⟩ st) :
    (∀ x ∈ st.live, x.size ≤ 0x1000 → ∃ i, ObjectOk st.slub x i) ∧
    st.live.Pairwise (fun x y => Disjoint (x.extent st.slub) (y.extent st.slub)) ∧
    ∀ i, ∃ ps, FreeListOk st i ps := by
  obtain ⟨hp, free, hl⟩ := slub_run_inv run
  refine ⟨fun x hx hsz => ?_, ?_, fun i => ?_⟩
  · obtain ⟨i, hi, hslab, hfit, hslot⟩ := hl.small x hx hsz
    obtain ⟨a, hin⟩ := hslot.inPage hp hi
    obtain ⟨hlow, hhigh⟩ := id hin.window
    have hsize := (hp.static.class hi).2
    have h16 := (classSize_bounds hi).1
    have hal := hin.aligned
    have h1 := hin.low
    have h2 := hin.high
    refine ⟨i, hslab, ?_, by rw [hsize]; exact hfit, by rw [hsize]; omega, ?_⟩
    · rw [getIdxFromAddr_eq st.slub ⟨by omega, by omega⟩, hin.mark]
    · obtain ⟨b, k, hmem, -, hk, hlast⟩ := hslot
      have hb := (hp.shape _ hmem).aligned
      simp only at hb
      rw [Nat.add_mul, Nat.one_mul] at hlast
      have hmod : x.ptr % 0x1000 = k * classSize i := by omega
      rw [hsize, hmod]
      exact Nat.mul_mod_left k (classSize i)
  · have hnd := List.pairwise_map.1 hl.ptrs
    exact hnd.imp_of_mem fun {x y} hx hy hne => hp.extent_disjoint hl hx hy hne
  · by_cases hi : i ∈ slabClasses
    · have hlist := hl.lists i hi
      refine ⟨free i, hlist, hlist.nodup, fun q hq x hx => ?_⟩
      rw [(hp.static.class hi).2]
      exact (hl.slots i hi q hq).disjoint_extent hp hl hi hx fun he => hl.taken x hx i hi (he ▸ hq)
    · refine ⟨[], ?_, List.nodup_nil, by simp⟩
      rw [Slub.FreeList, hl.idle i hi]
      rfl

/-- A run with two objects of 100 bytes. -/
theorem slub_objects_apart_two : ∃ st, Relation.ReflTransGen SlubStep ⟨initSlub fun _ => 0, []⟩ st ∧
    st.live = [⟨0xffff820000300080, 100⟩, ⟨0xffff820000300000, 100⟩] ∧
    st.live.Pairwise (fun x y => Disjoint (x.extent st.slub) (y.extent st.slub)) := by
  have hrun : ∃ st, Relation.ReflTransGen SlubStep ⟨initSlub fun _ => 0, []⟩ st ∧
      st.live = [⟨0xffff820000300080, 100⟩, ⟨0xffff820000300000, 100⟩] :=
    ⟨_, .tail (.tail .refl
      ⟨.malloc 100 0xffff820000300000, ⟨by decide, .inr (by decide)⟩, rfl⟩)
      ⟨.malloc 100 0, ⟨by decide, .inl rfl⟩, rfl⟩, rfl⟩
  obtain ⟨st, run, hlive⟩ := hrun
  exact ⟨st, run, hlive, (slub_objects_apart run).2.1⟩

/-! ## The alignment check of `__kmfree` -/

/-- The condition on a live object: it is not of the classes of 96 and 192 bytes, or its number in
    its page is 0 or 3 modulo 4. -/
def MaskAligned (x : LivePtr) : Prop :=
  (64 < x.size ∧ x.size ≤ 96 → x.ptr % 0x1000 / 96 % 4 = 0 ∨ x.ptr % 0x1000 / 96 % 4 = 3) ∧
  (128 < x.size ∧ x.size ≤ 192 → x.ptr % 0x1000 / 192 % 4 = 0 ∨ x.ptr % 0x1000 / 192 % 4 = 3)

/-- The requests of the two odd classes. -/
theorem kmallocSlab_odd {n : Nat} (hpos : 0 < n) (hle : n ≤ 0x1000) :
    (kmallocSlab n = .cache 1 ↔ 64 < n ∧ n ≤ 96) ∧
      (kmallocSlab n = .cache 2 ↔ 128 < n ∧ n ≤ 192) := by
  by_cases h192 : n ≤ 192
  · have htable : ∀ e < 24, (sizeIndex.getD e 0 = 1 ↔ 8 ≤ e ∧ e < 12) ∧
        (sizeIndex.getD e 0 = 2 ↔ 16 ≤ e) := by decide
    have helem : sizeIndexElem n = (n - 1) / 8 := rfl
    obtain ⟨h1, h2⟩ := htable (sizeIndexElem n) (by omega)
    have hslab : kmallocSlab n = .cache (sizeIndex.getD (sizeIndexElem n) 0) := by
      rw [kmallocSlab, if_neg (by omega), if_pos h192, if_neg (by omega)]
    rw [hslab]
    simp only [Slab.cache.injEq, h1, h2]
    omega
  · have hlow : 7 ≤ Nat.log 2 (n - 1) := Nat.le_log_of_pow_le (by decide) (by omega)
    have hslab : kmallocSlab n = .cache (Nat.log 2 (n - 1) + 1) := by
      rw [kmallocSlab, if_neg (by omega), if_neg h192, fls, if_neg (by omega)]
    rw [hslab]
    simp only [Slab.cache.injEq]
    omega

/-- A mask below 4096 sees only the offset in the page. -/
theorem and_mask_eq (p : Nat) {m : Nat} (h : m < 0x1000) : p &&& m = p % 0x1000 &&& m := by
  have hm : 0xfff &&& m = m := by
    rw [Nat.and_comm]
    exact (Nat.and_two_pow_sub_one_eq_mod m 12).trans (Nat.mod_eq_of_lt h)
  calc p &&& m = p &&& (0xfff &&& m) := by rw [hm]
    _ = p &&& 0xfff &&& m := (Nat.and_assoc ..).symm
    _ = p % 0x1000 &&& m := by rw [show p &&& 0xfff = p % 0x1000 from
        Nat.and_two_pow_sub_one_eq_mod p 12]

/-- The mask test on the `k`-th object of a page. -/
theorem mask_odd_class (k : Nat) : (k < 43 → ((k * 96 &&& 95 = 0) ↔ k % 4 = 0 ∨ k % 4 = 3)) ∧
    (k < 22 → ((k * 192 &&& 191 = 0) ↔ k % 4 = 0 ∨ k % 4 = 3)) := by
  have h96 : ∀ k < 43, ((k * 96 &&& 95 = 0) ↔ k % 4 = 0 ∨ k % 4 = 3) := by decide
  have h192 : ∀ k < 22, ((k * 192 &&& 191 = 0) ↔ k % 4 = 0 ∨ k % 4 = 3) := by decide
  exact ⟨h96 k, h192 k⟩

theorem classSize_pow {i : Nat} (hi : i ∈ slabClasses) (h1 : i ≠ 1) (h2 : i ≠ 2) :
    ∃ j ≤ 12, classSize i = 2 ^ j := by
  have hall : ∀ i ∈ slabClasses, i ≠ 1 → i ≠ 2 → ∃ j ≤ 12, classSize i = 2 ^ j := by decide
  exact hall i hi h1 h2

/-- The mask test on a slot. -/
theorem mask_iff {s : Slub} {live : List LivePtr} (hp : PagesInv s live) {i : Nat} {x : LivePtr}
    (hi : i ∈ slabClasses) (hs : Slot s i x.ptr) (hpos : 0 < x.size) (hsz : x.size ≤ 0x1000)
    (hslab : kmallocSlab x.size = .cache i) :
    x.ptr &&& wsub (classSize i) 1 = 0 ↔ MaskAligned x := by
  obtain ⟨a, k, hmem, -, hk, hlast⟩ := hs
  have ha := (hp.shape _ hmem).aligned
  obtain ⟨h16, h4k⟩ := classSize_bounds hi
  obtain ⟨h96, h192⟩ := kmallocSlab_odd hpos hsz
  rw [hslab, Slab.cache.injEq] at h96 h192
  simp only at ha
  rw [Nat.add_mul, Nat.one_mul] at hlast
  have hoff : x.ptr % 0x1000 = k * classSize i := by omega
  rw [wsub_eq (by omega) (by omega), and_mask_eq _ (by omega), hoff, MaskAligned, ← h96, ← h192, hoff]
  by_cases h1 : i = 1
  · subst h1
    have hc : classSize 1 = 96 := rfl
    rw [hc] at hlast ⊢
    rw [(mask_odd_class k).1 (by omega), Nat.mul_div_cancel _ (by decide)]
    simp
  by_cases h2 : i = 2
  · subst h2
    have hc : classSize 2 = 192 := rfl
    rw [hc] at hlast ⊢
    rw [(mask_odd_class k).2 (by omega), Nat.mul_div_cancel _ (by decide)]
    simp
  · obtain ⟨j, -, hj⟩ := classSize_pow hi h1 h2
    rw [hj, Nat.and_two_pow_sub_one_eq_mod, Nat.mul_mod_left]
    simp [h1, h2]

/-- **When freeing an object passes.** In every state of a run, `slub_mfree` of a live object of at
    most a page passes all its assertions exactly if the object is `MaskAligned`. -/
theorem slub_mfree_passes_iff {mem : Nat → Nat} {st : SlubRun}
    (run : Relation.ReflTransGen SlubStep ⟨initSlub mem, []⟩ st) {x : LivePtr} (hx : x ∈ st.live)
    (hsz : x.size ≤ 0x1000) :
    (∃ s', kmfree st.slub x.ptr = .ok s') ↔ MaskAligned x := by
  obtain ⟨hp, free, hl⟩ := slub_run_inv run
  obtain ⟨i, hi, hslab, -, hslot⟩ := hl.small x hx hsz
  have hpos : 0 < x.size := by
    rw [Nat.pos_iff_ne_zero]
    intro h0
    rw [h0] at hslab
    cases hslab
  rw [kmfree_small hp hi hslot, ← mask_iff hp hi hslot hpos hsz hslab]
  constructor
  · rintro ⟨s', hok⟩
    exact (assert_bind_eq_ok.1 hok).1
  · intro hmask
    exact ⟨_, assert_bind_eq_ok.2 ⟨hmask, rfl⟩⟩

/-- The first object of a page of 96-byte objects can be freed. -/
theorem slub_mfree_passes_iff_first : ∃ st,
    Relation.ReflTransGen SlubStep ⟨initSlub fun _ => 0, []⟩ st ∧
    ⟨0xffff820000300000, 80⟩ ∈ st.live ∧ ∃ s', kmfree st.slub 0xffff820000300000 = .ok s' := by
  have hrun : ∃ st, Relation.ReflTransGen SlubStep ⟨initSlub fun _ => 0, []⟩ st ∧
      ⟨0xffff820000300000, 80⟩ ∈ st.live :=
    ⟨_, .tail .refl ⟨.malloc 80 0xffff820000300000, ⟨by decide, .inr (by decide)⟩, rfl⟩,
      List.mem_cons_self⟩
  obtain ⟨st, run, hx⟩ := hrun
  exact ⟨st, run, hx, (slub_mfree_passes_iff run hx (by decide)).2 (by unfold MaskAligned; decide)⟩

/-- The second object of the page fails the check. -/
theorem slub_mfree_asserts : ∃ st,
    Relation.ReflTransGen SlubStep ⟨initSlub fun _ => 0, []⟩ st ∧
    ⟨0xffff820000300060, 80⟩ ∈ st.live ∧
    kmfree st.slub 0xffff820000300060 = .error (.assertion "((ulong)p&(s->size-1))==0") := by
  have hrun : ∃ st, Relation.ReflTransGen SlubStep ⟨initSlub fun _ => 0, []⟩ st ∧
      ⟨0xffff820000300060, 80⟩ ∈ st.live :=
    ⟨_, .tail (.tail .refl
      ⟨.malloc 80 0xffff820000300000, ⟨by decide, .inr (by decide)⟩, rfl⟩)
      ⟨.malloc 80 0, ⟨by decide, .inl rfl⟩, rfl⟩, List.mem_cons_self⟩
  obtain ⟨st, run, hx⟩ := hrun
  obtain ⟨hp, free, hl⟩ := slub_run_inv run
  obtain ⟨i, hi, hslab, -, hslot⟩ := hl.small _ hx (by decide)
  have hone : kmallocSlab 80 = .cache 1 := by decide
  obtain rfl : i = 1 := Slab.cache.inj (hslab.symm.trans hone)
  refine ⟨st, run, hx, ?_⟩
  rw [kmfree_small hp hi hslot, assert_neg (by decide)]
  rfl

/-! ## Large blocks -/

/-- `slub_mfree` returns exactly the pages of the block to the page heap. -/
def ReturnsBlock (s : Slub) (x : LivePtr) : Prop :=
  ∃ s', kmfree s x.ptr = .ok s' ∧
    s'.calls = .free x.ptr ((x.size + 0xfff) / 0x1000 * 0x1000) :: s.calls

/-- **When a large block is returned whole.** In every state of a run, `slub_mfree` of a live large
    block passes the pointer and the size rounded up to the page heap exactly if the page behind the
    block is not marked `LARGE_NEXT`. -/
theorem slub_mfree_large_iff {mem : Nat → Nat} {st : SlubRun}
    (run : Relation.ReflTransGen SlubStep ⟨initSlub mem, []⟩ st) {x : LivePtr} (hx : x ∈ st.live)
    (hsz : 0x1000 < x.size) :
    ReturnsBlock st.slub x ↔
      st.slub.mark (pageOf (x.ptr + (x.size + 0xfff) / 0x1000 * 0x1000)) ≠ largeNext := by
  obtain ⟨hp, free, hl⟩ := slub_run_inv run
  obtain ⟨hmem, hmark⟩ := hp.large x hx hsz
  have hblock := hp.shape _ hmem
  have hlow := hblock.low
  have hhigh := hblock.high
  have hend : physVirtEnd + 1 < 2 ^ 64 := by decide
  simp only at hlow hhigh
  have hheap := heapSize_of_large hsz
  have hnext := hmark.2
  rw [hheap] at hhigh hnext
  -- the block has `m` pages
  set m := (x.size + 0xfff) / 0x1000 with hm
  have hpage : pageOf (x.ptr + m * 0x1000) = pageOf x.ptr + m := by unfold pageOf; omega
  rw [ReturnsBlock, kmfree_large hp hx hsz, hpage]
  constructor
  · rintro ⟨s', hok, hcalls⟩
    obtain ⟨r, hscan, hok⟩ := bind_eq_ok.1 hok
    obtain ⟨l, hpos, hfuel, hr, -, hstop⟩ := scanLarge_ok hscan
    rw [← Except.ok.inj hok] at hcalls
    have hrm : r = m * 0x1000 := by
      have := (List.cons.inj hcalls).1
      simpa using this
    have hlm : l = m := by omega
    rwa [hlm] at hstop
  · intro hstop
    have hscan := @scanLarge_eq st.slub (2 ^ 52) (pageOf x.ptr) 0 m
      (by omega) (by omega) (by omega) (fun k h0 hk => hnext k h0 (by simp only; omega))
      hstop
    rw [hscan, ok_bind, Nat.zero_add]
    exact ⟨_, rfl, rfl⟩

/-- The first large block of a run is returned whole. -/
theorem slub_mfree_large_iff_first : ∃ st,
    Relation.ReflTransGen SlubStep ⟨initSlub fun _ => 0, []⟩ st ∧
    ⟨0xffff820000300000, 0x3000⟩ ∈ st.live ∧
    ReturnsBlock st.slub ⟨0xffff820000300000, 0x3000⟩ := by
  have hrun : ∃ st, Relation.ReflTransGen SlubStep ⟨initSlub fun _ => 0, []⟩ st ∧
      ⟨0xffff820000300000, 0x3000⟩ ∈ st.live ∧
      st.slub.mark (pageOf 0xffff820000303000) ≠ largeNext :=
    ⟨_, .tail .refl ⟨.malloc 0x3000 0xffff820000300000, ⟨by decide, .inr (by decide)⟩, rfl⟩,
      List.mem_cons_self, by decide⟩
  obtain ⟨st, run, hx, hmark⟩ := hrun
  exact ⟨st, run, hx, (slub_mfree_large_iff run hx (by decide)).2 hmark⟩

/-- A block of three pages is freed and a block of two pages takes its place: the mark of the third
    page is still there, and freeing the new block returns three pages. -/
theorem slub_mfree_returns_more : ∃ st,
    Relation.ReflTransGen SlubStep ⟨initSlub fun _ => 0, []⟩ st ∧
    ⟨0xffff820000300000, 0x2000⟩ ∈ st.live ∧
    ∃ s', kmfree st.slub 0xffff820000300000 = .ok s' ∧
      s'.calls = .free 0xffff820000300000 0x3000 :: st.slub.calls :=
  ⟨_, .tail (.tail (.tail .refl
    ⟨.malloc 0x3000 0xffff820000300000, ⟨by decide, .inr (by decide)⟩, rfl⟩)
    ⟨.mfree ⟨0xffff820000300000, 0x3000⟩, List.mem_cons_self, rfl⟩)
    ⟨.malloc 0x2000 0xffff820000300000, ⟨by decide, .inr (by decide)⟩, rfl⟩,
    List.mem_cons_self, _, rfl, rfl⟩

end Yaos
