import Mathlib.Order.Interval.Set.LinearOrder
import Yaos.Memory.Copy

set_option autoImplicit false

/-! # `memset` (`arch/x86_64/lib/memset_64.S`)

The state of a loop is the memory and `rdi`. Everywhere the result is `filled`, for any address, any length
and any processor. -/

namespace Yaos

open ByteMemory Set

/-- `rep stosq` with `rcx` = `n`, with the memory and `rdi` after it. -/
def repStosq (rax : BitVec 64) : Nat → Mem 64 × BitVec 64 → Mem 64 × BitVec 64
  | 0, st => st
  | n + 1, (m, rdi) => repStosq rax n (store 8 m rdi rax, rdi + 8)

/-- `rep stosb`. -/
def repStosb (al : BitVec 8) : Nat → Mem 64 × BitVec 64 → Mem 64 × BitVec 64
  | 0, st => st
  | n + 1, (m, rdi) => repStosb al n (store 1 m rdi al, rdi + 1)

namespace Memset

/-- `movzbl; movabs; imulq`: the byte in each of the 8 bytes of `rax`. -/
def expand (sil : BitVec 8) : BitVec 64 := 0x0101010101010101 * sil.setWidth 64

theorem toNat_sub_one {w : Nat} {x : BitVec w} (h : x ≠ 0) : (x - 1).toNat = x.toNat - 1 := by
  have hpos : 0 < x.toNat := Nat.pos_of_ne_zero fun hzero => h (BitVec.eq_of_toNat_eq hzero)
  have hx := x.isLt
  have hone : (1#w).toNat = 1 := by rw [BitVec.toNat_ofNat, Nat.mod_eq_of_lt (by omega)]
  have hsplit : 2 ^ w - 1 + x.toNat = 2 ^ w + (x.toNat - 1) := by omega
  show (x - 1#w).toNat = x.toNat - 1
  rw [BitVec.toNat_sub, hone, hsplit, Nat.add_mod_left, Nat.mod_eq_of_lt (by omega)]

/-- A loop that ends with `jnz`: the counter is decremented, and the body leaves the flags as they are. -/
def countDown {w : Nat} (body : Mem 64 × BitVec 64 → Mem 64 × BitVec 64) (c : BitVec w)
    (st : Mem 64 × BitVec 64) : Mem 64 × BitVec 64 :=
  if c - 1 ≠ 0 then countDown body (c - 1) (body st) else body st
termination_by (c - 1).toNat
decreasing_by
  rename_i h
  have hpos : (c - 1).toNat ≠ 0 := fun hzero => h (BitVec.eq_of_toNat_eq hzero)
  rw [toNat_sub_one h]
  omega

/-- `.Lloop_64` -/
def loop64 (rax rcx : BitVec 64) : Mem 64 × BitVec 64 → Mem 64 × BitVec 64 :=
  countDown (fun (m, rdi) =>
    let m := store 8 m rdi rax
    let m := store 8 m (rdi + 8) rax
    let m := store 8 m (rdi + 16) rax
    let m := store 8 m (rdi + 24) rax
    let m := store 8 m (rdi + 32) rax
    let m := store 8 m (rdi + 40) rax
    let m := store 8 m (rdi + 48) rax
    let m := store 8 m (rdi + 56) rax
    (m, rdi + 64)) rcx

/-- `.Lloop_8` -/
def loop8 (rax : BitVec 64) (ecx : BitVec 32) : Mem 64 × BitVec 64 → Mem 64 × BitVec 64 :=
  countDown (fun (m, rdi) => (store 8 m rdi rax, rdi + 8)) ecx

/-- `.Lloop_1` -/
def loop1 (al : BitVec 8) (edx : BitVec 32) : Mem 64 × BitVec 64 → Mem 64 × BitVec 64 :=
  countDown (fun (m, rdi) => (store 1 m rdi al, rdi + 1)) edx

/-- `.Lhandle_7` -/
def handle7 (rax rdx : BitVec 64) (st : Mem 64 × BitVec 64) : Mem 64 :=
  let edx := rdx.setWidth 32 &&& 7
  if edx = 0 then st.1 else (loop1 (rax.setWidth 8) edx st).1

/-- `.Lhandle_tail` -/
def handleTail (rax rdx : BitVec 64) (st : Mem 64 × BitVec 64) : Mem 64 :=
  let ecx := rdx.setWidth 32 &&& (63 &&& ~~~7)
  if ecx = 0 then handle7 rax rdx st else handle7 rax rdx (loop8 rax (ecx >>> 3) st)

/-- `.Lafter_bad_alignment` -/
def afterBadAlignment (rax rdx : BitVec 64) (st : Mem 64 × BitVec 64) : Mem 64 :=
  let rcx := rdx >>> 6
  if rcx = 0 then handleTail rax rdx st else handleTail rax rdx (loop64 rax rcx st)

/-- `.Lbad_alignment`. The rest starts at the next multiple of 8. -/
def badAlignment (rax rdx : BitVec 64) (r9d : BitVec 32) : Mem 64 × BitVec 64 → Mem 64
  | (m, rdi) =>
    if rdx ≤ 7 then handle7 rax rdx (m, rdi)
    else
      let m := store 8 m rdi rax
      let r8 := 8 - r9d.setWidth 64
      afterBadAlignment rax (rdx - r8) (m, rdi + r8)

end Memset

/-- `memset_orig`: eight bytes at a time. -/
def memsetOrig (m : Mem 64) (rdi rsi rdx : BitVec 64) : Mem 64 × BitVec 64 :=
  let r10 := rdi
  let rax := Memset.expand (rsi.setWidth 8)
  let r9d := rdi.setWidth 32 &&& 7
  if r9d ≠ 0 then (Memset.badAlignment rax rdx r9d (m, rdi), r10)
  else (Memset.afterBadAlignment rax rdx (m, rdi), r10)

/-- `memset_erms`: `rep stosb` alone. -/
def memsetErms (m : Mem 64) (rdi rsi rdx : BitVec 64) : Mem 64 × BitVec 64 :=
  let r9 := rdi
  let al := rsi.setWidth 8
  ((repStosb al rdx.toNat (m, rdi)).1, r9)

/-- `memset(rdi, rsi, rdx)` on a processor with the features `REP_GOOD` and `ERMS` or without them. -/
def memset (repGood erms : Bool) (m : Mem 64) (rdi rsi rdx : BitVec 64) : Mem 64 × BitVec 64 :=
  if erms then memsetErms m rdi rsi rdx
  else if repGood then
    let r9 := rdi
    let rcx := rdx >>> 3
    let edx := rdx.setWidth 32 &&& 7
    let rax := Memset.expand (rsi.setWidth 8)
    let st := repStosq rax rcx.toNat (m, rdi)
    let ecx := edx
    ((repStosb (rax.setWidth 8) ecx.toNat st).1, r9)
  else memsetOrig m rdi rsi rdx

/-! ## The result -/

variable {m : Mem 64} {d rax : BitVec 64} {c : BitVec 8} {S : Set Nat} {a n r : Nat}

theorem Memset.expand_byte (c : BitVec 8) {i : Nat} (hi : i < 8) :
    (Memset.expand c).extractLsb' (8 * i) 8 = c := by
  apply BitVec.eq_of_toNat_eq
  have hc := c.isLt
  have hones : ones 8 = 0x0101010101010101 := rfl
  have hvalue : (Memset.expand c).toNat = c.toNat * ones 8 := by
    unfold Memset.expand
    rw [BitVec.toNat_mul, BitVec.toNat_setWidth, hones]
    show 0x0101010101010101 * (c.toNat % 2 ^ 64) % 2 ^ 64 = _
    omega
  rw [BitVec.extractLsb'_toNat, hvalue, Nat.shiftRight_eq_div_pow, Nat.pow_mul]
  exact mul_ones_byte hc hi

theorem Memset.countDown_eq {w : Nat} (body : Mem 64 × BitVec 64 → Mem 64 × BitVec 64) {k : Nat}
    (st : Mem 64 × BitVec 64) (hpos : 0 < k) (hk : k < 2 ^ w) :
    Memset.countDown body (BitVec.ofNat w k) st = body^[k] st := by
  induction k generalizing st with
  | zero => omega
  | succ k ih =>
      have hdec : BitVec.ofNat w (k + 1) - 1 = BitVec.ofNat w k := by
        simpa using sub_ofNat (0#w) (show 1 ≤ k + 1 by omega)
      rw [Memset.countDown, hdec]
      by_cases hzero : k = 0
      · subst hzero
        simp
      · have hne : BitVec.ofNat w k ≠ 0 := fun hc => hzero ((ofNat_eq_zero (by omega)).1 hc)
        rw [if_pos hne, ih (body st) (by omega) (by omega), Function.iterate_succ_apply]

/-- A body that fills `k` bytes, again and again. -/
theorem filled_iterate {body : Mem 64 × BitVec 64 → Mem 64 × BitVec 64} {k : Nat}
    (hbody : ∀ S a, a + k ≤ 2 ^ 64 →
      body (filled m d c S, off d a) = (filled m d c (S ∪ Ico a (a + k)), off d (a + k)))
    (j : Nat) (ha : a + k * j ≤ 2 ^ 64) :
    body^[j] (filled m d c S, off d a) = (filled m d c (S ∪ Ico a (a + k * j)), off d (a + k * j)) := by
  induction j generalizing S a with
  | zero => simp
  | succ j ih =>
      rw [Nat.mul_succ] at ha ⊢
      rw [Function.iterate_succ_apply, hbody S a (by omega), ih (by omega), union_assoc]
      have hset : Ico a (a + k) ∪ Ico (a + k) (a + k + k * j) = Ico a (a + (k * j + k)) := by
        ext o
        simp only [mem_union, mem_Ico]
        omega
      rw [hset, show a + k + k * j = a + (k * j + k) by omega]

/-- A word of eight times the byte at the offset `a`. -/
theorem store_word (hrax : ∀ i < 8, rax.extractLsb' (8 * i) 8 = c) (ha : a + 8 ≤ 2 ^ 64) :
    store 8 (filled m d c S) (off d a) rax = filled m d c (S ∪ Ico a (a + 8)) :=
  store_filled m d S (by decide) ha hrax

theorem store_byte (ha : a + 1 ≤ 2 ^ 64) :
    store 1 (filled m d c S) (off d a) c = filled m d c (S ∪ Ico a (a + 1)) := by
  refine store_filled m d S (by decide) ha fun i hi => ?_
  obtain rfl : i = 0 := by omega
  simp

theorem Memset.loop8_eq (hrax : ∀ i < 8, rax.extractLsb' (8 * i) 8 = c) {k : Nat} (hpos : 0 < k)
    (hk : k < 2 ^ 32) (ha : a + 8 * k ≤ 2 ^ 64) :
    Memset.loop8 rax (BitVec.ofNat 32 k) (filled m d c S, off d a) =
      (filled m d c (S ∪ Ico a (a + 8 * k)), off d (a + 8 * k)) := by
  rw [Memset.loop8, Memset.countDown_eq _ _ hpos hk]
  refine filled_iterate (fun S a ha => ?_) k ha
  dsimp only
  rw [store_word hrax ha, off_add_8]

theorem Memset.loop1_eq {k : Nat} (hpos : 0 < k) (hk : k < 2 ^ 32) (ha : a + k ≤ 2 ^ 64) :
    Memset.loop1 c (BitVec.ofNat 32 k) (filled m d c S, off d a) =
      (filled m d c (S ∪ Ico a (a + k)), off d (a + k)) := by
  rw [Memset.loop1, Memset.countDown_eq _ _ hpos hk]
  have hone : a + k = a + 1 * k := by rw [Nat.one_mul]
  rw [hone] at ha ⊢
  refine filled_iterate (fun S a ha => ?_) k ha
  dsimp only
  rw [store_byte ha, off_add_1]

theorem Memset.loop64_eq (hrax : ∀ i < 8, rax.extractLsb' (8 * i) 8 = c) {k : Nat} (hpos : 0 < k)
    (ha : a + 64 * k ≤ 2 ^ 64) :
    Memset.loop64 rax (BitVec.ofNat 64 k) (filled m d c S, off d a) =
      (filled m d c (S ∪ Ico a (a + 64 * k)), off d (a + 64 * k)) := by
  rw [Memset.loop64, Memset.countDown_eq _ _ hpos (by omega)]
  refine filled_iterate (fun S a ha => ?_) k ha
  have hnext : ∀ y : Nat, off d a + BitVec.ofNat 64 y = off d (a + y) := fun y => add_ofNat d a y
  have h16 : off d a + 16 = off d (a + 16) := hnext 16
  have h24 : off d a + 24 = off d (a + 24) := hnext 24
  have h32 : off d a + 32 = off d (a + 32) := hnext 32
  have h40 : off d a + 40 = off d (a + 40) := hnext 40
  have h48 : off d a + 48 = off d (a + 48) := hnext 48
  have h56 : off d a + 56 = off d (a + 56) := hnext 56
  have h64 : off d a + 64 = off d (a + 64) := hnext 64
  dsimp only
  rw [off_add_8, h16, h24, h32, h40, h48, h56, h64, store_word hrax (by omega), store_word hrax (by omega),
    store_word hrax (by omega), store_word hrax (by omega), store_word hrax (by omega),
    store_word hrax (by omega), store_word hrax (by omega), store_word hrax (by omega)]
  simp only [union_assoc]
  congr 3
  ext o
  simp only [mem_union, mem_Ico]
  omega

theorem and_56_ofNat (r : Nat) :
    BitVec.ofNat 32 r &&& (63 &&& ~~~7) = BitVec.ofNat 32 (8 * (r % 64 / 8)) := by
  have hmask : (63 &&& ~~~7 : BitVec 32) = BitVec.ofNat 32 ((2 ^ 3 - 1) <<< 3) := by decide
  rw [hmask]
  apply BitVec.eq_of_getLsbD_eq
  intro i hi
  have hvalue : 8 * (r % 64 / 8) = ((r % 2 ^ 6) >>> 3) <<< 3 := by
    rw [Nat.shiftLeft_eq, Nat.shiftRight_eq_div_pow, Nat.mul_comm]
    rfl
  rw [hvalue]
  simp only [BitVec.getLsbD_and, BitVec.getLsbD_ofNat, Nat.testBit_shiftLeft, Nat.testBit_shiftRight,
    Nat.testBit_mod_two_pow, Nat.testBit_two_pow_sub_one]
  by_cases h3 : 3 ≤ i
  · have hback : 3 + (i - 3) = i := by omega
    have hrange : decide (i - 3 < 3) = decide (i < 6) := by
      apply decide_eq_decide.2
      omega
    simp [hi, h3, hback, hrange, Bool.and_comm]
  · simp [h3]

theorem setWidth_8_of_bytes (hrax : ∀ i < 8, rax.extractLsb' (8 * i) 8 = c) : rax.setWidth 8 = c := by
  rw [← hrax 0 (by decide)]
  apply BitVec.eq_of_toNat_eq
  simp [BitVec.extractLsb'_toNat]

theorem Memset.handle7_eq (hrax : ∀ i < 8, rax.extractLsb' (8 * i) 8 = c) (ha : a + r % 8 ≤ 2 ^ 64) :
    Memset.handle7 rax (BitVec.ofNat 64 r) (filled m d c S, off d a) =
      filled m d c (S ∪ Ico a (a + r % 8)) := by
  unfold Memset.handle7
  rw [setWidth_32_ofNat, and_7_ofNat, setWidth_8_of_bytes hrax]
  dsimp only
  by_cases hzero : r % 8 = 0
  · rw [if_pos ((ofNat_eq_zero (by omega)).2 hzero), hzero]
    simp
  · rw [if_neg fun hc => hzero ((ofNat_eq_zero (by omega)).1 hc),
      Memset.loop1_eq (by omega) (by omega) ha]

theorem Memset.handleTail_eq (hrax : ∀ i < 8, rax.extractLsb' (8 * i) 8 = c)
    (ha : a + r % 64 ≤ 2 ^ 64) :
    Memset.handleTail rax (BitVec.ofNat 64 r) (filled m d c S, off d a) =
      filled m d c (S ∪ Ico a (a + r % 64)) := by
  have hshift : BitVec.ofNat 32 (8 * (r % 64 / 8)) >>> 3 = BitVec.ofNat 32 (r % 64 / 8) := by
    apply BitVec.eq_of_toNat_eq
    rw [BitVec.toNat_ushiftRight, BitVec.toNat_ofNat, BitVec.toNat_ofNat, Nat.shiftRight_eq_div_pow]
    omega
  unfold Memset.handleTail
  rw [setWidth_32_ofNat, and_56_ofNat]
  dsimp only
  by_cases hzero : r % 64 / 8 = 0
  · have hsame : r % 8 = r % 64 := by omega
    rw [if_pos ((ofNat_eq_zero (by omega)).2 (by omega)), Memset.handle7_eq hrax (by omega), hsame]
  · rw [if_neg fun hc => hzero (by have := (ofNat_eq_zero (by omega)).1 hc; omega), hshift,
      Memset.loop8_eq hrax (by omega) (by omega) (by omega), Memset.handle7_eq hrax (by omega),
      union_assoc]
    congr 2
    ext o
    simp only [mem_union, mem_Ico]
    omega

theorem Memset.afterBadAlignment_eq (hrax : ∀ i < 8, rax.extractLsb' (8 * i) 8 = c)
    (hr : r < 2 ^ 64) (ha : a + r ≤ 2 ^ 64) :
    Memset.afterBadAlignment rax (BitVec.ofNat 64 r) (filled m d c S, off d a) =
      filled m d c (S ∪ Ico a (a + r)) := by
  have hshift : BitVec.ofNat 64 r >>> 6 = BitVec.ofNat 64 (r / 64) := by
    apply BitVec.eq_of_toNat_eq
    rw [BitVec.toNat_ushiftRight, BitVec.toNat_ofNat, BitVec.toNat_ofNat, Nat.shiftRight_eq_div_pow]
    omega
  unfold Memset.afterBadAlignment
  rw [hshift]
  dsimp only
  by_cases hzero : r / 64 = 0
  · have hsame : r % 64 = r := by omega
    rw [if_pos ((ofNat_eq_zero (by omega)).2 hzero), Memset.handleTail_eq hrax (by omega), hsame]
  · rw [if_neg fun hc => hzero ((ofNat_eq_zero (by omega)).1 hc),
      Memset.loop64_eq hrax (by omega) (by omega), Memset.handleTail_eq hrax (by omega), union_assoc]
    congr 2
    ext o
    simp only [mem_union, mem_Ico]
    omega

theorem repStosb_eq (k : Nat) (ha : a + k ≤ 2 ^ 64) :
    repStosb c k (filled m d c S, off d a) = (filled m d c (S ∪ Ico a (a + k)), off d (a + k)) := by
  induction k generalizing S a with
  | zero => simp [repStosb]
  | succ k ih =>
      rw [repStosb, store_byte (by omega), off_add_1, ih (by omega), union_assoc,
        Ico_union_Ico_eq_Ico (by omega) (by omega), Nat.add_right_comm a 1 k]
      rfl

theorem repStosq_eq (hrax : ∀ i < 8, rax.extractLsb' (8 * i) 8 = c) (k : Nat)
    (ha : a + 8 * k ≤ 2 ^ 64) :
    repStosq rax k (filled m d c S, off d a) =
      (filled m d c (S ∪ Ico a (a + 8 * k)), off d (a + 8 * k)) := by
  induction k generalizing S a with
  | zero => simp [repStosq]
  | succ k ih =>
      rw [repStosq, store_word hrax (by omega), off_add_8, ih (by omega), union_assoc,
        Ico_union_Ico_eq_Ico (by omega) (by omega), Nat.add_right_comm a 8 (8 * k), Nat.mul_succ]
      rfl

theorem filled_Ico_zero : filled m d c (∅ ∪ Ico 0 (0 + n)) = filled m d c (Iio n) := by
  congr 1
  ext o
  simp

theorem Memset.badAlignment_eq (hrax : ∀ i < 8, rax.extractLsb' (8 * i) 8 = c) {k : Nat}
    (hpos : 0 < k) (hk : k < 8) (hn : n < 2 ^ 64) :
    Memset.badAlignment rax (BitVec.ofNat 64 n) (BitVec.ofNat 32 k) (m, d) = filled m d c (Iio n) := by
  have hle : BitVec.ofNat 64 n ≤ 7 ↔ n ≤ 7 := ofNat_le_ofNat hn (by decide)
  have hstart : (m, d) = (filled m d c ∅, off d 0) := by rw [filled_empty, off_zero]
  unfold Memset.badAlignment
  dsimp only
  by_cases hshort : n ≤ 7
  · have hrest : n % 8 = n := by omega
    rw [if_pos (hle.2 hshort), hstart, Memset.handle7_eq hrax (by omega), hrest, filled_Ico_zero]
  · have hskip : (8 : BitVec 64) - (BitVec.ofNat 32 k).setWidth 64 = BitVec.ofNat 64 (8 - k) := by
      rw [setWidth_64_ofNat (by omega)]
      exact ofNat_sub_ofNat (show k ≤ 8 by omega)
    have hword := store_word (m := m) (d := d) (S := ∅) (a := 0) hrax (by decide)
    rw [filled_empty, off_zero] at hword
    rw [if_neg fun hc => hshort (hle.1 hc), hskip, ofNat_sub_ofNat (by omega), hword,
      Memset.afterBadAlignment_eq hrax (by omega) (by omega)]
    congr 1
    ext o
    simp only [mem_union, mem_empty_iff_false, false_or, mem_Ico, mem_Iio]
    omega

theorem memsetOrig_eq (rsi : BitVec 64) (hn : n < 2 ^ 64) :
    memsetOrig m d rsi (BitVec.ofNat 64 n) = (filled m d (rsi.setWidth 8) (Iio n), d) := by
  have hrax : ∀ i < 8, (Memset.expand (rsi.setWidth 8)).extractLsb' (8 * i) 8 = rsi.setWidth 8 :=
    fun i hi => Memset.expand_byte _ hi
  have hlow : d.setWidth 32 &&& 7 = BitVec.ofNat 32 (d.toNat % 8) := by
    rw [← and_7_ofNat, ← setWidth_32_ofNat, BitVec.ofNat_toNat, BitVec.setWidth_eq]
  unfold memsetOrig
  rw [hlow]
  dsimp only
  by_cases hzero : d.toNat % 8 = 0
  · have hstart : (m, d) = (filled m d (rsi.setWidth 8) ∅, off d 0) := by rw [filled_empty, off_zero]
    rw [if_neg (not_not.2 ((ofNat_eq_zero (by omega)).2 hzero)), hstart,
      Memset.afterBadAlignment_eq hrax hn (by omega), filled_Ico_zero]
  · rw [if_pos fun hc => hzero ((ofNat_eq_zero (by omega)).1 hc),
      Memset.badAlignment_eq hrax (by omega) (by omega) hn]

/-- `memset` writes the low byte of `rsi` to the `rdx` bytes from `rdi` on and to nothing else, whatever
the alignment and whatever its first jump is replaced with. -/
theorem memset_eq_filled (repGood erms : Bool) (m : Mem 64) (rdi rsi rdx : BitVec 64) :
    memset repGood erms m rdi rsi rdx = (filled m rdi (rsi.setWidth 8) (Iio rdx.toNat), rdi) := by
  have hn := rdx.isLt
  have hrdx : rdx = BitVec.ofNat 64 rdx.toNat := by rw [BitVec.ofNat_toNat, BitVec.setWidth_eq]
  generalize rdx.toNat = n at hn hrdx
  subst hrdx
  have hrax : ∀ i < 8, (Memset.expand (rsi.setWidth 8)).extractLsb' (8 * i) 8 = rsi.setWidth 8 :=
    fun i hi => Memset.expand_byte _ hi
  have hstart : (m, rdi) = (filled m rdi (rsi.setWidth 8) ∅, off rdi 0) := by
    rw [filled_empty, off_zero]
  unfold memset memsetErms
  dsimp only
  split
  · rw [hstart, BitVec.toNat_ofNat, Nat.mod_eq_of_lt hn, repStosb_eq n (by omega), filled_Ico_zero]
  split
  · rw [hstart, setWidth_8_of_bytes hrax, setWidth_32_ofNat, and_7_ofNat, ofNat_shiftRight hn,
      BitVec.toNat_ofNat, Nat.mod_eq_of_lt (by omega), repStosq_eq hrax (n / 8) (by omega),
      repStosb_eq (n % 8) (by omega), union_assoc, Ico_union_Ico_eq_Ico (by omega) (by omega),
      Nat.add_assoc, Nat.div_add_mod, filled_Ico_zero]
  · exact memsetOrig_eq rsi hn

end Yaos
