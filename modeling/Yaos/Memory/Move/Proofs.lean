import Yaos.Memory.Move

set_option autoImplicit false

/-! # `memmove` copies

The state after some instructions is `copied m d s S`, with `m` the memory before the call, for a set `S`
of offsets. Upwards `S` is an interval from 0, downwards one that ends at the length. -/

namespace Yaos

open ByteMemory Set

variable {m : Mem 64} {d s : BitVec 64} {S : Set Nat} {a n r : Nat}

theorem ofNat_le_ofNat {w x y : Nat} (hx : x < 2 ^ w) (hy : y < 2 ^ w) :
    BitVec.ofNat w x ≤ BitVec.ofNat w y ↔ x ≤ y := by
  rw [BitVec.le_def, BitVec.toNat_ofNat, BitVec.toNat_ofNat, Nat.mod_eq_of_lt hx, Nat.mod_eq_of_lt hy]

theorem ofNat_lt_ofNat {w x y : Nat} (hx : x < 2 ^ w) (hy : y < 2 ^ w) :
    BitVec.ofNat w x < BitVec.ofNat w y ↔ x < y := by
  rw [BitVec.lt_def, BitVec.toNat_ofNat, BitVec.toNat_ofNat, Nat.mod_eq_of_lt hx, Nat.mod_eq_of_lt hy]

theorem ofNat_eq_zero {w k : Nat} (hk : k < 2 ^ w) : BitVec.ofNat w k = 0 ↔ k = 0 := by
  constructor
  · intro hc
    have hval := congrArg BitVec.toNat hc
    rwa [BitVec.toNat_ofNat, Nat.mod_eq_of_lt hk] at hval
  · rintro rfl
    rfl

theorem ofNat_sub_ofNat {x k : Nat} (h : k ≤ x) :
    BitVec.ofNat 64 x - BitVec.ofNat 64 k = BitVec.ofNat 64 (x - k) := by
  simpa using sub_ofNat (0#64) h

theorem off_add_1 (b : BitVec 64) (a : Nat) : off b a + 1 = off b (a + 1) := add_ofNat b a 1

theorem off_add_8 (b : BitVec 64) (a : Nat) : off b a + 8 = off b (a + 8) := add_ofNat b a 8

/-- The first two words and the last two. -/
theorem copy_ends (h16 : 16 ≤ r) (hr : r < 32) (ha : a + r ≤ 2 ^ 64) (h : Intact d s S a r) :
    let m₀ := copied m d s S
    let r11 := load 8 m₀ (off s a)
    let r10 := load 8 m₀ (off s a + 8)
    let r9 := load 8 m₀ (off s a + BitVec.ofNat 64 r - 16)
    let r8 := load 8 m₀ (off s a + BitVec.ofNat 64 r - 8)
    store 8 (store 8 (store 8 (store 8 m₀ (off d a) r11) (off d a + 8) r10)
      (off d a + BitVec.ofNat 64 r - 16) r9) (off d a + BitVec.ofNat 64 r - 8) r8 =
      copied m d s (S ∪ Ico a (a + r)) := by
  have hlast16 : ∀ b : BitVec 64, off b a + BitVec.ofNat 64 r - 16 = off b (a + r - 16) := by
    intro b
    rw [add_ofNat]
    exact sub_ofNat b (show 16 ≤ a + r by omega)
  have hlast8 : ∀ b : BitVec 64, off b a + BitVec.ofNat 64 r - 8 = off b (a + r - 8) := by
    intro b
    rw [add_ofNat]
    exact sub_ofNat b (show 8 ≤ a + r by omega)
  simp only [off_add_8, hlast16, hlast8]
  apply copy_four m (by decide)
  · simp only [List.forall_mem_cons, List.not_mem_nil, false_implies, implies_true, and_true]
    exact ⟨⟨by omega, h.mono (Nat.le_refl a) (by omega)⟩, ⟨by omega, h.mono (by omega) (by omega)⟩,
      ⟨by omega, h.mono (by omega) (by omega)⟩, by omega, h.mono (by omega) (by omega)⟩
  · ext o
    simp only [mem_union, mem_Ico]
    omega

theorem Memmove.tail_eq (hr : r < 32) (ha : a + r ≤ 2 ^ 64) (h : Intact d s S a r) :
    Memmove.tail (copied m d s S) (off d a) (off s a) (BitVec.ofNat 64 r) =
      copied m d s (S ∪ Ico a (a + r)) := by
  have hle : ∀ y : Nat, y < 2 ^ 64 → (BitVec.ofNat 64 y ≤ BitVec.ofNat 64 r ↔ y ≤ r) := fun y hy =>
    ofNat_le_ofNat hy (by omega)
  have hend : ∀ (b : BitVec 64) (y : Nat), y ≤ a + r →
      off b a + BitVec.ofNat 64 r - BitVec.ofNat 64 y = off b (a + r - y) := by
    intro b y hy
    rw [add_ofNat, sub_ofNat b hy]
  have hle16 : 16 ≤ BitVec.ofNat 64 r ↔ 16 ≤ r := hle 16 (by decide)
  have hle8 : 8 ≤ BitVec.ofNat 64 r ↔ 8 ≤ r := hle 8 (by decide)
  have hle4 : 4 ≤ BitVec.ofNat 64 r ↔ 4 ≤ r := hle 4 (by decide)
  have hle2 : 2 ≤ BitVec.ofNat 64 r ↔ 2 ≤ r := hle 2 (by decide)
  have hle1 : 1 ≤ BitVec.ofNat 64 r ↔ 1 ≤ r := hle 1 (by decide)
  unfold Memmove.tail
  by_cases h16 : 16 ≤ r
  · rw [if_pos (hle16.2 h16)]
    exact copy_ends h16 hr ha h
  rw [if_neg fun hc => h16 (hle16.1 hc)]
  by_cases h8 : 8 ≤ r
  · rw [if_pos (hle8.2 h8)]
    have htwo := copy_two (k := 8) m (by decide) h8 (by omega) ha h
    rwa [← hend d 8 (by omega), ← hend s 8 (by omega)] at htwo
  rw [if_neg fun hc => h8 (hle8.1 hc)]
  by_cases h4 : 4 ≤ r
  · rw [if_pos (hle4.2 h4)]
    have htwo := copy_two (k := 4) m (by decide) h4 (by omega) ha h
    rwa [← hend d 4 (by omega), ← hend s 4 (by omega)] at htwo
  rw [if_neg fun hc => h4 (hle4.1 hc)]
  by_cases h2 : 2 ≤ r
  · rw [if_pos (hle2.2 h2)]
    have htwo := copy_two (k := 2) m (by decide) h2 (by omega) ha h
    rwa [← hend d 2 (by omega), ← hend s 2 (by omega)] at htwo
  rw [if_neg fun hc => h2 (hle2.1 hc)]
  by_cases h1 : 1 ≤ r
  · rw [if_pos (hle1.2 h1)]
    obtain rfl : r = 1 := by omega
    exact copy_step m (by decide) ha h
  · rw [if_neg fun hc => h1 (hle1.1 hc)]
    obtain rfl : r = 0 := by omega
    simp

/-! ## Upwards -/

theorem repMovsb_eq (h : Forward d s n) (hn : n ≤ 2 ^ 64) (k : Nat) (ha : a + k ≤ n) :
    repMovsb k (copied m d s (Iio a)) (off d a) (off s a) = copied m d s (Iio (a + k)) := by
  induction k generalizing a with
  | zero => rfl
  | succ k ih =>
      rw [repMovsb, h.copy m (by decide) (by omega) hn, off_add_1, off_add_1, ih (by omega)]
      congr 2
      omega

theorem repMovsq_eq (h : Forward d s n) (hn : n ≤ 2 ^ 64) (k : Nat) (ha : a + 8 * k ≤ n) :
    repMovsq k (copied m d s (Iio a)) (off d a) (off s a) = copied m d s (Iio (a + 8 * k)) := by
  induction k generalizing a with
  | zero => rfl
  | succ k ih =>
      rw [repMovsq, h.copy m (by decide) (by omega) hn, off_add_8, off_add_8, ih (by omega)]
      congr 2
      omega

/-- 32 bytes by way of registers. -/
theorem copy_block (ha : a + 32 ≤ 2 ^ 64) (h : Intact d s S a 32) :
    let m₀ := copied m d s S
    let r11 := load 8 m₀ (off s a)
    let r10 := load 8 m₀ (off s a + 8)
    let r9 := load 8 m₀ (off s a + 16)
    let r8 := load 8 m₀ (off s a + 24)
    store 8 (store 8 (store 8 (store 8 m₀ (off d a) r11) (off d a + 8) r10) (off d a + 16) r9)
      (off d a + 24) r8 = copied m d s (S ∪ Ico a (a + 32)) := by
  have h16 : ∀ b : BitVec 64, off b a + 16 = off b (a + 16) := fun b => add_ofNat b a 16
  have h24 : ∀ b : BitVec 64, off b a + 24 = off b (a + 24) := fun b => add_ofNat b a 24
  simp only [off_add_8, h16, h24]
  apply copy_four m (by decide)
  · simp only [List.forall_mem_cons, List.not_mem_nil, false_implies, implies_true, and_true]
    exact ⟨⟨by omega, h.mono (Nat.le_refl a) (by omega)⟩, ⟨by omega, h.mono (by omega) (by omega)⟩,
      ⟨by omega, h.mono (by omega) (by omega)⟩, by omega, h.mono (by omega) (by omega)⟩
  · ext o
    simp only [mem_union, mem_Ico]
    omega

/-- The loop copies blocks of 32 bytes as long as there are some, and leaves `rdx` 32 below the rest. -/
theorem Memmove.loop5_eq (h : Forward d s n) (hn : n < 2 ^ 64) (ha : a + 32 ≤ n) :
    ∃ b, b ≤ n ∧ n < b + 32 ∧
      Memmove.loop5 (copied m d s (Iio a)) (off d a) (off s a) (BitVec.ofNat 64 (n - a - 32)) =
        (copied m d s (Iio b), off d b, off s b, BitVec.ofNat 64 (n - b) - 0x20) := by
  induction hk : (n - a) / 32 generalizing a with
  | zero => omega
  | succ k ih =>
      have hblock := copy_block (m := m) (by omega) (h.intact_Iio ha)
      rw [copied_Iio] at hblock
      have hnext : ∀ b : BitVec 64, off b a + 32 = off b (a + 32) := fun b => add_ofNat b a 32
      have hcond : 0x20 ≤ BitVec.ofNat 64 (n - a - 32) ↔ 32 ≤ n - a - 32 :=
        ofNat_le_ofNat (by decide) (by omega)
      rw [Memmove.loop5]
      dsimp only at hblock ⊢
      rw [hblock, hnext, hnext]
      by_cases hmore : 32 ≤ n - a - 32
      · obtain ⟨b, hb, hrest, heq⟩ := ih (a := a + 32) (by omega) (by omega)
        have hsub : BitVec.ofNat 64 (n - a - 32) - 0x20 = BitVec.ofNat 64 (n - (a + 32) - 32) := by
          rw [Nat.sub_add_eq n a 32]
          exact ofNat_sub_ofNat hmore
        rw [if_pos (hcond.2 hmore), hsub]
        exact ⟨b, hb, hrest, heq⟩
      · rw [if_neg fun hc => hmore (hcond.1 hc), Nat.sub_sub]
        exact ⟨a + 32, ha, by omega, rfl⟩

/-! ## Downwards -/

/-- `copy_block` from the end of the block. -/
theorem copy_block_down (h32 : 32 ≤ a) (ha : a ≤ 2 ^ 64) (h : Intact d s S (a - 32) 32) :
    let m₀ := copied m d s S
    let r11 := load 8 m₀ (off s a - 8)
    let r10 := load 8 m₀ (off s a - 16)
    let r9 := load 8 m₀ (off s a - 24)
    let r8 := load 8 m₀ (off s a - 32)
    store 8 (store 8 (store 8 (store 8 m₀ (off d a - 8) r11) (off d a - 16) r10) (off d a - 24) r9)
      (off d a - 32) r8 = copied m d s (S ∪ Ico (a - 32) a) := by
  have hsub8 : ∀ b : BitVec 64, off b a - 8 = off b (a - 8) := fun b => sub_ofNat b (k := 8) (by omega)
  have hsub16 : ∀ b : BitVec 64, off b a - 16 = off b (a - 16) := fun b =>
    sub_ofNat b (k := 16) (by omega)
  have hsub24 : ∀ b : BitVec 64, off b a - 24 = off b (a - 24) := fun b =>
    sub_ofNat b (k := 24) (by omega)
  have hsub32 : ∀ b : BitVec 64, off b a - 32 = off b (a - 32) := fun b => sub_ofNat b (k := 32) h32
  simp only [hsub8, hsub16, hsub24, hsub32]
  apply copy_four m (by decide)
  · simp only [List.forall_mem_cons, List.not_mem_nil, false_implies, implies_true, and_true]
    exact ⟨⟨by omega, h.mono (by omega) (by omega)⟩, ⟨by omega, h.mono (by omega) (by omega)⟩,
      ⟨by omega, h.mono (by omega) (by omega)⟩, by omega, h.mono (by omega) (by omega)⟩
  · ext o
    simp only [mem_union, mem_Ico]
    omega

theorem Memmove.loop8_eq (h : Backward d s n) (hn : n < 2 ^ 64) (h32 : 32 ≤ a) (ha : a ≤ n) :
    ∃ b, b < 32 ∧ b ≤ n ∧
      Memmove.loop8 (copied m d s (Ico a n)) (off d a) (off s a) (BitVec.ofNat 64 (a - 32)) =
        (copied m d s (Ico b n), off d b, off s b, BitVec.ofNat 64 b - 0x20) := by
  induction hk : a / 32 generalizing a with
  | zero => omega
  | succ k ih =>
      have hcancel : a - 32 + 32 = a := Nat.sub_add_cancel h32
      have hintact : Intact d s (Ico a n) (a - 32) 32 := by
        have hintact := h.intact_Ico (a := a - 32) (k := 32)
        rwa [hcancel] at hintact
      have hblock := copy_block_down (m := m) h32 (by omega) hintact
      have hset := copied_Ico m d s (a := a - 32) (k := 32) (n := n) (by omega)
      rw [hcancel] at hset
      rw [hset] at hblock
      have hnext : ∀ b : BitVec 64, off b a - 32 = off b (a - 32) := fun b =>
        sub_ofNat b (k := 32) h32
      have hcond : 0x20 ≤ BitVec.ofNat 64 (a - 32) ↔ 32 ≤ a - 32 :=
        ofNat_le_ofNat (by decide) (by omega)
      rw [Memmove.loop8]
      dsimp only at hblock ⊢
      rw [hblock, hnext, hnext]
      by_cases hmore : 32 ≤ a - 32
      · obtain ⟨b, hb, hbn, heq⟩ := ih (a := a - 32) hmore (by omega) (by omega)
        have hsub : BitVec.ofNat 64 (a - 32) - 0x20 = BitVec.ofNat 64 (a - 32 - 32) :=
          ofNat_sub_ofNat hmore
        rw [if_pos (hcond.2 hmore), hsub]
        exact ⟨b, hb, hbn, heq⟩
      · rw [if_neg fun hc => hmore (hcond.1 hc)]
        exact ⟨a - 32, by omega, by omega, rfl⟩

theorem repMovsqDown_eq (h : Backward d s n) (hn : n ≤ 2 ^ 64) (k : Nat) (hk : 8 * k ≤ a) (ha : a ≤ n) :
    repMovsqDown k (copied m d s (Ico a n)) (off d a - 8) (off s a - 8) =
      copied m d s (Ico (a - 8 * k) n) := by
  induction k generalizing a with
  | zero => rfl
  | succ k ih =>
      have hcancel : a - 8 + 8 = a := Nat.sub_add_cancel (by omega)
      have hnext : ∀ b : BitVec 64, off b a - 8 = off b (a - 8) := fun b =>
        sub_ofNat b (k := 8) (by omega)
      have hcopy := h.copy (a := a - 8) (k := 8) m (by decide) (by omega) hn
      rw [hcancel] at hcopy
      rw [hnext, hnext, repMovsqDown, hcopy, ih (by omega) (by omega)]
      congr 2
      omega

/-! ## The branches -/

theorem off_zero (b : BitVec 64) : off b 0 = b := BitVec.add_zero b

theorem copied_Iio_zero : copied m d s (Iio 0) = m := by
  have hempty : Iio 0 = (∅ : Set Nat) := by
    ext o
    simp
  rw [hempty, copied_empty]

/-- The loop upwards and then `t` for the rest. -/
theorem Memmove.loop5_then (h : Forward d s n) (hn : n < 2 ^ 64) (h32 : 32 ≤ n)
    {t : Mem 64 → BitVec 64 → BitVec 64 → BitVec 64 → Mem 64}
    (ht : ∀ a r, r < 32 → a + r ≤ n → Intact d s (Iio a) a r →
      t (copied m d s (Iio a)) (off d a) (off s a) (BitVec.ofNat 64 r) =
        copied m d s (Iio a ∪ Ico a (a + r))) :
    let (m', rdi, rsi, rdx) := Memmove.loop5 m d s (BitVec.ofNat 64 n - 0x20)
    t m' rdi rsi (rdx + 0x20) = copied m d s (Iio n) := by
  obtain ⟨b, hb, hrest, hloop⟩ := Memmove.loop5_eq (m := m) h hn (a := 0) (by omega)
  have hsub : BitVec.ofNat 64 n - 0x20 = BitVec.ofNat 64 (n - 0 - 32) := ofNat_sub_ofNat h32
  have hend : b + (n - b) = n := by omega
  rw [copied_Iio_zero, off_zero, off_zero] at hloop
  rw [hsub, hloop]
  dsimp only
  rw [sub_add_cancel, ht b (n - b) (by omega) (by omega) (h.intact_Iio (by omega)), copied_Iio, hend]

/-- The loop downwards and then `t` for the rest. -/
theorem Memmove.loop8_then (h : Backward d s n) (hn : n < 2 ^ 64) (h32 : 32 ≤ n)
    {t : Mem 64 → BitVec 64 → BitVec 64 → BitVec 64 → Mem 64}
    (ht : ∀ r, r < 32 → r ≤ n → Intact d s (Ico r n) 0 r →
      t (copied m d s (Ico r n)) d s (BitVec.ofNat 64 r) = copied m d s (Ico r n ∪ Ico 0 (0 + r))) :
    let (m', rdi, rsi, rdx) := Memmove.loop8 m (d + BitVec.ofNat 64 n) (s + BitVec.ofNat 64 n)
      (BitVec.ofNat 64 n - 0x20)
    ∃ r < 32, rdx + 0x20 = BitVec.ofNat 64 r ∧
      t m' (rdi - (rdx + 0x20)) (rsi - (rdx + 0x20)) (rdx + 0x20) = copied m d s (Iio n) := by
  obtain ⟨b, hb, hbn, hloop⟩ := Memmove.loop8_eq (m := m) h hn h32 (Nat.le_refl n)
  have hsub : BitVec.ofNat 64 n - 0x20 = BitVec.ofNat 64 (n - 32) := ofNat_sub_ofNat h32
  have hintact : Intact d s (Ico b n) 0 b := by
    have hintact := h.intact_Ico (a := 0) (k := b)
    rwa [Nat.zero_add] at hintact
  rw [Ico_self, copied_empty] at hloop
  rw [hsub, hloop]
  dsimp only
  rw [sub_add_cancel, add_sub_cancel_right, add_sub_cancel_right, ht b hb hbn hintact]
  refine ⟨b, hb, rfl, ?_⟩
  congr 1
  ext o
  simp only [mem_union, mem_Ico, mem_Iio]
  omega

theorem Memmove.forward_eq (h : Forward d s n) (hn : n < 2 ^ 64) (h32 : 32 ≤ n) :
    Memmove.forward m d s (BitVec.ofNat 64 n) = copied m d s (Iio n) :=
  Memmove.loop5_then h hn h32 fun _ _ hr ha hintact => Memmove.tail_eq hr (by omega) hintact

theorem Memmove.backward_eq (h : Backward d s n) (hn : n < 2 ^ 64) (h32 : 32 ≤ n) :
    Memmove.backward m d s (BitVec.ofNat 64 n) = copied m d s (Iio n) := by
  obtain ⟨_, _, _, heq⟩ := Memmove.loop8_then (m := m) h hn h32 fun r hr _ hintact => by
    have htail := Memmove.tail_eq (m := m) hr (by omega) hintact
    rwa [off_zero, off_zero] at htail
  exact heq

theorem ofNat_shiftRight (hn : n < 2 ^ 64) : (BitVec.ofNat 64 n >>> 3).toNat = n / 8 := by
  rw [BitVec.toNat_ushiftRight, BitVec.toNat_ofNat, Nat.mod_eq_of_lt hn, Nat.shiftRight_eq_div_pow]

/-- The last word is read before the first one is written, and written after all the others. -/
theorem Memmove.forwardMovsq_eq (h : Forward d s n) (hn : n < 2 ^ 64) (h8 : 8 ≤ n) :
    Memmove.forwardMovsq m d s (BitVec.ofNat 64 n) = copied m d s (Iio n) := by
  have hlast : ∀ b : BitVec 64, b + BitVec.ofNat 64 n - 8 = off b (n - 8) := fun b =>
    sub_ofNat b (k := 8) h8
  have hwords := repMovsq_eq (m := m) h (by omega) (n / 8) (a := 0) (by omega)
  rw [copied_Iio_zero, off_zero, off_zero, Nat.zero_add] at hwords
  rw [Memmove.forwardMovsq, ofNat_shiftRight hn, hlast, hlast, hwords,
    store_load m d s _ (by decide) (by omega)]
  congr 1
  ext o
  simp only [mem_union, mem_Ico, mem_Iio]
  omega

theorem Memmove.backwardMovsq_eq (h : Backward d s n) (hn : n < 2 ^ 64) (h8 : 8 ≤ n) :
    Memmove.backwardMovsq m d s (BitVec.ofNat 64 n) = copied m d s (Iio n) := by
  have hwords := repMovsqDown_eq (m := m) h (by omega) (n / 8) (a := n) (by omega) (Nat.le_refl n)
  have hfirst := store_load m d s (Ico (n - 8 * (n / 8)) n) (k := 8) (a := 0) (by decide) (by decide)
  rw [Ico_self, copied_empty] at hwords
  rw [BitVec.add_zero, BitVec.add_zero] at hfirst
  rw [Memmove.backwardMovsq, ofNat_shiftRight hn, hwords, hfirst]
  congr 1
  ext o
  simp only [mem_union, mem_Ico, mem_Iio]
  omega

theorem Memmove.beginForward_eq (erms : Bool) (h : Forward d s n) (hn : n < 2 ^ 64) (h32 : 32 ≤ n) :
    Memmove.beginForward erms m d s (BitVec.ofNat 64 n) = copied m d s (Iio n) := by
  unfold Memmove.beginForward
  split
  · have hbytes := repMovsb_eq (m := m) h (by omega) n (a := 0) (by omega)
    rw [copied_Iio_zero, off_zero, off_zero, Nat.zero_add] at hbytes
    rw [BitVec.toNat_ofNat, Nat.mod_eq_of_lt hn, hbytes]
  · split
    · exact Memmove.forward_eq h hn h32
    · split
      · exact Memmove.forwardMovsq_eq h hn (by omega)
      · exact Memmove.forward_eq h hn h32

theorem Memmove.beginBackward_eq (h : Backward d s n) (hn : n < 2 ^ 64) (h32 : 32 ≤ n) :
    Memmove.beginBackward m d s (BitVec.ofNat 64 n) = copied m d s (Iio n) := by
  unfold Memmove.beginBackward
  split
  · exact Memmove.backward_eq h hn h32
  · split
    · exact Memmove.backwardMovsq_eq h hn (by omega)
    · exact Memmove.backward_eq h hn h32

/-! ## Signed addresses -/

theorem toNat_sub_toInt (x y : BitVec 64) : ((x - y).toNat : Int) = (x.toInt - y.toInt) % 2 ^ 64 := by
  have hx := x.isLt
  have hy := y.isLt
  rw [BitVec.toNat_sub, BitVec.toInt_eq_toNat_cond, BitVec.toInt_eq_toNat_cond]
  split <;> split <;> omega

theorem forward_of_le (hle : d.toInt ≤ s.toInt) (hend : s.toInt + n < 2 ^ 63) : Forward d s n := by
  by_cases hsame : s = d
  · exact Or.inl hsame
  · right
    have hne : s.toInt ≠ d.toInt := fun heq => hsame (BitVec.eq_of_toInt_eq heq)
    have hsub := toNat_sub_toInt d s
    have hlow : -2 ^ 63 ≤ d.toInt := BitVec.le_toInt d
    omega

/-- The destination is behind the end of the source. -/
theorem forward_of_end_le (hle : s.toInt + n ≤ d.toInt) : Forward d s n := by
  right
  have hsub := toNat_sub_toInt d s
  have hlow : -2 ^ 63 ≤ s.toInt := BitVec.le_toInt s
  have hhigh : d.toInt < 2 ^ 63 := BitVec.toInt_lt
  omega

theorem backward_of_lt (hn : n ≤ 2 ^ 63) (hlt : s.toInt < d.toInt) (hlow : d.toInt < s.toInt + n) :
    Backward d s n := by
  right
  have hsub := toNat_sub_toInt s d
  omega

theorem toInt_add_ofNat (hs : s.toInt + n < 2 ^ 63) :
    (s + BitVec.ofNat 64 n).toInt = s.toInt + n := by
  have hlow : -2 ^ 63 ≤ s.toInt := BitVec.le_toInt s
  rw [BitVec.toInt_add, BitVec.toInt_ofNat', Int.add_bmod_bmod]
  exact Int.bmod_eq_of_le (by omega) (by omega)

/-- `memmove` copies the `n` bytes at `s` to `d`, whatever the two blocks share. The source must end below
the gap between the lower and the upper half of the address space: the end is compared as signed. -/
theorem memmove_eq_copied (erms : Bool) (m : Mem 64) (d s : BitVec 64) (n : Nat) (hn : n ≤ 2 ^ 63)
    (hs : s.toInt + n < 2 ^ 63) :
    memmove erms m d s (BitVec.ofNat 64 n) = (copied m d s (Iio n), d) := by
  have hle : d.sle s = true ↔ d.toInt ≤ s.toInt := BitVec.sle_iff_toInt_le
  have hend : d.slt (s + BitVec.ofNat 64 n) = true ↔ d.toInt < s.toInt + n := by
    rw [BitVec.slt_iff_toInt_lt, toInt_add_ofNat hs]
  have hshort : BitVec.ofNat 64 n < 0x20 ↔ n < 32 := ofNat_lt_ofNat (by omega) (by decide)
  unfold memmove
  dsimp only
  by_cases h32 : n < 32
  · have htail := Memmove.tail_eq (m := m) (d := d) (s := s) (S := Iio 0) (a := 0) h32 (by omega)
      (Or.inr fun i _ hmem => Nat.not_lt_zero _ hmem)
    rw [copied_Iio, copied_Iio_zero, off_zero, off_zero, Nat.zero_add] at htail
    rw [if_pos (hshort.2 h32), htail]
  rw [if_neg fun hc => h32 (hshort.1 hc)]
  by_cases hbelow : d.toInt ≤ s.toInt
  · rw [if_pos (hle.2 hbelow),
      Memmove.beginForward_eq erms (forward_of_le hbelow hs) (by omega) (by omega)]
  rw [if_neg fun hc => hbelow (hle.1 hc)]
  by_cases hinside : d.toInt < s.toInt + n
  · rw [if_pos (hend.2 hinside),
      Memmove.beginBackward_eq (backward_of_lt hn (by omega) hinside) (by omega) (by omega)]
  · rw [if_neg fun hc => hinside (hend.1 hc),
      Memmove.beginForward_eq erms (forward_of_end_le (by omega)) (by omega) (by omega)]

/-- 700 bytes, each the low byte of its address, move up by 100, over their own end. -/
theorem memmove_eq_copied_overlap :
    memmove false (fun a => a.setWidth 8) 0x100064 0x100000 (BitVec.ofNat 64 700) =
      (copied (fun a => a.setWidth 8) 0x100064 0x100000 (Iio 700), 0x100064) :=
  memmove_eq_copied false (fun a => a.setWidth 8) 0x100064 0x100000 700 (by decide) (by decide)

end Yaos
