import Yaos.Memory.Move.Proofs

set_option autoImplicit false

/-! # `memcpy` (`arch/x86_64/lib/memcpy_64.S`)

The two loops of `memcpy_orig` are those of `memmove` under other names of the scratch registers. The rest of
it works with `edx`: a 32-bit result clears the upper half of `rdx`. -/

namespace Yaos

open ByteMemory Set

namespace Memcpy

/-- The low half of a register, with the upper half clear. -/
def low (r : BitVec 64) : BitVec 64 := (r.setWidth 32).setWidth 64

/-- `.Lhandle_tail` -/
def handleTail (m : Mem 64) (rdi rsi rdx : BitVec 64) : Mem 64 :=
  let edx := rdx.setWidth 32
  if 16 ≤ edx then
    let r8 := load 8 m rsi
    let r9 := load 8 m (rsi + 8)
    let r10 := load 8 m (rsi + rdx - 16)
    let r11 := load 8 m (rsi + rdx - 8)
    let m := store 8 m rdi r8
    let m := store 8 m (rdi + 8) r9
    let m := store 8 m (rdi + rdx - 16) r10
    store 8 m (rdi + rdx - 8) r11
  else if 8 ≤ edx then
    let r8 := load 8 m rsi
    let r9 := load 8 m (rsi + rdx - 8)
    let m := store 8 m rdi r8
    store 8 m (rdi + rdx - 8) r9
  else if 4 ≤ edx then
    let ecx := load 4 m rsi
    let r8d := load 4 m (rsi + rdx - 4)
    let m := store 4 m rdi ecx
    store 4 m (rdi + rdx - 4) r8d
  else if edx < 1 then m
  else
    let rdx := (edx - 1).setWidth 64
    let cl := load 1 m rsi
    if edx - 1 = 0 then store 1 m rdi cl
    else
      let r8b := load 1 m (rsi + 1)
      let r9b := load 1 m (rsi + rdx)
      let m := store 1 m (rdi + 1) r8b
      let m := store 1 m (rdi + rdx) r9b
      store 1 m rdi cl

/-- `.Lcopy_forward_loop` -/
def copyForwardLoop (m : Mem 64) (rdi rsi rdx : BitVec 64) :=
  Memmove.loop5 m rdi rsi rdx

/-- `.Lcopy_backward_loop` -/
def copyBackwardLoop (m : Mem 64) (rdi rsi rdx : BitVec 64) :=
  Memmove.loop8 m rdi rsi rdx

/-- The copy from the front, 32 bytes at a time and then the rest. -/
def copyForward (m : Mem 64) (rdi rsi rdx : BitVec 64) : Mem 64 :=
  let (m, rdi, rsi, rdx) := copyForwardLoop m rdi rsi (rdx - 0x20)
  handleTail m rdi rsi (low (rdx + 0x20))

/-- `.Lcopy_backward` -/
def copyBackward (m : Mem 64) (rdi rsi rdx : BitVec 64) : Mem 64 :=
  let (m, rdi, rsi, rdx) := copyBackwardLoop m (rdi + rdx) (rsi + rdx) (rdx - 0x20)
  let rdx := low (rdx + 0x20)
  handleTail m (rdi - rdx) (rsi - rdx) rdx

end Memcpy

/-- The lowest bytes of the addresses choose the direction. -/
def memcpyOrig (m : Mem 64) (rdi rsi rdx : BitVec 64) : Mem 64 × BitVec 64 :=
  let rax := rdi
  if rdx < 0x20 then (Memcpy.handleTail m rdi rsi rdx, rax)
  else if (rsi.setWidth 8).slt (rdi.setWidth 8) then (Memcpy.copyBackward m rdi rsi rdx, rax)
  else (Memcpy.copyForward m rdi rsi rdx, rax)

/-- `memcpy_erms`: `rep movsb` alone. -/
def memcpyErms (m : Mem 64) (rdi rsi rdx : BitVec 64) : Mem 64 × BitVec 64 :=
  let rax := rdi
  (repMovsb rdx.toNat m rdi rsi, rax)

/-- `memcpy(rdi, rsi, rdx)` on a processor with the features `REP_GOOD` and `ERMS` or without them. After
`rep movsq` the registers are 8 bytes further for each word. -/
def memcpy (repGood erms : Bool) (m : Mem 64) (rdi rsi rdx : BitVec 64) : Mem 64 × BitVec 64 :=
  if erms then memcpyErms m rdi rsi rdx
  else if repGood then
    let rax := rdi
    let rcx := rdx >>> 3
    let edx := rdx.setWidth 32 &&& 7
    let m := repMovsq rcx.toNat m rdi rsi
    (repMovsb edx.toNat m (rdi + 8 * rcx) (rsi + 8 * rcx), rax)
  else memcpyOrig m rdi rsi rdx

/-! ## The result -/

variable {m : Mem 64} {d s : BitVec 64} {S : Set Nat} {a n r : Nat}

theorem Memcpy.low_ofNat (h : r < 2 ^ 32) : Memcpy.low (BitVec.ofNat 64 r) = BitVec.ofNat 64 r := by
  apply BitVec.eq_of_toNat_eq
  simp only [Memcpy.low, BitVec.toNat_setWidth, BitVec.toNat_ofNat]
  omega

theorem setWidth_32_ofNat (r : Nat) : (BitVec.ofNat 64 r).setWidth 32 = BitVec.ofNat 32 r := by
  apply BitVec.eq_of_toNat_eq
  simp only [BitVec.toNat_setWidth, BitVec.toNat_ofNat]
  omega

theorem setWidth_64_ofNat (h : r < 2 ^ 32) : (BitVec.ofNat 32 r).setWidth 64 = BitVec.ofNat 64 r := by
  rw [← setWidth_32_ofNat]
  exact Memcpy.low_ofNat h

theorem Memcpy.handleTail_of_four (h4 : 4 ≤ r) (hr : r < 32) :
    Memcpy.handleTail m d s (BitVec.ofNat 64 r) = Memmove.tail m d s (BitVec.ofNat 64 r) := by
  have hle : ∀ y : Nat, y < 32 →
      (BitVec.ofNat 32 y ≤ BitVec.ofNat 32 r ↔ BitVec.ofNat 64 y ≤ BitVec.ofNat 64 r) := by
    intro y hy
    rw [ofNat_le_ofNat (by omega) (by omega), ofNat_le_ofNat (by omega) (by omega)]
  have h4r : (4 : BitVec 64) ≤ BitVec.ofNat 64 r := (ofNat_le_ofNat (by decide) (by omega)).2 h4
  have hle16 : (16 : BitVec 32) ≤ BitVec.ofNat 32 r ↔ (16 : BitVec 64) ≤ BitVec.ofNat 64 r :=
    hle 16 (by decide)
  have hle8 : (8 : BitVec 32) ≤ BitVec.ofNat 32 r ↔ (8 : BitVec 64) ≤ BitVec.ofNat 64 r :=
    hle 8 (by decide)
  have hle4 : (4 : BitVec 32) ≤ BitVec.ofNat 32 r ↔ (4 : BitVec 64) ≤ BitVec.ofNat 64 r :=
    hle 4 (by decide)
  simp only [Memcpy.handleTail, Memmove.tail, setWidth_32_ofNat, hle16, hle8, hle4, h4r, if_true]

/-- The first, second and last of two or three bytes are read before any is written. -/
theorem copy_three (h2 : 2 ≤ r) (hr : r ≤ 3) (ha : a + r ≤ 2 ^ 64) (h : Intact d s S a r) :
    let m₀ := copied m d s S
    let cl := load 1 m₀ (off s a)
    let r8b := load 1 m₀ (off s a + 1)
    let r9b := load 1 m₀ (off s a + BitVec.ofNat 64 (r - 1))
    store 1 (store 1 (store 1 m₀ (off d a + 1) r8b) (off d a + BitVec.ofNat 64 (r - 1)) r9b)
      (off d a) cl = copied m d s (S ∪ Ico a (a + r)) := by
  simp only [off_add_1, add_ofNat]
  rw [load_copied m (h.mono (Nat.le_refl a) (by omega)), load_copied m (h.mono (by omega) (by omega)),
    load_copied m (h.mono (by omega) (by omega)), store_load m d s _ (by decide) (by omega),
    store_load m d s _ (by decide) (by omega), store_load m d s _ (by decide) (by omega),
    union_assoc, union_assoc]
  congr 2
  ext o
  simp only [mem_union, mem_Ico]
  omega

theorem Memcpy.handleTail_eq (hr : r < 32) (ha : a + r ≤ 2 ^ 64) (h : Intact d s S a r) :
    Memcpy.handleTail (copied m d s S) (off d a) (off s a) (BitVec.ofNat 64 r) =
      copied m d s (S ∪ Ico a (a + r)) := by
  by_cases h4 : 4 ≤ r
  · rw [Memcpy.handleTail_of_four h4 hr, Memmove.tail_eq hr ha h]
  have hlt : ∀ y : Nat, r < y → y < 2 ^ 32 → ¬ BitVec.ofNat 32 y ≤ BitVec.ofNat 32 r := by
    intro y hy hlt hc
    have := (ofNat_le_ofNat hlt (by omega)).1 hc
    omega
  have hle16 : ¬ (16 : BitVec 32) ≤ BitVec.ofNat 32 r := hlt 16 (by omega) (by decide)
  have hle8 : ¬ (8 : BitVec 32) ≤ BitVec.ofNat 32 r := hlt 8 (by omega) (by decide)
  have hle4 : ¬ (4 : BitVec 32) ≤ BitVec.ofNat 32 r := hlt 4 (by omega) (by decide)
  unfold Memcpy.handleTail
  rw [setWidth_32_ofNat, if_neg hle16, if_neg hle8, if_neg hle4]
  by_cases h0 : r = 0
  · subst h0
    simp
  by_cases h1 : r = 1
  · subst h1
    exact copy_step m (by decide) ha h
  · have hpos : ¬ BitVec.ofNat 32 r < (1 : BitVec 32) := fun hc =>
      h0 (Nat.lt_one_iff.1 ((ofNat_lt_ofNat (by omega) (by decide)).1 hc))
    have hdec : BitVec.ofNat 32 r - 1 = BitVec.ofNat 32 (r - 1) := by
      simpa using sub_ofNat (0#32) (show 1 ≤ r by omega)
    have hmore : ¬ BitVec.ofNat 32 (r - 1) = 0 := fun hc => by
      have hone := (ofNat_eq_zero (by omega)).1 hc
      omega
    rw [if_neg hpos, hdec]
    dsimp only
    rw [if_neg hmore, setWidth_64_ofNat (by omega)]
    exact copy_three (by omega) (by omega) ha h

theorem Memcpy.copyForward_eq (h : Forward d s n) (hn : n < 2 ^ 64) (h32 : 32 ≤ n) :
    Memcpy.copyForward m d s (BitVec.ofNat 64 n) = copied m d s (Iio n) := by
  refine Memmove.loop5_then h hn h32
    (t := fun m rdi rsi rdx => Memcpy.handleTail m rdi rsi (Memcpy.low rdx)) fun a r hr ha hintact => ?_
  rw [Memcpy.low_ofNat (by omega), Memcpy.handleTail_eq hr (by omega) hintact]

theorem Memcpy.copyBackward_eq (h : Backward d s n) (hn : n < 2 ^ 64) (h32 : 32 ≤ n) :
    Memcpy.copyBackward m d s (BitVec.ofNat 64 n) = copied m d s (Iio n) := by
  have hloop := Memmove.loop8_then (m := m) (t := Memcpy.handleTail) h hn h32
    fun r hr _ hintact => by
      have htail := Memcpy.handleTail_eq (m := m) hr (by omega) hintact
      rwa [off_zero, off_zero] at htail
  unfold Memcpy.copyBackward Memcpy.copyBackwardLoop
  generalize Memmove.loop8 m (d + BitVec.ofNat 64 n) (s + BitVec.ofNat 64 n)
    (BitVec.ofNat 64 n - 0x20) = after at hloop ⊢
  obtain ⟨m', rdi, rsi, rdx⟩ := after
  obtain ⟨r, hr, hrdx, heq⟩ := hloop
  dsimp only at heq ⊢
  have hlow : Memcpy.low (rdx + 0x20) = rdx + 0x20 := by
    rw [hrdx]
    exact Memcpy.low_ofNat (by omega)
  rw [hlow, heq]

theorem memcpyOrig_eq (hup : Forward d s n) (hdown : Backward d s n) (hn : n < 2 ^ 64) :
    memcpyOrig m d s (BitVec.ofNat 64 n) = (copied m d s (Iio n), d) := by
  have hshort : BitVec.ofNat 64 n < 0x20 ↔ n < 32 := ofNat_lt_ofNat hn (by decide)
  unfold memcpyOrig
  dsimp only
  by_cases h32 : n < 32
  · have htail := Memcpy.handleTail_eq (m := m) (d := d) (s := s) (S := Iio 0) (a := 0) h32 (by omega)
      (Or.inr fun i _ hmem => Nat.not_lt_zero _ hmem)
    rw [copied_Iio, copied_Iio_zero, off_zero, off_zero, Nat.zero_add] at htail
    rw [if_pos (hshort.2 h32), htail]
  · rw [if_neg fun hc => h32 (hshort.1 hc)]
    split
    · rw [Memcpy.copyBackward_eq hdown hn (by omega)]
    · rw [Memcpy.copyForward_eq hup hn (by omega)]

theorem and_7_ofNat (n : Nat) : BitVec.ofNat 32 n &&& 7 = BitVec.ofNat 32 (n % 8) := by
  apply BitVec.eq_of_toNat_eq
  rw [BitVec.toNat_and, BitVec.toNat_ofNat, BitVec.toNat_ofNat]
  show n % 2 ^ 32 &&& 2 ^ 3 - 1 = n % 8 % 2 ^ 32
  rw [Nat.and_two_pow_sub_one_eq_mod]
  omega

theorem mul_shiftRight (hn : n < 2 ^ 64) :
    (8 : BitVec 64) * (BitVec.ofNat 64 n >>> 3) = BitVec.ofNat 64 (8 * (n / 8)) := by
  apply BitVec.eq_of_toNat_eq
  rw [BitVec.toNat_mul, ofNat_shiftRight hn, BitVec.toNat_ofNat]
  rfl

/-- The bytes in words, and then the rest one by one. -/
theorem repMovs_eq (h : Forward d s n) (hn : n < 2 ^ 64) :
    repMovsb (n % 8) (repMovsq (n / 8) m d s) (off d (8 * (n / 8))) (off s (8 * (n / 8))) =
      copied m d s (Iio n) := by
  have hwords := repMovsq_eq (m := m) h (by omega) (n / 8) (a := 0) (by omega)
  rw [copied_Iio_zero, off_zero, off_zero, Nat.zero_add] at hwords
  rw [hwords, repMovsb_eq h (by omega) (n % 8) (by omega), Nat.div_add_mod]

/-- `memcpy` copies the `n` bytes at `s` to `d` when the blocks are apart, each way around the address
space, whatever its first jump is replaced with. -/
theorem memcpy_eq_copied (repGood erms : Bool) (m : Mem 64) (d s : BitVec 64) (n : Nat)
    (hup : n ≤ (d - s).toNat) (hdown : n ≤ (s - d).toNat) :
    memcpy repGood erms m d s (BitVec.ofNat 64 n) = (copied m d s (Iio n), d) := by
  have hn : n < 2 ^ 64 := Nat.lt_of_le_of_lt hup (d - s).isLt
  unfold memcpy memcpyErms
  dsimp only
  split
  · have hbytes := repMovsb_eq (m := m) (Or.inr hup) (by omega) n (a := 0) (by omega)
    rw [copied_Iio_zero, off_zero, off_zero, Nat.zero_add] at hbytes
    rw [BitVec.toNat_ofNat, Nat.mod_eq_of_lt hn, hbytes]
  split
  · rw [setWidth_32_ofNat, and_7_ofNat, BitVec.toNat_ofNat, Nat.mod_eq_of_lt (by omega),
      mul_shiftRight hn, ofNat_shiftRight hn, repMovs_eq (Or.inr hup) hn]
  · exact memcpyOrig_eq (Or.inr hup) (Or.inr hdown) hn

/-- 40 bytes, each the low byte of its address, to the next but one cache line. -/
theorem memcpy_eq_copied_line :
    memcpy false false (fun a => a.setWidth 8) 0x1080 0x1000 (BitVec.ofNat 64 40) =
      (copied (fun a => a.setWidth 8) 0x1080 0x1000 (Iio 40), 0x1080) :=
  memcpy_eq_copied false false (fun a => a.setWidth 8) 0x1080 0x1000 40 (by decide) (by decide)

end Yaos
