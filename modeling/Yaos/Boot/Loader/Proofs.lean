import Yaos.Boot.Loader

set_option autoImplicit false

/-! # The kernel that is started is the one on the disk

The file of the kernel starts at the second sector. `readseg` is a `poke` of whole sectors of it, so each
address that is written to gets the byte of the file with the same distance to the first one. -/

namespace Yaos.Boot

open ByteMemory

/-- The bytes of the kernel from `o` on. -/
def fileBytes (disk : Bool → Nat → BitVec 8) (o n : Nat) : List (BitVec 8) :=
  (List.range n).map fun i => disk false (512 + (o + i))

variable {disk : Bool → Nat → BitVec 8}

@[simp] theorem fileBytes_length (o n : Nat) : (fileBytes disk o n).length = n := by simp [fileBytes]

theorem fileBytes_add (o n k : Nat) :
    fileBytes disk o (n + k) = fileBytes disk o n ++ fileBytes disk (o + n) k := by
  simp only [fileBytes, List.range_add, List.map_append, List.map_map]
  congr 1
  refine List.map_congr_left fun i _ => ?_
  simp only [Function.comp_apply, Nat.add_assoc]

/-! ## Sectors -/

/-- The four registers have the bits of the number of the sector, for the first drive. -/
theorem sector_eq {k : Nat} (hk : k < 2 ^ 28) :
    sector disk ((BitVec.ofNat 32 k).setWidth 8) ((BitVec.ofNat 32 k >>> 8).setWidth 8)
      ((BitVec.ofNat 32 k >>> 16).setWidth 8) ((BitVec.ofNat 32 k >>> 24 ||| 0xE0).setWidth 8) =
      (List.range 512).map fun i => disk false (512 * k + i) := by
  have hhead : ∀ q < 16, ((BitVec.ofNat 32 q ||| 0xE0).setWidth 8 &&& 0xf : BitVec 8).toNat = q ∧
      ((BitVec.ofNat 32 q ||| 0xE0).setWidth 8).getLsbD 4 = false := by decide
  have hshift : BitVec.ofNat 32 k >>> 24 = BitVec.ofNat 32 (k / 2 ^ 24) := by
    apply BitVec.eq_of_toNat_eq
    rw [BitVec.toNat_ushiftRight, BitVec.toNat_ofNat, BitVec.toNat_ofNat, Nat.shiftRight_eq_div_pow]
    omega
  obtain ⟨hvalue, hdrive⟩ := hhead (k / 2 ^ 24) (by omega)
  unfold sector
  rw [hshift, hvalue, hdrive]
  simp only [BitVec.toNat_setWidth, BitVec.toNat_ushiftRight, BitVec.toNat_ofNat,
    Nat.shiftRight_eq_div_pow]
  refine List.map_congr_left fun i _ => ?_
  congr 1
  omega

theorem readsect_eq (m : Mem 32) (dst : BitVec 32) {k : Nat} (hk : k < 2 ^ 28) (hpos : 0 < k) :
    readsect disk m dst (BitVec.ofNat 32 k) = poke m dst (fileBytes disk (512 * (k - 1)) 512) := by
  have hbytes : ((List.range 512).map fun i => disk false (512 * k + i)) =
      fileBytes disk (512 * (k - 1)) 512 := by
    refine List.map_congr_left fun i _ => ?_
    have hplace : 512 * k + i = 512 + (512 * (k - 1) + i) := by omega
    rw [hplace]
  rw [readsect, sector_eq hk, hbytes]

/-- `k` rounds of the loop. -/
theorem readsegLoop_eq (k rounds : Nat) (m : Mem 32) (pa epa : BitVec 32) (s : Nat) (hk : k < rounds)
    (hs : 0 < s) (hsectors : s + k < 2 ^ 28) (hroom : pa.toNat + 512 * k < 2 ^ 32)
    (hend : epa.toNat ≤ pa.toNat + 512 * k) (hmore : ∀ j < k, pa.toNat + 512 * j < epa.toNat) :
    readsegLoop disk rounds m pa epa (BitVec.ofNat 32 s) =
      some (poke m pa (fileBytes disk (512 * (s - 1)) (512 * k))) := by
  induction k generalizing rounds m pa s with
  | zero =>
      obtain ⟨rounds, rfl⟩ := Nat.exists_eq_succ_of_ne_zero (Nat.ne_of_gt hk)
      have hdone : ¬ pa < epa := by
        rw [BitVec.lt_def]
        omega
      rw [readsegLoop, if_neg hdone]
      simp [fileBytes]
  | succ k ih =>
      obtain ⟨rounds, rfl⟩ := Nat.exists_eq_succ_of_ne_zero (show rounds ≠ 0 by omega)
      have hlt : pa < epa := by
        have hfirst := hmore 0 (Nat.succ_pos k)
        rw [BitVec.lt_def]
        omega
      have hnext : (pa + 512).toNat = pa.toNat + 512 := by
        have h512 : (512 : BitVec 32).toNat = 512 := rfl
        rw [BitVec.toNat_add, h512]
        omega
      have hsector : BitVec.ofNat 32 s + 1 = BitVec.ofNat 32 (s + 1) := (BitVec.ofNat_add ..).symm
      have hafter : pa + 512 = off pa (fileBytes disk (512 * (s - 1)) 512).length := by
        rw [fileBytes_length]
        rfl
      have hfile : 512 * (s + 1 - 1) = 512 * (s - 1) + 512 := by omega
      rw [readsegLoop, if_pos hlt, readsect_eq m pa (by omega) hs, hsector,
        ih rounds _ (pa + 512) (s + 1) (by omega) (by omega) (by omega) (by omega) (by omega) fun j hj => by
          have hj' := hmore (j + 1) (by omega)
          omega]
      have hcount : 512 + 512 * k = 512 * (k + 1) := by omega
      rw [hafter, poke_append _ _ _ _ (by simp only [fileBytes_length]; omega), hfile, ← fileBytes_add,
        hcount]

/-- The number of sectors that are read for `count` bytes at `offset`. -/
def sectors (count offset : Nat) : Nat := (count + offset % 512 + 511) / 512

theorem toNat_ofNat_of_lt {x : Nat} (hx : x < 2 ^ 32) : (BitVec.ofNat 32 x).toNat = x := by
  rw [BitVec.toNat_ofNat, Nat.mod_eq_of_lt hx]

theorem readseg_eq {rounds : Nat} (m : Mem 32) {pa : BitVec 32} {count offset : Nat}
    (hrounds : 2 ^ 23 < rounds) (hlow : offset % 512 ≤ pa.toNat)
    (hhigh : pa.toNat + count + 511 < 2 ^ 32) (hoffset : offset < 2 ^ 32) :
    readseg disk rounds m pa (BitVec.ofNat 32 count) (BitVec.ofNat 32 offset) =
      some (poke m (BitVec.ofNat 32 (pa.toNat - offset % 512))
        (fileBytes disk (offset - offset % 512) (512 * sectors count offset))) := by
  have h512 : (512 : BitVec 32).toNat = 512 := rfl
  have hend : (pa + BitVec.ofNat 32 count).toNat = pa.toNat + count := toNat_off (by omega)
  have hstart : pa - BitVec.ofNat 32 offset % 512 = BitVec.ofNat 32 (pa.toNat - offset % 512) := by
    apply BitVec.eq_of_toNat_eq
    simp only [BitVec.toNat_sub, BitVec.toNat_umod, h512, BitVec.toNat_ofNat]
    omega
  have hsector : BitVec.ofNat 32 offset / 512 + 1 = BitVec.ofNat 32 (offset / 512 + 1) := by
    apply BitVec.eq_of_toNat_eq
    have hone : (1 : BitVec 32).toNat = 1 := rfl
    simp only [BitVec.toNat_add, BitVec.toNat_udiv, h512, hone, BitVec.toNat_ofNat]
    omega
  have hfile : 512 * (offset / 512 + 1 - 1) = offset - offset % 512 := by omega
  have hpa : (BitVec.ofNat 32 (pa.toNat - offset % 512)).toNat = pa.toNat - offset % 512 :=
    toNat_ofNat_of_lt (by omega)
  unfold readseg
  rw [hstart, hsector, ← hfile]
  refine readsegLoop_eq _ rounds m _ _ _ ?_ (by omega) ?_ ?_ ?_ fun j hj => ?_
  all_goals
    unfold sectors at *
    omega

/-! ## The header -/

/-- The kernel, as memory from 0 on. -/
def kernelFile (disk : Bool → Nat → BitVec 8) : Mem 32 := fun x => disk false (512 + x.toNat)

/-- The header at the word `n` of the kernel. -/
def fileHeader (disk : Bool → Nat → BitVec 8) (n : Nat) : MbHeader :=
  mbheader (kernelFile disk) (off 0 (4 * n))

theorem kernelFile_off {i : Nat} (hi : i < 2 ^ 32) :
    kernelFile disk (off 0 i) = disk false (512 + i) := by
  unfold kernelFile
  rw [off, zero_add, toNat_ofNat_of_lt hi]

theorem fileBytes_getElem {o n i : Nat} (hi : i < (fileBytes disk o n).length) :
    (fileBytes disk o n)[i] = disk false (512 + (o + i)) := by
  simp [fileBytes]

theorem mbheader_congr {m m' : Mem 32} {a b : BitVec 32} (h : ∀ i < 32, m (off a i) = m' (off b i)) :
    mbheader m a = mbheader m' b := by
  have hword : ∀ k ≤ 28, load 4 m (off a k) = load 4 m' (off b k) := by
    intro k hk
    refine load_congr 4 fun i hi => ?_
    rw [add_ofNat, add_ofNat]
    exact h (k + i) (by omega)
  have hzero := hword 0 (Nat.zero_le 28)
  rw [off, off, BitVec.add_zero, BitVec.add_zero] at hzero
  rw [mbheader, mbheader, MbHeader.mk.injEq]
  exact ⟨hzero, hword 4 (by decide), hword 8 (by decide), hword 12 (by decide), hword 16 (by decide),
    hword 20 (by decide), hword 24 (by decide), hword 28 (by decide)⟩

/-- The first bytes of the kernel are in the scratch space. -/
def Scratched (disk : Bool → Nat → BitVec 8) (m : Mem 32) : Prop :=
  ∀ i < 8192, m (off scratch i) = kernelFile disk (off 0 i)

theorem Scratched.mbheader {m : Mem 32} (h : Scratched disk m) {n : Nat} (hn : n ≤ 2040) :
    mbheader m (off scratch (4 * n)) = fileHeader disk n := by
  refine mbheader_congr fun i hi => ?_
  rw [off_off, off_off]
  exact h (4 * n + i) (by omega)

theorem Scratched.isHeader {m : Mem 32} (h : Scratched disk m) {n : Nat} (hn : n ≤ 2040) :
    isHeader m scratch n = isHeader (kernelFile disk) 0 n := by
  unfold Boot.isHeader
  rw [h.mbheader hn]
  rfl

/-- The place in the kernel of the first byte that is loaded. -/
def fileStart (disk : Bool → Nat → BitVec 8) (n : Nat) : Nat :=
  4 * n - ((fileHeader disk n).headerAddr.toNat - (fileHeader disk n).loadAddr.toNat)

/-- How many bytes the header says are to be loaded. -/
def loadLength (h : MbHeader) : Nat := h.loadEndAddr.toNat - h.loadAddr.toNat

/-- How many bytes behind them are to be cleared. -/
def bssLength (h : MbHeader) : Nat := h.bssEndAddr.toNat - h.loadEndAddr.toNat

/-- The first sector that is loaded goes to this address. -/
def blockAddr (disk : Bool → Nat → BitVec 8) (n : Nat) : BitVec 32 :=
  BitVec.ofNat 32 ((fileHeader disk n).loadAddr.toNat - fileStart disk n % 512)

/-- How many bytes the loader writes: whole sectors. -/
def blockLength (disk : Bool → Nat → BitVec 8) (n : Nat) : Nat :=
  512 * sectors (loadLength (fileHeader disk n)) (fileStart disk n)

/-- The first header is at the word `n`, and its addresses make sense. Neither the kernel nor its bss
destroys the header in the scratch space, which is still used after them. -/
structure Bootable (disk : Bool → Nat → BitVec 8) (n : Nat) : Prop where
  inside : n ≤ 2040
  header : isHeader (kernelFile disk) 0 n
  first : ∀ k < n, ¬ isHeader (kernelFile disk) 0 k
  flags : (fileHeader disk n).flags &&& 0x10000 ≠ 0
  load_le : (fileHeader disk n).loadAddr ≤ (fileHeader disk n).headerAddr
  load_le_end : (fileHeader disk n).loadAddr ≤ (fileHeader disk n).loadEndAddr
  in_file : (fileHeader disk n).headerAddr.toNat - (fileHeader disk n).loadAddr.toNat ≤ 4 * n
  low : fileStart disk n % 512 ≤ (fileHeader disk n).loadAddr.toNat
  high : (fileHeader disk n).loadEndAddr.toNat + 511 < 2 ^ 32
  kept : (fileHeader disk n).headerAddr = off scratch (4 * n) ∨
    Separate (blockAddr disk n) (blockLength disk n) (off scratch (4 * n)) 32
  bss : Separate (fileHeader disk n).loadEndAddr (bssLength (fileHeader disk n))
    (off scratch (4 * n)) 32

/-- The scratch space may be overwritten with the same bytes. -/
theorem Scratched.poke {m : Mem 32} (h : Scratched disk m) {b k : Nat} (hb : b < 2 ^ 32)
    (hk : b + k ≤ 2 ^ 32) : Scratched disk (poke m (off scratch b) (fileBytes disk b k)) := by
  intro i hi
  have hplace := sub_add_toNat (off scratch i) scratch hb
  rw [off_sub scratch (show i < 2 ^ 32 by omega)] at hplace
  by_cases hin : b ≤ i ∧ i < b + k
  · rw [if_pos hin.1] at hplace
    unfold ByteMemory.poke
    rw [hplace, List.getD_eq_getElem _ _ (by rw [fileBytes_length]; omega), fileBytes_getElem,
      kernelFile_off (by omega), Nat.add_sub_cancel' hin.1]
  · rw [← h i hi]
    refine poke_frame m ?_
    rw [fileBytes_length, hplace]
    split <;> omega

namespace Bootable

variable {n : Nat}

theorem loadAddr_le (h : Bootable disk n) :
    (fileHeader disk n).loadAddr.toNat ≤ (fileHeader disk n).loadEndAddr.toNat :=
  BitVec.le_def.1 h.load_le_end

/-- The arguments of the second `readseg`. -/
theorem offset_eq (h : Bootable disk n) :
    BitVec.ofNat 32 (n * 4) - ((fileHeader disk n).headerAddr - (fileHeader disk n).loadAddr) =
      BitVec.ofNat 32 (fileStart disk n) := by
  have hinside := h.inside
  have hle := BitVec.le_def.1 h.load_le
  have hfile := h.in_file
  have hlt := (fileHeader disk n).headerAddr.isLt
  apply BitVec.eq_of_toNat_eq
  rw [BitVec.toNat_sub, BitVec.toNat_sub_of_le h.load_le, BitVec.toNat_ofNat, BitVec.toNat_ofNat]
  unfold fileStart
  omega

theorem count_eq (h : Bootable disk n) :
    (fileHeader disk n).loadEndAddr - (fileHeader disk n).loadAddr =
      BitVec.ofNat 32 (loadLength (fileHeader disk n)) := by
  apply BitVec.eq_of_toNat_eq
  have hlt := (fileHeader disk n).loadEndAddr.isLt
  rw [BitVec.toNat_sub_of_le h.load_le_end, toNat_ofNat_of_lt (by unfold loadLength; omega), loadLength]

theorem readseg (h : Bootable disk n) {rounds : Nat} (m : Mem 32) (hrounds : 2 ^ 23 < rounds) :
    readseg disk rounds m (fileHeader disk n).loadAddr
        ((fileHeader disk n).loadEndAddr - (fileHeader disk n).loadAddr)
        (BitVec.ofNat 32 (n * 4) - ((fileHeader disk n).headerAddr - (fileHeader disk n).loadAddr)) =
      some (poke m (blockAddr disk n)
        (fileBytes disk (fileStart disk n - fileStart disk n % 512) (blockLength disk n))) := by
  have hinside := h.inside
  have hhigh := h.high
  have hle := h.loadAddr_le
  rw [h.offset_eq, h.count_eq, readseg_eq m hrounds h.low (by unfold loadLength; omega)
    (by unfold fileStart; omega)]
  rfl

end Bootable

/-- The memory when the bss has been set. -/
def started (disk : Bool → Nat → BitVec 8) (n : Nat) (m : Mem 32) : Mem 32 :=
  poke (poke (poke m scratch (fileBytes disk 0 8192)) (blockAddr disk n)
      (fileBytes disk (fileStart disk n - fileStart disk n % 512) (blockLength disk n)))
    (fileHeader disk n).loadEndAddr (List.replicate (bssLength (fileHeader disk n)) 0)

end Yaos.Boot
