import Mathlib.Data.BitVec
import Mathlib.Data.List.GetD
import Mathlib.Data.Set.Basic
import Mathlib.Order.Interval.Set.Basic
import Mathlib.Tactic.Ring

set_option autoImplicit false

/-! # Byte memory with wide loads and stores

Memory is a function of `w`-bit addresses, and addresses wrap. `load` and `store` are little-endian, of any
number of bytes. A routine that copies from `s` to `d` leaves the memory `copied m d s S`, where `S` are the
offsets that it has copied so far: `store_load` extends `S`, and `load_copied` is for a load that does not
touch what was overwritten. `filled` is the counterpart for routines that write one value. -/

namespace ByteMemory

variable {w : Nat}

/-- A memory of bytes, with addresses of `w` bits that wrap around. -/
abbrev Mem (w : Nat) := BitVec w → BitVec 8

/-- The `k` bytes at `a`, the first one lowest. -/
def load : (k : Nat) → Mem w → BitVec w → BitVec (8 * k)
  | 0, _, _ => 0#0
  | k + 1, m, a => load k m (a + 1) ++ m a

/-- `k` bytes are written, the low one first. -/
def store (k : Nat) (m : Mem w) (a : BitVec w) (v : BitVec (8 * k)) : Mem w := fun x =>
  if (x - a).toNat < k then v.extractLsb' (8 * (x - a).toNat) 8 else m x

/-- The bytes at the offsets `S` from `d` are those that `m` has from `s` on. -/
noncomputable def copied (m : Mem w) (d s : BitVec w) (S : Set Nat) : Mem w := fun x =>
  open Classical in if (x - d).toNat ∈ S then m (s + (x - d)) else m x

/-- The bytes at the offsets `S` from `d` are all `c`. -/
noncomputable def filled (m : Mem w) (d : BitVec w) (c : BitVec 8) (S : Set Nat) : Mem w := fun x =>
  open Classical in if (x - d).toNat ∈ S then c else m x

/-! ## Loads and stores -/

theorem load_byte (k : Nat) (m : Mem w) (a : BitVec w) {i : Nat} (h : i < k) :
    (load k m a).extractLsb' (8 * i) 8 = m (a + BitVec.ofNat w i) := by
  induction k generalizing a i with
  | zero => simp at h
  | succ k ih =>
      cases i with
      | zero =>
          refine BitVec.eq_of_getLsbD_eq fun j hj => ?_
          simp [load, BitVec.getLsbD_append, hj]
      | succ i =>
          have hnext : a + BitVec.ofNat w (i + 1) = a + 1 + BitVec.ofNat w i := by
            rw [Nat.add_comm, BitVec.ofNat_add, BitVec.add_assoc]
            rfl
          rw [hnext, ← ih (a + 1) (Nat.lt_of_succ_lt_succ h)]
          refine BitVec.eq_of_getLsbD_eq fun j hj => ?_
          have hge : ¬ 8 * (i + 1) + j < 8 := by omega
          have hsub : 8 * (i + 1) + j - 8 = 8 * i + j := by omega
          simp [load, BitVec.getLsbD_append, hj, hge, hsub]

theorem load_congr (k : Nat) {w' : Nat} {m : Mem w} {m' : Mem w'} {a : BitVec w} {b : BitVec w'}
    (h : ∀ i < k, m (a + BitVec.ofNat w i) = m' (b + BitVec.ofNat w' i)) : load k m a = load k m' b := by
  induction k generalizing a b with
  | zero => rfl
  | succ k ih =>
      have hzero : m a = m' b := by simpa using h 0 (Nat.succ_pos k)
      have hrest : load k m (a + 1) = load k m' (b + 1) := by
        refine ih fun i hi => ?_
        have hi := h (i + 1) (Nat.succ_lt_succ hi)
        rwa [Nat.add_comm, BitVec.ofNat_add, BitVec.ofNat_add, ← BitVec.add_assoc, ← BitVec.add_assoc]
          at hi
      simp only [load, hzero, hrest]

/-- Storing at one place what another place has. -/
theorem store_load_apply (k : Nat) (m m' : Mem w) (a b x : BitVec w) :
    store k m' a (load k m b) x = if (x - a).toNat < k then m (b + (x - a)) else m' x := by
  unfold store
  split
  · next h => rw [load_byte k m b h, BitVec.ofNat_toNat, BitVec.setWidth_eq]
  · rfl

/-! ## Offsets -/

/-- `x` bytes behind `d`. -/
abbrev off (d : BitVec w) (x : Nat) : BitVec w := d + BitVec.ofNat w x

theorem add_ofNat (d : BitVec w) (a k : Nat) :
    d + BitVec.ofNat w a + BitVec.ofNat w k = d + BitVec.ofNat w (a + k) := by
  rw [BitVec.ofNat_add, add_assoc]

theorem off_off (d : BitVec w) (a k : Nat) : off (off d a) k = off d (a + k) := add_ofNat d a k

theorem sub_ofNat (d : BitVec w) {a k : Nat} (h : k ≤ a) :
    d + BitVec.ofNat w a - BitVec.ofNat w k = d + BitVec.ofNat w (a - k) := by
  rw [sub_eq_iff_eq_add, add_ofNat, Nat.sub_add_cancel h]

theorem off_sub (a : BitVec w) {i : Nat} (hi : i < 2 ^ w) : (off a i - a).toNat = i := by
  rw [add_sub_cancel_left, BitVec.toNat_ofNat, Nat.mod_eq_of_lt hi]

theorem toNat_off {a : BitVec w} {k : Nat} (h : a.toNat + k < 2 ^ w) : (off a k).toNat = a.toNat + k := by
  rw [BitVec.toNat_add, BitVec.toNat_ofNat, Nat.add_mod_mod, Nat.mod_eq_of_lt h]

theorem sub_add_toNat (x d : BitVec w) {a : Nat} (ha : a < 2 ^ w) :
    (x - (d + BitVec.ofNat w a)).toNat =
      if a ≤ (x - d).toNat then (x - d).toNat - a else 2 ^ w - a + (x - d).toNat := by
  have hlt := (x - d).isLt
  have hsub : x - (d + BitVec.ofNat w a) = x - d - BitVec.ofNat w a := by ring
  rw [hsub, BitVec.toNat_sub, BitVec.toNat_ofNat, Nat.mod_eq_of_lt ha]
  split
  · next hle =>
      have hsplit : 2 ^ w - a + (x - d).toNat = 2 ^ w + ((x - d).toNat - a) := by omega
      rw [hsplit, Nat.add_mod_left, Nat.mod_eq_of_lt (by omega)]
  · next hlt => exact Nat.mod_eq_of_lt (by omega)

/-- The offsets of `k` bytes at the offset `a`. -/
theorem sub_add_lt_iff (x d : BitVec w) {a k : Nat} (hk : 0 < k) (ha : a + k ≤ 2 ^ w) :
    (x - (d + BitVec.ofNat w a)).toNat < k ↔ (x - d).toNat ∈ Set.Ico a (a + k) := by
  rw [sub_add_toNat x d (by omega), Set.mem_Ico]
  split <;> omega

theorem add_sub_toNat (s d : BitVec w) (j : Nat) :
    (s + BitVec.ofNat w j - d).toNat = (2 ^ w - (d - s).toNat + j) % 2 ^ w := by
  have hsub : s + BitVec.ofNat w j - d = BitVec.ofNat w j - (d - s) := by ring
  rw [hsub, BitVec.toNat_sub, BitVec.toNat_ofNat, Nat.add_mod_mod]

theorem add_sub_toNat' (s d : BitVec w) (j : Nat) :
    (s + BitVec.ofNat w j - d).toNat = ((s - d).toNat + j) % 2 ^ w := by
  have hsub : s + BitVec.ofNat w j - d = s - d + BitVec.ofNat w j := by ring
  rw [hsub, BitVec.toNat_add, BitVec.toNat_ofNat, Nat.add_mod_mod]

/-! ## Copying -/

@[simp] theorem copied_empty (m : Mem w) (d s : BitVec w) : copied m d s ∅ = m := by
  funext x
  simp [copied]

theorem copied_self (m : Mem w) (d : BitVec w) (S : Set Nat) : copied m d d S = m := by
  funext x
  unfold copied
  split
  · rw [add_sub_cancel]
  · rfl

/-- `k` bytes of the original memory are written at the offset `a`. -/
theorem store_load {k a : Nat} (m : Mem w) (d s : BitVec w) (S : Set Nat) (hk : 0 < k)
    (ha : a + k ≤ 2 ^ w) :
    store k (copied m d s S) (d + BitVec.ofNat w a) (load k m (s + BitVec.ofNat w a)) =
      copied m d s (S ∪ Set.Ico a (a + k)) := by
  funext x
  have hvalue : s + BitVec.ofNat w a + (x - (d + BitVec.ofNat w a)) = s + (x - d) := by ring
  rw [store_load_apply, hvalue]
  unfold copied
  by_cases hin : (x - d).toNat ∈ Set.Ico a (a + k)
  · rw [if_pos ((sub_add_lt_iff x d hk ha).2 hin), if_pos (Set.mem_union_right S hin)]
  · rw [if_neg fun h => hin ((sub_add_lt_iff x d hk ha).1 h)]
    by_cases hS : (x - d).toNat ∈ S
    · rw [if_pos hS, if_pos (Set.mem_union_left _ hS)]
    · rw [if_neg hS, if_neg fun h => h.elim hS hin]

/-- The source bytes at the offsets `a` to `a + k` have not been overwritten. -/
def Intact (d s : BitVec w) (S : Set Nat) (a k : Nat) : Prop :=
  s = d ∨ ∀ i < k, (s + BitVec.ofNat w (a + i) - d).toNat ∉ S

theorem Intact.mono {d s : BitVec w} {S : Set Nat} {a k a' k' : Nat} (h : Intact d s S a k)
    (ha : a ≤ a') (hk : a' + k' ≤ a + k) : Intact d s S a' k' := by
  refine h.imp_right fun h i hi => ?_
  have hi := h (a' - a + i) (by omega)
  rwa [show a + (a' - a + i) = a' + i by omega] at hi

theorem load_copied {k a : Nat} (m : Mem w) {d s : BitVec w} {S : Set Nat} (h : Intact d s S a k) :
    load k (copied m d s S) (s + BitVec.ofNat w a) = load k m (s + BitVec.ofNat w a) := by
  rcases h with rfl | h
  · rw [copied_self]
  · refine load_congr k fun i hi => ?_
    unfold copied
    rw [if_neg]
    have hi := h i hi
    rwa [BitVec.ofNat_add, ← add_assoc] at hi

/-- No source byte is overwritten before it is read, when the first ones are copied first. -/
def Forward (d s : BitVec w) (n : Nat) : Prop := s = d ∨ n ≤ (d - s).toNat

/-- The same, when the last ones are copied first. -/
def Backward (d s : BitVec w) (n : Nat) : Prop := s = d ∨ n ≤ (s - d).toNat

theorem Forward.intact {d s : BitVec w} {n a k : Nat} {S : Set Nat} (h : Forward d s n)
    (hS : ∀ o ∈ S, o < a) (ha : a + k ≤ n) : Intact d s S a k := by
  refine h.imp_right fun hn i hi hmem => ?_
  have hlt := (d - s).isLt
  have ho := hS _ hmem
  rw [add_sub_toNat, Nat.mod_eq_of_lt (by omega)] at ho
  omega

theorem Backward.intact {d s : BitVec w} {n a k : Nat} {S : Set Nat} (h : Backward d s n)
    (hS : ∀ o ∈ S, a + k ≤ o ∧ o < n) : Intact d s S a k := by
  refine h.imp_right fun hn i hi hmem => ?_
  have hlt := (s - d).isLt
  obtain ⟨hge, hlow⟩ := hS _ hmem
  rw [add_sub_toNat'] at hge hlow
  by_cases hwrap : (s - d).toNat + (a + i) < 2 ^ w
  · rw [Nat.mod_eq_of_lt hwrap] at hlow
    omega
  · rw [Nat.mod_eq_sub_mod (by omega), Nat.mod_eq_of_lt (by omega)] at hge
    omega

/-- A load and a store of `k` bytes at the offset `a`. -/
theorem copy_step {k a : Nat} (m : Mem w) {d s : BitVec w} {S : Set Nat} (hk : 0 < k)
    (ha : a + k ≤ 2 ^ w) (h : Intact d s S a k) :
    store k (copied m d s S) (d + BitVec.ofNat w a)
        (load k (copied m d s S) (s + BitVec.ofNat w a)) =
      copied m d s (S ∪ Set.Ico a (a + k)) := by
  rw [load_copied m h, store_load m d s S hk ha]

/-- The first and the last `k` bytes are read before any are written. -/
theorem copy_two {k a r : Nat} (m : Mem w) {d s : BitVec w} {S : Set Nat} (hk : 0 < k) (hkr : k ≤ r)
    (hr : r ≤ 2 * k) (ha : a + r ≤ 2 ^ w) (h : Intact d s S a r) :
    store k (store k (copied m d s S) (off d a) (load k (copied m d s S) (off s a)))
        (off d (a + r - k)) (load k (copied m d s S) (off s (a + r - k))) =
      copied m d s (S ∪ Set.Ico a (a + r)) := by
  rw [load_copied m (h.mono (Nat.le_refl a) (by omega)), load_copied m (h.mono (by omega) (by omega)),
    store_load m d s S hk (by omega), store_load m d s _ hk (by omega), Set.union_assoc]
  congr 2
  ext o
  simp only [Set.mem_union, Set.mem_Ico]
  omega

/-- Four words are read before any is written. -/
theorem copy_four {k a₁ a₂ a₃ a₄ : Nat} (m : Mem w) {d s : BitVec w} {S T : Set Nat} (hk : 0 < k)
    (h : ∀ a ∈ [a₁, a₂, a₃, a₄], a + k ≤ 2 ^ w ∧ Intact d s S a k)
    (hT : Set.Ico a₁ (a₁ + k) ∪ Set.Ico a₂ (a₂ + k) ∪ Set.Ico a₃ (a₃ + k) ∪ Set.Ico a₄ (a₄ + k) = T) :
    store k (store k (store k (store k (copied m d s S)
        (off d a₁) (load k (copied m d s S) (off s a₁)))
        (off d a₂) (load k (copied m d s S) (off s a₂)))
        (off d a₃) (load k (copied m d s S) (off s a₃)))
        (off d a₄) (load k (copied m d s S) (off s a₄)) = copied m d s (S ∪ T) := by
  simp only [List.forall_mem_cons, List.not_mem_nil, false_implies, implies_true, and_true] at h
  obtain ⟨⟨h₁, i₁⟩, ⟨h₂, i₂⟩, ⟨h₃, i₃⟩, h₄, i₄⟩ := h
  rw [load_copied m i₁, load_copied m i₂, load_copied m i₃, load_copied m i₄,
    store_load m d s _ hk h₁, store_load m d s _ hk h₂, store_load m d s _ hk h₃,
    store_load m d s _ hk h₄, ← hT]
  simp only [Set.union_assoc]

/-! ## Copying upwards and downwards -/

theorem Forward.intact_Iio {d s : BitVec w} {n a k : Nat} (h : Forward d s n) (ha : a + k ≤ n) :
    Intact d s (Set.Iio a) a k := h.intact (fun _ ho => ho) ha

theorem copied_Iio (m : Mem w) (d s : BitVec w) (a k : Nat) :
    copied m d s (Set.Iio a ∪ Set.Ico a (a + k)) = copied m d s (Set.Iio (a + k)) := by
  congr 1
  ext o
  simp only [Set.mem_union, Set.mem_Iio, Set.mem_Ico]
  omega

theorem Forward.copy {d s : BitVec w} {n a k : Nat} (m : Mem w) (h : Forward d s n) (hk : 0 < k)
    (ha : a + k ≤ n) (hn : n ≤ 2 ^ w) :
    store k (copied m d s (Set.Iio a)) (off d a) (load k (copied m d s (Set.Iio a)) (off s a)) =
      copied m d s (Set.Iio (a + k)) := by
  rw [copy_step m hk (by omega) (h.intact_Iio ha), copied_Iio]

theorem Backward.intact_Ico {d s : BitVec w} {n a k : Nat} (h : Backward d s n) :
    Intact d s (Set.Ico (a + k) n) a k := h.intact fun _ ho => ho

theorem copied_Ico (m : Mem w) (d s : BitVec w) {a k n : Nat} (h : a + k ≤ n) :
    copied m d s (Set.Ico (a + k) n ∪ Set.Ico a (a + k)) = copied m d s (Set.Ico a n) := by
  congr 1
  ext o
  simp only [Set.mem_union, Set.mem_Ico]
  omega

theorem Backward.copy {d s : BitVec w} {n a k : Nat} (m : Mem w) (h : Backward d s n) (hk : 0 < k)
    (ha : a + k ≤ n) (hn : n ≤ 2 ^ w) :
    store k (copied m d s (Set.Ico (a + k) n)) (off d a)
        (load k (copied m d s (Set.Ico (a + k) n)) (off s a)) = copied m d s (Set.Ico a n) := by
  rw [copy_step m hk (by omega) h.intact_Ico, copied_Ico m d s ha]

/-! ## Filling -/

@[simp] theorem filled_empty (m : Mem w) (d : BitVec w) (c : BitVec 8) : filled m d c ∅ = m := by
  funext x
  simp [filled]

/-- The number whose lowest `k` bytes are 1. -/
def ones : Nat → Nat
  | 0 => 0
  | k + 1 => 1 + 256 * ones k

/-- A byte times `ones k` has this byte at each of the `k` places. -/
theorem mul_ones_byte {k b i : Nat} (hb : b < 256) (hi : i < k) : b * ones k / 256 ^ i % 256 = b := by
  induction k generalizing i with
  | zero => omega
  | succ k ih =>
      have hsplit : b * ones (k + 1) = b + 256 * (b * ones k) := by
        rw [ones]
        ring
      rw [hsplit]
      cases i with
      | zero => omega
      | succ i =>
          have hdiv : (b + 256 * (b * ones k)) / 256 = b * ones k := by omega
          rw [Nat.pow_succ', ← Nat.div_div_eq_div_mul, hdiv]
          exact ih (by omega)

/-- A value all of whose bytes are `c` is written at the offset `a`. -/
theorem store_filled {k a : Nat} (m : Mem w) (d : BitVec w) {c : BitVec 8} {v : BitVec (8 * k)}
    (S : Set Nat) (hk : 0 < k) (ha : a + k ≤ 2 ^ w) (hv : ∀ i < k, v.extractLsb' (8 * i) 8 = c) :
    store k (filled m d c S) (d + BitVec.ofNat w a) v = filled m d c (S ∪ Set.Ico a (a + k)) := by
  funext x
  unfold store filled
  by_cases hin : (x - d).toNat ∈ Set.Ico a (a + k)
  · have hlt := (sub_add_lt_iff x d hk ha).2 hin
    rw [if_pos hlt, hv _ hlt, if_pos (Set.mem_union_right S hin)]
  · rw [if_neg fun h => hin ((sub_add_lt_iff x d hk ha).1 h)]
    by_cases hS : (x - d).toNat ∈ S
    · rw [if_pos hS, if_pos (Set.mem_union_left _ hS)]
    · rw [if_neg hS, if_neg fun h => h.elim hS hin]

/-! ## Strings of bytes -/

theorem load_store {k : Nat} (m : Mem w) (a : BitVec w) (v : BitVec (8 * k)) (hk : k ≤ 2 ^ w) :
    load k (store k m a v) a = v := by
  apply BitVec.eq_of_getLsbD_eq
  intro j hj
  have hbyte := load_byte k (store k m a v) a (i := j / 8) (by omega)
  have hoff : (a + BitVec.ofNat w (j / 8) - a).toNat = j / 8 := off_sub a (by omega)
  have hvalue : store k m a v (a + BitVec.ofNat w (j / 8)) = v.extractLsb' (8 * (j / 8)) 8 := by
    unfold store
    rw [hoff, if_pos (by omega)]
  have hbit := congrArg (fun b : BitVec 8 => b.getLsbD (j % 8)) (hbyte.trans hvalue)
  have hlow : j % 8 < 8 := Nat.mod_lt j (by decide)
  simpa [BitVec.getLsbD_extractLsb', hlow, Nat.div_add_mod] using hbit

/-- The `n` bytes at `a`. -/
def bytes (m : Mem w) (a : BitVec w) (n : Nat) : List (BitVec 8) :=
  (List.range n).map fun i => m (off a i)

/-- The bytes `bs` are written at `a`. -/
def poke (m : Mem w) (a : BitVec w) (bs : List (BitVec 8)) : Mem w := fun x =>
  bs.getD (x - a).toNat (m x)

@[simp] theorem bytes_length (m : Mem w) (a : BitVec w) (n : Nat) : (bytes m a n).length = n := by
  simp [bytes]

theorem bytes_congr {w' : Nat} {m : Mem w} {m' : Mem w'} {a : BitVec w} {b : BitVec w'} {n : Nat}
    (h : ∀ i < n, m (off a i) = m' (off b i)) : bytes m a n = bytes m' b n := by
  refine List.map_congr_left fun i hi => h i (List.mem_range.1 hi)

theorem bytes_add (m : Mem w) (a : BitVec w) (n k : Nat) :
    bytes m a (n + k) = bytes m a n ++ bytes m (off a n) k := by
  simp only [bytes, List.range_add, List.map_append, List.map_map]
  congr 1
  refine List.map_congr_left fun i _ => ?_
  simp only [Function.comp_apply, add_ofNat]

theorem bytes_succ (m : Mem w) (a : BitVec w) (n : Nat) :
    bytes m a (n + 1) = m a :: bytes m (a + 1) n := by
  have hone : off a 1 = a + 1 := rfl
  rw [Nat.add_comm, bytes_add, hone]
  simp [bytes]

@[simp] theorem poke_nil (m : Mem w) (a : BitVec w) : poke m a [] = m := by
  funext x
  simp [poke]

theorem poke_frame (m : Mem w) {a x : BitVec w} {bs : List (BitVec 8)}
    (h : bs.length ≤ (x - a).toNat) : poke m a bs x = m x := by
  unfold poke
  rw [List.getD_eq_default _ _ h]

theorem poke_off (m : Mem w) (a : BitVec w) {bs : List (BitVec 8)} {i : Nat} (hi : i < bs.length)
    (hlen : bs.length ≤ 2 ^ w) : poke m a bs (off a i) = bs[i] := by
  unfold poke
  rw [off_sub a (by omega), List.getD_eq_getElem _ _ hi]

theorem poke_before (m : Mem w) (a : BitVec w) {bs : List (BitVec 8)} {i k : Nat} (hi : i < k)
    (hlen : k + bs.length ≤ 2 ^ w) : poke m (off a k) bs (off a i) = m (off a i) := by
  by_cases hnil : bs = []
  · rw [hnil, poke_nil]
  have hpos : 0 < bs.length := List.length_pos_iff.2 hnil
  refine poke_frame m ?_
  rw [sub_add_toNat _ a (by omega), off_sub a (by omega), if_neg (by omega)]
  omega

theorem bytes_poke (m : Mem w) (a : BitVec w) (bs : List (BitVec 8)) (hlen : bs.length ≤ 2 ^ w) :
    bytes (poke m a bs) a bs.length = bs := by
  refine List.ext_getElem (by simp) fun i _ hi => ?_
  simpa [bytes] using poke_off m a hi hlen

theorem poke_append (m : Mem w) (a : BitVec w) (bs cs : List (BitVec 8))
    (hlen : bs.length + cs.length ≤ 2 ^ w) :
    poke (poke m a bs) (off a bs.length) cs = poke m a (bs ++ cs) := by
  funext x
  have hx := (x - a).isLt
  unfold poke
  by_cases hcs : cs = []
  · simp [hcs]
  have hpos : 0 < cs.length := List.length_pos_iff.2 hcs
  rw [sub_add_toNat x a (by omega)]
  by_cases hlt : bs.length ≤ (x - a).toNat
  · rw [if_pos hlt, List.getD_append_right _ _ _ _ hlt, List.getD_eq_default _ _ hlt]
  · rw [if_neg hlt, List.getD_eq_default _ _ (by omega), List.getD_append _ _ _ _ (by omega)]

theorem bytes_getElem (m : Mem w) (a : BitVec w) {n i : Nat} (hi : i < (bytes m a n).length) :
    (bytes m a n)[i] = m (off a i) := by
  simp [bytes]

theorem bytes_inj {w' : Nat} {m : Mem w} {m' : Mem w'} {a : BitVec w} {b : BitVec w'} {n : Nat}
    (h : bytes m a n = bytes m' b n) {i : Nat} (hi : i < n) : m (off a i) = m' (off b i) := by
  have hm := bytes_getElem m a (n := n) (i := i) (by simpa using hi)
  have hm' := bytes_getElem m' b (n := n) (i := i) (by simpa using hi)
  rw [← hm, ← hm']
  simp only [h]

/-- No address is among the `k` at `a` and the `l` at `b`. -/
def Separate (a : BitVec w) (k : Nat) (b : BitVec w) (l : Nat) : Prop :=
  ∀ x, (x - a).toNat < k → l ≤ (x - b).toNat

/-- A place that is separate from what has been written is as before. -/
theorem Separate.same {m m' : Mem w} {a b : BitVec w} {k l : Nat} (h : Separate a k b l)
    (hl : l ≤ 2 ^ w) (hframe : ∀ x, k ≤ (x - a).toNat → m' x = m x) {i : Nat} (hi : i < l) :
    m' (off b i) = m (off b i) := by
  refine hframe _ (Nat.le_of_not_lt fun hlt => ?_)
  have hle := h _ hlt
  rw [off_sub b (Nat.lt_of_lt_of_le hi hl)] at hle
  exact Nat.not_lt.2 hle hi

theorem Separate.poke {a b : BitVec w} {bs : List (BitVec 8)} {l : Nat} (m : Mem w)
    (h : Separate a bs.length b l) (hl : l ≤ 2 ^ w) {i : Nat} (hi : i < l) :
    poke m a bs (off b i) = m (off b i) := by
  have hframe : ∀ x, bs.length ≤ (x - a).toNat → ByteMemory.poke m a bs x = m x :=
    fun _ hx => poke_frame m hx
  exact h.same hl hframe hi

theorem separate_of_le {a b : BitVec w} {k l : Nat} (hab : a.toNat + k ≤ b.toNat)
    (hb : b.toNat + l ≤ 2 ^ w) : Separate a k b l := by
  intro x hx
  have ha := a.isLt
  have hxlt := x.isLt
  rw [BitVec.toNat_sub] at hx ⊢
  by_cases hax : a.toNat ≤ x.toNat
  · have hsplit : 2 ^ w - a.toNat + x.toNat = 2 ^ w + (x.toNat - a.toNat) := by omega
    rw [hsplit, Nat.add_mod_left, Nat.mod_eq_of_lt (by omega)] at hx
    by_cases hxb : x.toNat < b.toNat
    · rw [Nat.mod_eq_of_lt (by omega)]
      omega
    · omega
  · rw [Nat.mod_eq_of_lt (by omega)] at hx
    omega

end ByteMemory
