import Yaos.Net.Checksum.Proofs

set_option autoImplicit false

/-! # The checksum of the network card (`module/net/virtio/virtio_net.c`)

`check_sum` makes each word of two bytes, and returns the sum itself; `checksum` reads whole words, swaps
them, and returns the complement. Both bring the carries round. -/

namespace Yaos.Udp

open OnesComplement

/-- `((ushort)p[num]<<8&0xff00)|((ushort)p[num+1]&0xff)` -/
def wordOfBytes (m : Mem) (p num : Nat) : Nat :=
  ((m (p + num)).toNat <<< 8 &&& 0xff00) ||| ((m (p + num + 1)).toNat &&& 0xff)

/-- The loop of `check_sum` and the byte that is left over, when `len` bytes are left. -/
def checkSumBytes (m : Mem) (p : Nat) : Nat → Nat → Nat → Nat
  | len + 2, num, sum => checkSumBytes m p len (num + 2) (add32 sum (wordOfBytes m p num))
  | 1, num, sum => add32 sum ((m (p + num)).toNat <<< 8 &&& 0xffff)
  | 0, _, sum => sum

/-- `while (sum >> 16)`, with the halves the other way round. -/
def foldHigh : Nat → Nat → Nat
  | 0, sum => sum
  | fuel + 1, sum => if sum / 65536 ≠ 0 then foldHigh fuel (sum / 65536 + sum % 65536) else sum

/-- `check_sum`. -/
def checkSum (m : Mem) (sum buf len : Nat) : Nat :=
  if buf = 0 ∨ len = 0 then sum
  else
    let sum := checkSumBytes m buf len 0 sum
    foldHigh sum sum

section Agree

variable {m : Mem} {p len num sum init : Nat}

theorem wordOfBytes_eq : wordOfBytes m p num = ntohs (read16 m (p + num)) := by
  have hhigh := (m (p + num)).toNat_lt
  have hlow := (m (p + num + 1)).toNat_lt
  have hmask : (0xff00 : Nat) = (2 ^ 8 - 1) <<< 8 := rfl
  have hbyte : (0xff : Nat) = 2 ^ 8 - 1 := rfl
  rw [wordOfBytes, hmask, hbyte, ← Nat.shiftLeft_and_distrib, Nat.and_two_pow_sub_one_eq_mod,
    Nat.and_two_pow_sub_one_eq_mod, Nat.mod_eq_of_lt hhigh, Nat.mod_eq_of_lt hlow,
    ← Nat.shiftLeft_add_eq_or_of_lt hlow, Nat.shiftLeft_eq, ntohs_read16]

theorem lastByte_eq (b : UInt8) : b.toNat <<< 8 &&& 0xffff = ntohs b.toNat := by
  have hb := b.toNat_lt
  have hmask : (0xffff : Nat) = 2 ^ 16 - 1 := rfl
  rw [hmask, Nat.and_two_pow_sub_one_eq_mod, Nat.shiftLeft_eq, Nat.mod_eq_of_lt (by omega), ntohs_byte]

/-- The two loops add up the same words. -/
theorem checkSumBytes_eq : checkSumBytes m p len num sum = sumBytes m len (p + num) sum := by
  induction len using Nat.twoStepInduction generalizing num sum with
  | zero => rfl
  | one => rw [checkSumBytes, sumBytes, lastByte_eq]
  | more len ih _ => rw [checkSumBytes, sumBytes, wordOfBytes_eq, ih, Nat.add_assoc]

theorem foldHigh_eq {fuel : Nat} : foldHigh fuel sum = foldSum fuel sum := by
  induction fuel generalizing sum with
  | zero => rfl
  | succ fuel ih => rw [foldHigh, foldSum, ih, Nat.add_comm (sum / 65536)]

/-- `check_sum` returns the sum of the words with all carries brought round. -/
theorem checkSum_eq (hp : p ≠ 0) (hlen : len ≤ 65535) (hinit : init < 2 ^ 16) :
    checkSum m init p len = reduce 65535 (init + wordSum m p len) := by
  have hwords : wordSum m p len ≤ 65535 * ((len + 1) / 2) := wordSum_le
  rw [checkSum]
  by_cases hzero : len = 0
  · -- nothing is added, and the sum that is passed on has no carry
    subst hzero
    rw [if_pos (.inr rfl), wordSum, bytes_zero, words, List.sum_nil, Nat.add_zero, reduce_of_le (by omega)]
  · rw [if_neg (not_or.2 ⟨hp, hzero⟩), foldHigh_eq, foldSum_eq (Nat.le_refl _), checkSumBytes_eq,
      Nat.add_zero, sumBytes_eq (by omega), Nat.mod_eq_of_lt (by omega)]

theorem checkSum_complement (hp : p ≠ 0) (hlen : len ≤ 65535) (hinit : init < 2 ^ 16) :
    checkSum m init p len = (~~~ BitVec.ofNat 16 (checksum m init p len)).toNat := by
  have hwords : wordSum m p len ≤ 65535 * ((len + 1) / 2) := wordSum_le
  have hle : reduce 65535 (init + wordSum m p len) ≤ 65535 := reduce_le (by decide)
  rw [checkSum_eq hp hlen hinit, BitVec.toNat_not, BitVec.toNat_ofNat, checksum_eq (by omega)]
  omega

/-- The sum of the first part is passed on to the second, with its carries brought round already. -/
theorem checkSum_append {k : Nat} (hp : p ≠ 0) (hlen : len ≤ 65535) (hinit : init < 2 ^ 16) (hk : 2 * k ≤ len) :
    checkSum m (checkSum m init p (2 * k)) (p + 2 * k) (len - 2 * k) = checkSum m init p len := by
  have hle : reduce 65535 (init + wordSum m p (2 * k)) ≤ 65535 := reduce_le (by decide)
  have hsplit : wordSum m p (2 * k + (len - 2 * k)) =
      wordSum m p (2 * k) + wordSum m (p + 2 * k) (len - 2 * k) := wordSum_append k (len - 2 * k)
  rw [Nat.add_sub_cancel' hk] at hsplit
  rw [checkSum_eq hp (by omega) hinit, checkSum_eq (by omega) (by omega) (by omega), reduce_reduce_add,
    checkSum_eq hp hlen hinit, hsplit, Nat.add_assoc]

end Agree

/-- **The two checksums agree and compose.** `check_sum` of a buffer is the complement of `checksum`, and a
    buffer may be summed up in two parts where the first has an even length. -/
theorem checkSum_agrees (m : Mem) {buf len init : Nat} (hbuf : buf ≠ 0) (hlen : len ≤ 65535)
    (hinit : init < 2 ^ 16) :
    checkSum m init buf len = (~~~ BitVec.ofNat 16 (checksum m init buf len)).toNat ∧
      ∀ n ≤ len, n % 2 = 0 →
        checkSum m (checkSum m init buf n) (buf + n) (len - n) = checkSum m init buf len := by
  refine ⟨checkSum_complement hbuf hlen hinit, fun n hn heven => ?_⟩
  obtain ⟨k, rfl⟩ : ∃ k, n = 2 * k := ⟨n / 2, by omega⟩
  exact checkSum_append hbuf hlen hinit hn

/-- Five bytes, at an address that is odd. -/
theorem checkSum_agrees_five :
    checkSum (fun a => UInt8.ofNat (100 * a)) 0xffff 1 5 =
        (~~~ BitVec.ofNat 16 (checksum (fun a => UInt8.ofNat (100 * a)) 0xffff 1 5)).toNat ∧
      ∀ n ≤ 5, n % 2 = 0 →
        checkSum (fun a => UInt8.ofNat (100 * a)) (checkSum (fun a => UInt8.ofNat (100 * a)) 0xffff 1 n) (1 + n)
            (5 - n) = checkSum (fun a => UInt8.ofNat (100 * a)) 0xffff 1 5 :=
  checkSum_agrees _ (by decide) (by decide) (by decide)

end Yaos.Udp
