import Yaos.Net.Checksum

set_option autoImplicit false

/-! # What the receiver adds up

The check field is zero while the words are added up, and is then the complement of their sum. -/

namespace Yaos.Udp

open OnesComplement

/-! ## Reading and writing -/

section Memory

variable {m : Mem} {addr a count : Nat} {v : Nat}

@[simp] theorem ntohs_read16 : ntohs (read16 m addr) = (m addr).toNat * 256 + (m (addr + 1)).toNat := by
  have hlow := (m addr).toNat_lt
  have hhigh := (m (addr + 1)).toNat_lt
  rw [ntohs, bswap16, read16]
  omega

theorem ntohs_byte (b : UInt8) : ntohs b.toNat = b.toNat * 256 := by
  have hb := b.toNat_lt
  rw [ntohs, bswap16]
  omega

theorem write16_of_ne (h : a ≠ addr) (h' : a ≠ addr + 1) : write16 m addr v a = m a := by
  rw [write16, Function.update_of_ne h', Function.update_of_ne h]

theorem write16_of_lt (h : a < addr) : write16 m addr v a = m a :=
  write16_of_ne (Nat.ne_of_lt h) (Nat.ne_of_lt (Nat.lt_succ_of_lt h))

@[simp] theorem write16_low : (write16 m addr v addr).toNat = v % 256 := by
  rw [write16, Function.update_of_ne (Nat.ne_of_lt (Nat.lt_succ_self addr)), Function.update_self]
  simp

@[simp] theorem write16_high : (write16 m addr v (addr + 1)).toNat = v / 256 % 256 := by
  rw [write16, Function.update_self]
  simp

theorem write16_write16 {x : Nat} : write16 (write16 m addr x) addr v = write16 m addr v := by
  funext a
  by_cases ha : a = addr ∨ a = addr + 1
  · rcases ha with rfl | rfl
    · simp [write16]
    · simp [write16]
  · rw [not_or] at ha
    rw [write16_of_ne ha.1 ha.2, write16_of_ne ha.1 ha.2, write16_of_ne ha.1 ha.2]

/-- What is written in the order of the network is read so. -/
theorem ntohs_htons (hv : v < 65536) : ntohs (read16 (write16 m addr (htons v)) addr) = v := by
  have hhigh : v / 256 < 256 := Nat.div_lt_of_lt_mul hv
  have hlow : v % 256 < 256 := Nat.mod_lt v (by decide)
  have hdiv := Nat.mod_add_div v 256
  rw [ntohs_read16, write16_low, write16_high, htons, bswap16, Nat.mod_eq_of_lt hhigh]
  generalize v / 256 = high at hhigh hdiv ⊢
  generalize v % 256 = low at hlow hdiv ⊢
  have hquot : (low * 256 + high) / 256 = low := by omega
  have hrest : (low * 256 + high) % 256 = high := by omega
  rw [hquot, hrest, Nat.mod_eq_of_lt hlow]
  omega

theorem ntohs_read16_of_ne (h : a ≠ addr) (hnext : a ≠ addr + 1) (hprev : a + 1 ≠ addr) :
    ntohs (read16 (write16 m addr v) a) = ntohs (read16 m a) := by
  rw [ntohs_read16, ntohs_read16, write16_of_ne h hnext, write16_of_ne hprev fun heq => h (Nat.succ_inj.1 heq)]

theorem read16_eq_zero_iff : read16 m addr = 0 ↔ ntohs (read16 m addr) = 0 := by
  rw [ntohs_read16, read16]
  omega

theorem read16_congr {m' : Mem} (h : m' addr = m addr) (h' : m' (addr + 1) = m (addr + 1)) :
    read16 m' addr = read16 m addr := by
  rw [read16, h, h', read16]

theorem memcpy_of_lt {data : List UInt8} (h : a < addr) : memcpy m addr data a = m a := by
  rw [memcpy, if_neg (Nat.not_le_of_lt h)]

@[simp] theorem bytes_length : (bytes m addr count).length = count := by
  rw [bytes, List.length_map, List.length_range']

@[simp] theorem bytes_zero : bytes m addr 0 = [] := rfl

theorem bytes_succ : bytes m addr (count + 1) = m addr :: bytes m (addr + 1) count := by
  rw [bytes, List.range'_succ, List.map_cons, bytes]

/-- Bytes that are not written stay as they are. -/
theorem bytes_congr {m' : Mem} (h : ∀ a, addr ≤ a → a < addr + count → m' a = m a) :
    bytes m' addr count = bytes m addr count := by
  refine List.map_congr_left fun a ha => ?_
  have hrange := List.mem_range'_1.1 ha
  exact h a hrange.1 hrange.2

theorem bytes_memcpy (data : List UInt8) : bytes (memcpy m addr data) addr data.length = data := by
  refine List.ext_getElem (by simp) fun i hi hi' => ?_
  simp [bytes, memcpy, hi']

end Memory

/-! ## The sum of the words -/

section Sum

variable {m : Mem} {addr count init k v : Nat}

/-- The sum of the words, as `checksum` and the receiver take them. -/
def wordSum (m : Mem) (addr count : Nat) : Nat := (words (bytes m addr count)).sum

theorem wordSum_add_two : wordSum m addr (count + 2) =
    ntohs (read16 m addr) + wordSum m (addr + 2) count := by
  rw [wordSum, bytes_succ, bytes_succ, words, List.sum_cons, ntohs_read16]
  rfl

theorem wordSum_le : wordSum m addr count ≤ 65535 * ((count + 1) / 2) := by
  have h := @words_sum_le (bytes m addr count)
  rwa [bytes_length] at h

theorem sumBytes_eq (hinit : init < 2 ^ 32) :
    sumBytes m count addr init = (init + wordSum m addr count) % 2 ^ 32 := by
  induction count using Nat.twoStepInduction generalizing addr init with
  | zero => exact (Nat.mod_eq_of_lt hinit).symm
  | one =>
      rw [sumBytes, add32, ntohs_byte, wordSum, bytes_succ, bytes_zero, words, List.sum_singleton]
  | more count ih _ =>
      rw [sumBytes, add32, ih (Nat.mod_lt _ (by decide)), wordSum_add_two, Nat.mod_add_mod, Nat.add_assoc]

/-- All carries are brought round. -/
theorem foldSum_eq {fuel sum : Nat} (h : sum ≤ fuel) : foldSum fuel sum = reduce 65535 sum := by
  induction fuel generalizing sum with
  | zero =>
      obtain rfl := Nat.le_zero.1 h
      rfl
  | succ fuel ih =>
      rw [foldSum]
      split
      case isTrue hhigh =>
          rw [ih (by omega)]
          exact reduce_carry
      case isFalse hhigh => exact (reduce_of_le (by omega)).symm

theorem checksum_eq (h : init + wordSum m addr count < 2 ^ 32) :
    checksum m init addr count = 65535 - reduce 65535 (init + wordSum m addr count) := by
  have hle : reduce 65535 (init + wordSum m addr count) ≤ 65535 := reduce_le (by decide)
  rw [checksum, sumBytes_eq (Nat.lt_of_le_of_lt (Nat.le_add_right _ _) h), Nat.mod_eq_of_lt h,
    foldSum_eq (Nat.le_refl _)]
  omega

theorem checksum_eq_zero_iff (h : init + wordSum m addr count < 2 ^ 32) :
    checksum m init addr count = 0 ↔
      init + wordSum m addr count ≠ 0 ∧ 65535 ∣ init + wordSum m addr count := by
  have hle : reduce 65535 (init + wordSum m addr count) ≤ 65535 := reduce_le (by decide)
  rw [checksum_eq h, ← reduce_eq_iff (by decide)]
  omega

/-- A word at an even place counts for what it is. -/
theorem wordSum_write (hk : 2 * k + 2 ≤ count) (hv : v < 65536) :
    wordSum (write16 m (addr + 2 * k) (htons v)) addr count =
      wordSum (write16 m (addr + 2 * k) 0) addr count + v := by
  induction k generalizing addr count with
  | zero =>
      -- the word is the first one, and the rest is not written
      obtain ⟨count, rfl⟩ := Nat.exists_eq_add_of_le' (show 2 ≤ count by omega)
      have hrest : ∀ x, wordSum (write16 m addr x) (addr + 2) count = wordSum m (addr + 2) count := by
        intro x
        rw [wordSum, bytes_congr (m := m) fun a ha _ => write16_of_ne (by omega) (by omega)]
        rfl
      have hzero : ntohs (read16 (write16 m addr 0) addr) = 0 := by simp
      rw [Nat.mul_zero, Nat.add_zero, wordSum_add_two, wordSum_add_two, hrest, hrest, ntohs_htons hv, hzero]
      omega
  | succ k ih =>
      obtain ⟨count, rfl⟩ := Nat.exists_eq_add_of_le' (show 2 ≤ count by omega)
      have hmove : addr + 2 * (k + 1) = addr + 2 + 2 * k := by omega
      have hfirst : ∀ x, ntohs (read16 (write16 m (addr + 2 + 2 * k) x) addr) = ntohs (read16 m addr) :=
        fun x => ntohs_read16_of_ne (by omega) (by omega) (by omega)
      rw [hmove, wordSum_add_two, wordSum_add_two, hfirst, hfirst, ih (by omega)]
      exact (Nat.add_assoc ..).symm

/-- With its checksum, the sum of a packet is all ones. -/
theorem reduce_store (hk : 2 * k + 2 ≤ count) (hbound : init + 65535 * ((count + 1) / 2) < 2 ^ 32) :
    reduce 65535 (init + wordSum (write16 (write16 m (addr + 2 * k) 0) (addr + 2 * k)
      (htons (checksum (write16 m (addr + 2 * k) 0) init addr count))) addr count) = 65535 := by
  have hsum : init + wordSum (write16 m (addr + 2 * k) 0) addr count < 2 ^ 32 :=
    Nat.lt_of_le_of_lt (Nat.add_le_add_left wordSum_le init) hbound
  have hcheck := checksum_eq hsum
  rw [write16_write16, wordSum_write hk (by omega), hcheck, ← Nat.add_assoc]
  exact reduce_add_complement (by decide)

theorem bytes_append (m : Mem) (addr count count' : Nat) :
    bytes m addr (count + count') = bytes m addr count ++ bytes m (addr + count) count' := by
  rw [bytes, ← List.range'_append_1, List.map_append]
  rfl

theorem wordSum_append (k count' : Nat) :
    wordSum m addr (2 * k + count') = wordSum m addr (2 * k) + wordSum m (addr + 2 * k) count' := by
  rw [wordSum, bytes_append, words_append (by simp), List.sum_append]
  rfl

/-- The loop over the words of the addresses. -/
theorem foldl_words (hk : k < 2 ^ 16) :
    (List.range k).foldl (fun c i => add32 c (ntohs (read16 m (addr + 2 * i)))) 0 = wordSum m addr (2 * k) := by
  induction k with
  | zero => rfl
  | succ k ih =>
      have hone : wordSum m addr (2 * k + 2) = wordSum m addr (2 * k) + ntohs (read16 m (addr + 2 * k)) := by
        have htwo : wordSum m (addr + 2 * k) 2 = ntohs (read16 m (addr + 2 * k)) := by
          rw [wordSum, bytes_succ, bytes_succ, bytes_zero, words, words, List.sum_singleton, ntohs_read16]
        rw [wordSum_append, htwo]
      have hle : wordSum m addr (2 * k + 2) ≤ 65535 * ((2 * k + 2 + 1) / 2) := wordSum_le
      rw [List.range_succ, List.foldl_append, ih (by omega), List.foldl_cons, List.foldl_nil, add32, ← hone,
        Nat.mod_eq_of_lt (by omega)]
      rfl

end Sum

/-! ## The checksum of the IP header -/

section Header

variable {m : Mem} {ip addr v : Nat}

theorem ipHl_write16 (h : ip < addr) : ipHl (write16 m addr v) ip = ipHl m ip := by
  rw [ipHl, write16_of_lt h, ipHl]

theorem ipHl_lt : ipHl m ip < 16 := Nat.mod_lt _ (by decide)

theorem ipHl_ipSetChecksum : ipHl (ipSetChecksum m ip) ip = ipHl m ip := by
  rw [ipSetChecksum, ipHl_write16 (by omega), ipHl_write16 (by omega)]

/-- Other bytes than the check stay as they are. -/
theorem ipSetChecksum_of_ne {a : Nat} (h : a ≠ ip + 10) (h' : a ≠ ip + 11) : ipSetChecksum m ip a = m a := by
  rw [ipSetChecksum, write16_of_ne h h', write16_of_ne h h']

theorem ipSetChecksum_verifies (h : 5 ≤ ipHl m ip) :
    sum 0xffff (words (ipHeader (ipSetChecksum m ip) ip)) = 0xffff := by
  have hlt : ipHl m ip < 16 := ipHl_lt
  have hstore := @reduce_store m ip (4 * ipHl m ip) 0 5 (by omega) (by omega)
  have hhl : ipHl (write16 m (ip + 10) 0) ip = ipHl m ip := ipHl_write16 (by omega)
  rw [Nat.zero_add] at hstore
  rw [sum_words, ipHeader, ipHl_ipSetChecksum, ipSetChecksum, hhl]
  exact hstore

end Header

/-! ## The checksum of the datagram -/

section Datagram

variable {m : Mem} {ip udp len : Nat} {pseudo : List UInt8}

/-- The check of a datagram, with the sum of its pseudo-header. -/
def storeCheck (m : Mem) (pseudo : List UInt8) (udp len : Nat) : Mem :=
  write16 (write16 m (udp + 6) 0) (udp + 6) (htons (checksum (write16 m (udp + 6) 0) (words pseudo).sum udp len))

theorem storeCheck_of_ne {a : Nat} (h : a ≠ udp + 6) (h' : a ≠ udp + 7) : storeCheck m pseudo udp len a = m a := by
  rw [storeCheck, write16_of_ne h h', write16_of_ne h h']

variable (heven : pseudo.length % 2 = 0) (hpseudo : pseudo.length ≤ 40) (hlen : len ≤ 65535)
include heven hpseudo hlen

theorem storeCheck_verifies (hmin : 8 ≤ len) :
    sum 0xffff (words (pseudo ++ bytes (storeCheck m pseudo udp len) udp len)) = 0xffff := by
  have hle : (words pseudo).sum ≤ 65535 * ((pseudo.length + 1) / 2) := words_sum_le
  have hstore := @reduce_store m udp len (words pseudo).sum 3 (by omega) (by omega)
  rw [sum_words, words_append heven, List.sum_append]
  exact hstore

theorem storeCheck_eq_zero_iff :
    read16 (storeCheck m pseudo udp len) (udp + 6) = 0 ↔
      (words (pseudo ++ bytes (write16 m (udp + 6) 0) udp len)).sum ≠ 0 ∧
        65535 ∣ (words (pseudo ++ bytes (write16 m (udp + 6) 0) udp len)).sum := by
  have hle : (words pseudo).sum ≤ 65535 * ((pseudo.length + 1) / 2) := words_sum_le
  have hwords : wordSum (write16 m (udp + 6) 0) udp len ≤ 65535 * ((len + 1) / 2) := wordSum_le
  have hbound : (words pseudo).sum + wordSum (write16 m (udp + 6) 0) udp len < 2 ^ 32 := by omega
  have hzero := checksum_eq_zero_iff hbound
  have hlt : checksum (write16 m (udp + 6) 0) (words pseudo).sum udp len < 65536 := Nat.mod_lt _ (by decide)
  rw [words_append heven, List.sum_append]
  refine Iff.trans ?_ hzero
  rw [read16_eq_zero_iff, storeCheck, ntohs_htons hlt]

end Datagram

/-! ## The pseudo-headers -/

section Pseudo

variable {m : Mem} {ip : Nat}

theorem ntohs_lt (x : Nat) : ntohs x < 65536 := by
  have hlow : x % 256 < 256 := Nat.mod_lt x (by decide)
  have hhigh : x / 256 % 256 < 256 := Nat.mod_lt (x / 256) (by decide)
  rw [ntohs, bswap16]
  omega

/-- A number as a word. -/
theorem words_be16 {x : Nat} (hx : x < 65536) (l : List UInt8) : words (be16 x ++ l) = x :: words l := by
  have hhigh : x / 256 < 256 := Nat.div_lt_of_lt_mul hx
  have hdiv := Nat.mod_add_div x 256
  simp only [be16, List.cons_append, List.nil_append, words, UInt8.toNat_ofNat', List.cons.injEq, and_true]
  omega

theorem datagram_length : (datagram m ip).length = ntohs (read16 m (ip + 2)) - 4 * ipHl m ip := bytes_length

theorem pseudoHeader_length : (pseudoHeader m ip).length = 12 := by
  simp [pseudoHeader, be16]

theorem pseudoHeader6_length : (pseudoHeader6 m ip).length = 40 := by
  simp [pseudoHeader6, be16]

theorem pseudoHeader_sum : (words (pseudoHeader m ip)).sum =
    wordSum m (ip + 12) 8 + (m (ip + 9)).toNat + (datagram m ip).length := by
  have hlen : (datagram m ip).length < 65536 :=
    datagram_length ▸ Nat.lt_of_le_of_lt (Nat.sub_le ..) (ntohs_lt _)
  have hbe := words_be16 hlen []
  rw [List.append_nil, words] at hbe
  rw [pseudoHeader, words_append (by simp), words_append (by simp), hbe, List.sum_append, List.sum_append]
  simp [words, wordSum]

theorem pseudoHeader6_sum : (words (pseudoHeader6 m ip)).sum =
    wordSum m (ip + 8) 32 + (m (ip + 6)).toNat + (datagram6 m ip).length := by
  have hlen : (datagram6 m ip).length < 65536 := by
    rw [datagram6, bytes_length]
    exact ntohs_lt _
  have hbe := words_be16 hlen []
  rw [List.append_nil, words] at hbe
  rw [pseudoHeader6, words_append (by simp [be16]), words_append (by simp), words_append (by simp), hbe,
    List.sum_append, List.sum_append, List.sum_append]
  simp [words, wordSum]
  omega

/-- The fixed part of the header. -/
theorem header_congr (m m' : Mem) (ip : Nat) (h : ∀ a, ip ≤ a → a < ip + 20 → m' a = m a) : ipHl m' ip = ipHl m ip ∧
    read16 m' (ip + 2) = read16 m (ip + 2) ∧ pseudoHeader m' ip = pseudoHeader m ip := by
  have hhl : ipHl m' ip = ipHl m ip := by
    rw [ipHl, h ip (Nat.le_refl ip) (by omega), ipHl]
  have hlen : read16 m' (ip + 2) = read16 m (ip + 2) :=
    read16_congr (h _ (by omega) (by omega)) (h _ (by omega) (by omega))
  have hbytes : bytes m' (ip + 12) 8 = bytes m (ip + 12) 8 :=
    bytes_congr fun a ha ha' => h a (by omega) (by omega)
  refine ⟨hhl, hlen, ?_⟩
  rw [pseudoHeader, datagram_length, hhl, hlen, hbytes, h (ip + 9) (by omega) (by omega), pseudoHeader,
    datagram_length]

theorem header6_congr (m m' : Mem) (ip : Nat) (h : ∀ a, ip ≤ a → a < ip + 40 → m' a = m a) :
    read16 m' (ip + 4) = read16 m (ip + 4) ∧ pseudoHeader6 m' ip = pseudoHeader6 m ip := by
  have hlen : read16 m' (ip + 4) = read16 m (ip + 4) :=
    read16_congr (h _ (by omega) (by omega)) (h _ (by omega) (by omega))
  have hbytes : bytes m' (ip + 8) 32 = bytes m (ip + 8) 32 :=
    bytes_congr fun a ha ha' => h a (by omega) (by omega)
  refine ⟨hlen, ?_⟩
  rw [pseudoHeader6, datagram6, bytes_length, hlen, hbytes, h (ip + 6) (by omega) (by omega), pseudoHeader6,
    datagram6, bytes_length]

end Pseudo

/-! ## The checksums of UDP -/

section Udp

variable {m : Mem} {ip : Nat}

/-- The words are added up one after the other. -/
theorem ipSetUdpChecksum_eq (h5 : 5 ≤ ipHl m ip) (hlen : 4 * ipHl m ip ≤ ntohs (read16 m (ip + 2))) :
    ipSetUdpChecksum m ip =
      storeCheck m (pseudoHeader m ip) (ip + 4 * ipHl m ip) (datagram m ip).length := by
  let blank := write16 m (ip + 4 * ipHl m ip + 6) 0
  have hblank : blank = write16 m (ip + 4 * ipHl m ip + 6) 0 := rfl
  obtain ⟨hhl, htotal, hpseudo⟩ := header_congr m blank ip fun a _ ha =>
    write16_of_lt (by omega)
  have hword : ∀ a, ntohs (read16 blank a) < 65536 := fun a => ntohs_lt _
  have hproto := (blank (ip + 9)).toNat_lt
  have hudplen : Word.wsub (ntohs (read16 blank (ip + 2))) (4 * ipHl blank ip) = (datagram m ip).length := by
    rw [hhl, htotal, Word.wsub_eq hlen (Nat.lt_trans (ntohs_lt _) (by decide)), datagram_length]
  have hsize : (datagram m ip).length < 65536 :=
    datagram_length ▸ Nat.lt_of_le_of_lt (Nat.sub_le ..) (ntohs_lt _)
  have hsum : (words (pseudoHeader m ip)).sum = ntohs (read16 blank (ip + 12)) + ntohs (read16 blank (ip + 14)) +
      ntohs (read16 blank (ip + 16)) + ntohs (read16 blank (ip + 18)) + (blank (ip + 9)).toNat +
        (datagram m ip).length := by
    rw [← hpseudo, pseudoHeader_sum, wordSum_add_two, wordSum_add_two, wordSum_add_two, wordSum_add_two,
      wordSum, bytes_zero, words, List.sum_nil, datagram_length, hhl, htotal, ← datagram_length]
    simp only [Nat.add_assoc, Nat.reduceAdd, Nat.zero_add]
  have hcksum : add32 (add32 (add32 (add32 (add32 (add32 0 (ntohs (read16 blank (ip + 12))))
      (ntohs (read16 blank (ip + 14)))) (ntohs (read16 blank (ip + 16)))) (ntohs (read16 blank (ip + 18))))
        (blank (ip + 9)).toNat) (datagram m ip).length = (words (pseudoHeader m ip)).sum := by
    have h12 := hword (ip + 12)
    have h14 := hword (ip + 14)
    have h16 := hword (ip + 16)
    have h18 := hword (ip + 18)
    rw [hsum]
    simp only [add32]
    omega
  rw [ipSetUdpChecksum, ← hblank, hudplen, hcksum, storeCheck]

theorem ipSetUdp6Checksum_eq :
    ipSetUdp6Checksum m ip = storeCheck m (pseudoHeader6 m ip) (ip + 40) (datagram6 m ip).length := by
  let blank := write16 m (ip + 40 + 6) 0
  have hblank : blank = write16 m (ip + 40 + 6) 0 := rfl
  obtain ⟨hlen, hpseudo⟩ := header6_congr m blank ip fun a _ ha =>
    write16_of_lt (by omega)
  have hproto := (blank (ip + 6)).toNat_lt
  have hudplen : ntohs (read16 blank (ip + 4)) = (datagram6 m ip).length := by
    rw [hlen, datagram6, bytes_length]
  have hsize : (datagram6 m ip).length < 65536 := hudplen ▸ ntohs_lt _
  have hwords : wordSum blank (ip + 8) 32 ≤ 65535 * ((32 + 1) / 2) := wordSum_le
  have hsum : (words (pseudoHeader6 m ip)).sum =
      wordSum blank (ip + 8) 32 + (blank (ip + 6)).toNat + (datagram6 m ip).length := by
    rw [← hpseudo, pseudoHeader6_sum, datagram6, bytes_length, hudplen]
  have hcksum : add32 (add32 (wordSum blank (ip + 8) 32) (blank (ip + 6)).toNat) (datagram6 m ip).length =
      (words (pseudoHeader6 m ip)).sum := by
    rw [hsum]
    simp only [add32]
    omega
  rw [ipSetUdp6Checksum, ← hblank, hudplen, foldl_words (by decide), hcksum, storeCheck]

end Udp

end Yaos.Udp
