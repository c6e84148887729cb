import Yaos.Net.Checksum.Proofs

set_option autoImplicit false

/-! # Packets that are sent

The check of the IP header is set first; the check of the datagram is written behind the header, wherever this
ends. `p->udp` and `p->data` are where a header of 20 bytes has its datagram. -/

namespace Yaos.Udp

open OnesComplement

/-- The packet with zero in the place of the check of its datagram. -/
def blankCheck (m : Mem) (p : Nat) (data : List UInt8) : Mem :=
  write16 (ipSetChecksum (udpFill m p data) (p + 14)) (p + 14 + 4 * ipHl m (p + 14) + 6) 0

/-- The packet with zero in the place of the check of its datagram. -/
def blankCheck6 (m : Mem) (p : Nat) (data : List UInt8) : Mem := write16 (udp6Fill m p data) (p + 60) 0

section Fill

variable {m : Mem} {p : Nat} {data : List UInt8}

/-- `udp_set_data` has not written the first bytes of the header yet. -/
theorem udpFill_of_lt {a : Nat} (ha : a < p + 38) (hlow : a ≠ p + 16) (hhigh : a ≠ p + 17) :
    udpFill m p data a = m a := by
  rw [udpFill, write16_of_ne hlow hhigh, write16_of_lt ha, memcpy_of_lt (by omega)]

theorem udpFill_data {a : Nat} (ha : p + 42 ≤ a) : udpFill m p data a = memcpy m (p + 42) data a := by
  rw [udpFill, write16_of_ne (by omega) (by omega), write16_of_ne (by omega) (by omega)]

theorem ipHl_udpFill : ipHl (udpFill m p data) (p + 14) = ipHl m (p + 14) := by
  rw [ipHl, udpFill_of_lt (by omega) (by omega) (by omega), ipHl]

/-- The total length, for a packet that is not too long for the field. -/
theorem udpFill_total (hfit : data.length + 8 + 4 * ipHl m (p + 14) ≤ 65535) :
    ntohs (read16 (udpFill m p data) (p + 14 + 2)) = data.length + 8 + 4 * ipHl m (p + 14) := by
  have hhl : ipHl (write16 (memcpy m (p + 42) data) (p + 38) (htons (data.length + 8))) (p + 14) =
      ipHl m (p + 14) := by
    rw [ipHl_write16 (by omega), ipHl, memcpy_of_lt (by omega), ipHl]
  rw [udpFill, hhl]
  exact ntohs_htons (by omega)

end Fill

/-! ## IPv4 -/

section V4

variable {m : Mem} {p : Nat} {data : List UInt8} (h5 : 5 ≤ ipHl m (p + 14))
  (hfit : data.length + 8 + 4 * ipHl m (p + 14) ≤ 65535)

/-- The packet up to the check of its datagram. -/
def headed (m : Mem) (p : Nat) (data : List UInt8) : Mem := ipSetChecksum (udpFill m p data) (p + 14)

theorem ipHl_headed : ipHl (headed m p data) (p + 14) = ipHl m (p + 14) :=
  ipHl_ipSetChecksum.trans ipHl_udpFill

include hfit in
theorem headed_total : ntohs (read16 (headed m p data) (p + 14 + 2)) = data.length + 8 + 4 * ipHl m (p + 14) := by
  have hsame : read16 (headed m p data) (p + 14 + 2) = read16 (udpFill m p data) (p + 14 + 2) :=
    read16_congr (ipSetChecksum_of_ne (by omega) (by omega)) (ipSetChecksum_of_ne (by omega) (by omega))
  rw [hsame, udpFill_total hfit]

include hfit in
theorem headed_length : (datagram (headed m p data) (p + 14)).length = data.length + 8 := by
  rw [datagram_length, headed_total hfit, ipHl_headed, Nat.add_sub_cancel]

include h5 hfit

theorem udpSetData_eq : udpSetData m p data = storeCheck (headed m p data) (pseudoHeader (headed m p data) (p + 14))
    (p + 14 + 4 * ipHl m (p + 14)) (data.length + 8) := by
  have hlen : 4 * ipHl (headed m p data) (p + 14) ≤ ntohs (read16 (headed m p data) (p + 14 + 2)) := by
    rw [headed_total hfit, ipHl_headed]
    exact Nat.le_add_left ..
  have heq := ipSetUdpChecksum_eq (by rw [ipHl_headed]; exact h5) hlen
  rw [ipHl_headed, headed_length hfit] at heq
  exact heq

/-- Neither the header nor the pseudo-header has the check of the datagram in it. -/
theorem udpSetData_header : ipHl (udpSetData m p data) (p + 14) = ipHl m (p + 14) ∧
    ntohs (read16 (udpSetData m p data) (p + 14 + 2)) = data.length + 8 + 4 * ipHl m (p + 14) ∧
      pseudoHeader (udpSetData m p data) (p + 14) = pseudoHeader (headed m p data) (p + 14) := by
  obtain ⟨hhl, htotal, hpseudo⟩ := header_congr (headed m p data) (udpSetData m p data) (p + 14)
    fun a _ ha => by
      rw [udpSetData_eq h5 hfit]
      exact storeCheck_of_ne (by omega) (by omega)
  refine ⟨hhl.trans ipHl_headed, ?_, hpseudo⟩
  rw [htotal, headed_total hfit]

theorem udpSetData_datagram : datagram (udpSetData m p data) (p + 14) =
    bytes (udpSetData m p data) (p + 14 + 4 * ipHl m (p + 14)) (data.length + 8) := by
  obtain ⟨hhl, htotal, -⟩ := udpSetData_header h5 hfit
  rw [datagram, hhl, htotal, Nat.add_sub_cancel]

theorem udpSetData_verifies : Verifies (udpSetData m p data) (p + 14) := by
  obtain ⟨hhl, -, hpseudo⟩ := udpSetData_header h5 hfit
  have hlt : ipHl m (p + 14) < 16 := ipHl_lt
  constructor
  · -- the check of the datagram is behind the header
    have hbytes : bytes (udpSetData m p data) (p + 14) (4 * ipHl m (p + 14)) =
        bytes (headed m p data) (p + 14) (4 * ipHl m (p + 14)) := by
      rw [udpSetData_eq h5 hfit]
      exact bytes_congr fun a _ ha => storeCheck_of_ne (by omega) (by omega)
    have hheader : ipHeader (udpSetData m p data) (p + 14) = ipHeader (headed m p data) (p + 14) := by
      rw [ipHeader, hhl, hbytes, ipHeader, ipHl_headed]
    rw [hheader]
    exact ipSetChecksum_verifies (by rw [ipHl_udpFill]; exact h5)
  · rw [hpseudo, udpSetData_datagram h5 hfit, udpSetData_eq h5 hfit]
    exact storeCheck_verifies (by rw [pseudoHeader_length]) (by rw [pseudoHeader_length]; decide) (by omega)
      (by omega)

/-- With a header of 20 bytes the datagram is what `udp_set_data` was called with, behind a header that has
    its length. -/
theorem udpSetData_payload (h20 : ipHl m (p + 14) = 5) :
    datagram (udpSetData m p data) (p + 14) = bytes (udpSetData m p data) (p + 34) 8 ++ data ∧
      ntohs (read16 (udpSetData m p data) (p + 38)) = data.length + 8 := by
  -- from the length field on, only the check is written after the fill
  have hsame : ∀ a, p + 38 ≤ a → a ≠ p + 40 → a ≠ p + 41 → udpSetData m p data a = udpFill m p data a := by
    intro a ha hlow hhigh
    rw [udpSetData_eq h5 hfit, h20, storeCheck_of_ne (by omega) (by omega), headed,
      ipSetChecksum_of_ne (by omega) (by omega)]
  constructor
  · have hdata : bytes (udpSetData m p data) (p + 34 + 8) data.length =
        bytes (memcpy m (p + 42) data) (p + 42) data.length :=
      bytes_congr fun a ha _ => by rw [hsame a (by omega) (by omega) (by omega), udpFill_data ha]
    rw [udpSetData_datagram h5 hfit, h20, Nat.add_comm data.length 8, bytes_append]
    exact congrArg _ (hdata.trans (bytes_memcpy data))
  · have hfill : ∀ a, p + 38 ≤ a → udpFill m p data a =
        write16 (memcpy m (p + 42) data) (p + 38) (htons (data.length + 8)) a := by
      intro a ha
      rw [udpFill, write16_of_ne (by omega) (by omega)]
    have hread : read16 (udpSetData m p data) (p + 38) =
        read16 (write16 (memcpy m (p + 42) data) (p + 38) (htons (data.length + 8))) (p + 38) :=
      read16_congr ((hsame _ (by omega) (by omega) (by omega)).trans (hfill _ (by omega)))
        ((hsame _ (by omega) (by omega) (by omega)).trans (hfill _ (by omega)))
    rw [hread, ntohs_htons (by omega)]

/-! ### `p->udp`

The packet has no room for options: `p->udp` is where a header of 20 bytes ends, and a longer header ends in
`p->data`, where the check is then written. -/

/-- The check that `p->udp` holds already is right for the packet that is made. -/
def HeldRight (m : Mem) (p : Nat) (data : List UInt8) : Prop :=
  sum 0xffff (words (bytes m (p + 26) 8 ++ [0, m (p + 23)] ++ be16 (data.length + 8) ++
    (bytes m (p + 34) 4 ++ be16 (data.length + 8) ++ bytes m (p + 40) 2) ++ data)) = 0xffff

omit h5 hfit in
theorem bytes_htons {addr v : Nat} : bytes (write16 m addr (htons v)) addr 2 = be16 v := by
  have hlow : v % 256 < 256 := Nat.mod_lt v (by decide)
  have hhigh : v / 256 % 256 < 256 := Nat.mod_lt _ (by decide)
  rw [bytes_succ, bytes_succ, bytes_zero, be16]
  congr 1
  · refine UInt8.toNat_inj.1 ?_
    rw [write16_low, htons, bswap16, UInt8.toNat_ofNat']
    omega
  · congr 1
    refine UInt8.toNat_inj.1 ?_
    rw [write16_high, htons, bswap16, UInt8.toNat_ofNat']
    generalize v % 256 = low at hlow ⊢
    omega

omit h5 hfit in
theorem headed_udp_length : bytes (headed m p data) (p + 38) 2 = be16 (data.length + 8) := by
  have hsame : bytes (headed m p data) (p + 38) 2 =
      bytes (write16 (memcpy m (p + 42) data) (p + 38) (htons (data.length + 8))) (p + 38) 2 :=
    bytes_congr fun a ha _ => by
      rw [headed, ipSetChecksum_of_ne (by omega) (by omega), udpFill, write16_of_ne (by omega) (by omega)]
  rw [hsame, bytes_htons]

/-- With options, `udp_set_data` writes the addresses and the check of `p->udp` nowhere. -/
theorem udpSetData_held (h24 : 5 < ipHl m (p + 14)) : udpHeaders (udpSetData m p data) p data.length =
    bytes m (p + 26) 8 ++ [0, m (p + 23)] ++ be16 (data.length + 8) ++
      (bytes m (p + 34) 4 ++ be16 (data.length + 8) ++ bytes m (p + 40) 2) := by
  have hheaded : ∀ a < p + 42, udpSetData m p data a = headed m p data a := by
    intro a ha
    rw [udpSetData_eq h5 hfit, storeCheck_of_ne (by omega) (by omega)]
  have hold : ∀ a < p + 42, a ≠ p + 16 → a ≠ p + 17 → a ≠ p + 24 → a ≠ p + 25 → a ≠ p + 38 → a ≠ p + 39 →
      udpSetData m p data a = m a := by
    intro a ha h16 h17 h24 h25 h38 h39
    rw [hheaded a ha, headed, ipSetChecksum_of_ne (by omega) (by omega), udpFill, write16_of_ne h16 h17,
      write16_of_ne h38 h39, memcpy_of_lt ha]
  have hlength : bytes (udpSetData m p data) (p + 38) 2 = be16 (data.length + 8) := by
    rw [← headed_udp_length]
    exact bytes_congr fun a _ ha => hheaded a (by omega)
  have hbytes : ∀ a n, p + 26 ≤ a → a + n ≤ p + 38 → bytes (udpSetData m p data) a n = bytes m a n :=
    fun a n ha hn => bytes_congr fun b hb hbn =>
      hold b (by omega) (by omega) (by omega) (by omega) (by omega) (by omega) (by omega)
  have hcheck : bytes (udpSetData m p data) (p + 40) 2 = bytes m (p + 40) 2 := bytes_congr fun a ha hn =>
    hold a (by omega) (by omega) (by omega) (by omega) (by omega) (by omega) (by omega)
  have hproto : udpSetData m p data (p + 23) = m (p + 23) :=
    hold _ (by omega) (by omega) (by omega) (by omega) (by omega) (by omega) (by omega)
  have hsplit : bytes (udpSetData m p data) (p + 34) 8 = bytes (udpSetData m p data) (p + 34) 4 ++
      bytes (udpSetData m p data) (p + 38) 2 ++ bytes (udpSetData m p data) (p + 40) 2 := by
    rw [show (8 : Nat) = 4 + 2 + 2 from rfl, bytes_append, bytes_append]
  rw [udpHeaders, hsplit, hlength, hcheck, hproto, hbytes _ _ (by omega) (by omega),
    hbytes (p + 34) 4 (by omega) (by omega)]

/-- With a header of 20 bytes, the datagram that the receiver finds is `p->udp` and the payload. -/
theorem udpSetData_sent (h20 : ipHl m (p + 14) = 5) : Sent (udpSetData m p data) p data := by
  have hverifies := udpSetData_verifies h5 hfit
  obtain ⟨hdatagram, -⟩ := udpSetData_payload h5 hfit h20
  have hudp := hverifies.udp
  rw [pseudoHeader, hdatagram, List.length_append, bytes_length, Nat.add_comm 8] at hudp
  refine ⟨hverifies.header, ?_⟩
  rw [udpHeaders, List.append_assoc _ (bytes _ _ 8)]
  exact hudp

theorem udpSetData_sent_iff : Sent (udpSetData m p data) p data ↔ ipHl m (p + 14) = 5 ∨ HeldRight m p data := by
  by_cases h20 : ipHl m (p + 14) = 5
  · exact iff_of_true (udpSetData_sent h5 hfit h20) (.inl h20)
  · have hheld := udpSetData_held h5 hfit (Nat.lt_of_le_of_ne h5 (Ne.symm h20))
    constructor
    · rintro ⟨-, hudp⟩
      rw [hheld] at hudp
      exact .inr hudp
    · intro h
      refine ⟨(udpSetData_verifies h5 hfit).header, ?_⟩
      rw [hheld]
      exact h.resolve_left h20

/-- The check of the datagram is stored as zero where the words that it is for add up to all ones. -/
theorem udpSetData_check_eq_zero_iff :
    read16 (udpSetData m p data) (p + 14 + 4 * ipHl m (p + 14) + 6) = 0 ↔
      65535 ∣ (words (pseudoHeader (blankCheck m p data) (p + 14) ++
        datagram (blankCheck m p data) (p + 14))).sum := by
  obtain ⟨hhl, htotal, hpseudo⟩ := header_congr (headed m p data) (blankCheck m p data) (p + 14)
    fun a _ ha => write16_of_lt (by omega)
  have hdatagram : datagram (blankCheck m p data) (p + 14) = bytes (blankCheck m p data)
      (p + 14 + 4 * ipHl m (p + 14)) (data.length + 8) := by
    rw [datagram, hhl, htotal, headed_total hfit, ipHl_headed, Nat.add_sub_cancel]
  -- the length in the pseudo-header is at least 8, so that the sum is not zero
  have hsum : (words (pseudoHeader (blankCheck m p data) (p + 14) ++
      datagram (blankCheck m p data) (p + 14))).sum ≠ 0 := by
    rw [words_append (by rw [pseudoHeader_length]), List.sum_append, pseudoHeader_sum, hdatagram, bytes_length]
    omega
  have hzero := @storeCheck_eq_zero_iff (headed m p data) (p + 14 + 4 * ipHl m (p + 14)) (data.length + 8)
    (pseudoHeader (headed m p data) (p + 14)) (by rw [pseudoHeader_length]) (by rw [pseudoHeader_length]; decide)
    (by omega)
  rw [hdatagram, hpseudo] at hsum ⊢
  rw [udpSetData_eq h5 hfit]
  exact hzero.trans (and_iff_right hsum)

end V4

/-! ## IPv6 -/

section V6

variable {m : Mem} {p : Nat} {data : List UInt8} (hfit : data.length + 8 ≤ 65535)

theorem udp6Fill_data {a : Nat} (ha : p + 62 ≤ a) : udp6Fill m p data a = memcpy m (p + 62) data a := by
  rw [udp6Fill, write16_of_ne (by omega) (by omega), write16_of_ne (by omega) (by omega)]

include hfit

theorem udp6Fill_length : (datagram6 (udp6Fill m p data) (p + 14)).length = data.length + 8 := by
  let filled := write16 (memcpy m (p + 62) data) (p + 58) (htons (data.length + 8))
  have hcopy : ∀ x, read16 (write16 filled (p + 18) x) (p + 18) = x % 65536 := by
    intro x
    rw [read16, write16_low, write16_high]
    omega
  have hlen : ntohs (read16 filled (p + 58)) = data.length + 8 := ntohs_htons (by omega)
  have hlt : read16 filled (p + 58) < 65536 := by
    have hlow := (filled (p + 58)).toNat_lt
    have hhigh := (filled (p + 58 + 1)).toNat_lt
    rw [read16]
    omega
  have hread : read16 (udp6Fill m p data) (p + 14 + 4) = read16 filled (p + 58) :=
    (hcopy _).trans (Nat.mod_eq_of_lt hlt)
  rw [datagram6, bytes_length, hread, hlen]

theorem udp6SetData_eq : udp6SetData m p data = storeCheck (udp6Fill m p data)
    (pseudoHeader6 (udp6Fill m p data) (p + 14)) (p + 54) (data.length + 8) := by
  rw [udp6SetData, ipSetUdp6Checksum_eq, udp6Fill_length hfit]

theorem udp6SetData_header :
    pseudoHeader6 (udp6SetData m p data) (p + 14) = pseudoHeader6 (udp6Fill m p data) (p + 14) ∧
      datagram6 (udp6SetData m p data) (p + 14) = bytes (udp6SetData m p data) (p + 54) (data.length + 8) := by
  obtain ⟨hlen, hpseudo⟩ := header6_congr (udp6Fill m p data) (udp6SetData m p data) (p + 14)
    fun a _ ha => by
      rw [udp6SetData_eq hfit]
      exact storeCheck_of_ne (by omega) (by omega)
  have hfill := udp6Fill_length (m := m) (p := p) hfit
  rw [datagram6, bytes_length] at hfill
  refine ⟨hpseudo, ?_⟩
  rw [datagram6, hlen, hfill]

theorem udp6SetData_verifies : Verifies6 (udp6SetData m p data) (p + 14) := by
  obtain ⟨hpseudo, hdatagram⟩ := udp6SetData_header (m := m) (p := p) hfit
  rw [Verifies6, hpseudo, hdatagram, udp6SetData_eq hfit]
  exact storeCheck_verifies (by rw [pseudoHeader6_length]) (by rw [pseudoHeader6_length]) (by omega) (by omega)

theorem udp6SetData_payload : datagram6 (udp6SetData m p data) (p + 14) =
    bytes (udp6SetData m p data) (p + 54) 8 ++ data := by
  have hdata : bytes (udp6SetData m p data) (p + 54 + 8) data.length =
      bytes (memcpy m (p + 62) data) (p + 62) data.length := by
    refine bytes_congr fun a ha _ => ?_
    rw [udp6SetData_eq hfit, storeCheck_of_ne (by omega) (by omega), udp6Fill_data ha]
  rw [(udp6SetData_header hfit).2, Nat.add_comm data.length 8, bytes_append]
  exact congrArg _ (hdata.trans (bytes_memcpy data))

theorem udp6SetData_check_eq_zero_iff : read16 (udp6SetData m p data) (p + 60) = 0 ↔
    65535 ∣ (words (pseudoHeader6 (blankCheck6 m p data) (p + 14) ++
      datagram6 (blankCheck6 m p data) (p + 14))).sum := by
  obtain ⟨hlen, hpseudo⟩ := header6_congr (udp6Fill m p data) (blankCheck6 m p data) (p + 14)
    fun a _ ha => write16_of_lt (by omega)
  have hfill := udp6Fill_length (m := m) (p := p) hfit
  rw [datagram6, bytes_length] at hfill
  have hdatagram : datagram6 (blankCheck6 m p data) (p + 14) =
      bytes (blankCheck6 m p data) (p + 54) (data.length + 8) := by
    rw [datagram6, hlen, hfill]
  have hsum : (words (pseudoHeader6 (blankCheck6 m p data) (p + 14) ++
      datagram6 (blankCheck6 m p data) (p + 14))).sum ≠ 0 := by
    rw [words_append (by rw [pseudoHeader6_length]), List.sum_append, pseudoHeader6_sum, hdatagram, bytes_length]
    omega
  have hzero := @storeCheck_eq_zero_iff (udp6Fill m p data) (p + 54) (data.length + 8)
    (pseudoHeader6 (udp6Fill m p data) (p + 14)) (by rw [pseudoHeader6_length]) (by rw [pseudoHeader6_length])
    (by omega)
  rw [hdatagram, hpseudo] at hsum ⊢
  rw [udp6SetData_eq hfit]
  exact hzero.trans (and_iff_right hsum)

end V6

/-! ## Results -/

section Results

variable (m : Mem) (p : Nat) (data : List UInt8)

/-- **The checksums are right** in a packet without IP options and in one of IPv6, and the receiver finds the
    UDP header and the payload behind the IP header. With options, the check of the datagram is right only if
    `p->udp` held it already. -/
theorem checksums_verify_iff :
    (5 ≤ ipHl m (p + 14) → data.length + 8 + 4 * ipHl m (p + 14) ≤ 65535 →
      (Sent (udpSetData m p data) p data ↔ ipHl m (p + 14) = 5 ∨ HeldRight m p data) ∧
        (ipHl m (p + 14) = 5 →
          datagram (udpSetData m p data) (p + 14) = bytes (udpSetData m p data) (p + 34) 8 ++ data ∧
            ntohs (read16 (udpSetData m p data) (p + 38)) = data.length + 8)) ∧
    (data.length + 8 ≤ 65535 → Verifies6 (udp6SetData m p data) (p + 14) ∧
      datagram6 (udp6SetData m p data) (p + 14) = bytes (udp6SetData m p data) (p + 54) 8 ++ data) := by
  constructor
  · intro h5 hfit
    exact ⟨udpSetData_sent_iff h5 hfit, fun h20 => udpSetData_payload h5 hfit h20⟩
  · intro hfit
    exact ⟨udp6SetData_verifies hfit, udp6SetData_payload hfit⟩

/-- The check of the datagram is stored as another number than zero, and the receiver finds it right. -/
def CheckSent : Prop :=
  read16 (udpSetData m p data) (p + 14 + 4 * ipHl m (p + 14) + 6) ≠ 0 ∧ Verifies (udpSetData m p data) (p + 14)

/-- The same for IPv6. -/
def CheckSent6 : Prop := read16 (udp6SetData m p data) (p + 60) ≠ 0 ∧ Verifies6 (udp6SetData m p data) (p + 14)

/-- **A check of zero.** The check is sent as zero where the words of pseudo-header and datagram add up to a
    multiple of 65535, and only there. -/
theorem check_sent_iff :
    (5 ≤ ipHl m (p + 14) → data.length + 8 + 4 * ipHl m (p + 14) ≤ 65535 →
      (CheckSent m p data ↔ ¬ 65535 ∣ (words (pseudoHeader (blankCheck m p data) (p + 14) ++
        datagram (blankCheck m p data) (p + 14))).sum)) ∧
    (data.length + 8 ≤ 65535 →
      (CheckSent6 m p data ↔ ¬ 65535 ∣ (words (pseudoHeader6 (blankCheck6 m p data) (p + 14) ++
        datagram6 (blankCheck6 m p data) (p + 14))).sum)) := by
  constructor
  · intro h5 hfit
    rw [CheckSent, Ne, udpSetData_check_eq_zero_iff h5 hfit]
    exact and_iff_left (udpSetData_verifies h5 hfit)
  · intro hfit
    rw [CheckSent6, Ne, udp6SetData_check_eq_zero_iff hfit]
    exact and_iff_left (udp6SetData_verifies hfit)

end Results

/-- A packet with a header of 20 bytes, from and to 0.0.0.0. -/
def emptyPacket : Mem := fun a => if a = 14 then 0x45 else if a = 23 then 17 else 0

/-- A packet of IPv6, from and to `::`. -/
def emptyPacket6 : Mem := fun a => if a = 14 then 0x60 else if a = 20 then 17 else 0

/-- A packet with a header of 24 bytes. -/
def optionPacket : Mem := fun a => if a = 14 then 0x46 else if a = 23 then 17 else 0

theorem checksums_verify_iff_three : Sent (udpSetData emptyPacket 0 [1, 2, 3]) 0 [1, 2, 3] ∧
    ¬ Sent (udpSetData optionPacket 0 [1, 2, 3]) 0 [1, 2, 3] ∧
      Verifies6 (udp6SetData emptyPacket6 0 [1, 2, 3]) 14 :=
  ⟨((checksums_verify_iff emptyPacket 0 [1, 2, 3]).1 (by decide) (by decide)).1.2 (.inl (by decide)),
    fun hsent => absurd (((checksums_verify_iff optionPacket 0 [1, 2, 3]).1 (by decide) (by decide)).1.1 hsent)
      (by unfold HeldRight; decide),
    ((checksums_verify_iff emptyPacket6 0 [1, 2, 3]).2 (by decide)).1⟩

/-- In the packet with options, the check of 0 that `p->udp` held stays there. -/
theorem checksums_fail : ¬ ∀ m p data, 5 ≤ ipHl m (p + 14) → data.length + 8 + 4 * ipHl m (p + 14) ≤ 65535 →
    Sent (udpSetData m p data) p data := by
  intro hall
  have hudp := (hall optionPacket 0 [1, 2, 3] (by decide) (by decide)).udp
  exact absurd hudp (by decide +kernel)

theorem check_sent_three : CheckSent emptyPacket 0 [1, 2, 3] ∧ CheckSent6 emptyPacket6 0 [1, 2, 3] :=
  ⟨((check_sent_iff emptyPacket 0 [1, 2, 3]).1 (by decide) (by decide)).2 (by decide +kernel),
    ((check_sent_iff emptyPacket6 0 [1, 2, 3]).2 (by decide)).2 (by decide +kernel)⟩

/-- Two bytes make the sum all ones. -/
theorem check_sent_zero :
    (¬ ∀ m p data, 5 ≤ ipHl m (p + 14) → data.length + 8 + 4 * ipHl m (p + 14) ≤ 65535 → CheckSent m p data) ∧
      ¬ ∀ m p data, data.length + 8 ≤ 65535 → CheckSent6 m p data := by
  constructor
  · intro hall
    exact (hall emptyPacket 0 [0xff, 0xda] (by decide) (by decide)).1 (by decide +kernel)
  · intro hall
    exact (hall emptyPacket6 0 [0xff, 0xda] (by decide)).1 (by decide +kernel)

end Yaos.Udp
