import Yaos.Lib.OnesComplement
import Yaos.Lib.Word

set_option autoImplicit false

/-! # Checksums of packets that are sent (`libs/net/ip.c`, `libs/net/udp.c`)

The packet is memory, addressed byte by byte. `checksum` reads it in the order of the machine and swaps the
bytes of each word; what the receiver adds up are the words of the packet in the order of the network. -/

namespace Yaos.Udp

/-- Memory, byte by byte. -/
abbrev Mem := Nat → UInt8

/-! ## Memory -/

/-- `*(u16 *)addr`, the low byte first. -/
def read16 (m : Mem) (addr : Nat) : Nat := (m addr).toNat + 256 * (m (addr + 1)).toNat

/-- Two bytes are written, the low one first. -/
def write16 (m : Mem) (addr v : Nat) : Mem :=
  Function.update (Function.update m addr (UInt8.ofNat v)) (addr + 1) (UInt8.ofNat (v / 256))

/-- The bytes `data` are copied to `addr`. -/
def memcpy (m : Mem) (addr : Nat) (data : List UInt8) : Mem := fun a =>
  if addr ≤ a then (data[a - addr]?).getD (m a) else m a

/-- `__builtin_bswap16((u16)x)`. -/
def bswap16 (x : Nat) : Nat := x % 256 * 256 + x / 256 % 256

/-- `ntohs`. -/
def ntohs (x : Nat) : Nat := bswap16 x

/-- `htons`. -/
def htons (x : Nat) : Nat := bswap16 x

/-- A 32-bit sum. -/
def add32 (a b : Nat) : Nat := (a + b) % 2 ^ 32

/-! ## `ip.c` -/

/-- The loop of `checksum` and the byte that is left over: `count` bytes from `addr`. -/
def sumBytes (m : Mem) : Nat → Nat → Nat → Nat
  | count + 2, addr, sum => sumBytes m count (addr + 2) (add32 sum (ntohs (read16 m addr)))
  | 1, addr, sum => add32 sum (ntohs (m addr).toNat)
  | 0, _, sum => sum

/-- `while (sum >> 16)`. Each turn makes the sum smaller. -/
def foldSum : Nat → Nat → Nat
  | 0, sum => sum
  | fuel + 1, sum => if sum / 65536 ≠ 0 then foldSum fuel (sum % 65536 + sum / 65536) else sum

/-- `checksum` of `ip.c`, over `count` bytes from `addr` on. -/
def checksum (m : Mem) (init addr count : Nat) : Nat :=
  let sum := sumBytes m count addr init
  (2 ^ 32 - 1 - foldSum sum sum) % 2 ^ 16

/-- The bit field `ip_hl`, the lower half of the first byte. -/
def ipHl (m : Mem) (iphdrp : Nat) : Nat := (m iphdrp).toNat % 16

/-- `ip_set_checksum`. -/
def ipSetChecksum (m : Mem) (iphdrp : Nat) : Mem :=
  let m := write16 m (iphdrp + 10) 0
  write16 m (iphdrp + 10) (htons (checksum m 0 iphdrp (4 * ipHl m iphdrp)))

/-- `ip_src`, `ip_dst`, `ip_p` and the length. -/
def ipSetUdpChecksum (m : Mem) (iphdrp : Nat) : Mem :=
  let udphdrp := iphdrp + 4 * ipHl m iphdrp
  let m := write16 m (udphdrp + 6) 0
  let udplen := Word.wsub (ntohs (read16 m (iphdrp + 2))) (4 * ipHl m iphdrp)
  let cksum := add32 0 (ntohs (read16 m (iphdrp + 12)))
  let cksum := add32 cksum (ntohs (read16 m (iphdrp + 14)))
  let cksum := add32 cksum (ntohs (read16 m (iphdrp + 16)))
  let cksum := add32 cksum (ntohs (read16 m (iphdrp + 18)))
  let cksum := add32 cksum (m (iphdrp + 9)).toNat
  let cksum := add32 cksum udplen
  write16 m (udphdrp + 6) (htons (checksum m cksum udphdrp udplen))

/-- The 16 words of `saddr` and `daddr`, `nexthdr` and the length. -/
def ipSetUdp6Checksum (m : Mem) (iphdrp : Nat) : Mem :=
  let udphdrp := iphdrp + 40
  let m := write16 m (udphdrp + 6) 0
  let udplen := ntohs (read16 m (iphdrp + 4))
  let cksum := (List.range 16).foldl (fun c i => add32 c (ntohs (read16 m (iphdrp + 8 + 2 * i)))) 0
  let cksum := add32 cksum (m (iphdrp + 6)).toNat
  let cksum := add32 cksum udplen
  write16 m (udphdrp + 6) (htons (checksum m cksum udphdrp udplen))

/-! ## `udp.c`

In both packets the IP header is behind the 14 bytes of the Ethernet header. -/

/-- `p->data` and the fields of lengths, for a header of 20 bytes. -/
def udpFill (m : Mem) (p : Nat) (data : List UInt8) : Mem :=
  let m := memcpy m (p + 42) data
  let m := write16 m (p + 38) (htons (data.length + 8))
  write16 m (p + 16) (htons (data.length + 8 + 4 * ipHl m (p + 14)))

/-- `udp_set_data`. -/
def udpSetData (m : Mem) (p : Nat) (data : List UInt8) : Mem :=
  ipSetUdpChecksum (ipSetChecksum (udpFill m p data) (p + 14)) (p + 14)

/-- What `udp6_set_data` writes before the check. -/
def udp6Fill (m : Mem) (p : Nat) (data : List UInt8) : Mem :=
  let m := memcpy m (p + 62) data
  let m := write16 m (p + 58) (htons (data.length + 8))
  write16 m (p + 18) (read16 m (p + 58))

/-- `udp6_set_data`. -/
def udp6SetData (m : Mem) (p : Nat) (data : List UInt8) : Mem :=
  ipSetUdp6Checksum (udp6Fill m p data) (p + 14)

/-! ## The receiver -/

/-- `count` bytes from `addr` on. -/
def bytes (m : Mem) (addr count : Nat) : List UInt8 := (List.range' addr count).map m

/-- A number in two bytes, in the order of the network. -/
def be16 (x : Nat) : List UInt8 := [UInt8.ofNat (x / 256), UInt8.ofNat x]

/-- The IPv4 header, as long as `ip_hl` says. -/
def ipHeader (m : Mem) (ip : Nat) : List UInt8 := bytes m ip (4 * ipHl m ip)

/-- What is behind the header up to the total length. -/
def datagram (m : Mem) (ip : Nat) : List UInt8 :=
  bytes m (ip + 4 * ipHl m ip) (ntohs (read16 m (ip + 2)) - 4 * ipHl m ip)

/-- Source, destination, protocol and length. -/
def pseudoHeader (m : Mem) (ip : Nat) : List UInt8 :=
  bytes m (ip + 12) 8 ++ [0, m (ip + 9)] ++ be16 (datagram m ip).length

/-- What follows the IPv6 header, as long as its length field says. -/
def datagram6 (m : Mem) (ip : Nat) : List UInt8 := bytes m (ip + 40) (ntohs (read16 m (ip + 4)))

/-- The pseudo-header of IPv6. -/
def pseudoHeader6 (m : Mem) (ip : Nat) : List UInt8 :=
  bytes m (ip + 8) 32 ++ [0, 0] ++ be16 (datagram6 m ip).length ++ [0, 0, 0, m (ip + 6)]

/-- What the receiver of an IPv4 packet adds up. -/
structure Verifies (m : Mem) (ip : Nat) : Prop where
  header : OnesComplement.sum 0xffff (OnesComplement.words (ipHeader m ip)) = 0xffff
  udp : OnesComplement.sum 0xffff (OnesComplement.words (pseudoHeader m ip ++ datagram m ip)) = 0xffff

/-- The receiver accepts the check of an IPv6 datagram. -/
def Verifies6 (m : Mem) (ip : Nat) : Prop :=
  OnesComplement.sum 0xffff (OnesComplement.words (pseudoHeader6 m ip ++ datagram6 m ip)) = 0xffff

/-- The words of source, destination, protocol and length, for a payload of `len` bytes, and of `p->udp`. -/
def udpHeaders (m : Mem) (p len : Nat) : List UInt8 :=
  bytes m (p + 26) 8 ++ [0, m (p + 23)] ++ be16 (len + 8) ++ bytes m (p + 34) 8

/-- The packet at `p` has the right checksums: the words of the IP header add up to all ones, and those of the
    pseudo-header, of the UDP header `p->udp` and of the payload. -/
structure Sent (m : Mem) (p : Nat) (data : List UInt8) : Prop where
  header : OnesComplement.sum 0xffff (OnesComplement.words (ipHeader m (p + 14))) = 0xffff
  udp : OnesComplement.sum 0xffff (OnesComplement.words (udpHeaders m p data.length ++ data)) = 0xffff

end Yaos.Udp
