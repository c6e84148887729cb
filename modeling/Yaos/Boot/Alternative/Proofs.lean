import Mathlib.Tactic.IntervalCases
import Yaos.Boot.Alternative

set_option autoImplicit false

/-! # Patched code does what the replacement does

`transfer` is what a call or a jump at an address does, and `Nops` is code without effect. One round writes
the replacement with its target kept and then no-operations. Over the whole table, this is so at each place
that no later entry writes to. -/

namespace Yaos

open ByteMemory

namespace Alternative

/-! ## No-operations -/

/-- The length of an operand, from its ModRM byte on. -/
def operandLength (modrm sib : Byte) : Nat :=
  let mod := modrm >>> 6
  let rm := modrm &&& 7
  let base := if rm = 4 then sib &&& 7 else rm
  let sibLength := if mod ≠ 3 ∧ rm = 4 then 1 else 0
  let displacement := if mod = 1 then 1 else if mod = 2 ∨ mod = 0 ∧ base = 5 then 4 else 0
  1 + sibLength + displacement

/-- The length of the no-operation that some code starts with: `nop` or `nopl`, with size prefixes. -/
def nopLength : List Byte → Option Nat
  | [] => none
  | b :: bs =>
    if b = 0x90 then some 1
    else if b = 0x66 then (nopLength bs).map (· + 1)
    else
      match bs with
      | c :: modrm :: rest =>
        if b = 0x0f ∧ c = 0x1f then some (2 + operandLength modrm (rest.headD 0)) else none
      | _ => none

/-- The bytes are instructions that do nothing, one after the other. -/
inductive Nops : List Byte → Prop
  | nil : Nops []
  | insn {bs : List Byte} {k : Nat} (h : nopLength bs = some k) (rest : Nops (bs.drop k)) : Nops bs

theorem nopLength_idealNops {k : Nat} (hpos : 0 < k) (hk : k ≤ asmNopMax) (rest : List Byte) :
    nopLength (idealNops k ++ rest) = some k := by
  change k ≤ 8 at hk
  interval_cases k <;> rfl

theorem idealNops_length {k : Nat} (hk : k ≤ asmNopMax) : (idealNops k).length = k := by
  change k ≤ 8 at hk
  interval_cases k <;> rfl

/-- What `addNops` writes. -/
def nops (len : Nat) : List Byte :=
  if 0 < len then idealNops (min len asmNopMax) ++ nops (len - min len asmNopMax) else []
termination_by len
decreasing_by
  rename_i h
  have hmin : 0 < min len asmNopMax := Nat.lt_min.2 ⟨h, by decide⟩
  omega

theorem nops_length (len : Nat) : (nops len).length = len := by
  induction len using nops.induct with
  | case1 len hpos ih =>
      rw [nops, if_pos hpos, List.length_append, idealNops_length (Nat.min_le_right _ _), ih]
      omega
  | case2 len hzero =>
      rw [nops, if_neg hzero]
      exact (Nat.eq_zero_of_not_pos hzero).symm

theorem nops_nops (len : Nat) : Nops (nops len) := by
  induction len using nops.induct with
  | case1 len hpos ih =>
      have hmin : 0 < min len asmNopMax := Nat.lt_min.2 ⟨hpos, by decide⟩
      rw [nops, if_pos hpos]
      refine Nops.insn (nopLength_idealNops hmin (Nat.min_le_right _ _) _) ?_
      rwa [List.drop_left' (idealNops_length (Nat.min_le_right _ _))]
  | case2 len hzero =>
      rw [nops, if_neg hzero]
      exact Nops.nil

theorem addNops_eq {w : Nat} (m : Mem w) (p : BitVec w) (len : Nat) (hlen : len ≤ 2 ^ w) :
    addNops m p len = poke m p (nops len) := by
  induction len using nops.induct generalizing m p with
  | case1 len hpos ih =>
      have hideal := idealNops_length (k := min len asmNopMax) (Nat.min_le_right _ _)
      have happend := poke_append m p (idealNops (min len asmNopMax))
        (nops (len - min len asmNopMax)) (by rw [hideal, nops_length]; omega)
      rw [hideal] at happend
      rw [addNops, nops, if_pos hpos, if_pos hpos]
      dsimp only
      rw [ih _ _ (by omega), happend]
  | case2 len hzero =>
      rw [addNops, nops, if_neg hzero, if_neg hzero, poke_nil]

/-! ## Calls and jumps -/

/-- A call or a jump. -/
inductive Transfer where
  | call (target : BitVec 64)
  | jmp (target : BitVec 64)
deriving DecidableEq

/-- The call or the jump at `rip`, if there is one with a relative target. -/
def transfer (m : Mem 64) (rip : BitVec 64) : Option Transfer :=
  let rel32 : BitVec 32 := load 4 m (rip + 1)
  if m rip = 0xe8 then some (.call (rip + 5 + rel32.signExtend 64))
  else if m rip = 0xe9 then some (.jmp (rip + 5 + rel32.signExtend 64))
  else if m rip = 0xeb then some (.jmp (rip + 2 + (m (rip + 1)).signExtend 64))
  else none

/-- Where it leads. -/
def Transfer.target : Transfer → BitVec 64
  | .call t | .jmp t => t

/-- The target is in reach of a jump with a 32-bit displacement at `rip`. -/
def Near (t rip : BitVec 64) : Prop := -2 ^ 31 + 5 ≤ (t - rip).toInt ∧ (t - rip).toInt < 2 ^ 31

instance (t rip : BitVec 64) : Decidable (Near t rip) := inferInstanceAs (Decidable (_ ∧ _))

theorem transfer_call {m : Mem 64} {rip : BitVec 64} (h : m rip = 0xe8) :
    transfer m rip = some (.call (rip + 5 + (load 4 m (rip + 1) : BitVec 32).signExtend 64)) := by
  simp [transfer, h]

theorem transfer_jmp {m : Mem 64} {rip : BitVec 64} (h : m rip = 0xe9) :
    transfer m rip = some (.jmp (rip + 5 + (load 4 m (rip + 1) : BitVec 32).signExtend 64)) := by
  simp [transfer, h]

theorem transfer_short {m : Mem 64} {rip : BitVec 64} (h : m rip = 0xeb) :
    transfer m rip = some (.jmp (rip + 2 + (m (rip + 1)).signExtend 64)) := by
  simp [transfer, h]

theorem transfer_congr {m m' : Mem 64} {rip : BitVec 64} (h : ∀ i < 5, m (off rip i) = m' (off rip i)) :
    transfer m rip = transfer m' rip := by
  have h0 : m rip = m' rip := by simpa using h 0 (by decide)
  have h1 : m (rip + 1) = m' (rip + 1) := h 1 (by decide)
  have hrel : load 4 m (rip + 1) = load 4 m' (rip + 1) := by
    refine load_congr 4 fun i hi => ?_
    have hi := h (1 + i) (by omega)
    rwa [off, ← add_ofNat] at hi
  simp only [transfer, h0, h1, hrel]

theorem toInt_setWidth_of_fits {k : Nat} (hk : k < 64) {d : BitVec 64} (hlow : -2 ^ k ≤ d.toInt)
    (hhigh : d.toInt < 2 ^ k) : (d.setWidth (k + 1)).toInt = d.toInt := by
  have hpow : ((2 ^ (k + 1) : Nat) : Int) = 2 * 2 ^ k := by
    push_cast
    ring
  rw [← BitVec.signExtend_eq_setWidth_of_le d (by omega), BitVec.toInt_signExtend_eq_toInt_bmod_of_le _ (by omega)]
  refine Int.bmod_eq_of_le ?_ ?_ <;> rw [hpow] <;> omega

/-- A displacement that fits is the same after it has been narrowed and widened. -/
theorem signExtend_setWidth {k : Nat} (hk : k < 64) {d : BitVec 64} (hlow : -2 ^ k ≤ d.toInt)
    (hhigh : d.toInt < 2 ^ k) : (d.setWidth (k + 1)).signExtend 64 = d := by
  apply BitVec.eq_of_toInt_eq
  rw [BitVec.toInt_signExtend_of_le (by omega), toInt_setWidth_of_fits hk hlow hhigh]

theorem toInt_sub_of_fits {k : Nat} {d c : BitVec (k + 1)} (hlow : -2 ^ k ≤ d.toInt - c.toInt)
    (hhigh : d.toInt - c.toInt < 2 ^ k) : (d - c).toInt = d.toInt - c.toInt := by
  have hpow : ((2 ^ (k + 1) : Nat) : Int) = 2 * 2 ^ k := by
    push_cast
    ring
  rw [BitVec.toInt_sub]
  refine Int.bmod_eq_of_le ?_ ?_ <;> rw [hpow] <;> omega

theorem setWidth_32_sub (x y : BitVec 64) : (x - y).setWidth 32 = x.setWidth 32 - y.setWidth 32 := by
  have hy := y.isLt
  apply BitVec.eq_of_toNat_eq
  simp only [BitVec.toNat_setWidth, BitVec.toNat_sub]
  omega

theorem rel32_of_bytes {w w' : Nat} {m : Mem w} {m' : Mem w'} {a : BitVec w} {b : BitVec w'}
    (h : bytes m a 5 = bytes m' b 5) : m a = m' b ∧ load 4 m (a + 1) = load 4 m' (b + 1) := by
  constructor
  · simpa using bytes_inj h (i := 0) (by decide)
  · refine load_congr 4 fun i hi => ?_
    have hi := bytes_inj h (i := 1 + i) (by omega)
    rwa [off, off, ← add_ofNat, ← add_ofNat] at hi

theorem store_at_1 (insnbuf : Mem 8) (v : BitVec 32) :
    store 4 insnbuf 1 v 0 = insnbuf 0 ∧ load 4 (store 4 insnbuf 1 v) 1 = v :=
  ⟨rfl, load_store (k := 4) insnbuf 1 v (by decide)⟩

/-- The 2-byte jump of `recomputeJump`, with the rest of the 5 bytes. -/
theorem bytes_short {insnbuf : Mem 8} (x : Byte) :
    bytes (addNops (poke insnbuf 0 [0xeb, x]) 2 3) 0 5 = 0xeb :: x :: nops 3 := by
  have happend := poke_append insnbuf 0 [0xeb, x] (nops 3)
    (by rw [nops_length]; exact Nat.le_of_ble_eq_true rfl)
  have hstart : off (0 : BitVec 8) [0xeb, x].length = 2 := rfl
  rw [hstart] at happend
  have hlen : ([0xeb, x] ++ nops 3).length = 5 := by rw [List.length_append, nops_length]; rfl
  have hbytes := bytes_poke insnbuf 0 ([0xeb, x] ++ nops 3) (by rw [hlen]; decide)
  rw [hlen] at hbytes
  rw [addNops_eq _ _ _ (by decide), happend, hbytes]
  rfl

/-- The 5-byte jump of `recomputeJump`. -/
theorem bytes_long (insnbuf : Mem 8) (v : BitVec 32) :
    let b := store 4 (poke insnbuf 0 [0xe9]) 1 v
    b 0 = 0xe9 ∧ load 4 b 1 = v := store_at_1 _ v

theorem twoByteJmp_eq {instr tgt : BitVec 64} (hnear : Near tgt instr) :
    twoByteJmp instr tgt = decide (0 ≤ (tgt - instr).toInt ∧ (tgt - instr).toInt ≤ 129) := by
  obtain ⟨hlow, hhigh⟩ := hnear
  unfold twoByteJmp
  generalize tgt - instr = d at hlow hhigh ⊢
  have hval := toInt_setWidth_of_fits (k := 31) (d := d) (by decide) (by omega) hhigh
  have htwo : (2 : BitVec 32).toInt = 2 := by decide
  have hsub : (d.setWidth 32 - 2).toInt = d.toInt - 2 := by
    rw [toInt_sub_of_fits (k := 31) (by rw [hval, htwo]; omega) (by rw [hval, htwo]; omega), hval, htwo]
  by_cases hpos : 0 ≤ d.toInt
  · have hmax : (127 : BitVec 32).toInt = 127 := by decide
    simp only [hpos, if_true, true_and, BitVec.sle_eq_decide, hsub, hmax]
    exact decide_eq_decide.2 (by omega)
  · have hne : ¬ (d.setWidth 32 - 2) &&& 0xff = d.setWidth 32 - 2 := by
      intro heq
      have hnat := congrArg BitVec.toNat heq
      rw [BitVec.toNat_and] at hnat
      have hle : (d.setWidth 32 - 2).toNat ≤ 0xff := by
        rw [← hnat]
        exact Nat.and_le_right
      have hcond := BitVec.toInt_eq_toNat_cond (d.setWidth 32 - 2)
      rw [hsub, if_pos (by omega)] at hcond
      omega
    rw [if_neg hpos, beq_eq_false_iff_ne.2 hne, decide_eq_false fun hc => hpos hc.1]

/-- The result of `recomputeJump` is a jump to where the replacement jumps. -/
theorem recomputeJump_spec {a : AltInstr} {instr replacement : BitVec 64} {insnbuf : Mem 8}
    (hlen : a.replacementlen = 5)
    (hnear : Near (replacement + 5 + (load 4 insnbuf 1 : BitVec 32).signExtend 64) instr)
    {m : Mem 64} (hm : bytes m instr 5 = bytes (recomputeJump a instr replacement insnbuf) 0 5) :
    transfer m instr = some (.jmp (replacement + 5 + (load 4 insnbuf 1 : BitVec 32).signExtend 64)) := by
  have hfive : (5 : BitVec 8).setWidth 64 = (5 : BitVec 64) := rfl
  simp only [recomputeJump, hlen, hfive, ne_eq, not_true_eq_false, if_false, twoByteJmp_eq hnear] at hm
  generalize replacement + 5 + (load 4 insnbuf 1 : BitVec 32).signExtend 64 = tgt at hnear hm ⊢
  obtain ⟨hlow, hhigh⟩ := hnear
  by_cases hshort : 0 ≤ (tgt - instr).toInt ∧ (tgt - instr).toInt ≤ 129
  · rw [if_pos (decide_eq_true hshort), bytes_short, bytes_succ, bytes_succ] at hm
    obtain ⟨hop, hrest⟩ := List.cons.inj hm
    obtain ⟨hrel, -⟩ := List.cons.inj hrest
    have htwo : (2 : BitVec 64).toInt = 2 := by decide
    have hsub : (tgt - instr - 2).toInt = (tgt - instr).toInt - 2 := by
      rw [toInt_sub_of_fits (k := 63) (by rw [htwo]; omega) (by rw [htwo]; omega), htwo]
    have hnarrow : ((tgt - instr).setWidth 32 - 2).setWidth 8 = (tgt - instr - 2).setWidth 8 := by
      have hwide : (tgt - instr).setWidth 32 - 2 = (tgt - instr - 2).setWidth 32 :=
        (setWidth_32_sub (tgt - instr) 2).symm
      rw [hwide, BitVec.setWidth_setWidth_of_le _ (by decide)]
    have hwide : ((tgt - instr - 2).setWidth 8).signExtend 64 = tgt - instr - 2 :=
      signExtend_setWidth (k := 7) (by decide) (by omega) (by omega)
    have htarget : instr + 2 + (tgt - instr - 2) = tgt := by ring
    rw [transfer_short hop, hrel, hnarrow, hwide, htarget]
  · rw [if_neg (by simpa using hshort)] at hm
    obtain ⟨hop, hrel⟩ := rel32_of_bytes hm
    obtain ⟨hfirst, hload⟩ := bytes_long insnbuf ((tgt - instr).setWidth 32 - 5)
    have hop : m instr = 0xe9 := hop.trans hfirst
    have hrel : load 4 m (instr + 1) = (tgt - instr).setWidth 32 - 5 := hrel.trans hload
    have hfiveInt : (5 : BitVec 64).toInt = 5 := by decide
    have hsub : (tgt - instr - 5).toInt = (tgt - instr).toInt - 5 := by
      rw [toInt_sub_of_fits (k := 63) (by rw [hfiveInt]; omega) (by rw [hfiveInt]; omega), hfiveInt]
    have hnarrow : (tgt - instr).setWidth 32 - 5 = (tgt - instr - 5).setWidth 32 :=
      (setWidth_32_sub (tgt - instr) 5).symm
    have hwide : ((tgt - instr - 5).setWidth 32).signExtend 64 = tgt - instr - 5 :=
      signExtend_setWidth (k := 31) (by decide) (by omega) (by omega)
    have htarget : instr + 5 + (tgt - instr - 5) = tgt := by ring
    rw [transfer_jmp hop, hrel, hnarrow, hwide, htarget]

theorem setWidth_signExtend (v : BitVec 32) : (v.signExtend 64).setWidth 32 = v := by
  apply BitVec.eq_of_getLsbD_eq
  intro i hi
  have hi64 : i < 64 := by omega
  rw [BitVec.getLsbD_setWidth, BitVec.getLsbD_signExtend]
  simp [hi, hi64]

/-- A call keeps its target when the displacement is moved by the distance. -/
theorem call_moved {instr replacement : BitVec 64} {rel : BitVec 32}
    (hnear : Near (replacement + 5 + rel.signExtend 64) instr) :
    instr + 5 + (rel + (replacement - instr).setWidth 32).signExtend 64 =
      replacement + 5 + rel.signExtend 64 := by
  have hrel : rel + (replacement - instr).setWidth 32 =
      (replacement + 5 + rel.signExtend 64 - instr - 5).setWidth 32 := by
    have hring : replacement + 5 + rel.signExtend 64 - instr - 5 =
        rel.signExtend 64 + (replacement - instr) := by ring
    rw [hring, BitVec.setWidth_add _ _ (by decide), setWidth_signExtend]
  obtain ⟨hlow, hhigh⟩ := hnear
  generalize replacement + 5 + rel.signExtend 64 = tgt at hlow hhigh hrel ⊢
  have hfiveInt : (5 : BitVec 64).toInt = 5 := by decide
  have hsub : (tgt - instr - 5).toInt = (tgt - instr).toInt - 5 := by
    rw [toInt_sub_of_fits (k := 63) (by rw [hfiveInt]; omega) (by rw [hfiveInt]; omega), hfiveInt]
  have hwide : ((tgt - instr - 5).setWidth 32).signExtend 64 = tgt - instr - 5 :=
    signExtend_setWidth (k := 31) (by decide) (by omega) (by omega)
  rw [hrel, hwide]
  ring

/-! ## One entry -/

/-- What the entry at `p` in the table is about. -/
structure Site where
  instr : BitVec 64
  replacement : BitVec 64
  instrlen : Nat
  replacementlen : Nat
  cpuid : Nat
deriving DecidableEq

/-- The entry at `p`, with its offsets resolved. -/
def site (m : Mem 64) (p : BitVec 64) : Site where
  instr := p + (altInstr m p).instrOffset.signExtend 64
  replacement := p + 4 + (altInstr m p).replOffset.signExtend 64
  instrlen := (altInstr m p).instrlen.toNat
  replacementlen := (altInstr m p).replacementlen.toNat
  cpuid := (altInstr m p).cpuid.toNat

/-- How many bytes are written. -/
def Site.size (s : Site) : Nat := s.replacementlen + (s.instrlen - s.replacementlen)

/-- The assertions hold, and the replacement fits into `insnbuf`, which is not asserted. -/
structure Site.Checked (s : Site) : Prop where
  instrlen : s.instrlen ≤ maxPatchLen
  replacementlen : s.replacementlen ≤ maxPatchLen
  cpuid : s.cpuid < nCpuBits

/-- In `m'` the code at the site does what the replacement does in `m`, and goes on behind it. -/
structure Site.Patched (s : Site) (m m' : Mem 64) : Prop where
  nops : Nops (bytes m' (off s.instr s.replacementlen) (s.instrlen - s.replacementlen))
  plain : (∀ op ∈ [0xe8, 0xe9, 0xeb], m s.replacement ≠ op) →
    bytes m' s.instr s.replacementlen = bytes m s.replacement s.replacementlen
  moved : s.replacementlen = 5 → m s.replacement ≠ 0xeb → ∀ t, transfer m s.replacement = some t →
    Near t.target s.instr → transfer m' s.instr = some t

theorem Site.Checked.size_le {s : Site} (h : s.Checked) : s.size ≤ maxPatchLen := by
  have hinstr := h.instrlen
  have hreplacement := h.replacementlen
  unfold Site.size
  omega

/-- The bytes that are written: the replacement as it is in `insnbuf`, and the padding. -/
theorem bytes_padded (insnbuf : Mem 8) {k n : Nat} (h : k + (n - k) ≤ maxPatchLen) :
    bytes (if k < n then addNops insnbuf (BitVec.ofNat 8 k) (n - k) else insnbuf) 0 (k + (n - k)) =
      bytes insnbuf 0 k ++ nops (n - k) := by
  have hmax : maxPatchLen = 254 := rfl
  have hlen := nops_length (n - k)
  have hstart : off (0 : BitVec 8) k = BitVec.ofNat 8 k := BitVec.zero_add _
  split
  · rw [addNops_eq _ _ _ (by omega), bytes_add, hstart]
    congr 1
    · rw [← hstart]
      exact bytes_congr fun i hi => poke_before insnbuf 0 hi (by omega)
    · have hpoke := bytes_poke insnbuf (BitVec.ofNat 8 k) (nops (n - k)) (by omega)
      rwa [hlen] at hpoke
  · have hzero : n - k = 0 := by omega
    have hnil : nops 0 = [] := List.length_eq_zero_iff.1 (nops_length 0)
    rw [hzero, hnil, Nat.add_zero, List.append_nil]

theorem copyReplacement_plain {m : Mem 64} {a : AltInstr} {instr replacement : BitVec 64}
    {insnbuf : Mem 8} (hlen : a.replacementlen.toNat ≤ maxPatchLen)
    (hplain : ∀ op ∈ [0xe8, 0xe9, 0xeb], m replacement ≠ op) :
    bytes (copyReplacement m a instr replacement insnbuf) 0 a.replacementlen.toNat =
      bytes m replacement a.replacementlen.toNat := by
  have hmax : maxPatchLen = 254 := rfl
  have hcopied := bytes_poke insnbuf 0 (bytes m replacement a.replacementlen.toNat)
    (by rw [bytes_length]; omega)
  rw [bytes_length] at hcopied
  have hcall : ¬ (poke insnbuf 0 (bytes m replacement a.replacementlen.toNat) 0 = 0xe8 ∧
      a.replacementlen.toNat = 5) := by
    rintro ⟨hop, hfive⟩
    rw [hfive] at hcopied hop
    have hfirst := (rel32_of_bytes hcopied).1
    exact hplain 0xe8 (by decide) (hfirst.symm.trans hop)
  have hjmp : isJmp (m replacement) = false := by
    rw [isJmp, beq_eq_false_iff_ne.2 (hplain 0xeb (by decide)),
      beq_eq_false_iff_ne.2 (hplain 0xe9 (by decide))]
    rfl
  unfold copyReplacement
  dsimp only
  rw [if_neg hcall, hjmp, if_neg (by simp), hcopied]

theorem copyReplacement_moved {m m' : Mem 64} {a : AltInstr} {instr replacement : BitVec 64}
    {insnbuf : Mem 8} {t : Transfer} (hlen : a.replacementlen.toNat = 5) (hlong : m replacement ≠ 0xeb)
    (ht : transfer m replacement = some t) (hnear : Near t.target instr)
    (hm : bytes m' instr 5 = bytes (copyReplacement m a instr replacement insnbuf) 0 5) :
    transfer m' instr = some t := by
  have hlen' : a.replacementlen = 5 := BitVec.eq_of_toNat_eq hlen
  have hcopied := bytes_poke insnbuf 0 (bytes m replacement 5) (by rw [bytes_length]; decide)
  rw [bytes_length] at hcopied
  obtain ⟨hfirst, hrel⟩ := rel32_of_bytes hcopied
  unfold copyReplacement at hm
  dsimp only at hm
  rw [hlen] at hm
  generalize poke insnbuf 0 (bytes m replacement 5) = copied at hm hfirst hrel
  by_cases hcall : m replacement = 0xe8
  · have hjmp : isJmp (m replacement) = false := by
      rw [hcall]
      rfl
    rw [transfer_call hcall] at ht
    obtain rfl := Option.some.inj ht
    rw [hjmp, if_neg (by simp), if_pos ⟨hfirst.trans hcall, rfl⟩] at hm
    obtain ⟨hop, hload⟩ := rel32_of_bytes hm
    obtain ⟨hkept, hstored⟩ := store_at_1 copied
      (load 4 copied 1 + (replacement - instr).setWidth (8 * 4))
    have hop : m' instr = 0xe8 := (hop.trans hkept).trans (hfirst.trans hcall)
    have hload : load 4 m' (instr + 1) =
        load 4 m (replacement + 1) + (replacement - instr).setWidth (8 * 4) := by
      rw [← hrel]
      exact hload.trans hstored
    rw [transfer_call hop, hload, call_moved hnear]
  by_cases hjmp : m replacement = 0xe9
  · have hnocall : ¬ (copied 0 = 0xe8 ∧ 5 = 5) := fun hc => hcall (hfirst.symm.trans hc.1)
    have hisjmp : isJmp (m replacement) = true := by
      rw [hjmp]
      rfl
    have hrel : load 4 copied 1 = load 4 m (replacement + 1) := hrel
    rw [transfer_jmp hjmp] at ht
    obtain rfl := Option.some.inj ht
    rw [if_neg hnocall, if_pos ⟨by decide, hisjmp⟩] at hm
    have hspec := recomputeJump_spec hlen' (by rw [hrel]; exact hnear) hm
    rwa [hrel] at hspec
  · unfold transfer at ht
    dsimp only at ht
    rw [if_neg hcall, if_neg hjmp, if_neg hlong] at ht
    cases ht

/-- The bytes that a round writes. -/
theorem applyOne_eq {m : Mem 64} (insnbuf : Mem 8) {p : BitVec 64} (h : (site m p).Checked) :
    ∃ insnbuf', applyOne m insnbuf p = some (poke m (site m p).instr
      (bytes (copyReplacement m (altInstr m p) (site m p).instr (site m p).replacement insnbuf) 0
        (site m p).replacementlen ++ nops ((site m p).instrlen - (site m p).replacementlen)),
      insnbuf') := by
  have hpadded := bytes_padded
    (copyReplacement m (altInstr m p) (site m p).instr (site m p).replacement insnbuf) h.size_le
  rw [← hpadded]
  have hlong : ¬ maxPatchLen < (altInstr m p).instrlen.toNat := Nat.not_lt.2 h.instrlen
  have hfeature : ¬ nCpuBits ≤ (altInstr m p).cpuid.toNat := Nat.not_le.2 h.cpuid
  unfold applyOne
  dsimp only
  rw [if_neg hlong, if_neg hfeature]
  exact ⟨_, rfl⟩

theorem applyOne_spec {m : Mem 64} (insnbuf : Mem 8) {p : BitVec 64} (h : (site m p).Checked) :
    ∃ m' insnbuf', applyOne m insnbuf p = some (m', insnbuf') ∧ (site m p).Patched m m' ∧
      ∀ x, (site m p).size ≤ (x - (site m p).instr).toNat → m' x = m x := by
  obtain ⟨insnbuf', heq⟩ := applyOne_eq insnbuf h
  have hsize : (site m p).size ≤ 254 := h.size_le
  generalize hcode : bytes
    (copyReplacement m (altInstr m p) (site m p).instr (site m p).replacement insnbuf) 0
    (site m p).replacementlen = code at heq
  have hcodeLen : code.length = (site m p).replacementlen := by rw [← hcode, bytes_length]
  have hlen : (code ++ nops ((site m p).instrlen - (site m p).replacementlen)).length =
      (site m p).size := by
    rw [List.length_append, hcodeLen, nops_length]
    rfl
  have hwritten := bytes_poke m (site m p).instr (code ++
    nops ((site m p).instrlen - (site m p).replacementlen)) (by rw [hlen]; omega)
  rw [hlen, Site.size, bytes_add] at hwritten
  generalize hresult : poke m (site m p).instr
    (code ++ nops ((site m p).instrlen - (site m p).replacementlen)) = m' at heq hwritten
  obtain ⟨hfront, hback⟩ := List.append_inj hwritten (by rw [bytes_length, hcodeLen])
  refine ⟨m', insnbuf', heq, ⟨?_, fun hops => ?_, fun hfive hlong t ht hnear => ?_⟩, fun x hx => ?_⟩
  · rw [hback]
    exact nops_nops _
  · rw [hfront, ← hcode]
    exact copyReplacement_plain h.replacementlen hops
  · rw [← hcode, hfive] at hfront
    exact copyReplacement_moved hfive hlong ht hnear hfront
  · rw [← hresult]
    exact poke_frame m (by rwa [hlen])

/-! ## The table -/

/-- The entry `i` of the table at `start`. -/
def entry (m : Mem 64) (start : BitVec 64) (i : Nat) : Site := site m (off start (16 * i))

/-- What the linker script sees to: the code to be patched, the replacements and the table of `n` entries
are in different places. -/
structure Linked (m : Mem 64) (start : BitVec 64) (n : Nat) : Prop where
  size : 16 * n ≤ 2 ^ 64
  checked : ∀ i < n, (entry m start i).Checked
  table : ∀ i < n, Separate (entry m start i).instr (entry m start i).size start (16 * n)
  replacement : ∀ i < n, ∀ j < n, Separate (entry m start i).instr (entry m start i).size
    (entry m start j).replacement (entry m start j).replacementlen

theorem altInstr_congr {m m' : Mem 64} {p : BitVec 64} (h : ∀ i < 16, m (off p i) = m' (off p i)) :
    altInstr m p = altInstr m' p := by
  have hload : ∀ (a k : Nat), a + k ≤ 16 → load k m (off p a) = load k m' (off p a) := by
    intro a k hak
    refine load_congr k fun i hi => ?_
    rw [add_ofNat]
    exact h (a + i) (by omega)
  have h0 : load 4 m p = load 4 m' p := by simpa using hload 0 4 (by decide)
  have h4 : load 4 m (p + 4) = load 4 m' (p + 4) := hload 4 4 (by decide)
  have h8 : load 2 m (p + 8) = load 2 m' (p + 8) := hload 8 2 (by decide)
  have h10 : load 1 m (p + 10) = load 1 m' (p + 10) := hload 10 1 (by decide)
  have h11 : load 1 m (p + 11) = load 1 m' (p + 11) := hload 11 1 (by decide)
  have h12 : load 4 m (p + 12) = load 4 m' (p + 12) := hload 12 4 (by decide)
  simp only [altInstr, h0, h4, h8, h10, h11, h12]

theorem Site.Patched.of_same {s : Site} {m₁ m m' m₂ : Mem 64} (h : s.Patched m₁ m')
    (hreplacement : ∀ i < s.replacementlen, m₁ (off s.replacement i) = m (off s.replacement i))
    (hsite : ∀ i < s.size, m₂ (off s.instr i) = m' (off s.instr i)) : s.Patched m m₂ := by
  have hfirst : 0 < s.replacementlen → m₁ s.replacement = m s.replacement := by
    intro hpos
    simpa using hreplacement 0 hpos
  refine ⟨?_, fun hops => ?_, fun hfive hlong t ht hnear => ?_⟩
  · have hpadding : bytes m₂ (off s.instr s.replacementlen) (s.instrlen - s.replacementlen) =
        bytes m' (off s.instr s.replacementlen) (s.instrlen - s.replacementlen) := by
      refine bytes_congr fun i hi => ?_
      rw [off_off]
      exact hsite _ (by rw [Site.size]; omega)
    rw [hpadding]
    exact h.nops
  · by_cases hzero : s.replacementlen = 0
    · rw [hzero]
      rfl
    have hcode : bytes m₂ s.instr s.replacementlen = bytes m' s.instr s.replacementlen :=
      bytes_congr fun i hi => hsite i (by rw [Site.size]; omega)
    have hsource : bytes m₁ s.replacement s.replacementlen = bytes m s.replacement s.replacementlen :=
      bytes_congr hreplacement
    rw [hcode, ← hsource]
    refine h.plain fun op hop => ?_
    rw [hfirst (Nat.pos_of_ne_zero hzero)]
    exact hops op hop
  · have hsame : transfer m₁ s.replacement = transfer m s.replacement :=
      transfer_congr fun i hi => hreplacement i (by omega)
    have hcode : transfer m₂ s.instr = transfer m' s.instr :=
      transfer_congr fun i hi => hsite i (by rw [Site.size]; omega)
    rw [hcode]
    refine h.moved hfive ?_ t (hsame.trans ht) hnear
    rwa [hfirst (by omega)]

/-- The table after the first entry, in the memory that this entry leaves. -/
theorem Linked.rest {m m' : Mem 64} {start : BitVec 64} {n : Nat} (h : Linked m start (n + 1))
    (hframe : ∀ x, (entry m start 0).size ≤ (x - (entry m start 0).instr).toNat → m' x = m x) :
    (∀ i < n, entry m' (off start 16) i = entry m start (i + 1)) ∧ Linked m' (off start 16) n := by
  have hsize := h.size
  have hentry : ∀ i < n, entry m' (off start 16) i = entry m start (i + 1) := by
    intro i hi
    have hplace : off (off start 16) (16 * i) = off start (16 * (i + 1)) := by
      rw [off_off]
      congr 1
      omega
    have hsame : altInstr m' (off start (16 * (i + 1))) = altInstr m (off start (16 * (i + 1))) := by
      refine altInstr_congr fun j hj => ?_
      rw [off_off]
      exact (h.table 0 (by omega)).same hsize hframe (by omega)
    rw [entry, hplace, entry, site, hsame]
    rfl
  refine ⟨hentry, ?_, fun i hi => ?_, fun i hi x hx => ?_, fun i hi j hj => ?_⟩
  · omega
  · rw [hentry i hi]
    exact h.checked (i + 1) (by omega)
  · rw [hentry i hi] at hx
    have hle := h.table (i + 1) (by omega) x hx
    have hlt := (x - start).isLt
    rw [sub_add_toNat x start (by omega)]
    split <;> omega
  · rw [hentry i hi, hentry j hj]
    exact h.replacement (i + 1) (by omega) (j + 1) (by omega)

/-- The assertions hold in the whole run. Each place that no later entry writes to does what its
replacement did before the run, and nothing but these places is written. -/
theorem applyAlternatives_spec {m : Mem 64} {start : BitVec 64} {n : Nat} (insnbuf : Mem 8)
    (h : Linked m start n) :
    ∃ m' insnbuf', applyAlternatives n m insnbuf start = some (m', insnbuf') ∧
      (∀ x, (∀ i < n, (entry m start i).size ≤ (x - (entry m start i).instr).toNat) → m' x = m x) ∧
      ∀ i < n, (∀ j < n, i < j → Separate (entry m start j).instr (entry m start j).size
        (entry m start i).instr (entry m start i).size) → (entry m start i).Patched m m' := by
  induction n generalizing m insnbuf start with
  | zero => exact ⟨m, insnbuf, rfl, fun _ _ => rfl, fun i hi => absurd hi (Nat.not_lt_zero i)⟩
  | succ n ih =>
      have hstart : off start 0 = start := BitVec.add_zero start
      have hzero : entry m start 0 = site m start := by rw [entry, Nat.mul_zero, hstart]
      have hchecked := h.checked 0 (Nat.succ_pos n)
      rw [hzero] at hchecked
      obtain ⟨m₁, buf₁, hone, hpatched, hframe⟩ := applyOne_spec insnbuf hchecked
      rw [← hzero] at hpatched hframe
      obtain ⟨hentry, hlinked⟩ := h.rest hframe
      obtain ⟨m', buf', hrun, hframe', hpatched'⟩ := ih buf₁ hlinked
      refine ⟨m', buf', ?_, fun x hx => ?_, fun i hi hlast => ?_⟩
      · rw [applyAlternatives, hone]
        exact hrun
      · rw [hframe' x fun i hi => ?_, hframe x (hx 0 (Nat.succ_pos n))]
        rw [hentry i hi]
        exact hx (i + 1) (by omega)
      · cases i with
        | zero =>
            refine hpatched.of_same (fun _ _ => rfl) fun k hk => hframe' _ fun j hj => ?_
            have hsize := hchecked.size_le
            rw [hentry j hj]
            refine Nat.le_of_not_lt fun hlt => ?_
            have hle := hlast (j + 1) (by omega) (by omega) _ hlt
            rw [hzero] at hk hle
            have hbound : (site m start).size ≤ 254 := hsize
            rw [off_sub _ (by omega)] at hle
            exact Nat.not_lt.2 hle hk
        | succ i =>
            have hi' : i < n := by omega
            have hpatched' := hpatched' i hi' fun j hj hij => by
              rw [hentry j hj, hentry i hi']
              exact hlast (j + 1) (by omega) (by omega)
            rw [hentry i hi'] at hpatched'
            refine hpatched'.of_same (fun k hk => ?_) fun _ _ => rfl
            have hreplacement := h.checked (i + 1) hi
            exact (h.replacement 0 (by omega) (i + 1) hi).same
              (Nat.le_trans hreplacement.replacementlen (by decide)) hframe hk

/-- Both alternatives of `memcpy`: the code at 0x1000, the second replacement at 0x2000, a jump to 0x1100,
and the table at 0x3000. -/
def memcpyImage : Mem 64 :=
  poke (poke (poke (fun _ => 0) 0x1000 [0xe9, 0xfb, 0x01, 0, 0]) 0x2000 [0xe9, 0xfb, 0xf0, 0xff, 0xff]) 0x3000
    [0x00, 0xe0, 0xff, 0xff, 0xfc, 0xef, 0xff, 0xff, 0x70, 0x00, 5, 0, 0, 0, 0, 0,
     0xf0, 0xdf, 0xff, 0xff, 0xec, 0xef, 0xff, 0xff, 0x29, 0x01, 5, 5, 0, 0, 0, 0]

theorem memcpyImage_linked : Linked memcpyImage 0x3000 2 := by
  have h0 : entry memcpyImage 0x3000 0 = ⟨0x1000, 0x2000, 5, 0, 112⟩ := by decide
  have h1 : entry memcpyImage 0x3000 1 = ⟨0x1000, 0x2000, 5, 5, 297⟩ := by decide
  refine ⟨by decide, fun i hi => ?_, fun i hi => ?_, fun i hi j hj => ?_⟩
  · interval_cases i
    · rw [h0]
      exact ⟨by decide, by decide, by decide⟩
    · rw [h1]
      exact ⟨by decide, by decide, by decide⟩
  · interval_cases i
    · rw [h0]
      exact separate_of_le (by decide) (by decide)
    · rw [h1]
      exact separate_of_le (by decide) (by decide)
  · interval_cases i <;> interval_cases j <;> simp only [h0, h1] <;>
      exact separate_of_le (by decide) (by decide)

/-- On any processor `memcpy` is `memcpy_erms` then. -/
theorem applyAlternatives_spec_memcpy : ∃ m' insnbuf',
    applyAlternatives 2 memcpyImage (fun _ => 0) 0x3000 = some (m', insnbuf') ∧
      transfer m' 0x1000 = some (.jmp 0x1100) := by
  obtain ⟨m', insnbuf', hrun, -, hpatched⟩ :=
    applyAlternatives_spec (fun _ => 0) memcpyImage_linked
  have hlast := hpatched 1 (by decide) fun j hj hlt => by omega
  have h1 : entry memcpyImage 0x3000 1 = ⟨0x1000, 0x2000, 5, 5, 297⟩ := by decide
  rw [h1] at hlast
  exact ⟨m', insnbuf', hrun, hlast.moved rfl (by decide) _ (by decide) (by decide)⟩

end Alternative

end Yaos
