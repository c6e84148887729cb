import Mathlib.Data.Nat.Digits.Lemmas
import Yaos.Lib.Occurrences
import Yaos.Lib.Word
import Yaos.Fault

set_option autoImplicit false

/-! # Splitting a string (`module/lua/yaos/split.c`)

`yaos.split(str, search)` pushes the pieces of `str` on the Lua stack. It has a loop of its own for each
kind of separator; all of them push what lies before a match, go behind it, and leave what is left to
the end of the function. -/

namespace Yaos.Lua.Split

open Occurrences

/-- How a call ends without a result. -/
inductive Stop
  /-- An error is raised. -/
  | raised (msg : String)
  /-- A byte is read that is not in the source. -/
  | outside
deriving DecidableEq, Repr

/-- A Lua string; `LJ_MAX_STR` keeps its length in an `int`. -/
structure LuaString where
  bytes : List UInt8
  short : bytes.length < 0x7fffff00

/-- The variables of a loop, and what has been pushed. -/
structure Scan where
  pos : Nat
  n : Nat
  pushed : List (List UInt8)

/-- `lua_pushlstring`, where the stack takes `room` values. -/
def pushlstring (room : Nat) (pushed : List (List UInt8)) (piece : List UInt8) :
    Except Stop (List (List UInt8)) :=
  if pushed.length < room then .ok (pushed ++ [piece]) else .error (.raised "stack overflow")

/-- `src[i]`. -/
def byteAt (src : List UInt8) (i : Nat) : Except Stop UInt8 :=
  match src[i]? with
  | some c => .ok c
  | none => .error .outside

/-- The number that the bytes of a word are, the lowest first. -/
def word (bytes : List UInt8) : Nat := Nat.ofDigits 256 (bytes.map UInt8.toNat)

/-- `*((uN *)&src[i])` for a word of `w` bytes. -/
def loadWord (src : List UInt8) (i w : Nat) : Except Stop Nat :=
  if i + w ≤ src.length then .ok (word ((src.drop i).take w)) else .error .outside

/-- `strncmp(cs, ct, n)`, where `n` is the length of `ct`. -/
def strncmp : List UInt8 → List UInt8 → Except Stop Int
  | _, [] => .ok 0
  | [], _ :: _ => .error .outside
  | c1 :: cs, c2 :: ct =>
    if c1 ≠ c2 then .ok (if c1 < c2 then -1 else 1)
    else if c1 = 0 then .ok 0
    else strncmp cs ct

/-- `__isblank`. -/
def isblank (c : UInt8) : Bool := c == ' '.toUInt8 || c == '\t'.toUInt8

section Loops

variable (room : Nat) (src : List UInt8)

/-- `for(int i=0; i<limit; ++i)` from `i` on: a match pushes what lies before it and is passed over. -/
def loop (hit : Nat → Except Stop Bool) (skip limit : Nat) : Nat → Nat → Scan → Except Stop Scan
  | 0, _, a => .ok a
  | fuel + 1, i, a =>
    if i < limit then do
      let found ← hit i
      if found then do
        let pushed ← pushlstring room a.pushed ((src.drop a.pos).take (i - a.pos))
        -- `i += skip`, and then the `++i` of the loop
        loop hit skip limit fuel (i + skip + 1) ⟨i + skip + 1, a.n + 1, pushed⟩
      else loop hit skip limit fuel (i + 1) a
    else .ok a

/-- The loop of the empty separator: each byte is a piece. -/
def explode : Nat → Scan → Except Stop Scan
  | 0, a => .ok { a with n := a.n + src.length }
  | fuel + 1, a => do
    let pushed ← pushlstring room a.pushed ((src.drop a.pos).take 1)
    explode fuel ⟨a.pos + 1, a.n, pushed⟩

/-- `lua_pushlstring(L, src+pos, len-pos); return n;` -/
def finish (a : Scan) : Except Stop (List (List UInt8)) := do
  let pushed ← pushlstring room a.pushed (src.drop a.pos)
  .ok (pushed.drop (pushed.length - a.n))

end Loops

/-- The byte at `i` is a blank. -/
def hitBlank (src : List UInt8) (i : Nat) : Except Stop Bool := do
  .ok (isblank (← byteAt src i))

/-- The byte at `i` is the separator. -/
def hitByte (src search : List UInt8) (i : Nat) : Except Stop Bool := do
  .ok (decide (search.head? = some (← byteAt src i)))

/-- The word at `i` is the separator. -/
def hitWord (src search : List UInt8) (i : Nat) : Except Stop Bool := do
  .ok (decide ((← loadWord src i search.length) = word search))

/-- The bytes at `i` are the separator. -/
def hitStrncmp (src search : List UInt8) (i : Nat) : Except Stop Bool := do
  .ok (decide ((← strncmp (src.drop i) search) = 0))

/-- The loop for the separator. Its bounds are computed in `size_t`. -/
def scanSource (room : Nat) (src search : List UInt8) : Except Stop Scan :=
  let start : Scan := ⟨0, 1, []⟩
  let run := fun hit skip limit => loop room src hit skip limit limit 0 start
  match search.length with
  | 0 => explode room src src.length start
  | 1 => run (hitByte src search) 0 src.length
  | 2 => run (hitWord src search) 1 (Word.wsub src.length 1)
  | 4 => run (hitWord src search) 3 (Word.wsub src.length 3)
  | 8 => run (hitWord src search) 7 (Word.wsub src.length 7)
  | searchlen => run (hitStrncmp src search) (searchlen - 1) (Word.wsub (Word.wsub src.length searchlen) 1)

/-- The pieces that `yaos_split` returns. -/
def yaosSplit (room : Nat) (src search : LuaString) : Except Stop (List (List UInt8)) :=
  if 8 < search.bytes.length then .error (.raised "yaos.split #2 max length is 8")
  else if search.bytes.head? = some '%'.toUInt8 then
    if search.bytes.length ≠ 2 then .error (.raised "yaos.split #2 escape search only support %s")
    else if search.bytes[1]? = some 's'.toUInt8 then do
      let a ← loop room src.bytes (hitBlank src.bytes) 0 src.bytes.length src.bytes.length 0 ⟨0, 1, []⟩
      finish room src.bytes a
    else .error (.raised "yaos.split #2 escape search only support %s")
  else do
    let a ← scanSource room src.bytes search.bytes
    finish room src.bytes a

/-- `ms` are the places of the leftmost, non-overlapping occurrences of the separator. -/
def Matches (sep src : List UInt8) (ms : List Nat) : Prop :=
  Leftmost (fun i => sep <+: src.drop i) sep.length ms

/-- The pieces of the leftmost split: one more than there are matches, and the separator between each two
    makes the source of them. -/
structure Pieces (sep src : List UInt8) (ms : List Nat) (ps : List (List UInt8)) : Prop where
  found : Matches sep src ms
  between : ps = cut src sep.length 0 ms
  count : ps.length = ms.length + 1
  joined : sep.intercalate ps = src

/-- The call returns the pieces, and reads no byte outside the source. -/
def SplitRight (room : Nat) (src sep : LuaString) : Prop :=
  ∃ ms ps, yaosSplit room src sep = .ok ps ∧ Pieces sep.bytes src.bytes ms ps

/-- The separator up to its first zero byte, which is as far as `strncmp` looks. -/
def upToNul : List UInt8 → List UInt8
  | [] => []
  | c :: cs => if c = 0 then [c] else c :: upToNul cs

/-- The loop compares words. -/
def WordPath (sep : List UInt8) : Prop := sep.length = 2 ∨ sep.length = 4 ∨ sep.length = 8

/-- The loop calls `strncmp`. -/
def StrncmpPath (sep : List UInt8) : Prop :=
  sep.length = 3 ∨ sep.length = 5 ∨ sep.length = 6 ∨ sep.length = 7

/-- The bound of the loop does not wrap below zero. -/
def LongEnough (sep src : List UInt8) : Prop :=
  (WordPath sep → sep.length ≤ src.length + 1) ∧ (StrncmpPath sep → sep.length < src.length)

/-- What `strncmp` finds are the matches `ms`: none begins at one of the last two places, and what the
    separator is up to its first zero byte is found only inside a match. -/
def StrncmpExact (sep src : List UInt8) (ms : List Nat) : Prop :=
  (∀ m ∈ ms, m + sep.length + 1 < src.length) ∧
    ∀ i, i + sep.length + 1 < src.length → upToNul sep <+: src.drop i →
      ∃ m ∈ ms, m ≤ i ∧ i < m + sep.length

/-! ## Reading the source -/

theorem word_inj {xs ys : List UInt8} (hlen : xs.length = ys.length) : word xs = word ys ↔ xs = ys := by
  refine ⟨fun h => ?_, fun h => h ▸ rfl⟩
  have hsmall : ∀ zs : List UInt8, ∀ d ∈ zs.map UInt8.toNat, d < 256 := by
    intro zs d hd
    obtain ⟨c, -, rfl⟩ := List.mem_map.1 hd
    exact c.toNat_lt
  have hmap := Nat.ofDigits_inj_of_len_eq (by decide) (by simpa using hlen) (hsmall xs) (hsmall ys) h
  exact List.map_injective_iff.2 (fun a b hab => UInt8.toNat_inj.1 hab) hmap

/-- A word is the separator where the separator stands. -/
theorem take_eq_iff_prefix (sep src : List UInt8) : src.take sep.length = sep ↔ sep <+: src := by
  rw [List.prefix_iff_eq_take, eq_comm]

theorem prefix_drop_le {sep src : List UInt8} {i : Nat} (hs : 1 ≤ sep.length) (h : sep <+: src.drop i) :
    i + sep.length ≤ src.length := by
  have hlen := h.length_le
  rw [List.length_drop] at hlen
  omega

/-- As long as the source goes on, `strncmp` compares up to the first zero byte of the separator. -/
theorem strncmp_eq {cs ct : List UInt8} (hlen : ct.length ≤ cs.length) :
    ∃ r, strncmp cs ct = .ok r ∧ (r = 0 ↔ upToNul ct <+: cs) := by
  induction ct generalizing cs with
  | nil => exact ⟨0, by rw [strncmp], by simp [upToNul]⟩
  | cons c2 ct ih =>
    cases cs with
    | nil => simp at hlen
    | cons c1 cs =>
      rw [strncmp, upToNul]
      by_cases heq : c1 = c2
      · subst heq
        rw [if_neg (not_not_intro rfl)]
        by_cases hnul : c1 = 0
        · exact ⟨0, if_pos hnul, by simp [hnul]⟩
        · obtain ⟨r, hr, hiff⟩ := ih (by simpa using hlen)
          exact ⟨r, by rw [if_neg hnul, hr], by rw [if_neg hnul, hiff, List.cons_prefix_cons]; simp⟩
      · refine ⟨_, if_pos heq, ?_⟩
        split_ifs <;> simp [List.cons_prefix_cons, Ne.symm heq]

section Hits

variable {src sep : List UInt8} {i : Nat}

theorem hitByte_eq (hone : sep.length = 1) (hi : i < src.length) :
    hitByte src sep i = .ok (decide (sep <+: src.drop i)) := by
  obtain ⟨c, rfl⟩ := List.length_eq_one_iff.1 hone
  have hiff : [c] <+: src.drop i ↔ c = src[i] := by
    rw [List.drop_eq_getElem_cons hi, List.cons_prefix_cons]
    simp
  rw [hitByte, byteAt, List.getElem?_eq_getElem hi, ok_bind]
  simp [hiff]

theorem hitWord_eq (hi : i + sep.length ≤ src.length) :
    hitWord src sep i = .ok (decide (sep <+: src.drop i)) := by
  have hlen : ((src.drop i).take sep.length).length = sep.length := by
    rw [List.length_take, List.length_drop]
    omega
  rw [hitWord, loadWord, if_pos hi, ok_bind]
  simp only [word_inj hlen, take_eq_iff_prefix]

theorem hitStrncmp_eq (hi : i + sep.length ≤ src.length) :
    hitStrncmp src sep i = .ok (decide (upToNul sep <+: src.drop i)) := by
  obtain ⟨r, hr, hiff⟩ := strncmp_eq (show sep.length ≤ (src.drop i).length by rw [List.length_drop]; omega)
  rw [hitStrncmp, hr, ok_bind]
  simp only [hiff]

/-- Behind the source every comparison reads outside it. -/
theorem hitWord_outside (hs : 1 ≤ sep.length) (hi : src.length ≤ i) :
    hitWord src sep i = .error .outside := by
  rw [hitWord, loadWord, if_neg (by omega)]
  rfl

theorem hitStrncmp_outside (hs : 1 ≤ sep.length) (hi : src.length ≤ i) :
    hitStrncmp src sep i = .error .outside := by
  cases sep with
  | nil => simp at hs
  | cons c sep =>
    rw [hitStrncmp, List.drop_eq_nil_of_le hi, strncmp]
    rfl

end Hits

/-! ## The loop -/

section Loop

variable {room skip limit : Nat} {src : List UInt8} {hit : Nat → Except Stop Bool} {h : Nat → Bool}

theorem finish_eq {a : Scan} (ha : a.n = a.pushed.length + 1) : finish room src a =
    if a.pushed.length < room then .ok (a.pushed ++ [src.drop a.pos])
    else .error (.raised "stack overflow") := by
  rw [finish, pushlstring]
  split_ifs
  · simp [ok_bind, ha]
  · rfl

/-- A loop that reads nothing outside pushes the pieces before the matches that the walk finds, and the
    end of the function pushes the last. -/
theorem loop_finish (hhit : ∀ i < limit, hit i = .ok (h i)) {fuel i : Nat} {a : Scan}
    (ha : a.n = a.pushed.length + 1) :
    (loop room src hit skip limit fuel i a >>= finish room src) =
      if a.pushed.length + (scan h (skip + 1) limit fuel i).length < room then
        .ok (a.pushed ++ cut src (skip + 1) a.pos (scan h (skip + 1) limit fuel i))
      else .error (.raised "stack overflow") := by
  induction fuel generalizing i a with
  | zero => exact finish_eq ha
  | succ fuel ih =>
    rw [loop, scan]
    by_cases hlt : i < limit
    · rw [if_pos hlt, if_pos hlt, hhit i hlt, ok_bind]
      cases hfound : h i with
      | false => exact ih ha
      | true =>
        simp only [if_true]
        by_cases hroom : a.pushed.length < room
        · rw [pushlstring, if_pos hroom, ok_bind, ih (by simp [ha])]
          simp [cut, Nat.add_assoc, Nat.add_comm 1]
        · rw [pushlstring, if_neg hroom, if_neg (by omega)]
          rfl
    · rw [if_neg hlt, if_neg hlt]
      exact finish_eq ha

/-- A loop whose bound has wrapped goes on until it reads outside the source. -/
theorem loop_outside (hout : ∀ j, src.length ≤ j → hit j = .error .outside)
    (hlimit : src.length + skip < limit) {fuel i : Nat} {a a' : Scan} (hi : i ≤ src.length + skip)
    (hfuel : limit ≤ i + fuel) : loop room src hit skip limit fuel i a ≠ .ok a' := by
  induction fuel generalizing i a with
  | zero => omega
  | succ fuel ih =>
    rw [loop, if_pos (by omega)]
    intro h
    obtain ⟨found, hfound, h⟩ := bind_eq_ok.1 h
    -- the place is in the source, since the comparison has come back
    have hin : i < src.length := by
      by_contra hge
      rw [hout i (by omega)] at hfound
      cases hfound
    cases found with
    | false => exact ih (by omega) (by omega) h
    | true =>
      obtain ⟨pushed, -, h⟩ := bind_eq_ok.1 h
      exact ih (by omega) (by omega) h

end Loop

/-! ## The whole call -/

section Call

variable {room : Nat} {src sep : LuaString} {ms : List Nat}

theorem Matches.inSource (hs : 1 ≤ sep.bytes.length) (h : Matches sep.bytes src.bytes ms) :
    InSource src.bytes sep.bytes.length 0 ms := by
  refine ⟨fun m hm => ⟨Nat.zero_le m, ?_⟩, h.spaced⟩
  have := prefix_drop_le hs (h.occurs m hm)
  omega

theorem Matches.pieces (hs : 1 ≤ sep.bytes.length) (h : Matches sep.bytes src.bytes ms) :
    Pieces sep.bytes src.bytes ms (cut src.bytes sep.bytes.length 0 ms) where
  found := h
  between := rfl
  count := cut_length
  joined := cut_intercalate h.occurs (h.inSource hs)

/-- A call whose loop reads nothing outside is right if the loop finds the matches, and the stack takes
    all the pieces. -/
theorem splitRight_iff_of_loop {hit : Nat → Except Stop Bool} {h : Nat → Bool} {limit : Nat}
    (hs : 1 ≤ sep.bytes.length) (hlimit : limit ≤ src.bytes.length)
    (hcall : yaosSplit room src sep =
      loop room src.bytes hit (sep.bytes.length - 1) limit limit 0 ⟨0, 1, []⟩ >>= finish room src.bytes)
    (hhit : ∀ i < limit, hit i = .ok (h i)) :
    SplitRight room src sep ↔ ∃ ms, Matches sep.bytes src.bytes ms ∧ ms.length < room ∧
      Leftmost (fun i => i < limit ∧ h i = true) sep.bytes.length ms := by
  have hfound : Leftmost _ _ (scan h sep.bytes.length limit limit 0) := scan_leftmost hs (Nat.le_refl limit)
  have hin : InSource src.bytes sep.bytes.length 0 (scan h sep.bytes.length limit limit 0) :=
    ⟨fun m hm => ⟨Nat.zero_le m, by have := (scan_mem hm).2.1; omega⟩, scan_spaced limit 0⟩
  rw [loop_finish hhit rfl, Nat.sub_add_cancel hs] at hcall
  simp only [List.length_nil, Nat.zero_add, List.nil_append] at hcall
  constructor
  · rintro ⟨ms, ps, hps, hpieces⟩
    rw [hcall] at hps
    split_ifs at hps with hroom
    -- the pieces tell the places at which the source was cut
    have hcut := (Except.ok.inj hps).trans hpieces.between
    obtain rfl := cut_injective hin (hpieces.found.inSource hs) hcut
    exact ⟨_, hpieces.found, hroom, hfound⟩
  · rintro ⟨ms, hms, hroom, hleft⟩
    obtain rfl := hleft.unique hfound
    exact ⟨_, _, by rw [hcall, if_pos hroom], hms.pieces hs⟩

/-- A call whose loop's bound has wrapped never returns. -/
theorem not_splitRight_of_wrapped {hit : Nat → Except Stop Bool} {limit : Nat}
    (hlimit : src.bytes.length + (sep.bytes.length - 1) < limit)
    (hcall : yaosSplit room src sep =
      loop room src.bytes hit (sep.bytes.length - 1) limit limit 0 ⟨0, 1, []⟩ >>= finish room src.bytes)
    (hout : ∀ j, src.bytes.length ≤ j → hit j = .error .outside) : ¬ SplitRight room src sep := by
  rintro ⟨ms, ps, hps, -⟩
  rw [hcall] at hps
  obtain ⟨a, ha, -⟩ := bind_eq_ok.1 hps
  exact loop_outside hout hlimit (Nat.zero_le _) (by omega) ha

/-- Where the loop compares with the whole separator, at every place where it fits, it finds the
    matches. -/
theorem leftmost_iff_matches {limit : Nat} (hs : 1 ≤ sep.bytes.length)
    (hlimit : ∀ i, i + sep.bytes.length ≤ src.bytes.length → i < limit) :
    Leftmost (fun i => i < limit ∧ decide (sep.bytes <+: src.bytes.drop i) = true) sep.bytes.length ms ↔
      Matches sep.bytes src.bytes ms := by
  have hiff : ∀ i, (i < limit ∧ decide (sep.bytes <+: src.bytes.drop i) = true) ↔
      sep.bytes <+: src.bytes.drop i := by
    intro i
    rw [decide_eq_true_eq]
    exact ⟨fun h => h.2, fun h => ⟨hlimit i (prefix_drop_le hs h), h⟩⟩
  exact ⟨fun h => h.congr hiff, fun h => Leftmost.congr h fun i => (hiff i).symm⟩

theorem upToNul_initial (sep : List UInt8) : upToNul sep <+: sep := by
  induction sep with
  | nil => exact List.nil_prefix
  | cons c sep ih =>
    rw [upToNul]
    split_ifs
    · simp [List.cons_prefix_cons]
    · exact List.cons_prefix_cons.2 ⟨rfl, ih⟩

/-- What the loop with `strncmp` finds are the matches. -/
theorem leftmost_iff_strncmpExact (hlong : sep.bytes.length < src.bytes.length)
    (hms : Matches sep.bytes src.bytes ms) :
    Leftmost (fun i => i < src.bytes.length - sep.bytes.length - 1 ∧
      decide (upToNul sep.bytes <+: src.bytes.drop i) = true) sep.bytes.length ms ↔
      StrncmpExact sep.bytes src.bytes ms := by
  simp only [decide_eq_true_eq]
  constructor
  · intro h
    refine ⟨fun m hm => by have := (h.occurs m hm).1; omega, fun i hi hocc => ?_⟩
    exact h.covered i ⟨by omega, hocc⟩
  · intro h
    refine ⟨fun m hm => ⟨by have := h.1 m hm; omega, ?_⟩, hms.spaced, fun i hi => ?_⟩
    · exact (upToNul_initial _).trans (hms.occurs m hm)
    · exact h.2 i (by omega) hi.2

/-- The word compare is the loop of the lengths 2, 4 and 8. -/
theorem scanSource_word {src sep : List UInt8} (hword : WordPath sep) : scanSource room src sep =
    loop room src (hitWord src sep) (sep.length - 1) (Word.wsub src.length (sep.length - 1))
      (Word.wsub src.length (sep.length - 1)) 0 ⟨0, 1, []⟩ := by
  rcases hword with h | h | h <;> simp only [scanSource, h]

/-- `strncmp` is that of the lengths 3, 5, 6 and 7. -/
theorem scanSource_strncmp {src sep : List UInt8} (hgen : StrncmpPath sep) : scanSource room src sep =
    loop room src (hitStrncmp src sep) (sep.length - 1) (Word.wsub (Word.wsub src.length sep.length) 1)
      (Word.wsub (Word.wsub src.length sep.length) 1) 0 ⟨0, 1, []⟩ := by
  rcases hgen with h | h | h | h <;> simp only [scanSource, h]

theorem yaosSplit_scan (height : sep.bytes.length ≤ 8) (hescape : sep.bytes.head? ≠ some '%'.toUInt8) :
    yaosSplit room src sep = scanSource room src.bytes sep.bytes >>= finish room src.bytes := by
  rw [yaosSplit, if_neg (by omega), if_neg hescape]

theorem scanSource_byte {src sep : List UInt8} (hone : sep.length = 1) : scanSource room src sep =
    loop room src (hitByte src sep) (sep.length - 1) src.length src.length 0 ⟨0, 1, []⟩ := by
  simp only [scanSource, hone]

/-- A separator of one byte is always found right. -/
theorem splitRight_byte (hone : sep.bytes.length = 1)
    (hcall : yaosSplit room src sep = scanSource room src.bytes sep.bytes >>= finish room src.bytes) :
    SplitRight room src sep ↔ ∃ ms, Matches sep.bytes src.bytes ms ∧ ms.length < room := by
  have hs : 1 ≤ sep.bytes.length := by omega
  rw [scanSource_byte hone] at hcall
  rw [splitRight_iff_of_loop hs (Nat.le_refl _) hcall fun i hi => hitByte_eq hone hi]
  refine exists_congr fun ms => ?_
  rw [leftmost_iff_matches hs fun i hi => by omega]
  tauto

/-- The word compare finds a separator right unless its bound wraps. -/
theorem splitRight_word (hword : WordPath sep.bytes)
    (hcall : yaosSplit room src sep = scanSource room src.bytes sep.bytes >>= finish room src.bytes) :
    SplitRight room src sep ↔ sep.bytes.length ≤ src.bytes.length + 1 ∧
      ∃ ms, Matches sep.bytes src.bytes ms ∧ ms.length < room := by
  have hs : 1 ≤ sep.bytes.length := by
    rcases hword with h | h | h <;> omega
  have hshort := src.short
  rw [scanSource_word hword] at hcall
  by_cases hlong : sep.bytes.length ≤ src.bytes.length + 1
  · rw [Word.wsub_eq (by omega) (by omega)] at hcall
    rw [splitRight_iff_of_loop hs (by omega) hcall fun i hi => hitWord_eq (by omega)]
    simp only [hlong, true_and]
    refine exists_congr fun ms => ?_
    rw [leftmost_iff_matches hs fun i hi => by omega]
    tauto
  · have hwrapped : src.bytes.length + (sep.bytes.length - 1) <
        Word.wsub src.bytes.length (sep.bytes.length - 1) := by
      unfold Word.wsub
      rcases hword with h | h | h <;> omega
    simp only [hlong, false_and, iff_false]
    exact not_splitRight_of_wrapped hwrapped hcall fun j hj => hitWord_outside hs hj

/-- The loop with `strncmp` finds it right where its bound does not wrap and what it finds are the
    matches. -/
theorem splitRight_strncmp (hgen : StrncmpPath sep.bytes)
    (hcall : yaosSplit room src sep = scanSource room src.bytes sep.bytes >>= finish room src.bytes) :
    SplitRight room src sep ↔ sep.bytes.length < src.bytes.length ∧
      ∃ ms, Matches sep.bytes src.bytes ms ∧ ms.length < room ∧ StrncmpExact sep.bytes src.bytes ms := by
  have hs : 1 ≤ sep.bytes.length := by
    rcases hgen with h | h | h | h <;> omega
  have hshort := src.short
  rw [scanSource_strncmp hgen] at hcall
  by_cases hlong : sep.bytes.length < src.bytes.length
  · have hbound : Word.wsub (Word.wsub src.bytes.length sep.bytes.length) 1 =
        src.bytes.length - sep.bytes.length - 1 := by
      unfold Word.wsub
      omega
    rw [hbound] at hcall
    rw [splitRight_iff_of_loop hs (by omega) hcall fun i hi => hitStrncmp_eq (by omega)]
    simp only [hlong, true_and]
    refine exists_congr fun ms => and_congr_right fun hms => ?_
    rw [leftmost_iff_strncmpExact hlong hms]
  · have hwrapped : src.bytes.length + (sep.bytes.length - 1) <
        Word.wsub (Word.wsub src.bytes.length sep.bytes.length) 1 := by
      unfold Word.wsub
      rcases hgen with h | h | h | h <;> omega
    simp only [hlong, false_and, iff_false]
    exact not_splitRight_of_wrapped hwrapped hcall fun j hj => hitStrncmp_outside hs hj

/-- `yaos_split` returns the leftmost split exactly when the bound of its loop does not wrap, the stack
    takes the pieces and, where it calls `strncmp`, no match is at the end of the source and the part of
    the separator up to a zero byte is found only in the matches. -/
theorem split_iff (hs : 1 ≤ sep.bytes.length) (height : sep.bytes.length ≤ 8)
    (hescape : sep.bytes.head? ≠ some '%'.toUInt8) :
    SplitRight room src sep ↔ LongEnough sep.bytes src.bytes ∧
      ∃ ms, Matches sep.bytes src.bytes ms ∧ ms.length < room ∧
        (StrncmpPath sep.bytes → StrncmpExact sep.bytes src.bytes ms) := by
  have hcall : yaosSplit room src sep = scanSource room src.bytes sep.bytes >>= finish room src.bytes :=
    yaosSplit_scan height hescape
  by_cases hword : WordPath sep.bytes
  · have hgen : ¬ StrncmpPath sep.bytes := by
      unfold StrncmpPath
      rcases hword with h | h | h <;> omega
    simp [splitRight_word hword hcall, LongEnough, hword, hgen]
  · by_cases hgen : StrncmpPath sep.bytes
    · simp [splitRight_strncmp hgen hcall, LongEnough, hword, hgen]
    · -- neither words nor `strncmp`: a single byte
      have hone : sep.bytes.length = 1 := by
        unfold WordPath at hword
        unfold StrncmpPath at hgen
        omega
      simp [splitRight_byte hone hcall, LongEnough, hword, hgen]

end Call

/-- `"a--b"` is split at `"--"`. -/
theorem split_dashes : SplitRight 20 ⟨[97, 45, 45, 98], by decide⟩ ⟨[45, 45], by decide⟩ := by
  refine (split_iff (by decide) (by decide) (by decide)).2
    ⟨⟨fun _ => by decide, fun _ => by decide⟩, [1], ?_, by decide, ?_⟩
  · refine ⟨by decide, by decide, fun i hi => ⟨1, by decide, ?_⟩⟩
    have hfits : i + 2 ≤ 4 := prefix_drop_le (by decide) hi
    have hplaces : i = 0 ∨ i = 1 ∨ i = 2 := by omega
    rcases hplaces with rfl | rfl | rfl
    · exact absurd hi (by decide)
    · decide
    · exact absurd hi (by decide)
  · rintro (h | h | h | h) <;> exact absurd h (by decide)

/-- `"xabc"` ends with `"abc"`, and comes back whole. -/
theorem not_split_at_end : ¬ SplitRight 20 ⟨[120, 97, 98, 99], by decide⟩ ⟨[97, 98, 99], by decide⟩ := by
  rintro ⟨ms, ps, hps, hpieces⟩
  have hwhole : yaosSplit 20 ⟨[120, 97, 98, 99], by decide⟩ ⟨[97, 98, 99], by decide⟩ =
      .ok [[120, 97, 98, 99]] := by
    decide +kernel
  rw [hwhole] at hps
  have hcount := hpieces.count
  rw [← Except.ok.inj hps] at hcount
  obtain rfl : ms = [] := List.length_eq_zero_iff.1 (by simpa using hcount.symm)
  obtain ⟨m, hm, -⟩ := hpieces.found.covered 1 (by decide)
  exact absurd hm List.not_mem_nil

end Yaos.Lua.Split
