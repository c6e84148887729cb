import Mathlib.Data.List.Basic

set_option autoImplicit false

/-! # Formatted output (`kernel/printk.c`)

A `char` is the `Char` with its code, and the NUL at the end of a string is the end of the list. An `int` is
an `Int`: a width or a precision that overflows is undefined in C. -/

namespace Yaos.Printk

/-- The flags of `number`. -/
structure Flags where
  zeropad : Bool := false
  sign : Bool := false
  plus : Bool := false
  space : Bool := false
  left : Bool := false
  small : Bool := false
  special : Bool := false
deriving DecidableEq

/-- `while (low < n--) *str++ = c;` with what is written and `n` after it. -/
def fill (c : Char) (low n : Int) : List Char × Int :=
  if low < n then
    let (s, n) := fill c low (n - 1)
    (c :: s, n)
  else ([], n - 1)
termination_by (n - low).toNat

/-- `digits[d] | locase` -/
def digitChar (small : Bool) (d : Nat) : Char :=
  Char.ofNat (("0123456789ABCDEF".toList.getD d '0').toNat ||| if small then 0x20 else 0)

/-- The loop that writes to `tmp`, which has room for `n` more characters. -/
def tmpDigits (small : Bool) (base : Nat) : Nat → Nat → List Char
  | 0, _ => []
  | n + 1, num => if num ≠ 0 then digitChar small (num % base) :: tmpDigits small base n (num / base) else []

/-- The sign, and `num` and `size` without it. -/
def takeSign (num : BitVec 64) (size : Int) (type : Flags) : List Char × BitVec 64 × Int :=
  if type.sign then
    if num.slt 0 then (['-'], -num, size - 1)
    else if type.plus then (['+'], num, size - 1)
    else if type.space then ([' '], num, size - 1)
    else ([], num, size)
  else ([], num, size)

/-- The prefix of an octal or hexadecimal number. -/
def special (base : Nat) (type : Flags) : List Char :=
  if type.special then
    if base = 8 then ['0']
    else if base = 16 then ['0', Char.ofNat ('X'.toNat ||| if type.small then 0x20 else 0)]
    else []
  else []

/-- What `number` writes; it is `none` where it returns a null pointer. -/
def number (num : BitVec 64) (base : Nat) (size precision : Int) (type : Flags) : Option (List Char) :=
  let type := if type.left then { type with zeropad := false } else type
  if base < 2 ∨ 16 < base then none
  else
    let c := if type.zeropad then '0' else ' '
    let (sign, num, size) := takeSign num size type
    let size :=
      if type.special then if base = 16 then size - 2 else if base = 8 then size - 1 else size else size
    let tmp := if num = 0 then ['0'] else tmpDigits type.small base 66 num.toNat
    let i : Int := tmp.length
    let precision := if precision < i then i else precision
    let size := size - precision
    let (spaces, size) := if !(type.zeropad || type.left) then fill ' ' 0 size else ([], size)
    let (padding, size) := if !type.left then fill c 0 size else ([], size)
    let zeros := (fill '0' i precision).1
    let (trailing, _) := fill ' ' 0 size
    some (spaces ++ sign ++ special base type ++ padding ++ zeros ++ tmp.reverse ++ trailing)

/-! ## `vsprintf` -/

/-- `str`, what is left of `args`, and the stores of `%n`: an address, a number of bytes and a value. On the
stack every argument takes 8 bytes. -/
structure Out where
  str : List Char
  args : List (BitVec 64)
  stores : List (BitVec 64 × Nat × Nat)
deriving DecidableEq

/-- `va_arg`, which is undefined when there is no argument left. -/
def Out.vaArg (o : Out) : Option (BitVec 64 × Out) :=
  match o.args with
  | [] => none
  | v :: args => some (v, { o with args := args })

/-- Characters are printed. -/
def Out.put (o : Out) (s : List Char) : Out := { o with str := o.str ++ s }

/-- `isdigit`. -/
def isdigit (c : Char) : Bool := '0' ≤ c && c ≤ '9'

/-- `va_arg(args, int)` -/
def Out.vaInt (o : Out) : Option (Int × Out) := do
  let (v, o) ← o.vaArg
  some ((v.setWidth 32).toInt, o)

/-- `strnlen`; a negative `maxlen` is no bound. -/
def strnlen : List Char → Int → Nat
  | [], _ => 0
  | _ :: s, maxlen => if maxlen ≠ 0 then strnlen s (maxlen - 1) + 1 else 0

/-- The end of the loop body, for the integer formats. -/
def convertInt (flags : Flags) (fieldWidth precision : Int) (qualifier : Option Char) (base : Nat)
    (o : Out) : Option Out := do
  let (v, o) ← o.vaArg
  let num : BitVec 64 :=
    if qualifier = some 'l' then v
    else if qualifier = some 'h' then
      if flags.sign then (v.setWidth 16).signExtend 64 else (v.setWidth 16).setWidth 64
    else if flags.sign then (v.setWidth 32).signExtend 64
    else (v.setWidth 32).setWidth 64
  let s ← number num base fieldWidth precision flags
  some (o.put s)

/-- The `switch` on the conversion, which is `none` at the end of the format. The strings are those in the
memory. -/
def convert (strings : BitVec 64 → List Char) (flags : Flags) (fieldWidth precision : Int)
    (qualifier : Option Char) (conversion : Option Char) (o : Out) : Option Out :=
  match conversion with
  | some 'c' => do
    -- `while (--n > 0)` is `n--; while (n-- > 0)`, but for `n` at its end
    let (before, fieldWidth) :=
      if !flags.left then fill ' ' 0 (fieldWidth - 1) else ([], fieldWidth - 1)
    let (v, o) ← o.vaArg
    let (after, _) := fill ' ' 0 fieldWidth
    some (o.put (before ++ [Char.ofNat (v.setWidth 8).toNat] ++ after))
  | some 's' => do
    let (v, o) ← o.vaArg
    let s := strings v
    let len := strnlen s precision
    let (before, fieldWidth) := if !flags.left then fill ' ' len fieldWidth else ([], fieldWidth)
    let (after, _) := fill ' ' len fieldWidth
    some (o.put (before ++ s.take len ++ after))
  | some 'p' => do
    let (flags, fieldWidth) :=
      if fieldWidth = -1 then ({ flags with zeropad := true }, 2 * 8) else (flags, fieldWidth)
    let (v, o) ← o.vaArg
    let s ← number v 16 fieldWidth precision flags
    some (o.put s)
  | some 'n' => do
    let (v, o) ← o.vaArg
    let size := if qualifier = some 'l' then 8 else 4
    some { o with stores := o.stores ++ [(v, size, o.str.length)] }
  | some '%' => some (o.put ['%'])
  | some 'o' => convertInt flags fieldWidth precision qualifier 8 o
  | some 'x' => convertInt { flags with small := true } fieldWidth precision qualifier 16 o
  | some 'X' => convertInt flags fieldWidth precision qualifier 16 o
  | some 'd' => convertInt { flags with sign := true } fieldWidth precision qualifier 10 o
  | some 'i' => convertInt { flags with sign := true } fieldWidth precision qualifier 10 o
  | some 'u' => convertInt flags fieldWidth precision qualifier 10 o
  | some c => some (o.put ['%', c])
  | none => some (o.put ['%'])

end Yaos.Printk
