import Mathlib.Data.BitVec
import Mathlib.Logic.Function.Basic

set_option autoImplicit false

/-! # The console (`arch/x86_64/vgaoutput.c`)

The screen has 25 rows of 80 cells, and is written to row by row. The calls hold `spin_vga`, so one
comes after the other. The copy that goes to the serial port is left out. -/

namespace Yaos.Vga

/-- The rows of the screen. -/
def maxYpos : Nat := 25

/-- The columns of the screen. -/
def maxXpos : Nat := 80

/-- The cells from `VGABASE` on, and the static variables. -/
structure Screen where
  cell : Nat → BitVec 16
  ypos : Nat
  xpos : Nat

/-- `writew` to the cell `a`. -/
def Screen.writew (v : Screen) (c : BitVec 16) (a : Nat) : Screen := { v with cell := Function.update v.cell a c }

/-- `for (i = 0; i < max_xpos; i++)` of the scroll, for the row `k` and the one before it. -/
def copyRow (k : Nat) (v : Screen) : Screen :=
  (List.range maxXpos).foldl (fun v i =>
    v.writew (v.cell (maxXpos * k + i)) (maxXpos * (k - 1) + i)) v

/-- After the loop `j` is the last row. -/
def clearRow (j : Nat) (v : Screen) : Screen :=
  (List.range maxXpos).foldl (fun v i => v.writew 0x720 (maxXpos * j + i)) v

/-- The rows go up by one, and the last one is cleared. -/
def scroll (v : Screen) : Screen :=
  let v := (List.range' 1 (maxYpos - 1)).foldl (fun v k => copyRow k v) v
  { clearRow (maxYpos - 1) v with ypos := maxYpos - 1 }

/-- A character with its colours. `char` is signed. -/
def colored (attributeByte c : BitVec 8) : BitVec 16 :=
  attributeByte.setWidth 16 <<< 8 ||| c.signExtend 16

/-- The body of the loop of `vga_puts_color`. -/
def putChar (attributeByte : BitVec 8) (v : Screen) (c : BitVec 8) : Screen :=
  let v := if v.ypos > maxYpos then scroll v else v
  if c = 0x0a then { v with xpos := 0, ypos := v.ypos + 1 }
  else if c ≠ 0x0d then
    let v := { v.writew (colored attributeByte c) (maxXpos * v.ypos + v.xpos) with xpos := v.xpos + 1 }
    if v.xpos ≥ maxXpos then { v with xpos := 0, ypos := v.ypos + 1 } else v
  else v

/-- The loop, with the characters behind `str` up to the end of the string. -/
def putChars (attributeByte : BitVec 8) (size : Nat) : List (BitVec 8) → Nat → Screen → Screen
  | [], _, v => v
  | c :: str, cnt, v =>
    if c = 0 then v
    else
      let v := putChar attributeByte v c
      if size ≠ 0 ∧ cnt + 1 ≥ size then v else putChars attributeByte size str (cnt + 1) v

/-- `vga_puts_color`. -/
def vgaPutsColor (back fore : BitVec 8) (str : List (BitVec 8)) (size : Nat) (v : Screen) : Screen :=
  putChars (back <<< 4 ||| fore &&& 0x0f) size str 0 v

end Yaos.Vga
