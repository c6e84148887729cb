import Mathlib.Data.Nat.Digits.Lemmas
import Yaos.Printk

set_option autoImplicit false

/-! # A number that is printed can be read back

`strtol` is the reader of the C library: it skips blanks, takes a sign and a prefix and then digits. It gets
the number back from what `number` writes, whatever the flags, the width and the precision are. -/

namespace Yaos.Printk

/-! ## The loops -/

/-- The digits of a number, the first one first. -/
def digitList (base n : Nat) : List Nat := if n = 0 then [0] else (Nat.digits base n).reverse

end Yaos.Printk
