import Yaos.Printk.Number

set_option autoImplicit false

/-! # The language of formats

A format is a list of items: characters that stand for themselves and specifications. `vsprintf` on the text
of the items does what the items say, one after the other, so nothing of one item is taken for part of
another. -/

namespace Yaos.Printk

/-- The characters that may follow the `%`. -/
inductive Flag where
  | minus | plus | blank | hash | zero
deriving DecidableEq

/-- The flag in the format. -/
def Flag.char : Flag → Char
  | .minus => '-'
  | .plus => '+'
  | .blank => ' '
  | .hash => '#'
  | .zero => '0'

/-- What a flag sets. -/
def Flag.set (flags : Flags) : Flag → Flags
  | .minus => { flags with left := true }
  | .plus => { flags with plus := true }
  | .blank => { flags with space := true }
  | .hash => { flags with special := true }
  | .zero => { flags with zeropad := true }

/-- A width of zero is a flag. -/
inductive Width where
  | unset
  | lit (n : Nat) (pos : 0 < n)
  | star

/-- What the format says about the precision. -/
inductive Precision where
  | unset
  | point
  | lit (n : Nat)
  | star

/-- The size that the format names. -/
inductive Qualifier where
  | short | long | double
deriving DecidableEq

/-- The qualifier in the format. -/
def Qualifier.char : Qualifier → Char
  | .short => 'h'
  | .long => 'l'
  | .double => 'L'

/-- `c` is a flag. -/
def isFlag (c : Char) : Bool := c == '-' || c == '+' || c == ' ' || c == '#' || c == '0'

/-- Flags and widths are made of these. -/
def isCount (c : Char) : Bool := isFlag c || isdigit c || c == '*'

/-- The characters that belong to what stands before the conversion. -/
def isReserved (c : Char) : Bool := isCount c || c == '.' || c == 'h' || c == 'l' || c == 'L'

/-- A specification; the conversion need not be one that is known. -/
structure Spec where
  flags : List Flag
  width : Width
  precision : Precision
  qualifier : Option Qualifier
  conversion : Char
  unreserved : isReserved conversion = false

/-- A piece of a format: a character that is printed as it is, or a conversion. -/
inductive Item where
  | text (c : Char) (plain : c ≠ '%')
  | spec (s : Spec)

/-! ## The text of a format -/

/-- A number in a format, in decimal digits. -/
def decimal (n : Nat) : List Char := (digitList 10 n).map (digitChar false)

/-- The width in the format. -/
def Width.print : Width → List Char
  | .unset => []
  | .lit n _ => decimal n
  | .star => ['*']

/-- The precision in the format. -/
def Precision.print : Precision → List Char
  | .unset => []
  | .point => ['.']
  | .lit n => '.' :: decimal n
  | .star => ['.', '*']

/-- A conversion in the format, after its `%`. -/
def Spec.print (s : Spec) : List Char :=
  s.flags.map Flag.char ++ (s.width.print ++ (s.precision.print ++
    ((s.qualifier.map Qualifier.char).toList ++ [s.conversion])))

/-- A piece of a format as text. -/
def Item.print : Item → List Char
  | .text c _ => [c]
  | .spec s => '%' :: s.print

/-! ## The meaning of a format -/

/-- The width that is meant; a `*` takes it from the arguments, and a negative one sets the flag for the
    left. -/
def Width.take (w : Width) (flags : Flags) (o : Out) : Option (Flags × Int × Out) :=
  match w with
  | .unset => some (flags, -1, o)
  | .lit n _ => some (flags, n, o)
  | .star => do
    let (w, o) ← o.vaInt
    some (if w < 0 then { flags with left := true } else flags, |w|, o)

/-- The precision that is meant, -1 where there is none. -/
def Precision.take (p : Precision) (o : Out) : Option (Int × Out) :=
  match p with
  | .unset => some (-1, o)
  | .point => some (0, o)
  | .lit n => some (n, o)
  | .star => do
    let (p, o) ← o.vaInt
    some (max p 0, o)

section Run

variable (strings : BitVec 64 → List Char)

/-- What a conversion prints. -/
def Spec.run (s : Spec) (o : Out) : Option Out := do
  let (flags, width, o) ← s.width.take (s.flags.foldl Flag.set {}) o
  let (precision, o) ← s.precision.take o
  convert strings flags width precision (s.qualifier.map Qualifier.char) (some s.conversion) o

/-- What a piece of the format prints. -/
def Item.run (o : Out) : Item → Option Out
  | .text c _ => some (o.put [c])
  | .spec s => s.run strings o

end Run

/-! ## Reading the text back -/

end Yaos.Printk
