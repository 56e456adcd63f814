import Lox.Number.Basic

/-!
# The number nearest to a quotient

A decimal literal denotes a quotient of natural numbers.  The number it stands for is the nearest
one, and of two equally near ones that with the even significand.
-/

namespace Lox

/-- The integer nearest to `a / b`; a half goes to the even neighbour. -/
def roundDiv (a b : Nat) : Nat :=
  let quotient := a / b
  let remainder := a % b
  if 2 * remainder < b then quotient
  else if b < 2 * remainder then quotient + 1
  else quotient + quotient % 2

namespace Number

/-- The bit pattern of the number nearest to `a / b`.

The quotient is measured in units of the least positive number, `2 ^ (-1074)`.  The scale is the
number of binary places that do not fit into 53 bits.  A rounded significand of `2 ^ 53` carries
into the exponent by itself, and everything too large becomes infinite. -/
def nearestWord (a b : Nat) : Nat :=
  let units := a * pow2 1074 / b
  let scale := units.log2 - 52
  min (scale * pow2 52 + roundDiv (a * pow2 1074) (b * pow2 scale)) (2047 * pow2 52)

def nearest (a b : Nat) : Number :=
  ⟨.ofNat (nearestWord a b)⟩

/-- The natural number that a list of decimal digits spells. -/
def digitsValue (digits : List Char) : Nat :=
  digits.foldl (fun value c ↦ 10 * value + (c.toNat - '0'.toNat)) 0

/-- The number written as `whole.fraction`. -/
def ofDigits (whole fraction : List Char) : Number :=
  nearest (digitsValue (whole ++ fraction)) (pow10 fraction.length)

def ofNat (n : Nat) : Number :=
  nearest n 1

end Number

end Lox
