import Lox.Number.Basic

/-!
# The shortest decimal of a number

A positive number is the nearest one to every real of an interval around it, whose ends belong to it
when the significand is even.  The shortest decimal is the one with the fewest digits in that
interval, and of those the nearest to the number.

On the grid of decimals with a fixed number of digits it is enough to look at the two neighbours of
the number: if any grid point lies in the interval, one of these two does.
-/

namespace Lox

/-- The decimal `digits * 10 ^ exponent`. -/
structure Decimal where
  digits : Nat
  exponent : Int
deriving DecidableEq

/-- Which of two equally near decimals is taken. -/
inductive Tie where
  | up
  | even
deriving DecidableEq

/-- The number of decimal digits of a natural number; zero has none. -/
def digitCount (n : Nat) : Nat :=
  if n = 0 then 0 else (Nat.toDigits 10 n).length

namespace Number

/-- The power of ten just above `a / b`: the least `k` with `a / b < 10 ^ k`, for positive `a`
and `b`. -/
def decimalPoint (a b : Nat) : Int :=
  if b ≤ a then digitCount (a / b)
  else 1 - digitCount ((b - 1) / a)

/-- A finite positive number with the interval of reals that round to it, in units of
`2 ^ (-1076)`. -/
structure Neighbourhood where
  value : Nat
  low : Nat
  high : Nat
  closed : Bool

/-- The unit in which a neighbourhood is measured is one over this. -/
def Neighbourhood.unit : Nat :=
  pow2 1076

/-- Half the distance to the next number on each side; just below a power of two the numbers lie
twice as close. -/
def neighbourhood (significand scale : Nat) : Neighbourhood where
  value := 4 * significand * pow2 scale
  low := (4 * significand - if significand = pow2 52 ∧ 0 < scale then 1 else 2) * pow2 scale
  high := (4 * significand + 2) * pow2 scale
  closed := significand % 2 = 0

namespace Neighbourhood

/-- A grid of decimals with step `step / unit`, where the neighbourhood is stretched by
`stretch`. -/
structure Grid where
  step : Nat
  stretch : Nat

/-- The multiples of `10 ^ exponent`. -/
def grid (exponent : Int) : Grid :=
  if 0 ≤ exponent then ⟨unit * pow10 exponent.toNat, 1⟩
  else ⟨unit, pow10 (-exponent).toNat⟩

def Grid.floor (g : Grid) (n : Neighbourhood) : Nat :=
  n.value * g.stretch / g.step

/-- Whether the grid point `point` rounds to the number. -/
def Grid.hits (g : Grid) (n : Neighbourhood) (point : Nat) : Bool :=
  if n.closed then
    n.low * g.stretch ≤ point * g.step ∧ point * g.step ≤ n.high * g.stretch
  else
    n.low * g.stretch < point * g.step ∧ point * g.step < n.high * g.stretch

/-- Whether the grid point above `point` is to be preferred to `point`, both being hits. -/
def Grid.prefersNext (g : Grid) (n : Neighbourhood) (tie : Tie) (point : Nat) : Bool :=
  let twice := 2 * n.value * g.stretch
  let middle := (2 * point + 1) * g.step
  match tie with
  | .up => middle ≤ twice
  | .even => middle < twice || (middle = twice && point % 2 = 1)

/-- The hit on a grid that is nearest to the number, if the grid has one. -/
def Grid.nearest? (g : Grid) (n : Neighbourhood) (tie : Tie) : Option Nat :=
  let below := g.floor n
  let above := below + 1
  match g.hits n below, g.hits n above with
  | true, true => some (if g.prefersNext n tie below then above else below)
  | true, false => some below
  | false, true => some above
  | false, false => none

/-- The nearest decimal with `count` digits that rounds to the number. -/
def withDigits? (n : Neighbourhood) (tie : Tie) (count : Nat) : Option Decimal :=
  let exponent := decimalPoint n.value unit - count
  ((grid exponent).nearest? n tie).map (⟨·, exponent⟩)

/-- Seventeen digits always suffice, so the search ends with a hit. -/
def shortest (n : Neighbourhood) (tie : Tie) : Decimal :=
  ((List.range' 1 17).findSome? (n.withDigits? tie)).getD ⟨0, 0⟩

end Neighbourhood

/-- The shortest decimal that reads back as the positive number
`significand * 2 ^ scale / 2 ^ 1074`. Only a carry such as from nine to ten can leave a zero at the
end, and it is taken away. -/
def shortest (tie : Tie) (significand scale : Nat) : Decimal :=
  let decimal := (neighbourhood significand scale).shortest tie
  if decimal.digits % 10 = 0 then ⟨decimal.digits / 10, decimal.exponent + 1⟩ else decimal

end Number

end Lox
