/-!
# Numbers

Every number of the language is a double-precision number, held here as its bit pattern.  Reading a
literal and printing a number work on the decoded pattern in exact integer arithmetic; the four
operations and the comparisons are those of the machine.
-/

namespace Lox

/-- Two to the power `k`. -/
def pow2 (k : Nat) : Nat :=
  Nat.pow 2 k

/-- Ten to the power `k`. -/
def pow10 (k : Nat) : Nat :=
  Nat.pow 10 k

/-- A double-precision number as its 64-bit pattern. -/
structure Number where
  bits : UInt64
deriving DecidableEq, Inhabited

namespace Number

/-- What a bit pattern stands for. A finite number has magnitude
`significand * pow2 scale / pow2 1074`, so that every magnitude is a quotient of natural numbers. -/
inductive Shape where
  | nan
  | infinite (negative : Bool)
  | finite (negative : Bool) (significand scale : Nat)
deriving DecidableEq

/-- The pattern decoded: one sign bit, eleven bits of exponent, fifty-two bits of fraction. -/
def shape (n : Number) : Shape :=
  let word := n.bits.toNat
  let negative : Bool := pow2 63 ≤ word
  let field := word / pow2 52 % pow2 11
  let fraction := word % pow2 52
  if field = 2047 then
    if fraction = 0 then .infinite negative else .nan
  else if field = 0 then
    .finite negative fraction 0
  else
    .finite negative (pow2 52 + fraction) (field - 1)

def isZero (n : Number) : Bool :=
  n.bits.toNat % pow2 63 = 0

def toFloat (n : Number) : Float :=
  .ofBits n.bits

def ofFloat (x : Float) : Number :=
  ⟨x.toBits⟩

/-- Negation changes the sign bit and nothing else, of a NaN and of zero too. -/
def neg (n : Number) : Number :=
  ⟨n.bits ^^^ 0x8000000000000000⟩

def add (a b : Number) : Number :=
  ofFloat (a.toFloat + b.toFloat)

def sub (a b : Number) : Number :=
  ofFloat (a.toFloat - b.toFloat)

def mul (a b : Number) : Number :=
  ofFloat (a.toFloat * b.toFloat)

def div (a b : Number) : Number :=
  ofFloat (a.toFloat / b.toFloat)

/-- Equality of numbers, not of patterns: a NaN differs from itself and the two zeros agree. -/
def equal (a b : Number) : Bool :=
  a.toFloat == b.toFloat

def less (a b : Number) : Bool :=
  a.toFloat < b.toFloat

def lessEqual (a b : Number) : Bool :=
  a.toFloat ≤ b.toFloat

end Number

end Lox
