import Lox.Number.Shortest

/-!
# Number texts

A number has three texts: the one that `print` writes, the one of a literal in a token or an
expression, and the one of a literal in a JSON record.  They differ in where they change to an
exponent, in the fraction `.0`, in the texts of the special numbers and in the choice between two
equally short and equally near decimals.
-/

namespace Lox

namespace Decimal

def digitChars (d : Decimal) : List Char :=
  Nat.toDigits 10 d.digits

/-- The place of the decimal point, counted from the first digit. -/
def point (d : Decimal) : Int :=
  d.digitChars.length + d.exponent

/-- Without exponent: `1200`, `12.5`, `0.00125`. -/
def positional (d : Decimal) : String :=
  let digits := d.digitChars
  if 0 ≤ d.exponent then
    .ofList (digits ++ .replicate d.exponent.toNat '0')
  else if 0 < d.point then
    .ofList (digits.take d.point.toNat ++ '.' :: digits.drop d.point.toNat)
  else
    .ofList ('0' :: '.' :: .replicate (-d.point).toNat '0' ++ digits)

/-- With one digit before the point and `mark` before the exponent: `1e6`, `1.25e6`. -/
def scientific (mark : String) (d : Decimal) : String :=
  let exponent := d.point - 1
  let mantissa :=
    match d.digitChars with
    | [] => []
    | [digit] => [digit]
    | digit :: rest => digit :: '.' :: rest
  let sign := if exponent < 0 then "-" else "+"
  String.ofList mantissa ++ mark ++ sign ++ Nat.repr exponent.natAbs

end Decimal

namespace Number

def signText (negative : Bool) : String :=
  if negative then "-" else ""

/-- Whether `significand * 2 ^ scale / 2 ^ 1074` is an integer. -/
def isIntegral (significand scale : Nat) : Bool :=
  significand * pow2 scale % pow2 1074 = 0

/-- The integer part of `significand * 2 ^ scale / 2 ^ 1074`. -/
def wholePart (significand scale : Nat) : Nat :=
  significand * pow2 scale / pow2 1074

/-- The text of a printed number. Integers below `10 ^ 21` are written in full and the others with
an exponent; a fraction is never written with an exponent. -/
def display (n : Number) : String :=
  match n.shape with
  | .nan => "NaN"
  | .infinite negative => signText negative ++ "inf"
  | .finite negative significand scale =>
    signText negative ++
      if isIntegral significand scale then
        if wholePart significand scale < pow10 21 then
          Nat.repr (wholePart significand scale)
        else
          (shortest .up significand scale).scientific "E"
      else
        (shortest .up significand scale).positional

/-- An integer with a sign and a magnitude. There is no negative zero. -/
def signed (negative : Bool) (magnitude : Nat) : Int :=
  if negative then -(magnitude : Int) else magnitude

theorem repr_signed (negative : Bool) (magnitude : Nat) :
    (signed negative magnitude).repr =
      signText (negative && magnitude != 0) ++ Nat.repr magnitude := by
  cases negative with
  | false =>
    change Nat.repr magnitude = "" ++ Nat.repr magnitude
    rw [String.empty_append]
  | true =>
    cases magnitude with
    | zero => rfl
    | succ magnitude => rfl

/-- The text of a number literal. An integer is written with the fraction `.0`. One below `2 ^ 63`
is turned into a machine integer first, and so negative zero loses its sign. -/
def literal (n : Number) : String :=
  match n.shape with
  | .nan => "NaN"
  | .infinite negative => signText negative ++ "inf"
  | .finite negative significand scale =>
    if isIntegral significand scale then
      let whole := wholePart significand scale
      if whole < pow2 63 then
        (signed negative whole).repr ++ ".0"
      else
        signText negative ++ Nat.repr whole ++ ".0"
    else
      signText negative ++ (shortest .up significand scale).positional

/-- On both sides of `2 ^ 63` an integer is written in full; only zero has no sign. -/
theorem literal_of_isIntegral {n : Number} {negative : Bool} {significand scale : Nat}
    (hshape : n.shape = .finite negative significand scale)
    (hintegral : isIntegral significand scale = true) :
    n.literal = signText (negative && wholePart significand scale != 0) ++
      Nat.repr (wholePart significand scale) ++ ".0" := by
  unfold literal
  simp only [hshape, hintegral, if_true]
  split
  case isTrue hsmall => rw [repr_signed]
  case isFalse hlarge =>
    have hpos : 0 < pow2 63 := by decide
    have hne : wholePart significand scale ≠ 0 := by omega
    rw [bne_iff_ne.2 hne, Bool.and_true]

/-- The text of a number in a JSON record: positional from `10 ^ (-5)` up to `10 ^ 16`, always with
a fraction or an exponent. JSON has no text for the special numbers. -/
def json (n : Number) : String :=
  match n.shape with
  | .nan => "null"
  | .infinite _ => "null"
  | .finite negative significand scale =>
    signText negative ++
      if significand = 0 then "0.0"
      else
        let decimal := shortest .even significand scale
        if -5 < decimal.point ∧ decimal.point ≤ 16 then
          if 0 ≤ decimal.exponent then decimal.positional ++ ".0" else decimal.positional
        else
          decimal.scientific "e"

end Number

end Lox
