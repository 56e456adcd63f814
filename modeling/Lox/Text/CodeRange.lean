/-!
# Ranges of code points

A class of characters is given by closed ranges of code points, in ascending order and apart from
each other.
-/

namespace Lox

/-- The code points from the first to the last. -/
structure CodeRange where
  first : Nat
  last : Nat
deriving DecidableEq

/-- Look a code point up in ascending ranges, no further than they can hold it. -/
def CodeRange.includes : List CodeRange → (code : Nat) → Bool
  | [], _ => false
  | r :: rest, code => r.first ≤ code && (code ≤ r.last || includes rest code)

end Lox
