import Lox.Diagnostic
import Lox.Value

/-!
# Operators

What the unary and binary operators do to values.  A binary operator other than addition and the two
equalities first asks for two numbers, and only then whether it is an operator at all.
-/

namespace Lox.Value

def unary (op : Kind) (operand : Value) : Except RuntimeFault Value :=
  match op with
  | .minus =>
    match operand with
    | number a => .ok (number a.neg)
    | _ => .error .operandNotNumber
  | .bang => .ok (bool !operand.isTruthy)
  | _ => .error .invalidUnary

/-- The operators on two numbers. -/
def arithmetic (op : Kind) (a b : Number) : Except RuntimeFault Value :=
  match op with
  | .minus => .ok (number (a.sub b))
  | .star => .ok (number (a.mul b))
  | .slash => if b.isZero then .error .divisionByZero else .ok (number (a.div b))
  | .greater => .ok (bool (b.less a))
  | .greaterEqual => .ok (bool (b.lessEqual a))
  | .less => .ok (bool (a.less b))
  | .lessEqual => .ok (bool (a.lessEqual b))
  | _ => .error .invalidBinary

def binary (op : Kind) (left right : Value) : Except RuntimeFault Value :=
  match op with
  | .plus =>
    match left, right with
    | number a, number b => .ok (number (a.add b))
    | string a, string b => .ok (string (a ++ b))
    | _, _ => .error .operandsNotAddable
  | .equalEqual => .ok (bool (left.equal right))
  | .bangEqual => .ok (bool !left.equal right)
  | _ =>
    match left, right with
    | number a, number b => arithmetic op a b
    | _, _ => .error .operandsNotNumbers

/-- Whether a logical operator is decided by its left operand. Every one but `or` acts as `and`. -/
def decides (op : Kind) (left : Value) : Bool :=
  if op = .orWord then left.isTruthy else !left.isTruthy

end Lox.Value
