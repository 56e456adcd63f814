import Lox.Tree.Basic

/-!
# Prefix form

An expression is printed with every operator in front of its operands and parentheses around both,
as in `(* (- 123.0) (group 45.67))`.
-/

namespace Lox

def Literal.print : Literal → String
  | nil => "nil"
  | bool true => "true"
  | bool false => "false"
  | number value => value.literal
  | string text => text

mutual

/-- The prefix form of an expression. -/
def Expr.print : Expr → String
  | literal value => value.print
  | grouping inner => "(group " ++ inner.print ++ ")"
  | unary op operand => "(" ++ op.lexeme ++ " " ++ operand.print ++ ")"
  | binary op left right =>
    "(" ++ op.lexeme ++ " " ++ left.print ++ " " ++ right.print ++ ")"
  | logical op left right =>
    "(" ++ op.lexeme ++ " " ++ left.print ++ " " ++ right.print ++ ")"
  | var _ name => name.lexeme
  | assign _ name value => "(= " ++ name.lexeme ++ " " ++ value.print ++ ")"
  | call callee _ arguments => "(call " ++ callee.print ++ Expr.printAll arguments ++ ")"
  | get object name => "(. " ++ object.print ++ " " ++ name.lexeme ++ ")"
  | set object name value =>
    "(.= " ++ object.print ++ " " ++ name.lexeme ++ " " ++ value.print ++ ")"
  | this _ _ => "this"
  | super _ _ method => "(super " ++ method.lexeme ++ ")"

/-- The prefix forms of arguments, each after a space. -/
def Expr.printAll : List Expr → String
  | [] => ""
  | e :: rest => " " ++ e.print ++ Expr.printAll rest

end

end Lox
