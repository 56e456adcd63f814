import Lox.Token.Basic

/-!
# Trees

Expressions and statements.  The nodes that refer to a variable carry an identifier, by which a
machine later finds how many scopes lie between the node and its variable.  Operators keep their
token, whose kind decides what they do.
-/

namespace Lox

/-- Names one node among all nodes that a session ever reads. -/
abbrev NodeId := Nat

inductive Literal where
  | nil
  | bool (value : Bool)
  | number (value : Number)
  | string (text : String)
deriving DecidableEq, Inhabited

inductive Expr where
  | literal (value : Literal)
  | grouping (inner : Expr)
  | unary (op : Token) (operand : Expr)
  | binary (op : Token) (left right : Expr)
  | logical (op : Token) (left right : Expr)
  | var (id : NodeId) (name : Token)
  | assign (id : NodeId) (name : Token) (value : Expr)
  | call (callee : Expr) (paren : Token) (arguments : List Expr)
  | get (object : Expr) (name : Token)
  | set (object : Expr) (name : Token) (value : Expr)
  | this (id : NodeId) (keyword : Token)
  | super (id : NodeId) (keyword method : Token)
deriving Inhabited

/-- A function or a method: its name, its parameters and the statements of its body. -/
structure Routine (statement : Type) where
  name : Token
  params : List Token
  body : List statement
deriving Inhabited

inductive Stmt where
  | block (body : List Stmt)
  | classDecl (name : Token) (superclass : Option Expr) (methods : List (Routine Stmt))
  | expression (e : Expr)
  | function (routine : Routine Stmt)
  | ifElse (condition : Expr) (thenBranch : Stmt) (elseBranch : Option Stmt)
  | print (e : Expr)
  | return (keyword : Token) (value : Option Expr)
  | var (name : Token) (initializer : Option Expr)
  | while (condition : Expr) (body : Stmt)
  | break (keyword : Token)
  | continue (keyword : Token)
deriving Inhabited

/-- A `for` loop has no node of its own. The increment follows the body in a block of its own, and
the initializer stands before the loop in another. -/
def Stmt.forLoop (initializer : Option Stmt) (condition increment : Option Expr) (body : Stmt) :
    Stmt :=
  let step :=
    match increment with
    | some e => .block [body, .expression e]
    | none => body
  let loop := .while (condition.getD (.literal (.bool true))) step
  match initializer with
  | some first => .block [first, loop]
  | none => loop

end Lox
