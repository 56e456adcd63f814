import Lox.Parser.Basic

/-!
# The grammar of expressions

```text
expression → assignment
assignment → ( call "." )? IDENT "=" assignment | logic_or
logic_or   → logic_and ( "or" logic_and )*
logic_and  → equality ( "and" equality )*
equality   → comparison ( ( "!=" | "==" ) comparison )*
comparison → term ( ( ">" | ">=" | "<" | "<=" ) term )*
term       → factor ( ( "-" | "+" ) factor )*
factor     → unary ( ( "/" | "*" ) unary )*
unary      → ( "!" | "-" ) unary | call
call       → primary ( "(" arguments? ")" | "." IDENT )*
arguments  → expression ( "," expression )*
primary    → NUMBER | STRING | "true" | "false" | "nil" | "this" | IDENT
           | "(" expression ")" | "super" "." IDENT
```

The rules between an expression and the expressions inside it are plain functions of a parser
`nested` for the latter.  Before a nested expression there is always a token, so expressions nest no
deeper than there are tokens.
-/

namespace Lox.Parser

/-- A level of binary operators: which they are and what node they build. -/
structure Level where
  isOperator : Kind → Bool
  node : Token → Expr → Expr → Expr

/-- The levels of binary operators, the loosest first. -/
def levels : List Level :=
  [⟨(· = .orWord), .logical⟩,
    ⟨(· = .andWord), .logical⟩,
    ⟨fun kind ↦ kind = .bangEqual || kind = .equalEqual, .binary⟩,
    ⟨fun kind ↦ kind = .greater || kind = .greaterEqual || kind = .less || kind = .lessEqual,
      .binary⟩,
    ⟨fun kind ↦ kind = .minus || kind = .plus, .binary⟩,
    ⟨fun kind ↦ kind = .slash || kind = .star, .binary⟩]

/-- Operators and operands after a first operand, grouped to the left. -/
def chain (level : Level) (operand : Parser Expr) : (bound : Nat) → Expr → Parser Expr
  | 0, left => return left
  | bound + 1, left => do
    match ← acceptIf level.isOperator with
    | none => return left
    | some op =>
      let right ← operand
      chain level operand bound (level.node op left right)

/-- Operands joined by the operators of some levels, the loosest first. -/
def operators (bound : Nat) (operand : Parser Expr) : List Level → Parser Expr
  | [] => operand
  | level :: tighter => do
    let left ← operators bound operand tighter
    chain level (operators bound operand tighter) bound left

/-- The kinds at which an expression without signs starts. -/
def startsPrimary : Kind → Bool
  | .falseWord | .trueWord | .nilWord | .number _ | .string _ | .thisWord | .identifier
  | .superWord | .leftParen => true
  | _ => false

/-- The expression that a first token announces. -/
def primaryAfter (nested : Parser Expr) (token : Token) : Parser Expr := do
  match token.kind with
  | .falseWord => return .literal (.bool false)
  | .trueWord => return .literal (.bool true)
  | .nilWord => return .literal .nil
  | .number value => return .literal (.number value)
  | .string text => return .literal (.string text)
  | .thisWord => return .this (← freshId) token
  | .identifier => return .var (← freshId) token
  | .superWord =>
    let _ ← expect .dot .expectSuperDot
    let method ← expect .identifier .expectSuperMethod
    return .super (← freshId) token method
  | _ =>
    let inner ← nested
    let _ ← expect .rightParen .expectGroupEnd
    return .grouping inner

/-- An expression without signs, calls and operators. -/
def primary (nested : Parser Expr) : Parser Expr := do
  match ← acceptIf startsPrimary with
  | some token => primaryAfter nested token
  | none => fail .expectExpression

/-- The arguments of a call after its opening parenthesis, with the closing one. -/
def arguments (bound : Nat) (nested : Parser Expr) : Parser (List Expr × Token) := do
  let values ← listed bound .tooManyArguments nested
  let paren ← expect .rightParen .expectArgumentsEnd
  return (values, paren)

/-- Calls and properties after an expression. -/
def suffixes (bound : Nat) (nested : Parser Expr) : (rounds : Nat) → Expr → Parser Expr
  | 0, e => return e
  | rounds + 1, e => do
    if ← accept .leftParen then
      let (values, paren) ← arguments bound nested
      suffixes bound nested rounds (.call e paren values)
    else if ← accept .dot then
      let name ← expect .identifier .expectPropertyName
      suffixes bound nested rounds (.get e name)
    else
      return e

def isSign (kind : Kind) : Bool :=
  kind = .bang || kind = .minus

/-- Signs before an operand. -/
def signs (operand : Parser Expr) : (bound : Nat) → Parser Expr
  | 0 => operand
  | bound + 1 => do
    match ← acceptIf isSign with
    | some op => return .unary op (← signs operand bound)
    | none => operand

/-- Everything that binds tighter than an assignment. -/
def operation (bound : Nat) (nested : Parser Expr) : Parser Expr :=
  let call := do suffixes bound nested bound (← primary nested)
  operators bound (signs call bound) levels

/-- What an assignment to an expression is, if one can assign to it. -/
def assignTo (target : Expr) (equals : Token) (value : Expr) : Parser Expr := do
  match target with
  | .var _ name => return .assign (← freshId) name value
  | .get object name => return .set object name value
  | _ =>
    note equals .invalidTarget
    return target

def assignment (bound : Nat) (nested : Parser Expr) : Parser Expr := do
  let target ← operation bound nested
  match ← acceptIf (· = .equal) with
  | none => return target
  | some equals => assignTo target equals (← nested)

/-- An expression, where at most `bound` tokens are left. -/
def expression : (bound : Nat) → Parser Expr
  | 0 => fail .expectExpression
  | bound + 1 => assignment (bound + 1) (expression bound)

end Lox.Parser
