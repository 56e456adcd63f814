import Lox.Parser.Expression

/-!
# The grammar of statements

```text
program      → declaration* EOF
declaration  → classDecl | funDecl | varDecl | statement
classDecl    → "class" IDENT ( "<" IDENT )? "{" function* "}"
funDecl      → "fun" function
function     → IDENT "(" parameters? ")" block
parameters   → IDENT ( "," IDENT )*
varDecl      → "var" IDENT ( "=" expression )? ";"
statement    → exprStmt | forStmt | ifStmt | printStmt | returnStmt
             | whileStmt | breakStmt | continueStmt | block
exprStmt     → expression ";"
forStmt      → "for" "(" ( varDecl | exprStmt | ";" ) expression? ";" expression? ")" statement
ifStmt       → "if" "(" expression ")" statement ( "else" statement )?
printStmt    → "print" expression ";"
returnStmt   → "return" expression? ";"
whileStmt    → "while" "(" expression ")" statement
breakStmt    → "break" ";"
continueStmt → "continue" ";"
block        → "{" declaration* "}"
```

A declaration that fails is dropped, and reading goes on behind it.  Rules know whether they stand
in a loop of the current function, which is where `break` and `continue` may stand.
-/

namespace Lox.Parser

/-- An expression, or nothing if a token of the given kind comes first. -/
def optionalExpression (bound : Nat) (closing : Kind) : Parser (Option Expr) := do
  if ← check closing then return none
  return some (← expression bound)

/-- The initial value of a variable, if an equals sign announces one. -/
def initialValue (bound : Nat) : Parser (Option Expr) := do
  if ← accept .equal then
    return some (← expression bound)
  return none

/-- A variable declaration after `var`. -/
def variableDeclaration (bound : Nat) : Parser Stmt := do
  let name ← expect .identifier .expectVariableName
  let initializer ← initialValue bound
  let _ ← expect .semicolon .expectVariableEnd
  return .var name initializer

def expressionStatement (bound : Nat) : Parser Stmt := do
  let e ← expression bound
  let _ ← expect .semicolon .expectExpressionEnd
  return .expression e

def blockEnd : Parser Bool := do
  return (← atEnd) || (← check .rightBrace)

/-- The declarations of a block after its opening brace; those that failed are left out. -/
def block (bound : Nat) (declaration : Parser (Option Stmt)) : Parser (List Stmt) := do
  let body ← manyUntil blockEnd declaration bound
  let _ ← expect .rightBrace .expectBlockEnd
  return body.reduceOption

/-- A function or method from its name on. Its body stands in no loop. -/
def routine (bound : Nat) (kind : RoutineKind) (declaration : Bool → Parser (Option Stmt)) :
    Parser (Routine Stmt) := do
  let name ← expect .identifier (.expectRoutineName kind)
  let _ ← expect .leftParen (.expectRoutineParen kind)
  let params ← listed bound .tooManyParameters (expect .identifier .expectParameterName)
  let _ ← expect .rightParen .expectParametersEnd
  let _ ← expect .leftBrace (.expectRoutineBody kind)
  let body ← block bound (declaration false)
  return ⟨name, params, body⟩

/-- The superclass of a class, if a less sign announces one. -/
def superclass : Parser (Option Expr) := do
  if ← accept .less then
    let name ← expect .identifier .expectSuperclassName
    return some (.var (← freshId) name)
  return none

/-- A class declaration after `class`. -/
def classDeclaration (bound : Nat) (declaration : Bool → Parser (Option Stmt)) : Parser Stmt := do
  let name ← expect .identifier .expectClassName
  let superclass ← superclass
  let _ ← expect .leftBrace .expectClassBody
  let methods ← manyUntil blockEnd (routine bound .method declaration) bound
  let _ ← expect .rightBrace .expectClassEnd
  return .classDecl name superclass methods

/-- The first clause of a `for` statement with the semicolon that ends it. -/
def forInitializer (bound : Nat) : Parser (Option Stmt) := do
  if ← accept .semicolon then
    return none
  if ← accept .varWord then
    return some (← variableDeclaration bound)
  return some (← expressionStatement bound)

/-- A `for` statement after its keyword; `body` reads a statement inside the loop. -/
def forStatement (bound : Nat) (body : Parser Stmt) : Parser Stmt := do
  let _ ← expect .leftParen .expectForParen
  let initializer ← forInitializer bound
  let condition ← optionalExpression bound .semicolon
  let _ ← expect .semicolon .expectForCondition
  let increment ← optionalExpression bound .rightParen
  let _ ← expect .rightParen .expectForEnd
  return .forLoop initializer condition increment (← body)

/-- An `if` statement after its keyword. An `else` belongs to the nearest `if`. -/
def ifStatement (bound : Nat) (branch : Parser Stmt) : Parser Stmt := do
  let _ ← expect .leftParen .expectIfParen
  let condition ← expression bound
  let _ ← expect .rightParen .expectConditionEnd
  let thenBranch ← branch
  if ← accept .elseWord then
    return .ifElse condition thenBranch (some (← branch))
  return .ifElse condition thenBranch none

/-- A `while` statement after its keyword. -/
def whileStatement (bound : Nat) (body : Parser Stmt) : Parser Stmt := do
  let _ ← expect .leftParen .expectWhileParen
  let condition ← expression bound
  let _ ← expect .rightParen .expectConditionEnd
  return .while condition (← body)

def printStatement (bound : Nat) : Parser Stmt := do
  let e ← expression bound
  let _ ← expect .semicolon .expectValueEnd
  return .print e

def returnStatement (bound : Nat) (keyword : Token) : Parser Stmt := do
  let value ← optionalExpression bound .semicolon
  let _ ← expect .semicolon .expectReturnEnd
  return .return keyword value

/-- A `break` or `continue` after its keyword. Outside a loop it is noted as an error. -/
def jump (inLoop : Bool) (keyword : Token) (stray missingEnd : SyntaxFault) (node : Token → Stmt) :
    Parser Stmt := do
  if !inLoop then note keyword stray
  let _ ← expect .semicolon missingEnd
  return node keyword

/-- The keywords and the brace that start a statement other than an expression. -/
def startsStatement (kind : Kind) : Bool :=
  kind = .forWord || kind = .ifWord || kind = .printWord || kind = .returnWord ||
    kind = .whileWord || kind = .leftBrace || kind = .breakWord || kind = .continueWord

/-- The statement that a first token announces. -/
def statementAfter (bound : Nat) (statement : Bool → Parser Stmt)
    (declaration : Bool → Parser (Option Stmt)) (inLoop : Bool) (token : Token) : Parser Stmt :=
  match token.kind with
  | .forWord => forStatement bound (statement true)
  | .ifWord => ifStatement bound (statement inLoop)
  | .printWord => printStatement bound
  | .returnWord => returnStatement bound token
  | .whileWord => whileStatement bound (statement true)
  | .leftBrace => .block <$> block bound (declaration inLoop)
  | .breakWord => jump inLoop token .strayBreak .expectBreakEnd .break
  | _ => jump inLoop token .strayContinue .expectContinueEnd .continue

/-- The keywords that start a declaration other than a statement. -/
def startsDeclaration (kind : Kind) : Bool :=
  kind = .classWord || kind = .funWord || kind = .varWord

/-- The declaration that a first token announces. -/
def declarationAfter (bound : Nat) (declaration : Bool → Parser (Option Stmt)) (token : Token) :
    Parser Stmt :=
  match token.kind with
  | .classWord => classDeclaration bound declaration
  | .funWord => .function <$> routine bound .function declaration
  | _ => variableDeclaration bound

mutual

/-- A declaration, or nothing if it failed. A bound of twice the number of tokens left and one is
enough for every rule inside. -/
def declaration : (bound : Nat) → (inLoop : Bool) → Parser (Option Stmt)
  | 0, _ => recover (fail .expectExpression)
  | bound + 1, inLoop => recover do
    match ← acceptIf startsDeclaration with
    | some token => declarationAfter bound (declaration bound) token
    | none => statement bound inLoop

/-- A statement. A bound of twice the number of tokens left is enough. -/
def statement : (bound : Nat) → (inLoop : Bool) → Parser Stmt
  | 0, _ => fail .expectExpression
  | bound + 1, inLoop => do
    match ← acceptIf startsStatement with
    | some token => statementAfter bound (statement bound) (declaration bound) inLoop token
    | none => expressionStatement bound

end

end Lox.Parser

namespace Lox

/-- What was read from a token list: a result, the errors in the order they were noted, and the
next free node identifier. -/
structure Reading (α : Type) where
  result : α
  errors : List SyntaxError
  nextId : NodeId

/-- Read a program: all declarations up to the end, without those that failed. -/
def readProgram (nextId : NodeId) (tokens : List Token) : Reading (List Stmt) :=
  let start := Parser.State.start nextId tokens
  let bound := start.rest.length
  let rule := Parser.manyUntil .atEnd (Parser.declaration (2 * bound + 1) false) bound
  match rule start with
  | .ok program s => ⟨program.reduceOption, s.errors.toList, s.nextId⟩
  | .error e s => ⟨[], (s.errors.push e).toList, s.nextId⟩

/-- Read one expression from the front; what follows it is not looked at. -/
def readExpression (nextId : NodeId) (tokens : List Token) : Reading (Option Expr) :=
  let start := Parser.State.start nextId tokens
  match Parser.expression start.rest.length start with
  | .ok e s => ⟨some e, s.errors.toList, s.nextId⟩
  | .error e s => ⟨none, (s.errors.push e).toList, s.nextId⟩

end Lox
