import Lox.Host.FileSystem
import Lox.Token.Segment

/-!
# Diagnostics

What can be wrong with a program, as causes, and the wording of each.  A diagnostic is a cause with
its place: lexical, syntactic and static faults keep a program from running, runtime faults and
failures of the output end it.
-/

namespace Lox

def LexicalFault.message : LexicalFault → String
  | unexpected character => "Unexpected character: " ++ character.toString
  | unterminatedString => "Unterminated string."
  | unterminatedComment => "Unterminated block comment."

/-- A routine is declared on its own or as part of a class. -/
inductive RoutineKind where
  | function
  | method
deriving DecidableEq

def RoutineKind.name : RoutineKind → String
  | function => "function"
  | method => "method"

/-- What the grammar misses or forbids. -/
inductive SyntaxFault where
  | expectExpression
  | expectClassName
  | expectSuperclassName
  | expectClassBody
  | expectClassEnd
  | expectRoutineName (kind : RoutineKind)
  | expectRoutineParen (kind : RoutineKind)
  | expectRoutineBody (kind : RoutineKind)
  | expectParameterName
  | expectParametersEnd
  | expectVariableName
  | expectVariableEnd
  | expectForParen
  | expectForCondition
  | expectForEnd
  | expectIfParen
  | expectWhileParen
  | expectConditionEnd
  | expectValueEnd
  | expectReturnEnd
  | expectBreakEnd
  | expectContinueEnd
  | expectBlockEnd
  | expectExpressionEnd
  | expectPropertyName
  | expectArgumentsEnd
  | expectSuperDot
  | expectSuperMethod
  | expectGroupEnd
  | invalidTarget
  | strayBreak
  | strayContinue
  | tooManyParameters
  | tooManyArguments
deriving DecidableEq

def SyntaxFault.message : SyntaxFault → String
  | expectExpression => "Expect expression."
  | expectClassName => "Expect class name."
  | expectSuperclassName => "Expect superclass name."
  | expectClassBody => "Expect '\x7b' before class body."
  | expectClassEnd => "Expect '\x7d' after class body."
  | expectRoutineName kind => "Expect " ++ kind.name ++ " name."
  | expectRoutineParen kind => "Expect '(' after " ++ kind.name ++ " name."
  | expectRoutineBody kind => "Expect '\x7b' before " ++ kind.name ++ " body."
  | expectParameterName => "Expect parameter name."
  | expectParametersEnd => "Expect ')' after parameters."
  | expectVariableName => "Expect variable name."
  | expectVariableEnd => "Expect ';' after variable declaration."
  | expectForParen => "Expect '(' after 'for'."
  | expectForCondition => "Expect ';' after loop condition."
  | expectForEnd => "Expect ')' after for clauses."
  | expectIfParen => "Expect '(' after 'if'."
  | expectWhileParen => "Expect '(' after 'while'."
  | expectConditionEnd => "Expect ')' after condition."
  | expectValueEnd => "Expect ';' after value."
  | expectReturnEnd => "Expect ';' after return value."
  | expectBreakEnd => "Expect ';' after break."
  | expectContinueEnd => "Expect ';' after continue."
  | expectBlockEnd => "Expect '\x7d' after block."
  | expectExpressionEnd => "Expect ';' after expression."
  | expectPropertyName => "Expect property name after '.'."
  | expectArgumentsEnd => "Expect ')' after arguments."
  | expectSuperDot => "Expect '.' after 'super'."
  | expectSuperMethod => "Expect superclass method name."
  | expectGroupEnd => "Expect ')' after expression."
  | invalidTarget => "Invalid assignment target."
  | strayBreak => "break statement not inside a loop."
  | strayContinue => "continue statement not inside a loop."
  | tooManyParameters => "Can't have more than 255 parameters."
  | tooManyArguments => "Can't have more than 255 arguments."

/-- The static rules that a well-formed program can break. -/
inductive StaticFault where
  | topLevelReturn
  | initializerReturnsValue
  | thisOutsideClass
  | superOutsideClass
  | superWithoutSuperclass
  | redeclared
  | readInOwnInitializer
  | inheritsFromItself
deriving DecidableEq

def StaticFault.message : StaticFault → String
  | topLevelReturn => "Can't return from top-level code."
  | initializerReturnsValue => "Cannot return a value from an initializer."
  | thisOutsideClass => "Can't use 'this' outside of a class."
  | superOutsideClass => "Can't use 'super' outside of a class."
  | superWithoutSuperclass => "Can't use 'super' in a class with no superclass."
  | redeclared => "Already a variable with this name in this scope."
  | readInOwnInitializer => "Can't read local variable in its own initializer."
  | inheritsFromItself => "A class can't inherit from itself."

/-- What can go wrong while a program runs. -/
inductive RuntimeFault where
  | operandNotNumber
  | operandsNotNumbers
  | operandsNotAddable
  | divisionByZero
  | invalidUnary
  | invalidBinary
  | notCallable
  | wrongArity (expected actual : Nat)
  | noProperties
  | noFields
  | undefinedProperty (name : String)
  | undefinedVariable (name : String)
  | superclassNotClass
  | argumentNotText (builtin : String)
  | firstArgumentNotText (builtin : String)
  | secondArgumentNotText (builtin : String)
  | unreadable (builtin path : String) (error : FileError)
  | unwritable (builtin path : String) (error : FileError)
  | inputNotText (builtin : String)
deriving DecidableEq

def RuntimeFault.message : RuntimeFault → String
  | operandNotNumber => "Operand must be a number."
  | operandsNotNumbers => "Operands must be numbers."
  | operandsNotAddable => "Operands must be two numbers or two strings."
  | divisionByZero => "Division by zero."
  | invalidUnary => "Invalid unary operator."
  | invalidBinary => "Invalid binary operator."
  | notCallable => "Can only call functions and classes."
  | wrongArity expected actual =>
    "Expected " ++ Nat.repr expected ++ " arguments but got " ++ Nat.repr actual ++ "."
  | noProperties => "Only instances have properties."
  | noFields => "Only instances have fields."
  | undefinedProperty name => "Undefined property '" ++ name ++ "'."
  | undefinedVariable name => "Undefined variable '" ++ name ++ "'."
  | superclassNotClass => "Superclass must be a class."
  | argumentNotText builtin => builtin ++ "() argument must be a string."
  | firstArgumentNotText builtin => builtin ++ "() first argument must be a string."
  | secondArgumentNotText builtin => builtin ++ "() second argument must be a string."
  | unreadable builtin path error =>
    builtin ++ "() could not read '" ++ path ++ "': " ++ error.message
  | unwritable builtin path error =>
    builtin ++ "() could not write '" ++ path ++ "': " ++ error.message
  | inputNotText builtin => builtin ++ "() failed: " ++ FileError.notText.message

/-- A fault with its place, or a failure of an output stream with its text. -/
inductive Diagnostic where
  | lexical (line : Nat) (fault : LexicalFault)
  | syntactic (token : Token) (fault : SyntaxFault)
  | static (token : Token) (fault : StaticFault)
  | runtime (line : Nat) (fault : RuntimeFault)
  | output (text : String)
deriving DecidableEq

namespace Diagnostic

/-- How a message names the token it is about. -/
def location (token : Token) : String :=
  if token.kind = .endOfInput then " at end" else " at '" ++ token.lexeme ++ "'"

/-- The message of a fault found before a program runs. -/
def compileText (line : Nat) (location message : String) : String :=
  "[line " ++ Nat.repr line ++ "] Error" ++ location ++ ": " ++ message

def text : Diagnostic → String
  | lexical line fault => compileText line "" fault.message
  | syntactic token fault => compileText token.line (location token) fault.message
  | static token fault => compileText token.line (location token) fault.message
  | runtime line fault => fault.message ++ "\n[line " ++ Nat.repr line ++ "]"
  | output text => text

/-- Whether a fault keeps a program from running. -/
def isCompileTime : Diagnostic → Bool
  | lexical .. => true
  | syntactic .. => true
  | static .. => true
  | runtime .. => false
  | output _ => false

end Diagnostic

end Lox
