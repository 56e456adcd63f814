import Lox.Resolution

/-!
# Occurrences

Where a node stands is told by what encloses it, from the innermost body outwards.  From this alone
follow the names that the scopes around the node hold and the static rule that it breaks, if any:
nothing that a walk over the program would remember enters into it.
-/

namespace Lox

/-- What a list of statements is the body of. -/
inductive BodyKind where
  | program
  | block
  | function (name : Token) (params : List Token)
  | method (name : Token) (params : List Token)

namespace BodyKind

def params : BodyKind → List Token
  | program => []
  | block => []
  | function _ params => params
  | method _ params => params

/-- Only the body of the program opens no scope of its own. -/
def isLocal : BodyKind → Bool
  | program => false
  | _ => true

/-- The function or method whose body this is. -/
def routine? : BodyKind → Option BodyKind
  | function name params => some (.function name params)
  | method name params => some (.method name params)
  | _ => none

end BodyKind

/-- The name that a statement declares if it is a declaration itself. -/
def Stmt.ownName : Stmt → List Token
  | classDecl name _ _ => [name]
  | function routine => [routine.name]
  | var name _ => [name]
  | _ => []

mutual

/-- The names that a statement declares in the scope around it. A branch or a loop body that is a
declaration declares its name there, too. -/
def Stmt.declared : Stmt → List Token
  | classDecl name _ _ => [name]
  | function routine => [routine.name]
  | var name _ => [name]
  | ifElse _ thenBranch elseBranch => thenBranch.declared ++ Stmt.declaredOption elseBranch
  | .while _ body => body.declared
  | _ => []

def Stmt.declaredOption : Option Stmt → List Token
  | none => []
  | some s => s.declared

end

/-- Something that a node lies in. -/
inductive Enclosure where
  /-- The statement `here` of a body, behind the statements `before`. -/
  | body (kind : BodyKind) (before : List Stmt) (here : Stmt)
  /-- The parameters of a function, behind the parameters `before`. -/
  | parameters (before : List Token)
  /-- The superclass of a class, which lies in the class, but in none of its scopes. -/
  | heritage
  /-- The methods of a class. -/
  | methods (superclass : Option Expr)

namespace Enclosure

/-- The names that are declared in the scope of a node in front of the statement or the parameter
it stands in. -/
def earlier : Enclosure → List Token
  | body kind before _ => if kind.isLocal then kind.params ++ before.flatMap Stmt.declared else []
  | parameters before => before
  | heritage => []
  | methods _ => []

/-- The scopes that are opened, the innermost first, each with the names that it holds at a node.  A
body holds its parameters and what its statements declare, up to the declaration that the node
lies in. -/
def scopes : Enclosure → List (List String)
  | body kind before here =>
    if kind.isLocal then
      [(kind.params ++ before.flatMap Stmt.declared ++ here.ownName).map Token.lexeme]
    else []
  | parameters before => [before.map Token.lexeme]
  | heritage => []
  | methods none => [["this"]]
  | methods (some _) => [["this"], ["super"]]

/-- The function or method whose body this is. -/
def routine? : Enclosure → Option BodyKind
  | body kind _ _ => kind.routine?
  | _ => none

/-- Whether the class that this belongs to has a superclass. -/
def inherits? : Enclosure → Option Bool
  | heritage => some true
  | methods superclass => some superclass.isSome
  | _ => none

end Enclosure

/-- What encloses a node, the innermost first. -/
abbrev Path := List Enclosure

namespace Path

/-- The names that the scopes around a node hold. -/
def scopes (path : Path) : List (List String) :=
  path.flatMap Enclosure.scopes

/-- How many scopes lie between a node and the first one that holds a name. -/
def depth? (path : Path) (name : String) : Option Nat :=
  path.scopes.findIdx? (·.contains name)

/-- The innermost function or method around a node. -/
def routine? (path : Path) : Option BodyKind :=
  path.findSome? Enclosure.routine?

/-- Whether the innermost class around a node has a superclass. -/
def inherits? (path : Path) : Option Bool :=
  path.findSome? Enclosure.inherits?

/-- Whether the scope that a declaration stands in has an earlier one of the same name. -/
def declaresEarlier : Path → String → Bool
  | [], _ => false
  | enclosure :: _, name => (enclosure.earlier.map Token.lexeme).contains name

/-- Whether a node stands directly in the declaration of a local variable. -/
def initializes : Path → String → Bool
  | .body kind _ (.var own _) :: _, name => kind.isLocal && own.lexeme = name
  | _, _ => false

end Path

inductive Node where
  /-- The name of a variable, a function, a class or a parameter where it is declared. -/
  | declaration (name : Token)
  /-- The name of a class with the name of its superclass. -/
  | inheritance (name superclass : Token)
  | return (keyword : Token) (hasValue : Bool)
  | read (id : NodeId) (name : Token)
  | assign (id : NodeId) (name : Token)
  | this (id : NodeId) (keyword : Token)
  | super (id : NodeId) (keyword : Token)

/-- A node with what encloses it. -/
structure Occurrence where
  node : Node
  path : Path

mutual

/-- The nodes of an expression, in the order of the walk. -/
def Expr.occurrences (path : Path) : Expr → List Occurrence
  | literal _ => []
  | grouping inner => inner.occurrences path
  | unary _ operand => operand.occurrences path
  | binary _ left right => left.occurrences path ++ right.occurrences path
  | logical _ left right => left.occurrences path ++ right.occurrences path
  | var id name => [⟨.read id name, path⟩]
  | assign id name value => value.occurrences path ++ [⟨.assign id name, path⟩]
  | call callee _ arguments => callee.occurrences path ++ Expr.occurrencesAll path arguments
  | get object _ => object.occurrences path
  | set object _ value => value.occurrences path ++ object.occurrences path
  | this id keyword => [⟨.this id keyword, path⟩]
  | super id keyword _ => [⟨.super id keyword, path⟩]

def Expr.occurrencesAll (path : Path) : List Expr → List Occurrence
  | [] => []
  | e :: rest => e.occurrences path ++ Expr.occurrencesAll path rest

end

def Expr.occurrencesOption (path : Path) : Option Expr → List Occurrence
  | none => []
  | some e => e.occurrences path

/-- The nodes of a superclass: its name beside that of the class, and the expression. -/
def Expr.occurrencesHeritage (path : Path) (name : Token) : Option Expr → List Occurrence
  | none => []
  | some (.var id superclass) =>
    ⟨.inheritance name superclass, path⟩ :: (var id superclass).occurrences (.heritage :: path)
  | some e => e.occurrences (.heritage :: path)

/-- The parameters of a function, behind those of `before`. -/
def Occurrence.ofParameters (outer : Path) (before : List Token) : List Token → List Occurrence
  | [] => []
  | param :: rest =>
    ⟨.declaration param, .parameters before :: outer⟩ :: ofParameters outer (before ++ [param]) rest

mutual

/-- The nodes of a statement of a body, in the order of the walk. -/
def Stmt.occurrences (kind : BodyKind) (before : List Stmt) (outer : Path) :
    Stmt → List Occurrence
  | block body =>
    Stmt.occurrencesAll .block [] (.body kind before (.block body) :: outer) body
  | classDecl name superclass methods =>
    let path := .body kind before (.classDecl name superclass methods) :: outer
    ⟨.declaration name, path⟩ :: (Expr.occurrencesHeritage path name superclass ++
      Stmt.occurrencesMethods (.methods superclass :: path) methods)
  | expression e => e.occurrences (.body kind before (.expression e) :: outer)
  | function routine =>
    let path := .body kind before (.function routine) :: outer
    ⟨.declaration routine.name, path⟩ :: Stmt.occurrencesRoutine .function path routine
  | ifElse condition thenBranch elseBranch =>
    condition.occurrences (.body kind before (.ifElse condition thenBranch elseBranch) :: outer) ++
      thenBranch.occurrences kind before outer ++
      Stmt.occurrencesOption kind (before ++ [thenBranch]) outer elseBranch
  | print e => e.occurrences (.body kind before (.print e) :: outer)
  | .return keyword value =>
    let path := .body kind before (.return keyword value) :: outer
    ⟨.return keyword value.isSome, path⟩ :: Expr.occurrencesOption path value
  | var name initializer =>
    let path := .body kind before (.var name initializer) :: outer
    ⟨.declaration name, path⟩ :: Expr.occurrencesOption path initializer
  | .while condition body =>
    condition.occurrences (.body kind before (.while condition body) :: outer) ++
      body.occurrences kind before outer
  | .break _ => []
  | .continue _ => []

def Stmt.occurrencesAll (kind : BodyKind) (before : List Stmt) (outer : Path) :
    List Stmt → List Occurrence
  | [] => []
  | s :: rest =>
    s.occurrences kind before outer ++ Stmt.occurrencesAll kind (before ++ [s]) outer rest

def Stmt.occurrencesOption (kind : BodyKind) (before : List Stmt) (outer : Path) :
    Option Stmt → List Occurrence
  | none => []
  | some s => s.occurrences kind before outer

def Stmt.occurrencesRoutine (kind : Token → List Token → BodyKind) (outer : Path) :
    Routine Stmt → List Occurrence
  | ⟨name, params, body⟩ =>
    Occurrence.ofParameters outer [] params ++
      Stmt.occurrencesAll (kind name params) [] outer body

def Stmt.occurrencesMethods (outer : Path) : List (Routine Stmt) → List Occurrence
  | [] => []
  | method :: rest =>
    Stmt.occurrencesRoutine .method outer method ++ Stmt.occurrencesMethods outer rest

end

/-- The nodes of a program, in the order of the walk. -/
def occurrences (program : List Stmt) : List Occurrence :=
  Stmt.occurrencesAll .program [] [] program

namespace Occurrence

/-- The rule that a node breaks, with the token where it is reported. -/
def violation? : Occurrence → Option (Token × StaticFault)
  | ⟨.declaration name, path⟩ =>
    if path.declaresEarlier name.lexeme then some (name, .redeclared) else none
  | ⟨.inheritance name superclass, _⟩ =>
    if superclass.lexeme = name.lexeme then some (superclass, .inheritsFromItself) else none
  | ⟨.return keyword hasValue, path⟩ =>
    match path.routine? with
    | none => some (keyword, .topLevelReturn)
    | some (.method name _) =>
      if name.lexeme = "init" && hasValue then some (keyword, .initializerReturnsValue) else none
    | some _ => none
  | ⟨.read _ name, path⟩ =>
    if path.initializes name.lexeme then some (name, .readInOwnInitializer) else none
  | ⟨.assign _ _, _⟩ => none
  | ⟨.this _ keyword, path⟩ =>
    if path.inherits? = none then some (keyword, .thisOutsideClass) else none
  | ⟨.super _ keyword, path⟩ =>
    match path.inherits? with
    | none => some (keyword, .superOutsideClass)
    | some false => some (keyword, .superWithoutSuperclass)
    | some true => none

/-- The variable that a node uses, unless it is a `this` outside of all classes. -/
def use? : Occurrence → Option (NodeId × Token)
  | ⟨.read id name, _⟩ => some (id, name)
  | ⟨.assign id name, _⟩ => some (id, name)
  | ⟨.this id keyword, path⟩ => if path.inherits? = none then none else some (id, keyword)
  | ⟨.super id keyword, _⟩ => some (id, keyword)
  | _ => none

/-- What there is to find at a node. -/
def findings (o : Occurrence) : List Finding :=
  (o.violation?.map fun broken ↦ .violation broken.1 broken.2).toList ++
    (o.use?.map fun used ↦ .use used.1 used.2 (o.path.depth? used.2.lexeme)).toList

end Occurrence

end Lox
