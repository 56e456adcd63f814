import Lox.Bindings
import Lox.Diagnostic
import Lox.Tree.Basic

/-!
# Resolution

A walk over a program finds for every use of a variable how many scopes lie between the use and the
variable, and every place where a static rule is broken.  The scopes of the walk are those that the
machine opens: blocks, function bodies with their parameters, the scope of `super` around a subclass
and the scope of `this` around methods.  The global scope is not among them, so a use that is found
in no scope is a use of a global.

What is found at an expression depends only on the scopes around it.  A statement moreover adds the
name it declares to the innermost scope.
-/

namespace Lox

/-- The function a node stands in, if any. -/
inductive FunctionContext where
  | none
  | function
  | initializer
  | method
deriving DecidableEq

/-- The class a node stands in, if any. -/
inductive ClassContext where
  | none
  | plain
  | subclass
deriving DecidableEq

/-- What surrounds a node, apart from scopes. -/
structure Context where
  function : FunctionContext := .none
  cls : ClassContext := .none

/-- The scopes around a node, the innermost first. A name is false while its initializer is read. -/
abbrev Scopes := List (Bindings Bool)

namespace Scopes

/-- How many scopes lie between here and the innermost one that holds a name. -/
def depth? (scopes : Scopes) (name : String) : Option Nat :=
  scopes.findIdx? (·.contains name)

/-- Enter a name into the innermost scope. -/
def enter (scopes : Scopes) (name : String) (ready : Bool) : Scopes :=
  match scopes with
  | [] => []
  | inner :: outer => inner.set name ready :: outer

/-- Whether the innermost scope holds a name. -/
def clashes (scopes : Scopes) (name : String) : Bool :=
  match scopes with
  | [] => false
  | inner :: _ => inner.contains name

/-- Whether a name is that of the variable whose initializer is being read. -/
def isPending (scopes : Scopes) (name : String) : Bool :=
  match scopes with
  | [] => false
  | inner :: _ => inner.get? name = some false

/-- Open a scope that holds one name. -/
def openWith (scopes : Scopes) (name : String) : Scopes :=
  ({} : Bindings Bool).set name true :: scopes

end Scopes

/-- Something the walk finds: a use of a variable with its depth, or a broken rule. -/
inductive Finding where
  | use (id : NodeId) (name : Token) (depth : Option Nat)
  | violation (token : Token) (fault : StaticFault)
deriving DecidableEq

namespace Finding

def violation? : Finding → Option Diagnostic
  | use .. => none
  | violation token fault => some (.static token fault)

/-- A node with the depth of its variable, unless the variable is global. -/
def address? : Finding → Option (NodeId × Nat)
  | use id _ (some depth) => some (id, depth)
  | use _ _ none => none
  | violation .. => none

/-- The finding at a use of a name. -/
def ofUse (scopes : Scopes) (id : NodeId) (name : Token) : Finding :=
  .use id name (scopes.depth? name.lexeme)

/-- A violation if a rule is broken. -/
def when (broken : Bool) (token : Token) (fault : StaticFault) : List Finding :=
  if broken then [.violation token fault] else []

/-- A declaration must not repeat a name of the innermost scope. -/
def ofDeclaration (scopes : Scopes) (name : Token) : List Finding :=
  when (scopes.clashes name.lexeme) name .redeclared

/-- A class must not name itself as its superclass. -/
def ofSuperclass (name : Token) : Expr → List Finding
  | .var _ superName => when (superName.lexeme = name.lexeme) superName .inheritsFromItself
  | _ => []

/-- Where `super` must not stand. -/
def ofSuper (context : Context) (keyword : Token) : List Finding :=
  match context.cls with
  | .none => [.violation keyword .superOutsideClass]
  | .plain => [.violation keyword .superWithoutSuperclass]
  | .subclass => []

theorem subclass_of_ofSuper {context : Context} {keyword : Token}
    (h : ∀ f ∈ ofSuper context keyword, f.violation? = none) : context.cls = .subclass := by
  unfold ofSuper at h
  cases hcls : context.cls with
  | none =>
    rw [hcls] at h
    cases h _ List.mem_cons_self
  | plain =>
    rw [hcls] at h
    cases h _ List.mem_cons_self
  | subclass => rfl

/-- Declare parameters in a scope that is open, and tell the scopes that result. -/
def ofParameters (scopes : Scopes) : List Token → List Finding × Scopes
  | [] => ([], scopes)
  | param :: rest =>
    let (later, final) := ofParameters (scopes.enter param.lexeme true) rest
    (ofDeclaration scopes param ++ later, final)

end Finding

mutual

/-- What is found in an expression, in the order of the walk: an assigned value before the variable,
and the value given to a property before the object. -/
def Expr.findings (context : Context) (scopes : Scopes) : Expr → List Finding
  | literal _ => []
  | grouping inner => inner.findings context scopes
  | unary _ operand => operand.findings context scopes
  | binary _ left right => left.findings context scopes ++ right.findings context scopes
  | logical _ left right => left.findings context scopes ++ right.findings context scopes
  | var id name =>
    Finding.when (scopes.isPending name.lexeme) name .readInOwnInitializer ++
      [.ofUse scopes id name]
  | assign id name value => value.findings context scopes ++ [.ofUse scopes id name]
  | call callee _ arguments =>
    callee.findings context scopes ++ Expr.findingsAll context scopes arguments
  | get object _ => object.findings context scopes
  | set object _ value => value.findings context scopes ++ object.findings context scopes
  | this id keyword =>
    if context.cls = .none then [.violation keyword .thisOutsideClass]
    else [.ofUse scopes id keyword]
  | super id keyword _ => Finding.ofSuper context keyword ++ [.ofUse scopes id keyword]

def Expr.findingsAll (context : Context) (scopes : Scopes) : List Expr → List Finding
  | [] => []
  | e :: rest => e.findings context scopes ++ Expr.findingsAll context scopes rest

end

/-- What is found in an expression that may be missing. -/
def Expr.findingsOption (context : Context) (scopes : Scopes) : Option Expr → List Finding
  | none => []
  | some e => e.findings context scopes

/-- The context of a method body. -/
def Context.inMethod (context : Context) (name : Token) : Context :=
  { context with function := if name.lexeme = "init" then .initializer else .method }

/-- The scopes around the methods of a class. -/
def Scopes.aroundMethods (scopes : Scopes) (superclass : Option Expr) : Scopes :=
  (match superclass with
    | none => scopes
    | some _ => scopes.openWith "super").openWith "this"

mutual

/-- The scopes behind a statement: those before it and the name it declares. A branch or a loop
body that is a declaration declares its name here. -/
def Stmt.scopesAfter (scopes : Scopes) : Stmt → Scopes
  | classDecl name _ _ => scopes.enter name.lexeme true
  | function routine => scopes.enter routine.name.lexeme true
  | var name _ => scopes.enter name.lexeme true
  | ifElse _ thenBranch elseBranch =>
    Stmt.scopesAfterOption (thenBranch.scopesAfter scopes) elseBranch
  | .while _ body => body.scopesAfter scopes
  | _ => scopes

def Stmt.scopesAfterOption (scopes : Scopes) : Option Stmt → Scopes
  | none => scopes
  | some s => s.scopesAfter scopes

end

mutual

/-- What is found in a statement, in the order of the walk. -/
def Stmt.findings (context : Context) (scopes : Scopes) : Stmt → List Finding
  | block body => Stmt.findingsAll context ({} :: scopes) body
  | classDecl name superclass methods =>
    let scopes' := scopes.enter name.lexeme true
    let inside : Context :=
      { context with cls := if superclass.isSome then .subclass else .plain }
    Finding.ofDeclaration scopes name ++
      (match superclass with
        | none => []
        | some e => Finding.ofSuperclass name e ++ e.findings inside scopes') ++
      Stmt.findingsMethods inside (scopes'.aroundMethods superclass) methods
  | expression e => e.findings context scopes
  | function routine =>
    Finding.ofDeclaration scopes routine.name ++
      Stmt.findingsRoutine { context with function := .function }
        (scopes.enter routine.name.lexeme true) routine
  | ifElse condition thenBranch elseBranch =>
    condition.findings context scopes ++ thenBranch.findings context scopes ++
      Stmt.findingsOption context (thenBranch.scopesAfter scopes) elseBranch
  | print e => e.findings context scopes
  | .return keyword value =>
    Finding.when (context.function = .none) keyword .topLevelReturn ++
      Finding.when (context.function = .initializer && value.isSome) keyword
        .initializerReturnsValue ++
      Expr.findingsOption context scopes value
  | var name initializer =>
    Finding.ofDeclaration scopes name ++
      Expr.findingsOption context (scopes.enter name.lexeme false) initializer
  | .while condition body => condition.findings context scopes ++ body.findings context scopes
  | .break _ => []
  | .continue _ => []

def Stmt.findingsAll (context : Context) (scopes : Scopes) : List Stmt → List Finding
  | [] => []
  | s :: rest => s.findings context scopes ++ Stmt.findingsAll context (s.scopesAfter scopes) rest

def Stmt.findingsOption (context : Context) (scopes : Scopes) : Option Stmt → List Finding
  | none => []
  | some s => s.findings context scopes

/-- What is found in a function or method: its parameters and its body share one scope. -/
def Stmt.findingsRoutine (context : Context) (scopes : Scopes) : Routine Stmt → List Finding
  | ⟨_, params, body⟩ =>
    let (found, inside) := Finding.ofParameters ({} :: scopes) params
    found ++ Stmt.findingsAll context inside body

def Stmt.findingsMethods (context : Context) (scopes : Scopes) :
    List (Routine Stmt) → List Finding
  | [] => []
  | method :: rest =>
    Stmt.findingsRoutine (context.inMethod method.name) scopes method ++
      Stmt.findingsMethods context scopes rest

end

/-- What is found in a program. -/
def resolve (program : List Stmt) : List Finding :=
  Stmt.findingsAll {} [] program

end Lox
