import Lox.Bindings
import Lox.Tree.Basic

/-!
# Values

Functions and classes never change once they exist, so a value holds them whole; only the scopes
they refer to and the fields of instances live in the heap.  Two functions, classes or instances are
equal if they are the same one, which their identities tell.
-/

namespace Lox

/-- Names a scope of the heap. -/
abbrev ScopeRef := Nat

/-- The functions that every machine offers. -/
inductive Builtin where
  | clock
  | readline
  | read
  | write
  | append
deriving DecidableEq

namespace Builtin

def all : List Builtin :=
  [clock, readline, read, write, append]

def name : Builtin → String
  | clock => "clock"
  | readline => "readline"
  | read => "read"
  | write => "write"
  | append => "append"

def arity : Builtin → Nat
  | clock => 0
  | readline => 0
  | read => 1
  | write => 2
  | append => 2

end Builtin

/-- A routine with the scope in which it was declared. An initializer gives back the instance it is
bound to. -/
structure Function where
  identity : Nat
  routine : Routine Stmt
  closure : ScopeRef
  isInitializer : Bool
deriving Inhabited

namespace Function

def name (f : Function) : String :=
  f.routine.name.lexeme

def arity (f : Function) : Nat :=
  f.routine.params.length

end Function

/-- What one class declaration contributes to a class. -/
structure Layer where
  identity : Nat
  name : String
  methods : Bindings Function
deriving Inhabited

/-- A class: its own layer and, for a subclass, the class it extends. -/
inductive Class where
  | root (own : Layer)
  | derived (own : Layer) (superclass : Class)
deriving Inhabited

namespace Class

def own : Class → Layer
  | root own => own
  | derived own _ => own

def identity (c : Class) : Nat :=
  c.own.identity

def name (c : Class) : String :=
  c.own.name

def superclass? : Class → Option Class
  | root _ => none
  | derived _ superclass => some superclass

/-- The layers of a class and of the classes it extends, the nearest first. -/
def lineage : Class → List Layer
  | root own => [own]
  | derived own superclass => own :: superclass.lineage

/-- The nearest method of a name. -/
def findMethod? (c : Class) (name : String) : Option Function :=
  c.lineage.findSome? (·.methods.get? name)

@[simp] theorem findMethod?_root (own : Layer) (name : String) :
    (root own).findMethod? name = own.methods.get? name := by
  simp [findMethod?, lineage]

@[simp] theorem findMethod?_derived (own : Layer) (c : Class) (name : String) :
    (derived own c).findMethod? name = (own.methods.get? name <|> c.findMethod? name) := by
  simp only [findMethod?, lineage, List.findSome?_cons]
  cases own.methods.get? name <;> rfl

/-- The name of the method that sets up an instance. -/
def initializerName : String := "init"

/-- A class takes the arguments of its initializer. -/
def arity (c : Class) : Nat :=
  match c.findMethod? initializerName with
  | some f => f.arity
  | none => 0

end Class

/-- An instance: its class, and where its fields are kept. -/
structure Instance where
  ref : Nat
  cls : Class
deriving Inhabited

inductive Value where
  | nil
  | bool (value : Bool)
  | number (value : Number)
  | string (text : String)
  | builtin (b : Builtin)
  | function (f : Function)
  | cls (c : Class)
  | instance (i : Instance)
deriving Inhabited

namespace Value

def ofLiteral : Literal → Value
  | .nil => nil
  | .bool value => bool value
  | .number value => number value
  | .string text => string text

/-- Only `nil` and `false` are not true. -/
def isTruthy : Value → Bool
  | nil => false
  | bool value => value
  | _ => true

/-- Equality in programs: never between different kinds, and by identity for what has one. -/
def equal : Value → Value → Bool
  | nil, nil => true
  | bool a, bool b => a = b
  | number a, number b => a.equal b
  | string a, string b => a = b
  | builtin a, builtin b => a = b
  | function f, function g => f.identity = g.identity
  | cls c, cls d => c.identity = d.identity
  | .instance i, .instance j => i.ref = j.ref
  | _, _ => false

/-- The text that `print` writes. -/
def display : Value → String
  | nil => "nil"
  | bool true => "true"
  | bool false => "false"
  | number value => value.display
  | string text => text
  | builtin _ => "<native fn>"
  | function f => "<fn " ++ f.name ++ ">"
  | cls c => c.name
  | .instance i => i.cls.name ++ " instance"

end Value

/-- What can be called. -/
inductive Callee where
  | builtin (b : Builtin)
  | function (f : Function)
  | cls (c : Class)

namespace Callee

def arity : Callee → Nat
  | builtin b => b.arity
  | function f => f.arity
  | cls c => c.arity

end Callee

def Value.callee? : Value → Option Callee
  | builtin b => some (.builtin b)
  | function f => some (.function f)
  | cls c => some (.cls c)
  | _ => none

end Lox
