import Lox.Machine.Builtins
import Lox.Machine.Operators

/-!
# Evaluation

Expressions are evaluated to values and statements executed to flows.  Everything between an
expression or statement and those inside it is a plain function of computations for the latter
(`evaluateWith`, `executeWith`); the two recursive functions at the end tie the knot.

They take fuel, which bounds how deeply evaluation nests and how often a loop runs.  Fuel decides
nothing but whether a computation halts as exhausted.
-/

namespace Lox.Run

/-- The fault of an operation, on the line of its operator. -/
def ofExcept (line : Nat) : Except RuntimeFault Value → Run Value
  | .ok value => return value
  | .error cause => fault line cause

/-- Computations in which a program can be interpreted: they can be done in a scope, and builtin
functions can be called.  What a machine does is part of them. -/
class Interprets (M : Type → Type) where
  inScope {α : Type} (scope : ScopeRef) (action : M α) : M α
  callBuiltin (b : Builtin) (line : Nat) (arguments : List Value) : M Value

instance : Interprets Run where
  inScope := inScope
  callBuiltin := callBuiltin

@[simp] theorem liftM_self {α : Type} (x : Run α) : (liftM x : Run α) = x :=
  rfl

variable {M : Type → Type} [Monad M] [MonadLiftT Run M] [Interprets M]

/-- Execute statements in order up to the first that jumps. -/
def sequence (execute : Stmt → M Flow) : List Stmt → M Flow
  | [] => return .normal
  | s :: rest => do
    match ← execute s with
    | .normal => sequence execute rest
    | jump => return jump

/-- Evaluate expressions from left to right. -/
def valuesOf (evaluate : Expr → M Value) : List Expr → M (List Value)
  | [] => return []
  | e :: rest => do
    let value ← evaluate e
    return value :: (← valuesOf evaluate rest)

/-- The value of an expression that may be missing. -/
def valueOrNil (evaluate : Expr → M Value) : Option Expr → M Value
  | none => return .nil
  | some e => evaluate e

/-- Execute a body as long as a condition holds, in at most `rounds` rounds. -/
def loop (condition : M Value) (body : M Flow) : (rounds : Nat) → M Flow
  | 0 => (throw .exhausted : Run Flow)
  | rounds + 1 => do
    if (← condition).isTruthy then
      match ← body with
      | .break => return .normal
      | .return value => return .return value
      | _ => loop condition body rounds
    else
      return .normal

/-- Execute statements in a new scope inside the current one. -/
def block (execute : Stmt → M Flow) (body : List Stmt) : M Flow := do
  let scope ← openScope (← (get : Run Machine)).current {}
  Interprets.inScope scope (sequence execute body)

/-- Call a function: its parameters are bound in a new scope inside its closure. -/
def callFunction (execute : Stmt → M Flow) (f : Function) (arguments : List Value) :
    M Value := do
  let bindings := .ofList ((f.routine.params.map Token.lexeme).zip arguments)
  let scope ← openScope f.closure bindings
  let flow ← Interprets.inScope scope (sequence execute f.routine.body)
  if f.isInitializer then
    valueIn (some f.closure) "this" f.routine.name.line
  else
    match flow with
    | .return value => return value
    | _ => return .nil

/-- Make an instance of a class and run its initializer. -/
def construct (execute : Stmt → M Flow) (c : Class) (arguments : List Value) : M Value := do
  let i ← onHeap (·.instantiate c)
  if let some init := c.findMethod? Class.initializerName then
    let _ ← callFunction execute (← bindMethod init i) arguments
  return .instance i

def call (execute : Stmt → M Flow) (callee : Callee) (line : Nat) (arguments : List Value) :
    M Value :=
  match callee with
  | .builtin b => Interprets.callBuiltin b line arguments
  | .function f => callFunction execute f arguments
  | .cls c => construct execute c arguments

/-- A property of an instance: a field, or else a method bound to the instance. -/
def property (i : Instance) (name : Token) : Run Value := do
  match ((← get).heap.fieldsOf i).get? name.lexeme with
  | some value => return value
  | none =>
    match i.cls.findMethod? name.lexeme with
    | some method => return .function (← bindMethod method i)
    | none => fault name.line (.undefinedProperty name.lexeme)

/-- A method of the superclass. The scope of `this` lies just inside that of `super`. -/
def superMethod (id : NodeId) (keyword method : Token) : Run Value := do
  let m ← get
  match m.addresses[id]? with
  | none => fault keyword.line (.undefinedVariable "super")
  | some depth =>
    let superclass ← valueIn (m.heap.ancestor? m.current depth) keyword.lexeme keyword.line
    let object ← valueIn (m.heap.ancestor? m.current (depth - 1)) "this" keyword.line
    match superclass, object with
    | .cls c, .instance i =>
      match c.findMethod? method.lexeme with
      | some found => return .function (← bindMethod found i)
      | none => fault method.line (.undefinedProperty method.lexeme)
    | _, _ => fault keyword.line .superclassNotClass

/-- The token at which a superclass that is no class is reported. -/
def superclassToken (name : Token) : Expr → Token
  | .var _ superName => superName
  | _ => name

/-- The functions of methods, whose closure is the given scope. -/
def methodsOf (closure : ScopeRef) : List (Routine Stmt) → Run (List (String × Function))
  | [] => return []
  | method :: rest => do
    let name := method.name.lexeme
    let f ← newFunction method closure (name = Class.initializerName)
    return (name, f) :: (← methodsOf closure rest)

/-- It does not matter where a machine stands when methods are made for a closure. -/
theorem exists_methodsOf (closure : ScopeRef) (methods : List (Routine Stmt)) (m : Machine) :
    ∃ fs heap, ∀ scope, methodsOf closure methods { m with current := scope } =
      .ok fs { m with heap := heap, current := scope } := by
  induction methods generalizing m with
  | nil => exact ⟨[], m.heap, fun _ ↦ rfl⟩
  | cons method rest ih =>
    obtain ⟨fs, heap, hrest⟩ := ih { m with heap := m.heap.freshIdentity.2 }
    let f : Function :=
      ⟨m.heap.nextIdentity, method, closure, method.name.lexeme = Class.initializerName⟩
    refine ⟨(method.name.lexeme, f) :: fs, heap, fun scope ↦ ?_⟩
    change (methodsOf closure rest >>= fun fs ↦ pure ((method.name.lexeme, f) :: fs))
      { m with heap := m.heap.freshIdentity.2, current := scope } = _
    change EStateM.bind _ _ _ = _
    rw [EStateM.bind, hrest scope]
    rfl

/-- To step into a scope, make the methods there and come back is the same as to make the methods
for that scope. -/
theorem inScope_methodsOf (closure : ScopeRef) (methods : List (Routine Stmt)) :
    inScope closure (do methodsOf (← get).current methods) = methodsOf closure methods := by
  funext m
  obtain ⟨fs, heap, hmethods⟩ := exists_methodsOf closure methods m
  have hinside : (do methodsOf (← get).current methods : Run _) { m with current := closure } =
      .ok fs { m with heap := heap, current := closure } := hmethods closure
  rw [inScope, hinside]
  exact (hmethods m.current).symm

/-- Make a class of methods and give it to its name in the current scope. -/
def finishClass (name : Token) (make : Layer → Class) (methods : List (String × Function)) :
    Run Unit := do
  let identity ← onHeap (·.freshIdentity)
  let c := make ⟨identity, name.lexeme, .ofList methods⟩
  assignIn (some (← get).current) name (.cls c)

/-- Declare a class. Its name is bound before the superclass is evaluated; the methods of a subclass
see `super` in a scope of their own. -/
def declareClass (evaluate : Expr → M Value) (name : Token) (superclass : Option Expr)
    (methods : List (Routine Stmt)) : M Unit := do
  define name.lexeme .nil
  match superclass with
  | none => finishClass name .root (← methodsOf (← (get : Run Machine)).current methods)
  | some e =>
    match ← evaluate e with
    | .cls c =>
      let closure ← openScope (← (get : Run Machine)).current (.ofList [("super", .cls c)])
      let functions ← inScope closure (do methodsOf (← get).current methods)
      finishClass name (.derived · c) functions
    | _ => fault (superclassToken name e).line .superclassNotClass

omit [Interprets M] in
theorem declareClass_eq_methodsOf (evaluate : Expr → M Value) (name : Token)
    (superclass : Option Expr) (methods : List (Routine Stmt)) :
    declareClass evaluate name superclass methods = (do
      define name.lexeme .nil
      match superclass with
      | none => finishClass name .root (← methodsOf (← (get : Run Machine)).current methods)
      | some e =>
        match ← evaluate e with
        | .cls c =>
          let closure ← openScope (← (get : Run Machine)).current (.ofList [("super", .cls c)])
          finishClass name (.derived · c) (← methodsOf closure methods)
        | _ => fault (superclassToken name e).line .superclassNotClass) := by
  unfold declareClass
  simp only [inScope_methodsOf]

/-- Evaluate an expression, given how to evaluate those inside it and to execute what it calls. -/
def evaluateWith (evaluate : Expr → M Value) (execute : Stmt → M Flow) : Expr → M Value
  | .literal value => return .ofLiteral value
  | .grouping inner => evaluate inner
  | .unary op operand => do
    let value ← evaluate operand
    ofExcept op.line (value.unary op.kind)
  | .binary op left right => do
    let a ← evaluate left
    let b ← evaluate right
    ofExcept op.line (a.binary op.kind b)
  | .logical op left right => do
    let a ← evaluate left
    if a.decides op.kind then return a
    evaluate right
  | .var id name => lookUp id name
  | .assign id name value => do
    let value ← evaluate value
    assign id name value
    return value
  | .call callee paren arguments => do
    match (← evaluate callee).callee? with
    | none => fault paren.line .notCallable
    | some callee =>
      let values ← valuesOf evaluate arguments
      if values.length ≠ callee.arity then
        fault paren.line (.wrongArity callee.arity values.length)
      call execute callee paren.line values
  | .get object name => do
    match ← evaluate object with
    | .instance i => property i name
    | _ => fault name.line .noProperties
  | .set object name value => do
    match ← evaluate object with
    | .instance i =>
      let value ← evaluate value
      (modify fun m ↦ { m with heap := m.heap.setField i name.lexeme value } : Run Unit)
      return value
    | _ => fault name.line .noFields
  | .this id keyword => lookUp id keyword
  | .super id keyword method => superMethod id keyword method

/-- Execute a statement, given how to evaluate the expressions and execute the statements inside it.
A loop has at most the given number of rounds. -/
def executeWith (evaluate : Expr → M Value) (execute : Stmt → M Flow) (rounds : Nat) :
    Stmt → M Flow
  | .block body => block execute body
  | .classDecl name superclass methods => do
    declareClass evaluate name superclass methods
    return .normal
  | .expression e => do
    let _ ← evaluate e
    return .normal
  | .function routine => do
    let f ← newFunction routine (← (get : Run Machine)).current false
    define routine.name.lexeme (.function f)
    return .normal
  | .ifElse condition thenBranch elseBranch => do
    if (← evaluate condition).isTruthy then
      execute thenBranch
    else
      match elseBranch with
      | some s => execute s
      | none => return .normal
  | .print e => do
    let value ← evaluate e
    printLine value.display
    return .normal
  | .return _ value => do
    let value ← valueOrNil evaluate value
    return .return value
  | .var name initializer => do
    let value ← valueOrNil evaluate initializer
    define name.lexeme value
    return .normal
  | .while condition body => loop (evaluate condition) (execute body) rounds
  | .break _ => return .break
  | .continue _ => return .continue

mutual

/-- Evaluate an expression. -/
def evaluate : (fuel : Nat) → Expr → Run Value
  | 0, _ => throw .exhausted
  | fuel + 1, e => evaluateWith (evaluate fuel) (execute fuel) e

/-- Execute a statement. -/
def execute : (fuel : Nat) → Stmt → Run Flow
  | 0, _ => throw .exhausted
  | fuel + 1, s => executeWith (evaluate fuel) (execute fuel) fuel s

end

/-- Execute the statements of a program, whatever their flow, and flush the output. -/
def program (fuel : Nat) : List Stmt → Run Unit
  | [] => flush
  | s :: rest => do
    let _ ← execute fuel s
    program fuel rest

end Lox.Run
