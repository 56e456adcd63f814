import Lox.Diagnostic
import Lox.Heap
import Lox.Host.Basic
import Lox.Resolution
import Std.Data.TreeMap

/-!
# The machine

A machine holds the heap, the scope in which it stands, the depths of the variables that resolution
has found, and its host.  A computation changes the machine and gives a result, or halts: with a
fault, with a failure of the output, or because it has used up its fuel.
-/

namespace Lox

structure Machine where
  heap : Heap
  current : ScopeRef
  addresses : Std.TreeMap NodeId Nat
  host : Host

/-- Why a computation ends without a result. -/
inductive Halt where
  | fault (line : Nat) (fault : RuntimeFault)
  | output (text : String)
  | exhausted
deriving DecidableEq

/-- What to report about a halt. Running out of fuel is nothing a program does. -/
def Halt.diagnostic? : Halt → Option Diagnostic
  | fault line cause => some (.runtime line cause)
  | output text => some (.output text)
  | exhausted => none

/-- How a statement ends: normally, or with a jump out of the statements around it. -/
inductive Flow where
  | normal
  | return (value : Value)
  | break
  | continue

namespace Machine

/-- The outermost scope, which holds the global variables. -/
def globals : ScopeRef := 0

/-- A machine that has run nothing: its globals are the builtin functions. -/
def start (host : Host) : Machine where
  heap :=
    { scopes := #[⟨.ofList (Builtin.all.map fun b ↦ (b.name, .builtin b)), none⟩] }
  current := globals
  addresses := ∅
  host := host

/-- Keep the depths that resolution has found. -/
def record (m : Machine) (findings : List Finding) : Machine :=
  let found := findings.filterMap Finding.address?
  { m with addresses := found.foldl (fun t (id, depth) ↦ t.insert id depth) m.addresses }

/-- The scope in which a node's variable is to be found. -/
def scopeOf? (m : Machine) (id : NodeId) : Option ScopeRef :=
  match m.addresses[id]? with
  | some depth => m.heap.ancestor? m.current depth
  | none => some globals

/-- The heap in which a node's variable has another value, if there is that variable. -/
@[inline] def assign? (m : Machine) (id : NodeId) (name : String) (value : Value) : Option Heap :=
  match m.addresses[id]? with
  | some depth => m.heap.assignAt? m.current depth name value
  | none => m.heap.assign? globals name value

theorem assign?_eq (m : Machine) (id : NodeId) (name : String) (value : Value) :
    m.assign? id name value = (m.scopeOf? id).bind (m.heap.assign? · name value) := by
  unfold assign? scopeOf?
  split
  · rfl
  · rfl

end Machine

/-- A computation of a machine. -/
abbrev Run := EStateM Halt Machine

namespace Run

def fault {α : Type} (line : Nat) (cause : RuntimeFault) : Run α :=
  throw (.fault line cause)

/-- Change the heap and get a result. -/
def onHeap {α : Type} (change : Heap → α × Heap) : Run α :=
  modifyGet fun m ↦
    let (a, heap) := change m.heap
    (a, { m with heap })

/-- Change the host and get a result. -/
def onHost {α : Type} (change : Host → α × Host) : Run α :=
  modifyGet fun m ↦
    let (a, host) := change m.host
    (a, { m with host })

/-- Write a line to the stream of printed values. -/
def printLine (text : String) : Run Unit := do
  match ← onHost (·.write .out (text ++ "\n")) with
  | .ok () => return ()
  | .error failure => throw (.output failure)

def flush : Run Unit := do
  match ← onHost (·.flush .out) with
  | .ok () => return ()
  | .error failure => throw (.output failure)

/-- The value of a name in a scope, if there is such a scope. -/
def valueIn (scope : Option ScopeRef) (name : String) (line : Nat) : Run Value := do
  match scope.bind ((← get).heap.get? · name) with
  | some value => return value
  | none => fault line (.undefinedVariable name)

/-- The value of a node's variable. -/
def lookUp (id : NodeId) (name : Token) : Run Value := do
  valueIn ((← get).scopeOf? id) name.lexeme name.line

/-- Go on with the heap in which a name has been assigned to, if it could be. -/
@[inline] def settle (name : Token) : Option Heap → Run Unit
  | some heap => modify fun m ↦ { m with heap }
  | none => fault name.line (.undefinedVariable name.lexeme)

/-- Give a name that a scope holds another value. -/
def assignIn (scope : Option ScopeRef) (name : Token) (value : Value) : Run Unit := do
  settle name (scope.bind ((← get).heap.assign? · name.lexeme value))

theorem assignIn_eq (scope : Option ScopeRef) (name : Token) (value : Value) :
    assignIn scope name value = (do
      match scope.filter ((← get).heap.holds · name.lexeme) with
      | some scope => modify fun m ↦ { m with heap := m.heap.define scope name.lexeme value }
      | none => fault name.line (.undefinedVariable name.lexeme)) := by
  funext m
  change settle name (scope.bind (m.heap.assign? · name.lexeme value)) m =
    (match scope.filter (m.heap.holds · name.lexeme) with
      | some scope => modify fun m ↦ { m with heap := m.heap.define scope name.lexeme value }
      | none => fault name.line (.undefinedVariable name.lexeme) : Run Unit) m
  cases scope with
  | none => rfl
  | some scope =>
    rw [Option.bind_some, Option.filter_some, Heap.assign?]
    split
    · rfl
    · rfl

/-- Give a node's variable another value. -/
def assign (id : NodeId) (name : Token) (value : Value) : Run Unit := do
  settle name ((← get).assign? id name.lexeme value)

theorem assign_eq (id : NodeId) (name : Token) (value : Value) :
    assign id name value = (do assignIn ((← get).scopeOf? id) name value) := by
  funext m
  change settle name (m.assign? id name.lexeme value) m =
    settle name ((m.scopeOf? id).bind (m.heap.assign? · name.lexeme value)) m
  rw [Machine.assign?_eq]

/-- Bind a name in the current scope. -/
def define (name : String) (value : Value) : Run Unit :=
  modify fun m ↦ { m with heap := m.heap.define m.current name value }

/-- Open a scope inside another one. -/
def openScope (parent : ScopeRef) (bindings : Bindings Value) : Run ScopeRef :=
  onHeap (·.openScope (some parent) bindings)

/-- Run a computation in a scope, and come back to the current one however it ends. -/
def inScope {α : Type} (scope : ScopeRef) (action : Run α) : Run α := fun m ↦
  let home := m.current
  match action { m with current := scope } with
  | .ok a m => .ok a { m with current := home }
  | .error e m => .error e { m with current := home }

/-- A new function with an identity of its own. -/
def newFunction (routine : Routine Stmt) (closure : ScopeRef) (isInitializer : Bool) :
    Run Function := do
  return ⟨← onHeap (·.freshIdentity), routine, closure, isInitializer⟩

/-- A copy of a method for which `this` is an instance. -/
def bindMethod (method : Function) (i : Instance) : Run Function := do
  let closure ← openScope method.closure (.ofList [("this", .instance i)])
  newFunction method.routine closure method.isInitializer

end Run

end Lox
