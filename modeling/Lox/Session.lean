import Lox.Machine.Evaluation
import Lox.Parser.Statement
import Lox.Token.Scan
import Lox.Tree.Printing

/-!
# Sessions

A session takes one source after another to the same machine, so that what one source declares is
there for the next.  Each step reports its diagnostics on the error stream, one to a line, and ends
with an outcome.  A failure of the error stream changes nothing.

A step that runs a program takes fuel and has no result if the fuel does not suffice.
-/

namespace Lox

/-- How a step ended: without errors, with errors before anything ran, or with an error while it
ran. -/
inductive Outcome where
  | success
  | compileError
  | runtimeError
deriving DecidableEq

def Outcome.exitCode : Outcome → Nat
  | success => 0
  | compileError => 65
  | runtimeError => 70

/-- A machine with the next free node identifier and what kinds of errors there have been. -/
structure Session where
  machine : Machine
  nextId : NodeId := 0
  hadError : Bool := false
  hadRuntimeError : Bool := false

/-- What a step gives: its outcome, what it reported, and the session behind it. -/
structure Step where
  outcome : Outcome
  reported : List Diagnostic
  session : Session

/-- The lexical faults among what was scanned. -/
def lexicalErrors (items : List Item) : List Diagnostic :=
  items.filterMap fun
    | .token _ => none
    | .fault line cause => some (.lexical line cause)

def SyntaxError.diagnostic (e : SyntaxError) : Diagnostic :=
  .syntactic e.token e.fault

namespace Session

def start (host : Host) : Session where
  machine := .start host

/-- Forget earlier errors. -/
def reset (s : Session) : Session :=
  { s with hadError := false, hadRuntimeError := false }

/-- Write a diagnostic to the error stream and remember its kind. -/
def report (s : Session) (d : Diagnostic) : Session :=
  let host :=
    match s.machine.host.write .err (d.text ++ "\n") with
    | (.ok (), host) => (host.flush .err).2
    | (.error _, host) => host
  { s with
    machine := { s.machine with host }
    hadError := s.hadError || d.isCompileTime
    hadRuntimeError := s.hadRuntimeError || !d.isCompileTime }

def reportAll (s : Session) (diagnostics : List Diagnostic) : Session :=
  diagnostics.foldl report s

/-- A step that is rejected before anything runs. -/
def reject (s : Session) (diagnostics : List Diagnostic) : Step :=
  ⟨.compileError, diagnostics, s.reportAll diagnostics⟩

/-- A step that runs a computation. -/
def perform (s : Session) (action : Run Unit) : Option Step :=
  match action s.machine with
  | .ok () machine => some ⟨.success, [], { s with machine }⟩
  | .error halt machine =>
    halt.diagnostic?.map fun d ↦ ⟨.runtimeError, [d], { s with machine }.report d⟩

/-- Read a program and execute it. Lexical and syntax errors are reported together; static errors
only if there are none of those; and it is executed only if there are no errors at all. -/
def runWith (execute : List Stmt → Run Unit) (s : Session) (source : String) : Option Step :=
  let items := scan source
  let reading := readProgram s.nextId (items.filterMap Item.token?)
  let errors := lexicalErrors items ++ reading.errors.map SyntaxError.diagnostic
  let s := { s with nextId := reading.nextId }
  if errors ≠ [] then some (s.reject errors)
  else
    let findings := resolve reading.result
    let s := { s with machine := s.machine.record findings }
    let violations := findings.filterMap Finding.violation?
    if violations ≠ [] then some (s.reject violations)
    else s.perform (execute reading.result)

/-- Run a program. -/
def run (fuel : Nat) (s : Session) (source : String) : Option Step :=
  s.runWith (Run.program fuel) source

/-- Write a line for each token and report each lexical fault, in order. -/
def listItems (line : Token → String) (s : Session) (reported : List Diagnostic) :
    List Item → Step
  | [] => ⟨if reported = [] then .success else .compileError, reported, s⟩
  | .fault n cause :: rest =>
    let d := .lexical n cause
    listItems line (s.report d) (reported ++ [d]) rest
  | .token t :: rest =>
    match Run.printLine (line t) s.machine with
    | .ok () machine => listItems line { s with machine } reported rest
    | .error halt machine =>
      let failures := halt.diagnostic?.toList
      ⟨.runtimeError, reported ++ failures, { s with machine }.reportAll failures⟩

/-- List the tokens of a source. -/
def tokenize (s : Session) (json : Bool) (source : String) : Step :=
  s.listItems (if json then Token.json else Token.listing) [] (scan source)

/-- Read a source as one expression and run what `use` makes of it. -/
def withExpression (s : Session) (source : String) (use : Expr → Run Unit) : Option Step :=
  let items := scan source
  let reading := readExpression s.nextId (items.filterMap Item.token?)
  let errors := lexicalErrors items ++ reading.errors.map SyntaxError.diagnostic
  let s := { s with nextId := reading.nextId }
  match reading.result, errors with
  | some e, [] => s.perform (use e)
  | _, _ => some (s.reject errors)

/-- Print the prefix form of an expression. -/
def parse (s : Session) (source : String) : Option Step :=
  s.withExpression source fun e ↦ Run.printLine e.print

/-- Print the value of an expression, all of whose variables are taken to be global. -/
def evaluate (fuel : Nat) (s : Session) (source : String) : Option Step :=
  s.withExpression source fun e ↦ do
    let value ← Run.evaluate fuel e
    Run.printLine value.display

end Session

end Lox
