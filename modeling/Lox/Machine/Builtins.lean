import Lox.Machine.Basic
import Lox.Number.Rounding

/-!
# Builtin functions

The functions that every machine offers: the time, lines of input, and files.
-/

namespace Lox.Run

/-- Seconds with three places. -/
def seconds (milliseconds : Nat) : Number :=
  (Number.ofNat milliseconds).div (.ofNat 1000)

/-- A line without the carriage returns and newlines at its end. -/
def trimLine (line : String) : String :=
  .ofList (line.toList.reverse.dropWhile fun c ↦ c = '\n' || c = '\r').reverse

def readLine (line : Nat) : Run Value := do
  match ← onHost (·.readLine) with
  | none => return .nil
  | some bytes =>
    match Utf8.decode bytes with
    | .ok text => return .string (trimLine text)
    | .error _ => fault line (.inputNotText Builtin.readline.name)

/-- The text of a file. -/
def fileText (files : FileSystem) (path : String) : Except FileError String := do
  match Utf8.decode (← files.read path) with
  | .ok text => return text
  | .error _ => throw .notText

def readFile (line : Nat) : List Value → Run Value
  | .string path :: _ => do
    match fileText (← get).host.files path with
    | .ok text => return .string text
    | .error e => fault line (.unreadable Builtin.read.name path e)
  | _ => fault line (.argumentNotText Builtin.read.name)

/-- Change a file; `change` takes the new content and the old one. -/
def changeFile (line : Nat) (b : Builtin) (change : List UInt8 → List UInt8 → List UInt8) :
    List Value → Run Value
  | .string path :: .string content :: _ => do
    let m ← get
    match m.host.files.update path (change (Utf8.encode content)) with
    | .ok files =>
      set { m with host := { m.host with files } }
      return .nil
    | .error e => fault line (.unwritable b.name path e)
  | .string _ :: _ => fault line (.secondArgumentNotText b.name)
  | _ => fault line (.firstArgumentNotText b.name)

/-- Call a builtin function; its faults lie on the line of the call. -/
def callBuiltin (b : Builtin) (line : Nat) (arguments : List Value) : Run Value :=
  match b with
  | .clock => do return .number (seconds (← onHost (·.readClock)))
  | .readline => readLine line
  | .read => readFile line arguments
  | .write => changeFile line b (fun new _ ↦ new) arguments
  | .append => changeFile line b (fun new old ↦ old ++ new) arguments

end Lox.Run
