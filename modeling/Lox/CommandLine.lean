import Lox.Session
import Lox.Text.Quoted

/-!
# The command line

A command works on a source file, or reads programs line by line.  The exit status is that of the
step's outcome, or one if the source cannot be read.
-/

namespace Lox

inductive Command where
  | tokenize (file : String) (json : Bool)
  | parse (file : String)
  | evaluate (file : String)
  | run (file : String)
  | dialogue
deriving DecidableEq

/-- The command that arguments ask for. Logging may be asked for anywhere and is not visible. -/
def Command.ofArguments? (arguments : List String) : Option Command :=
  match arguments.filter (· ≠ "--log") with
  | [] => some .dialogue
  | ["repl"] => some .dialogue
  | ["parse", file] => some (.parse file)
  | ["evaluate", file] => some (.evaluate file)
  | ["run", file] => some (.run file)
  | "tokenize" :: rest =>
    match rest.filter (· ≠ "--json") with
    | [file] => some (.tokenize file (rest.contains "--json"))
    | _ => none
  | _ => none

/-- Why the source of a command cannot be read. -/
inductive SourceError where
  | unopened (file : String) (error : FileError)
  | unmapped (file : String)
  | notText (file : String) (malformed : Utf8.Malformed)
  | inputNotText
deriving DecidableEq

/-- The message of a failure and what caused it. -/
def failureText (failure cause : String) : String :=
  "Error: " ++ failure ++ "\n\nCaused by:\n    " ++ cause ++ "\n"

def SourceError.message : SourceError → String
  | unopened file error =>
    failureText ("Failed to open file " ++ Quoted.name file) error.message
  | unmapped file =>
    failureText ("Failed to map file " ++ Quoted.name file) "No such device (os error 19)"
  | notText file malformed =>
    failureText ("File " ++ Quoted.name file ++ " is not valid UTF-8") malformed.message
  | inputNotText => failureText "Failed to read from stdin" FileError.notText.message

/-- The text of a source file. -/
def FileSystem.readSource (fs : FileSystem) (file : String) : Except SourceError String :=
  match fs.locate false file with
  | .error error => .error (.unopened file error)
  | .ok (.vacant _) => .error (.unopened file .notFound)
  | .ok .directory => .error (.unmapped file)
  | .ok (.file _ content) =>
    match Utf8.decode content with
    | .ok text => .ok text
    | .error malformed => .error (.notText file malformed)

/-- How a command ended: its exit status, and the host behind it. -/
structure Exit where
  status : Nat
  host : Host

namespace Exit

/-- The status of a command that was misused. -/
def misuse (host : Host) : Exit :=
  ⟨2, host⟩

def failed (host : Host) (e : SourceError) : Exit :=
  ⟨1, (host.write .err e.message).2⟩

def ofStep (step : Step) : Exit :=
  ⟨step.outcome.exitCode, step.session.machine.host⟩

end Exit

namespace Session

/-- Write to the output without running anything. -/
def put (s : Session) (text : String) : Session :=
  { s with machine := { s.machine with host := (s.machine.host.write .out text).2 } }

/-- Run each line of the input as a program, after a prompt, until the input ends. Every line takes
a byte, so one round more than there are bytes is enough. -/
def dialogue (fuel : Nat) : (rounds : Nat) → Session → Option Exit
  | 0, s => some ⟨0, s.machine.host⟩
  | rounds + 1, s =>
    let s := s.put "> "
    match s.machine.host.readLine with
    | (none, host) => some ⟨0, (host.write .out "\n").2⟩
    | (some bytes, host) =>
      match Utf8.decode bytes with
      | .error _ => some (.failed host .inputNotText)
      | .ok text => do
        let step ← Session.run fuel { s with machine := { s.machine with host } } text
        dialogue fuel rounds step.session.reset

end Session

namespace Command

/-- Work on a source file. -/
def onSource (host : Host) (file : String) (work : Session → String → Option Step) :
    Option Exit :=
  match host.files.readSource file with
  | .error e => some (.failed host e)
  | .ok source => (work (.start host) source).map Exit.ofStep

def execute (fuel : Nat) (host : Host) : Command → Option Exit
  | tokenize file json => onSource host file fun s source ↦ some (s.tokenize json source)
  | parse file => onSource host file fun s source ↦ s.parse source
  | evaluate file => onSource host file fun s source ↦ s.evaluate fuel source
  | run file => onSource host file fun s source ↦ s.run fuel source
  | dialogue => Session.dialogue fuel (host.input.length + 1) (.start host)

end Command

/-- The whole program: what arguments make of a host. -/
def commandLine (fuel : Nat) (arguments : List String) (host : Host) : Option Exit :=
  match Command.ofArguments? arguments with
  | none => some (.misuse host)
  | some command => command.execute fuel host

end Lox
