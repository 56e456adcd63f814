import Lox.CommandLine

/-!
# The executable

The program runs as a function of its host.  The files below the working directory are read before
and those that changed are written after it.  Input is taken line by line as the program asks for
it: whenever a run finds no input left, what it wrote up to there is shown, a line is read, and the
run starts over with that line added.
-/

namespace Lox.Main

/-- All files among and below the entries of a directory. -/
partial def filesBelow (entries : Array IO.FS.DirEntry) (location : Location) :
    IO (List (Location × List UInt8)) := do
  let mut files := []
  for entry in entries do
    let here := location ++ [entry.fileName]
    if ← entry.path.isDir then
      files := files ++ (← filesBelow (← entry.path.readDir) here)
    else
      files := (here, (← IO.FS.readBinFile entry.path).toList) :: files
  return files

/-- Show what was written from one place of the log to another. -/
def showLog (host : Host) (first last : Nat) : IO Unit := do
  for (channel, text) in host.log.extract first last do
    match channel with
    | .out => IO.print text
    | .err => IO.eprint text
  (← IO.getStdout).flush

/-- The next line of a stream with its newline; nothing if the stream has ended. -/
partial def lineBytes (stream : IO.FS.Stream) (seen : List UInt8) : IO (List UInt8) := do
  match (← stream.read 1).toList with
  | [] => return seen.reverse
  | b :: _ => if b = 10 then return (b :: seen).reverse else lineBytes stream (b :: seen)

/-- Run with the input so far, and again with more of it as long as the run asks for more. -/
partial def attempt (fuel : Nat) (arguments : List String) (host : Host) (shown : Nat)
    (ended : Bool) : IO (Option Exit) := do
  let some exit := commandLine fuel arguments host | return none
  match exit.host.starvedAt, ended with
  | some place, false =>
    showLog exit.host shown place
    let line ← lineBytes (← IO.getStdin) []
    attempt fuel arguments { host with input := host.input ++ line } place line.isEmpty
  | _, _ =>
    showLog exit.host shown exit.host.log.size
    return some exit

/-- Write the files that are not as they were. -/
def saveFiles (before after : List (Location × List UInt8)) : IO Unit := do
  for (location, content) in after do
    if before.lookup location ≠ some content then
      IO.FS.writeBinFile ("./" ++ "/".intercalate location) ⟨content.toArray⟩

/-- Run the program that arguments ask for, and give its exit status. -/
def runWith (arguments : List String) : IO UInt32 := do
  let files ← filesBelow (← (← IO.currentDir).readDir) []
  let now ← IO.monoMsNow
  let host : Host := { clock := fun k ↦ now + k, files := { files } }
  match ← attempt (pow2 62) arguments host 0 false with
  | none => return 1
  | some exit =>
    saveFiles files exit.host.files.files
    return .ofNat exit.status

end Lox.Main

def main (arguments : List String) : IO UInt32 :=
  Lox.Main.runWith arguments
