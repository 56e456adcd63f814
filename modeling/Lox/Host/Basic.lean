import Lox.Host.FileSystem
import Lox.Text.Utf8

/-!
# The host

What a program sees of the world: two output streams that may fail, an input, a clock and files.
The host is a value, so that what a program does to it can be stated.
-/

namespace Lox

/-- The stream of printed values and the stream of diagnostics. -/
inductive Channel where
  | out
  | err
deriving DecidableEq

/-- When a stream fails: the text of the failure of its k-th write or flush, if that one fails. -/
structure Sink where
  writeFailure : Nat → Option String := fun _ ↦ none
  flushFailure : Nat → Option String := fun _ ↦ none
  writes : Nat := 0
  flushes : Nat := 0

/-- The world of a program. The log holds what was written, in order. Where a read first found no
input, `starvedAt` tells how long the log was then. -/
structure Host where
  out : Sink := {}
  err : Sink := {}
  log : Array (Channel × String) := #[]
  input : List UInt8 := []
  starvedAt : Option Nat := none
  clock : Nat → Nat := fun _ ↦ 0
  clockReads : Nat := 0
  files : FileSystem := {}

namespace Host

def sink (h : Host) : Channel → Sink
  | .out => h.out
  | .err => h.err

def setSink (h : Host) (channel : Channel) (s : Sink) : Host :=
  match channel with
  | .out => { h with out := s }
  | .err => { h with err := s }

/-- Write a text to a stream. A write that fails writes nothing. -/
def write (h : Host) (channel : Channel) (text : String) : Except String Unit × Host :=
  let s := h.sink channel
  let h := h.setSink channel { s with writes := s.writes + 1 }
  match s.writeFailure s.writes with
  | some failure => (.error failure, h)
  | none => (.ok (), { h with log := h.log.push (channel, text) })

/-- Flush a stream. -/
def flush (h : Host) (channel : Channel) : Except String Unit × Host :=
  let s := h.sink channel
  let h := h.setSink channel { s with flushes := s.flushes + 1 }
  match s.flushFailure s.flushes with
  | some failure => (.error failure, h)
  | none => (.ok (), h)

/-- The next line of the input with the newline that ends it, if there is any input left. -/
def readLine (h : Host) : Option (List UInt8) × Host :=
  match h.input with
  | [] => (none, { h with starvedAt := h.starvedAt <|> some h.log.size })
  | input =>
    let body := input.takeWhile (· ≠ 10)
    let rest := input.dropWhile (· ≠ 10)
    (some (body ++ rest.take 1), { h with input := rest.drop 1 })

/-- The time in milliseconds. -/
def readClock (h : Host) : Nat × Host :=
  (h.clock h.clockReads, { h with clockReads := h.clockReads + 1 })

/-- All that was written to a stream. -/
def written (h : Host) (channel : Channel) : String :=
  .join ((h.log.toList.filter (·.1 = channel)).map (·.2))

end Host

end Lox
