import Lox.Proofs.Token.Rescanning
import Mathlib.Data.PFun

/-!
# Scanning bytes

A scanner that never looks at characters: it walks over the bytes of a source, compares them with
ASCII characters, jumps to where a byte or a pair of bytes is found, and takes slices of the source
between two offsets.  A slice needs both of its ends between two characters, a byte can only be read
if it is there, and a loop need not come to an end.  So its functions are partial, and what they are
defined on is to be shown.
-/

namespace Lox

/-- Where a scanner stands: the first byte of what it is reading, the byte that it will look at
next, the number of the line, and the first byte of the line. -/
structure ByteScanner where
  start : Nat := 0
  current : Nat := 0
  line : Nat := 1
  lineStart : Nat := 0
  finished : Bool := false

namespace ByteScanner

variable (source : String)

/-- The bytes of a source. -/
def bytes : List UInt8 :=
  source.toUTF8.data.toList

/-- The byte at an offset before the end. -/
def byteAt (offset : Nat) : Part UInt8 :=
  .ofOption (bytes source)[offset]?

/-- The byte at an offset, or zero behind the end. -/
def peek (offset : Nat) : UInt8 :=
  (bytes source)[offset]?.getD 0

/-- The bytes from one offset up to another one, both of them in the source. -/
def range (start stop : Nat) : Part (List UInt8) :=
  .assert (start ≤ stop ∧ stop ≤ (bytes source).length) fun _ ↦
    .some (((bytes source).take stop).drop start)

/-- The text from one offset up to another one, both of them between two characters. -/
def slice (start stop : Nat) : Part String :=
  .assert (start ≤ stop ∧ String.Pos.Raw.IsValid source ⟨start⟩ ∧
    String.Pos.Raw.IsValid source ⟨stop⟩) fun h ↦
      .some (String.extract (s := source) ⟨⟨start⟩, h.2.1⟩ ⟨⟨stop⟩, h.2.2⟩)

/-- A byte as the character with its number. -/
def character (byte : UInt8) : Char :=
  .ofNat byte.toNat

variable (s : ByteScanner)

def atEnd : Bool :=
  (bytes source).length ≤ s.current

/-- Read the next byte. -/
def advance : Part (UInt8 × ByteScanner) := do
  let byte ← byteAt source s.current
  return (byte, { s with current := s.current + 1 })

/-- A line starts behind the byte at an offset. -/
def newline (offset : Nat) : ByteScanner :=
  { s with line := s.line + 1, lineStart := offset + 1 }

/-- Whether the next byte is a given character. -/
def follows (c : Char) : Bool :=
  !s.atEnd source && peek source s.current = c.toUInt8

/-- The column of an offset that is not before the line. -/
def column (offset : Nat) : Part Nat :=
  .assert (s.lineStart ≤ offset) fun _ ↦ .some (offset - s.lineStart + 1)

/-- Go on as long as the next bytes pass a test. -/
def skipWhile (p : UInt8 → Bool) : Part ByteScanner :=
  s |> PFun.fix fun s ↦
    if p (peek source s.current) then do
      let (_, s) ← s.advance source
      return .inr s
    else return .inl s

/-- Go on up to a quote, and keep count of the lines. -/
def skipString : Part ByteScanner :=
  s |> PFun.fix fun s ↦
    if !s.atEnd source && peek source s.current ≠ '"'.toUInt8 then do
      let (byte, s) ← s.advance source
      return .inr (if byte = '\n'.toUInt8 then s.newline (s.current - 1) else s)
    else return .inl s

/-- Where a star stands first with a slash behind it. -/
def commentEnd? : List UInt8 → Option Nat
  | [] => none
  | byte :: rest =>
    if byte = '*'.toUInt8 ∧ rest.head? = some '/'.toUInt8 then some 0
    else (commentEnd? rest).map (· + 1)

/-- Where a byte stands last. -/
def lastIdx? (byte : UInt8) : List UInt8 → Option Nat
  | [] => none
  | first :: rest =>
    match lastIdx? byte rest with
    | some i => some (i + 1)
    | none => if first = byte then some 0 else none

/-- Count the lines that start in the next bytes. -/
def countLines (body : List UInt8) : ByteScanner :=
  match lastIdx? '\n'.toUInt8 body with
  | some last =>
    { s with
      line := s.line + body.count '\n'.toUInt8
      lineStart := s.current + last + 1 }
  | none => s

/-- What was found: a kind of token, nothing to be told, or a fault. -/
abbrev Finding := Except LexicalFault (Option Kind)

/-- A comment up to the end of its line, behind its two slashes. -/
def lineComment : Part (Finding × ByteScanner) := do
  let rest ← range source s.current (bytes source).length
  match rest.findIdx? (· == '\n'.toUInt8) with
  | some i => return (.ok none, { s with current := s.current + i })
  | none => return (.ok none, { s with current := (bytes source).length })

/-- A comment up to the first `*/`, behind its slash and its star. -/
def blockComment : Part (Finding × ByteScanner) := do
  let rest ← range source s.current (bytes source).length
  match commentEnd? rest with
  | some i =>
    let body ← range source s.current (s.current + i)
    return (.ok none, { s.countLines body with current := s.current + i + 2 })
  | none =>
    return (.error .unterminatedComment,
      { s.countLines rest with current := (bytes source).length })

/-- A slash or a comment, behind its first slash. -/
def slash : Part (Finding × ByteScanner) :=
  if s.follows source '/' then do
    let (_, s) ← s.advance source
    s.lineComment source
  else if s.follows source '*' then do
    let (_, s) ← s.advance source
    s.blockComment source
  else return (.ok (some .slash), s)

/-- A string, behind its first quote. -/
def string : Part (Finding × ByteScanner) := do
  let s ← s.skipString source
  if s.atEnd source then return (.error .unterminatedString, s)
  else do
    let (_, s) ← s.advance source
    let text ← slice source (s.start + 1) (s.current - 1)
    return (.ok (some (.string text)), s)

def isDigit (byte : UInt8) : Bool :=
  (character byte).isDigit

def isWordRest (byte : UInt8) : Bool :=
  Segment.isWordRest (character byte)

/-- The number that a text of digits, with or without a point, is read as. -/
def numberOf (text : List Char) : Number :=
  .ofDigits (text.takeWhile (· ≠ '.')) ((text.dropWhile (· ≠ '.')).drop 1)

/-- The digits behind a point, and the point, if both are there. -/
def fraction : Part ByteScanner :=
  if peek source s.current = '.'.toUInt8 && isDigit (peek source (s.current + 1)) then do
    let (_, s) ← s.advance source
    s.skipWhile source isDigit
  else return s

/-- A number, behind its first digit. -/
def number : Part (Finding × ByteScanner) := do
  let s ← s.skipWhile source isDigit
  let s ← s.fraction source
  let text ← slice source s.start s.current
  return (.ok (some (.number (numberOf text.toList))), s)

/-- A word, behind its first letter. -/
def word : Part (Finding × ByteScanner) := do
  let s ← s.skipWhile source isWordRest
  let text ← slice source s.start s.current
  return (.ok (some (.ofWord text)), s)

/-- A character with which nothing starts, whatever number of bytes it has. -/
def unexpected : Part (Finding × ByteScanner) := do
  let rest ← slice source s.start (bytes source).length
  let c := rest.toList.headD '\uFFFD'
  return (.error (.unexpected c), { s with current := s.start + c.utf8Size })

/-- Read a segment. -/
def segment : Part (Finding × ByteScanner) := do
  let (byte, s) ← s.advance source
  match Segment.opening (character byte) with
  | .single kind => return (.ok (some kind), s)
  | .operator short long =>
    if s.follows source '=' then do
      let (_, s) ← s.advance source
      return (.ok (some long), s)
    else return (.ok (some short), s)
  | .blank =>
    return (.ok none, if byte = '\n'.toUInt8 then s.newline (s.current - 1) else s)
  | .slash => s.slash source
  | .string => s.string source
  | .number => s.number source
  | .word => s.word source
  | .unexpected => s.unexpected source

/-- What a segment yields that starts on a line and in a column, if anything. -/
def yield (line column : Nat) : Finding → Part (Option Item)
  | .error cause => return some (.fault s.line cause)
  | .ok (some kind) => do
    let lexeme ← slice source s.start s.current
    return some (.token ⟨kind, lexeme, line, column⟩)
  | .ok none => return none

/-- Read a segment, and leave it at that if it yields an item. -/
def round : Part ((Item × ByteScanner) ⊕ ByteScanner) :=
  if s.atEnd source then do
    let column ← s.column s.current
    return .inl (.token ⟨.endOfInput, "", s.line, column⟩, { s with finished := true })
  else do
    let s := { s with start := s.current }
    let column ← s.column s.start
    let (finding, behind) ← s.segment source
    match ← behind.yield source s.line column finding with
    | some item => return .inl (item, behind)
    | none => return .inr behind

/-- Read segments up to one that yields an item. -/
def find : Part (Item × ByteScanner) :=
  s |> PFun.fix (round source)

/-- Ask for an item. Once the end token has been given there is none. -/
def next : Part (Option Item × ByteScanner) :=
  if s.finished then return (none, s)
  else do
    let (item, s) ← s.find source
    return (some item, s)

/-- The scanner of a source once it has been asked a number of times. -/
def after : (asked : Nat) → Part ByteScanner
  | 0 => return {}
  | asked + 1 => do
    let s ← after asked
    let (_, s) ← s.next source
    return s

end ByteScanner

end Lox
