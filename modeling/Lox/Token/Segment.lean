import Lox.Number.Rounding
import Lox.Token.Basic

/-!
# Segments of source text

A source is cut into segments from left to right, and nothing is lost: each segment is a token, a
blank, a comment or a lexical fault.  Every segment is as long as its first character allows: words
and numbers take all the characters that can belong to them, and an unterminated string or comment
takes the rest of the source.
-/

namespace Lox

/-- What can be wrong with source text below the level of tokens. -/
inductive LexicalFault where
  | unexpected (character : Char)
  | unterminatedString
  | unterminatedComment
deriving DecidableEq

/-- What a segment of source text is. -/
inductive Role where
  | token (kind : Kind)
  | blank
  | comment
  | fault (cause : LexicalFault)
deriving DecidableEq

structure Segment where
  role : Role
  text : List Char
deriving DecidableEq

namespace Segment

def isBlank (c : Char) : Bool :=
  c = ' ' || c = '\r' || c = '\t' || c = '\n'

def isWordStart (c : Char) : Bool :=
  c.isAlpha || c = '_'

def isWordRest (c : Char) : Bool :=
  c.isAlphanum || c = '_'

/-- The punctuation of one character that starts no longer token. -/
def single? (c : Char) : Option Kind :=
  match c with
  | '(' => some .leftParen
  | ')' => some .rightParen
  | '{' => some .leftBrace
  | '}' => some .rightBrace
  | ',' => some .comma
  | '.' => some .dot
  | '-' => some .minus
  | '+' => some .plus
  | ';' => some .semicolon
  | '*' => some .star
  | _ => none

/-- The operators that an equals sign can extend: the short kind and the long one. -/
def extensible? (c : Char) : Option (Kind × Kind) :=
  match c with
  | '!' => some (.bang, .bangEqual)
  | '=' => some (.equal, .equalEqual)
  | '<' => some (.less, .lessEqual)
  | '>' => some (.greater, .greaterEqual)
  | _ => none

/-- An operator with the equals sign that may follow it. -/
def operator (c : Char) (short long : Kind) : List Char → Segment × List Char
  | '=' :: rest => (⟨.token long, [c, '=']⟩, rest)
  | rest => (⟨.token short, [c]⟩, rest)

/-- Split text after the first `*/`, if there is one. -/
def splitCommentEnd : List Char → Option (List Char × List Char)
  | [] => none
  | c :: rest =>
    match c, rest with
    | '*', '/' :: rest => some (['*', '/'], rest)
    | _, _ => (splitCommentEnd rest).map fun (body, after) ↦ (c :: body, after)

/-- A slash, or a comment that starts with it. A line comment ends before the newline. -/
def slash : List Char → Segment × List Char
  | '/' :: rest =>
    (⟨.comment, '/' :: '/' :: rest.takeWhile (· ≠ '\n')⟩, rest.dropWhile (· ≠ '\n'))
  | '*' :: rest =>
    match splitCommentEnd rest with
    | some (body, after) => (⟨.comment, '/' :: '*' :: body⟩, after)
    | none => (⟨.fault .unterminatedComment, '/' :: '*' :: rest⟩, [])
  | rest => (⟨.token .slash, ['/']⟩, rest)

/-- A string after its opening quote. -/
def string (rest : List Char) : Segment × List Char :=
  let body := rest.takeWhile (· ≠ '"')
  match rest.dropWhile (· ≠ '"') with
  | [] => (⟨.fault .unterminatedString, '"' :: body⟩, [])
  | quote :: after => (⟨.token (.string (.ofList body)), '"' :: body ++ [quote]⟩, after)

/-- A number after its first digit. A point belongs to it only if a digit follows. -/
def number (c : Char) (rest : List Char) : Segment × List Char :=
  let whole := c :: rest.takeWhile Char.isDigit
  let after := rest.dropWhile Char.isDigit
  let integer : Segment × List Char := (⟨.token (.number (.ofDigits whole [])), whole⟩, after)
  match after with
  | '.' :: digit :: more =>
    if digit.isDigit then
      let fraction := digit :: more.takeWhile Char.isDigit
      (⟨.token (.number (.ofDigits whole fraction)), whole ++ '.' :: fraction⟩,
        more.dropWhile Char.isDigit)
    else integer
  | _ => integer

/-- A word after its first letter. -/
def word (c : Char) (rest : List Char) : Segment × List Char :=
  let text := c :: rest.takeWhile isWordRest
  (⟨.token (.ofWord (.ofList text)), text⟩, rest.dropWhile isWordRest)

/-- The segment at the front of a nonempty text, with the text after it. -/
def next (c : Char) (rest : List Char) : Segment × List Char :=
  match single? c, extensible? c with
  | some kind, _ => (⟨.token kind, [c]⟩, rest)
  | none, some (short, long) => operator c short long rest
  | none, none =>
    if isBlank c then (⟨.blank, [c]⟩, rest)
    else if c = '/' then slash rest
    else if c = '"' then string rest
    else if c.isDigit then number c rest
    else if isWordStart c then word c rest
    else (⟨.fault (.unexpected c), [c]⟩, rest)

/-- Cut a text into at most `count` segments. -/
def cut : (count : Nat) → List Char → List Segment
  | 0, _ => []
  | _ + 1, [] => []
  | count + 1, c :: rest =>
    let (segment, after) := next c rest
    segment :: cut count after

end Segment

/-- The segments of a source. No segment is empty, so there are at most as many as characters. -/
def segments (source : List Char) : List Segment :=
  Segment.cut source.length source

end Lox
