import Lox.Token.Segment

/-!
# Scanning

Scanning lists the tokens and the lexical faults of a source in order.  Blanks and comments only
move the position.  A token stands where its text starts; a fault is reported on the line where its
text ends.  One end token closes the list.
-/

namespace Lox

/-- A place in a source: the line, and the column in bytes, both counted from one. -/
structure Position where
  line : Nat
  column : Nat
deriving DecidableEq

namespace Position

def start : Position :=
  ⟨1, 1⟩

/-- The position behind a character. -/
def advance (p : Position) (c : Char) : Position :=
  if c = '\n' then ⟨p.line + 1, 1⟩ else ⟨p.line, p.column + c.utf8Size⟩

/-- The position behind a text. -/
def after (p : Position) (text : List Char) : Position :=
  text.foldl advance p

theorem after_append (p : Position) (s t : List Char) : p.after (s ++ t) = (p.after s).after t :=
  List.foldl_append

end Position

/-- What scanning yields: tokens and lexical faults. -/
inductive Item where
  | token (t : Token)
  | fault (line : Nat) (cause : LexicalFault)
deriving DecidableEq

namespace Item

/-- What a segment that starts at a position yields. -/
def ofSegment? (p : Position) (s : Segment) : Option Item :=
  match s.role with
  | .token kind => some (.token ⟨kind, .ofList s.text, p.line, p.column⟩)
  | .fault cause => some (.fault (p.after s.text).line cause)
  | .blank => none
  | .comment => none

def endToken (p : Position) : Token :=
  ⟨.endOfInput, "", p.line, p.column⟩

/-- What segments yield from a position on, with the end token behind them. -/
def ofSegments (p : Position) : List Segment → List Item
  | [] => [.token (endToken p)]
  | s :: rest =>
    match ofSegment? p s with
    | some item => item :: ofSegments (p.after s.text) rest
    | none => ofSegments (p.after s.text) rest

def token? : Item → Option Token
  | .token t => some t
  | .fault _ _ => none

end Item

/-- The tokens and lexical faults of a source, in order. -/
def scan (source : String) : List Item :=
  Item.ofSegments .start (segments source.toList)

/-- The tokens of a source, up to and including the end token. -/
def tokens (source : String) : List Token :=
  (scan source).filterMap Item.token?

end Lox
