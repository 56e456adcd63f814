import Lox.Number.Text
import Lox.Text.Quoted

/-!
# Tokens

A token is a kind, the source text it was read from and the place where that text starts.  String
and number tokens carry their value in the kind.
-/

namespace Lox

/-- The kinds of tokens: punctuation, names, literals, keywords and the end of the input. -/
inductive Kind where
  | leftParen | rightParen | leftBrace | rightBrace
  | comma | dot | minus | plus | semicolon | slash | star
  | bang | bangEqual | equal | equalEqual | greater | greaterEqual | less | lessEqual
  | identifier
  | string (text : String)
  | number (value : Number)
  | andWord | classWord | elseWord | falseWord | funWord | forWord | ifWord | nilWord | orWord
  | printWord | returnWord | superWord | thisWord | trueWord | varWord | whileWord
  | breakWord | continueWord
  | endOfInput
deriving DecidableEq, Inhabited

namespace Kind

/-- The name under which tokens of a kind are listed. -/
def name : Kind → String
  | leftParen => "LEFT_PAREN"
  | rightParen => "RIGHT_PAREN"
  | leftBrace => "LEFT_BRACE"
  | rightBrace => "RIGHT_BRACE"
  | comma => "COMMA"
  | dot => "DOT"
  | minus => "MINUS"
  | plus => "PLUS"
  | semicolon => "SEMICOLON"
  | slash => "SLASH"
  | star => "STAR"
  | bang => "BANG"
  | bangEqual => "BANG_EQUAL"
  | equal => "EQUAL"
  | equalEqual => "EQUAL_EQUAL"
  | greater => "GREATER"
  | greaterEqual => "GREATER_EQUAL"
  | less => "LESS"
  | lessEqual => "LESS_EQUAL"
  | identifier => "IDENTIFIER"
  | string _ => "STRING"
  | number _ => "NUMBER"
  | andWord => "AND"
  | classWord => "CLASS"
  | elseWord => "ELSE"
  | falseWord => "FALSE"
  | funWord => "FUN"
  | forWord => "FOR"
  | ifWord => "IF"
  | nilWord => "NIL"
  | orWord => "OR"
  | printWord => "PRINT"
  | returnWord => "RETURN"
  | superWord => "SUPER"
  | thisWord => "THIS"
  | trueWord => "TRUE"
  | varWord => "VAR"
  | whileWord => "WHILE"
  | breakWord => "BREAK"
  | continueWord => "CONTINUE"
  | endOfInput => "EOF"

/-- The kinds that carry no value. -/
def plain : List Kind :=
  [leftParen, rightParen, leftBrace, rightBrace, comma, dot, minus, plus, semicolon, slash, star,
    bang, bangEqual, equal, equalEqual, greater, greaterEqual, less, lessEqual, identifier,
    andWord, classWord, elseWord, falseWord, funWord, forWord, ifWord, nilWord, orWord, printWord,
    returnWord, superWord, thisWord, trueWord, varWord, whileWord, breakWord, continueWord,
    endOfInput]

/-- The kind without value that is listed under a name. -/
def ofName? (text : String) : Option Kind :=
  plain.find? (·.name = text)

/-- No two of these kinds are listed under one name. -/
theorem ofName?_name : ∀ k ∈ plain, ofName? k.name = some k := by
  decide

/-- The words that are not identifiers. -/
def keywords : List (String × Kind) :=
  [("and", andWord), ("class", classWord), ("else", elseWord), ("false", falseWord),
    ("fun", funWord), ("for", forWord), ("if", ifWord), ("nil", nilWord), ("or", orWord),
    ("print", printWord), ("return", returnWord), ("super", superWord), ("this", thisWord),
    ("true", trueWord), ("var", varWord), ("while", whileWord), ("break", breakWord),
    ("continue", continueWord)]

/-- The kind of a word: its keyword, or else an identifier. -/
def ofWord (word : String) : Kind :=
  (keywords.lookup word).getD identifier

end Kind

/-- A token with the line and the byte column of its first character, both counted from one. -/
structure Token where
  kind : Kind
  lexeme : String
  line : Nat
  column : Nat
deriving DecidableEq, Inhabited

namespace Token

/-- A token apart from its place: its kind, with the value of a literal, and its text. -/
def content (t : Token) : Kind × String :=
  (t.kind, t.lexeme)

/-- The value of a literal token as text; other tokens have none. -/
def literalText (t : Token) : String :=
  match t.kind with
  | .string text => text
  | .number value => value.literal
  | _ => "null"

/-- The line of a token listing. -/
def listing (t : Token) : String :=
  t.kind.name ++ " " ++ t.lexeme ++ " " ++ t.literalText

/-- The kind in a JSON record: its name, or an object from the name to the value. -/
def kindJson (t : Token) : String :=
  match t.kind with
  | .string text => "\x7b\"STRING\":" ++ Quoted.json text ++ "\x7d"
  | .number value => "\x7b\"NUMBER\":" ++ value.json ++ "\x7d"
  | kind => Quoted.json kind.name

/-- The JSON record of a token. -/
def json (t : Token) : String :=
  "\x7b\"token_type\":" ++ t.kindJson ++ ",\"lexeme\":" ++ Quoted.json t.lexeme ++
    ",\"line\":" ++ Nat.repr t.line ++ ",\"column\":" ++ Nat.repr t.column ++ "\x7d"

end Token

end Lox
