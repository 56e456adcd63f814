import Lox.Text.Hidden

/-!
# Quoted text

Two ways to write a text between double quotes: as a JSON string, and with every hidden character
shown, as names stand in messages.
-/

namespace Lox.Quoted

/-- The last `width` hexadecimal digits of a number, in lower case. -/
def hex (width value : Nat) : List Char :=
  let digits := Nat.toDigits 16 value
  .replicate (width - digits.length) '0' ++ digits

/-- JSON escapes the quote, the backslash and the control characters below the space. -/
def jsonChar (c : Char) : List Char :=
  if c = '"' then ['\\', '"']
  else if c = '\\' then ['\\', '\\']
  else if c = '\x08' then ['\\', 'b']
  else if c = '\t' then ['\\', 't']
  else if c = '\n' then ['\\', 'n']
  else if c = '\x0c' then ['\\', 'f']
  else if c = '\r' then ['\\', 'r']
  else if c.toNat < 0x20 then '\\' :: 'u' :: hex 4 c.toNat
  else [c]

/-- Names escape the quote and the backslash, and show every hidden character by an escape of its
own or by its code point. -/
def nameChar (c : Char) : List Char :=
  if c = '"' then ['\\', '"']
  else if c = '\\' then ['\\', '\\']
  else if c = '\x00' then ['\\', '0']
  else if c = '\t' then ['\\', 't']
  else if c = '\n' then ['\\', 'n']
  else if c = '\r' then ['\\', 'r']
  else if isHidden c then '\\' :: 'u' :: '\x7b' :: hex 1 c.toNat ++ ['\x7d']
  else [c]

def quote (escape : Char → List Char) (text : String) : String :=
  .ofList ('"' :: text.toList.flatMap escape ++ ['"'])

def json (text : String) : String :=
  quote jsonChar text

def name (text : String) : String :=
  quote nameChar text

end Lox.Quoted
