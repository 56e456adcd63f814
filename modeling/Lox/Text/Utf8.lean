/-!
# UTF-8

Bytes read from outside are text only if they are well-formed UTF-8.  Where they are not, the
decoder tells how many bytes are well-formed and how many belong to the faulty sequence, or that the
input ends inside a character.
-/

namespace Lox.Utf8

/-- The place where bytes stop being UTF-8. The faulty sequence has no length if more bytes could
have completed it. -/
structure Malformed where
  validUpTo : Nat
  faultyLength : Option Nat
deriving DecidableEq

def Malformed.message (m : Malformed) : String :=
  match m.faultyLength with
  | some length =>
    s!"invalid utf-8 sequence of {length} bytes from index {m.validUpTo}"
  | none => s!"incomplete utf-8 byte sequence from index {m.validUpTo}"

def isContinuation (b : UInt8) : Bool :=
  0x80 ≤ b && b ≤ 0xBF

/-- Which second bytes a leading byte of a longer sequence allows. They keep out overlong forms,
surrogates and code points above `0x10FFFF`. -/
def allowsSecond (lead b : UInt8) : Bool :=
  if lead = 0xE0 then 0xA0 ≤ b && b ≤ 0xBF
  else if lead = 0xED then 0x80 ≤ b && b ≤ 0x9F
  else if lead = 0xF0 then 0x90 ≤ b && b ≤ 0xBF
  else if lead = 0xF4 then 0x80 ≤ b && b ≤ 0x8F
  else isContinuation b

/-- The code point spelled by the low bits of a leading byte and its continuation bytes. -/
def codePoint (leadBits : Nat) (continuation : List UInt8) : Char :=
  .ofNat (continuation.foldl (fun value b ↦ value * 64 + b.toNat % 64) leadBits)

/-- Decode bytes from the given offset, after the characters in `decoded`, last one first. -/
def decodeFrom (offset : Nat) (decoded : List Char) : List UInt8 → Except Malformed String
  | [] => .ok (.ofList decoded.reverse)
  | a :: rest =>
    if a < 0x80 then decodeFrom (offset + 1) (codePoint a.toNat [] :: decoded) rest
    else if a < 0xC2 ∨ 0xF4 < a then .error ⟨offset, some 1⟩
    else
      match rest with
      | [] => .error ⟨offset, none⟩
      | b :: rest =>
        if !allowsSecond a b then .error ⟨offset, some 1⟩
        else if a < 0xE0 then
          decodeFrom (offset + 2) (codePoint (a.toNat % 32) [b] :: decoded) rest
        else
          match rest with
          | [] => .error ⟨offset, none⟩
          | c :: rest =>
            if !isContinuation c then .error ⟨offset, some 2⟩
            else if a < 0xF0 then
              decodeFrom (offset + 3) (codePoint (a.toNat % 16) [b, c] :: decoded) rest
            else
              match rest with
              | [] => .error ⟨offset, none⟩
              | d :: rest =>
                if !isContinuation d then .error ⟨offset, some 3⟩
                else
                  decodeFrom (offset + 4) (codePoint (a.toNat % 8) [b, c, d] :: decoded) rest

/-- The text that bytes spell. -/
def decode (bytes : List UInt8) : Except Malformed String :=
  decodeFrom 0 [] bytes

def encode (text : String) : List UInt8 :=
  text.toUTF8.toList

end Lox.Utf8
