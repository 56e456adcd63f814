import Lox.Diagnostic
import Lox.Tree.Basic

/-!
# Reading tokens

A parser walks over the tokens before the first end token.  Behind them it sees that end token for
ever, so it cannot leave the input.  A syntax error ends the current rule; errors that leave the
reader oriented are noted and do not.

Every loop of the grammar takes a bound on its rounds.  Each round takes a token, so a bound of the
number of tokens left is never reached before the tokens are used up.
-/

namespace Lox

structure SyntaxError where
  token : Token
  fault : SyntaxFault
deriving DecidableEq

namespace Parser

/-- The tokens still to be read, the end token behind them, the next free node identifier and the
errors noted so far. -/
structure State where
  rest : List Token
  stop : Token
  nextId : NodeId
  errors : Array SyntaxError

/-- The end token of a token list; a list without one ends on the line of its last token. -/
def stopOf (tokens : List Token) : Token :=
  (tokens.find? (·.kind = .endOfInput)).getD
    ⟨.endOfInput, "", (tokens.getLast?.map (·.line)).getD 1, 0⟩

/-- Start reading at the front of a token list. -/
def State.start (nextId : NodeId) (tokens : List Token) : State where
  rest := tokens.takeWhile (·.kind ≠ .endOfInput)
  stop := stopOf tokens
  nextId := nextId
  errors := #[]

end Parser

/-- A rule of the grammar: it reads tokens and gives a result, or fails with a syntax error. -/
abbrev Parser := EStateM SyntaxError Parser.State

namespace Parser

/-- The next token, which stays where it is. -/
def peek : Parser Token := do
  let s ← get
  return s.rest.headD s.stop

def atEnd : Parser Bool := do
  return (← get).rest.isEmpty

/-- Fail at the next token. -/
def fail {α : Type} (fault : SyntaxFault) : Parser α := do
  throw ⟨← peek, fault⟩

/-- Note an error and go on. -/
def note (token : Token) (fault : SyntaxFault) : Parser Unit :=
  modify fun s ↦ { s with errors := s.errors.push ⟨token, fault⟩ }

def freshId : Parser NodeId :=
  modifyGet fun s ↦ (s.nextId, { s with nextId := s.nextId + 1 })

/-- Take the next token if its kind is wanted. -/
def acceptIf (wanted : Kind → Bool) : Parser (Option Token) := fun s ↦
  match s.rest with
  | [] => .ok none s
  | t :: rest => if wanted t.kind then .ok (some t) { s with rest } else .ok none s

theorem acceptIf_cases (wanted : Kind → Bool) (s : State) :
    (s.rest.head?.any (wanted ·.kind) = false ∧ acceptIf wanted s = .ok none s) ∨
      ∃ t rest, s.rest = t :: rest ∧ wanted t.kind = true ∧
        acceptIf wanted s = .ok (some t) { s with rest } := by
  unfold acceptIf
  cases hrest : s.rest with
  | nil => exact .inl ⟨rfl, rfl⟩
  | cons t rest =>
    cases hwanted : wanted t.kind with
    | true => exact .inr ⟨t, rest, rfl, hwanted, if_pos hwanted⟩
    | false => exact .inl ⟨hwanted, if_neg (Bool.eq_false_iff.1 hwanted)⟩

def accept (kind : Kind) : Parser Bool := do
  return (← acceptIf (· = kind)).isSome

/-- Whether the next token is of a kind. -/
def check (kind : Kind) : Parser Bool := do
  match (← get).rest with
  | [] => return false
  | t :: _ => return t.kind = kind

/-- Take a token of a kind, or fail. -/
def expect (kind : Kind) (fault : SyntaxFault) : Parser Token := do
  match ← acceptIf (· = kind) with
  | some token => return token
  | none => fail fault

/-- Results of `item` until `done` holds, in at most `bound` rounds. -/
def manyUntil {α : Type} (done : Parser Bool) (item : Parser α) : (bound : Nat) → Parser (List α)
  | 0 => return []
  | bound + 1 => do
    if ← done then return []
    let first ← item
    return first :: (← manyUntil done item bound)

/-- One or more items with commas between them, the first having the given index. There are at
most `bound` items after it. -/
def commaSeparated {α : Type} (item : Nat → Parser α) :
    (bound index : Nat) → Parser (List α)
  | 0, index => return [← item index]
  | bound + 1, index => do
    let first ← item index
    if ← accept .comma then
      return first :: (← commaSeparated item bound (index + 1))
    return [first]

/-- The largest number of parameters or arguments. -/
def maxItems : Nat := 255

/-- An item of a list that may have `maxItems` items; every further one is noted as an error. -/
def limited {α : Type} (fault : SyntaxFault) (item : Parser α) (index : Nat) : Parser α := do
  if maxItems ≤ index then note (← peek) fault
  item

/-- A list with commas before a closing parenthesis, which stays where it is. -/
def listed {α : Type} (bound : Nat) (fault : SyntaxFault) (item : Parser α) : Parser (List α) := do
  if ← check .rightParen then return []
  commaSeparated (limited fault item) bound 0

/-- The kinds at which a statement is likely to start. -/
def isStarter (kind : Kind) : Bool :=
  kind = .classWord || kind = .funWord || kind = .varWord || kind = .forWord || kind = .ifWord ||
    kind = .whileWord || kind = .printWord || kind = .returnWord

/-- Skip tokens until one ends or starts a statement; `last` is the token just skipped. -/
def skipStatement (last : Token) : List Token → List Token
  | [] => []
  | t :: rest =>
    if last.kind = .semicolon || isStarter t.kind then t :: rest else skipStatement t rest

/-- The tokens from which reading goes on after an error: at least one token is skipped. -/
def synchronize : List Token → List Token
  | [] => []
  | t :: rest => skipStatement t rest

theorem length_skipStatement_le (last : Token) (tokens : List Token) :
    (skipStatement last tokens).length ≤ tokens.length := by
  induction tokens generalizing last with
  | nil => exact Nat.le_refl _
  | cons t rest ih =>
    unfold skipStatement
    split
    · exact Nat.le_refl _
    · exact Nat.le_succ_of_le (ih t)

/-- Recovery skips at least one token. -/
theorem length_synchronize_cons_le (t : Token) (rest : List Token) :
    (synchronize (t :: rest)).length ≤ rest.length :=
  length_skipStatement_le t rest

/-- Note the error of a rule that fails and go on behind the faulty statement. -/
def recover {α : Type} (rule : Parser α) : Parser (Option α) := fun s ↦
  match rule s with
  | .ok a s => .ok (some a) s
  | .error e s => .ok none { s with errors := s.errors.push e, rest := synchronize s.rest }

end Parser

end Lox
