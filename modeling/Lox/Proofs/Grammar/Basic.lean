import Lox.Tree.Basic

/-!
# The grammar

Each nonterminal is a relation between token lists and trees: which tokens it derives, and the tree
of the derivation.  Identifiers of nodes are no part of the grammar, so a derivation may give any.

```text
program      → declaration* EOF
declaration  → classDecl | funDecl | varDecl | statement
classDecl    → "class" IDENT ( "<" IDENT )? "{" function* "}"
funDecl      → "fun" function
function     → IDENT "(" parameters? ")" block
parameters   → IDENT ( "," IDENT )*
varDecl      → "var" IDENT ( "=" expression )? ";"
statement    → exprStmt | forStmt | ifStmt | printStmt | returnStmt
             | whileStmt | breakStmt | continueStmt | block
exprStmt     → expression ";"
forStmt      → "for" "(" ( varDecl | exprStmt | ";" ) expression? ";" expression? ")" statement
ifStmt       → "if" "(" expression ")" statement ( "else" statement )?
printStmt    → "print" expression ";"
returnStmt   → "return" expression? ";"
whileStmt    → "while" "(" expression ")" statement
breakStmt    → "break" ";"
continueStmt → "continue" ";"
block        → "{" declaration* "}"
expression   → assignment
assignment   → ( call "." )? IDENT "=" assignment | logic_or
logic_or     → logic_and ( "or" logic_and )*
logic_and    → equality ( "and" equality )*
equality     → comparison ( ( "!=" | "==" ) comparison )*
comparison   → term ( ( ">" | ">=" | "<" | "<=" ) term )*
term         → factor ( ( "-" | "+" ) factor )*
factor       → unary ( ( "/" | "*" ) unary )*
unary        → ( "!" | "-" ) unary | call
call         → primary ( "(" arguments? ")" | "." IDENT )*
arguments    → expression ( "," expression )*
primary      → NUMBER | STRING | "true" | "false" | "nil" | "this" | IDENT
             | "(" expression ")" | "super" "." IDENT
```

Two side conditions go with the rules: a list of parameters or arguments has at most 255 entries,
and a jump stands in a loop of its own function.  The rules are ambiguous in one place, the `else`
after nested `if`s; a flag tells whether every `else` goes to the nearest `if`.
-/

namespace Lox.Grammar

/-- A nonterminal: the token lists it derives, each with the tree of a derivation. -/
abbrev Phrase (α : Type) := List Token → α → Prop

/-- `X?` -/
inductive Maybe {α : Type} (item : Phrase α) : Phrase (Option α)
  | absent : Maybe item [] none
  | present {ts : List Token} {a : α} (h : item ts a) : Maybe item ts (some a)

/-- `X ( op X )*`, grouped to the left. -/
inductive Chain (operators : List Kind) (node : Token → Expr → Expr → Expr)
    (operand : Phrase Expr) : Phrase Expr
  | one {ts : List Token} {e : Expr} (h : operand ts e) : Chain operators node operand ts e
  | more {ts us : List Token} {op : Token} {left right : Expr}
      (hleft : Chain operators node operand ts left) (hop : op.kind ∈ operators)
      (hright : operand us right) :
      Chain operators node operand (ts ++ op :: us) (node op left right)

/-- `X ( "," X )*` -/
inductive Commas {α : Type} (item : Phrase α) : Phrase (List α)
  | one {ts : List Token} {a : α} (h : item ts a) : Commas item ts [a]
  | more {ts us : List Token} {comma : Token} {a : α} {as : List α} (h : item ts a)
      (hcomma : comma.kind = .comma) (hrest : Commas item us as) :
      Commas item (ts ++ comma :: us) (a :: as)

/-- `( X ( "," X )* )?` with at most 255 entries. -/
inductive Listed {α : Type} (item : Phrase α) : Phrase (List α)
  | none : Listed item [] []
  | some {ts : List Token} {as : List α} (h : Commas item ts as) (hlength : as.length ≤ 255) :
      Listed item ts as

/-- `IDENT` -/
inductive Name : Phrase Token
  | ident {t : Token} (h : t.kind = .identifier) : Name [t] t

/-- `X ( "(" ( Y ( "," Y )* )? ")" | "." IDENT )*` -/
inductive Suffixed (argument operand : Phrase Expr) : Phrase Expr
  | bare {ts : List Token} {e : Expr} (h : operand ts e) : Suffixed argument operand ts e
  | call {ts us : List Token} {left right : Token} {e : Expr} {arguments : List Expr}
      (h : Suffixed argument operand ts e) (hleft : left.kind = .leftParen)
      (harguments : Listed argument us arguments) (hright : right.kind = .rightParen) :
      Suffixed argument operand (ts ++ left :: (us ++ [right])) (.call e right arguments)
  | property {ts : List Token} {dot name : Token} {e : Expr}
      (h : Suffixed argument operand ts e) (hdot : dot.kind = .dot)
      (hname : name.kind = .identifier) :
      Suffixed argument operand (ts ++ [dot, name]) (.get e name)

mutual

inductive Expression : Phrase Expr
  | assign {id : NodeId} {name equals : Token} {ts : List Token} {value : Expr}
      (hname : name.kind = .identifier) (hequals : equals.kind = .equal)
      (hvalue : Expression ts value) :
      Expression (name :: equals :: ts) (.assign id name value)
  | set {ts us : List Token} {dot name equals : Token} {object value : Expr}
      (hobject : Call ts object) (hdot : dot.kind = .dot) (hname : name.kind = .identifier)
      (hequals : equals.kind = .equal) (hvalue : Expression us value) :
      Expression (ts ++ dot :: name :: equals :: us) (.set object name value)
  | operation {ts : List Token} {e : Expr} (h : LogicOr ts e) : Expression ts e

inductive LogicOr : Phrase Expr
  | mk {ts : List Token} {e : Expr} (h : Chain [.orWord] .logical LogicAnd ts e) : LogicOr ts e

inductive LogicAnd : Phrase Expr
  | mk {ts : List Token} {e : Expr} (h : Chain [.andWord] .logical Equality ts e) : LogicAnd ts e

inductive Equality : Phrase Expr
  | mk {ts : List Token} {e : Expr} (h : Chain [.bangEqual, .equalEqual] .binary Comparison ts e) :
      Equality ts e

inductive Comparison : Phrase Expr
  | mk {ts : List Token} {e : Expr}
      (h : Chain [.greater, .greaterEqual, .less, .lessEqual] .binary Term ts e) : Comparison ts e

inductive Term : Phrase Expr
  | mk {ts : List Token} {e : Expr} (h : Chain [.minus, .plus] .binary Factor ts e) : Term ts e

inductive Factor : Phrase Expr
  | mk {ts : List Token} {e : Expr} (h : Chain [.slash, .star] .binary Unary ts e) : Factor ts e

inductive Unary : Phrase Expr
  | sign {op : Token} {ts : List Token} {e : Expr} (hop : op.kind = .bang ∨ op.kind = .minus)
      (h : Unary ts e) : Unary (op :: ts) (.unary op e)
  | call {ts : List Token} {e : Expr} (h : Call ts e) : Unary ts e

inductive Call : Phrase Expr
  | mk {ts : List Token} {e : Expr} (h : Suffixed Expression Primary ts e) : Call ts e

inductive Primary : Phrase Expr
  | number {t : Token} {value : Number} (h : t.kind = .number value) :
      Primary [t] (.literal (.number value))
  | string {t : Token} {text : String} (h : t.kind = .string text) :
      Primary [t] (.literal (.string text))
  | trueWord {t : Token} (h : t.kind = .trueWord) : Primary [t] (.literal (.bool true))
  | falseWord {t : Token} (h : t.kind = .falseWord) : Primary [t] (.literal (.bool false))
  | nilWord {t : Token} (h : t.kind = .nilWord) : Primary [t] (.literal .nil)
  | this {id : NodeId} {t : Token} (h : t.kind = .thisWord) : Primary [t] (.this id t)
  | ident {id : NodeId} {t : Token} (h : t.kind = .identifier) : Primary [t] (.var id t)
  | grouping {left right : Token} {ts : List Token} {e : Expr} (hleft : left.kind = .leftParen)
      (h : Expression ts e) (hright : right.kind = .rightParen) :
      Primary (left :: (ts ++ [right])) (.grouping e)
  | super {id : NodeId} {keyword dot method : Token} (hkeyword : keyword.kind = .superWord)
      (hdot : dot.kind = .dot) (hmethod : method.kind = .identifier) :
      Primary [keyword, dot, method] (.super id keyword method)

end

/-- `( "=" expression )?` -/
inductive Initializer : Phrase (Option Expr)
  | absent : Initializer [] none
  | present {equals : Token} {ts : List Token} {e : Expr} (hequals : equals.kind = .equal)
      (h : Expression ts e) : Initializer (equals :: ts) (some e)

inductive VarDecl : Phrase Stmt
  | mk {keyword name semicolon : Token} {ts : List Token} {initializer : Option Expr}
      (hkeyword : keyword.kind = .varWord) (hname : name.kind = .identifier)
      (h : Initializer ts initializer) (hsemicolon : semicolon.kind = .semicolon) :
      VarDecl (keyword :: name :: (ts ++ [semicolon])) (.var name initializer)

inductive ExprStmt : Phrase Stmt
  | mk {ts : List Token} {semicolon : Token} {e : Expr} (h : Expression ts e)
      (hsemicolon : semicolon.kind = .semicolon) : ExprStmt (ts ++ [semicolon]) (.expression e)

/-- `varDecl | exprStmt | ";"` -/
inductive ForStart : Phrase (Option Stmt)
  | none {semicolon : Token} (h : semicolon.kind = .semicolon) : ForStart [semicolon] none
  | varDecl {ts : List Token} {s : Stmt} (h : VarDecl ts s) : ForStart ts (some s)
  | exprStmt {ts : List Token} {s : Stmt} (h : ExprStmt ts s) : ForStart ts (some s)

/-- `( "<" IDENT )?` -/
inductive Superclass : Phrase (Option Expr)
  | absent : Superclass [] none
  | present {id : NodeId} {less name : Token} (hless : less.kind = .less)
      (hname : name.kind = .identifier) : Superclass [less, name] (some (.var id name))

mutual

/-- A statement, in a loop of its function or not.  It is dangling if an `else` behind it could
belong to an `if` at its end. -/
inductive Statement (nearest : Bool) : (inLoop dangling : Bool) → Phrase Stmt
  | expression {inLoop : Bool} {ts : List Token} {s : Stmt} (h : ExprStmt ts s) :
      Statement nearest inLoop false ts s
  | forLoop {inLoop dangling : Bool} {keyword left semicolon right : Token}
      {ts us vs ws : List Token} {initializer : Option Stmt} {condition increment : Option Expr}
      {body : Stmt} (hkeyword : keyword.kind = .forWord) (hleft : left.kind = .leftParen)
      (hinitializer : ForStart ts initializer) (hcondition : Maybe Expression us condition)
      (hsemicolon : semicolon.kind = .semicolon) (hincrement : Maybe Expression vs increment)
      (hright : right.kind = .rightParen) (hbody : Statement nearest true dangling ws body) :
      Statement nearest inLoop dangling
        (keyword :: left :: (ts ++ us ++ semicolon :: (vs ++ right :: ws)))
        (.forLoop initializer condition increment body)
  | ifThen {inLoop dangling : Bool} {keyword left right : Token} {ts us : List Token}
      {condition : Expr} {branch : Stmt} (hkeyword : keyword.kind = .ifWord)
      (hleft : left.kind = .leftParen) (hcondition : Expression ts condition)
      (hright : right.kind = .rightParen) (hbranch : Statement nearest inLoop dangling us branch) :
      Statement nearest inLoop true (keyword :: left :: (ts ++ right :: us))
        (.ifElse condition branch none)
  | ifElse {inLoop inner dangling : Bool} {keyword left right otherwise : Token}
      {ts us vs : List Token} {condition : Expr} {branch other : Stmt}
      (hkeyword : keyword.kind = .ifWord) (hleft : left.kind = .leftParen)
      (hcondition : Expression ts condition) (hright : right.kind = .rightParen)
      (hbranch : Statement nearest inLoop inner us branch)
      (hnearest : nearest = true → inner = false) (hotherwise : otherwise.kind = .elseWord)
      (hother : Statement nearest inLoop dangling vs other) :
      Statement nearest inLoop dangling
        (keyword :: left :: (ts ++ right :: (us ++ otherwise :: vs)))
        (.ifElse condition branch (some other))
  | print {inLoop : Bool} {keyword semicolon : Token} {ts : List Token} {e : Expr}
      (hkeyword : keyword.kind = .printWord) (h : Expression ts e)
      (hsemicolon : semicolon.kind = .semicolon) :
      Statement nearest inLoop false (keyword :: (ts ++ [semicolon])) (.print e)
  | return {inLoop : Bool} {keyword semicolon : Token} {ts : List Token} {value : Option Expr}
      (hkeyword : keyword.kind = .returnWord) (h : Maybe Expression ts value)
      (hsemicolon : semicolon.kind = .semicolon) :
      Statement nearest inLoop false (keyword :: (ts ++ [semicolon])) (.return keyword value)
  | while {inLoop dangling : Bool} {keyword left right : Token} {ts us : List Token}
      {condition : Expr} {body : Stmt} (hkeyword : keyword.kind = .whileWord)
      (hleft : left.kind = .leftParen) (hcondition : Expression ts condition)
      (hright : right.kind = .rightParen) (hbody : Statement nearest true dangling us body) :
      Statement nearest inLoop dangling (keyword :: left :: (ts ++ right :: us))
        (.while condition body)
  | break {keyword semicolon : Token} (hkeyword : keyword.kind = .breakWord)
      (hsemicolon : semicolon.kind = .semicolon) :
      Statement nearest true false [keyword, semicolon] (.break keyword)
  | continue {keyword semicolon : Token} (hkeyword : keyword.kind = .continueWord)
      (hsemicolon : semicolon.kind = .semicolon) :
      Statement nearest true false [keyword, semicolon] (.continue keyword)
  | block {inLoop : Bool} {ts : List Token} {body : List Stmt} (h : Block nearest inLoop ts body) :
      Statement nearest inLoop false ts (.block body)

inductive Declaration (nearest : Bool) : (inLoop dangling : Bool) → Phrase Stmt
  | classDecl {inLoop : Bool} {keyword name left right : Token} {ts us : List Token}
      {superclass : Option Expr} {methods : List (Routine Stmt)}
      (hkeyword : keyword.kind = .classWord) (hname : name.kind = .identifier)
      (hsuperclass : Superclass ts superclass) (hleft : left.kind = .leftBrace)
      (hmethods : Functions nearest us methods) (hright : right.kind = .rightBrace) :
      Declaration nearest inLoop false (keyword :: name :: (ts ++ left :: (us ++ [right])))
        (.classDecl name superclass methods)
  | funDecl {inLoop : Bool} {keyword : Token} {ts : List Token} {routine : Routine Stmt}
      (hkeyword : keyword.kind = .funWord) (h : Function nearest ts routine) :
      Declaration nearest inLoop false (keyword :: ts) (.function routine)
  | varDecl {inLoop : Bool} {ts : List Token} {s : Stmt} (h : VarDecl ts s) :
      Declaration nearest inLoop false ts s
  | statement {inLoop dangling : Bool} {ts : List Token} {s : Stmt}
      (h : Statement nearest inLoop dangling ts s) : Declaration nearest inLoop dangling ts s

/-- `declaration*` -/
inductive Declarations (nearest : Bool) : (inLoop : Bool) → Phrase (List Stmt)
  | nil {inLoop : Bool} : Declarations nearest inLoop [] []
  | cons {inLoop dangling : Bool} {ts us : List Token} {s : Stmt} {rest : List Stmt}
      (h : Declaration nearest inLoop dangling ts s)
      (hrest : Declarations nearest inLoop us rest) :
      Declarations nearest inLoop (ts ++ us) (s :: rest)

/-- The body of a function stands in no loop. -/
inductive Function (nearest : Bool) : Phrase (Routine Stmt)
  | mk {name left right : Token} {ts us : List Token} {params : List Token} {body : List Stmt}
      (hname : name.kind = .identifier) (hleft : left.kind = .leftParen)
      (hparams : Listed Name ts params) (hright : right.kind = .rightParen)
      (hbody : Block nearest false us body) :
      Function nearest (name :: left :: (ts ++ right :: us)) ⟨name, params, body⟩

/-- `function*` -/
inductive Functions (nearest : Bool) : Phrase (List (Routine Stmt))
  | nil : Functions nearest [] []
  | cons {ts us : List Token} {routine : Routine Stmt} {rest : List (Routine Stmt)}
      (h : Function nearest ts routine) (hrest : Functions nearest us rest) :
      Functions nearest (ts ++ us) (routine :: rest)

inductive Block (nearest : Bool) : (inLoop : Bool) → Phrase (List Stmt)
  | mk {inLoop : Bool} {left right : Token} {ts : List Token} {body : List Stmt}
      (hleft : left.kind = .leftBrace) (h : Declarations nearest inLoop ts body)
      (hright : right.kind = .rightBrace) :
      Block nearest inLoop (left :: (ts ++ [right])) body

end

/-- A program, without the end of the input.  With the flag, every `else` goes to the nearest
`if`. -/
abbrev Program (nearest : Bool) : Phrase (List Stmt) :=
  Declarations nearest false

end Lox.Grammar
