import Lox.Parser.Statement
import Lox.Proofs.Grammar.Basic

/-!
# Shapes of phrases

What the root of a tree tells about the tokens it was derived from, and which tokens phrases start
with.
-/

namespace Lox.Grammar

variable {operators : List Kind} {node : Token → Expr → Expr → Expr} {operand : Phrase Expr}
  {ts : List Token} {e object : Expr} {name : Token} {id : NodeId}

/-- `X*` -/
inductive Many {α : Type} (item : Phrase α) : Phrase (List α)
  | nil : Many item [] []
  | cons {ts us : List Token} {a : α} {as : List α} (h : item ts a) (hrest : Many item us as) :
      Many item (ts ++ us) (a :: as)

/-- A chain whose tree is no operator node is a single operand. -/
theorem Chain.operand_of_ne (h : Chain operators node operand ts e)
    (hne : ∀ op left right, node op left right ≠ e) : operand ts e := by
  cases h with
  | one h => exact h
  | more _ _ _ => exact absurd rfl (hne _ _ _)

/-- A tree that is neither a binary nor a logical node comes from below all operators. -/
theorem LogicOr.unary_of_ne (h : LogicOr ts e)
    (hlogical : ∀ op left right, .logical op left right ≠ e)
    (hbinary : ∀ op left right, .binary op left right ≠ e) : Unary ts e := by
  obtain ⟨h⟩ := h
  obtain ⟨h⟩ := h.operand_of_ne hlogical
  obtain ⟨h⟩ := h.operand_of_ne hlogical
  obtain ⟨h⟩ := h.operand_of_ne hbinary
  obtain ⟨h⟩ := h.operand_of_ne hbinary
  obtain ⟨h⟩ := h.operand_of_ne hbinary
  exact h.operand_of_ne hbinary

theorem LogicOr.eq_of_var (h : LogicOr ts (.var id name)) :
    ts = [name] ∧ name.kind = .identifier := by
  cases h.unary_of_ne (by simp) (by simp) with
  | call hcall =>
    cases hcall with
    | mk hsuffixed =>
      cases hsuffixed with
      | bare hprimary =>
        cases hprimary with
        | ident hname => exact ⟨rfl, hname⟩

theorem LogicOr.eq_of_get (h : LogicOr ts (.get object name)) :
    ∃ us dot, ts = us ++ [dot, name] ∧ Call us object ∧ dot.kind = .dot ∧
      name.kind = .identifier := by
  cases h.unary_of_ne (by simp) (by simp) with
  | call hcall =>
    cases hcall with
    | mk hsuffixed =>
      cases hsuffixed with
      | bare hprimary => cases hprimary
      | property hobject hdot hname => exact ⟨_, _, rfl, .mk hobject, hdot, hname⟩

theorem Call.logicOr (h : Call ts e) : LogicOr ts e :=
  .mk (.one (.mk (.one (.mk (.one (.mk (.one (.mk (.one (.mk (.one (.call h))))))))))))

/-- Whether the first token is of a wanted kind. -/
def begins (wanted : Kind → Bool) (tokens : List Token) : Bool :=
  tokens.head?.any (wanted ·.kind)

variable {wanted other : Kind → Bool} {us : List Token}

@[simp] theorem begins_nil : begins wanted [] = false :=
  rfl

@[simp] theorem begins_cons (t : Token) : begins wanted (t :: us) = wanted t.kind :=
  rfl

theorem begins_append (h : begins wanted ts = true) (us : List Token) :
    begins wanted (ts ++ us) = true := by
  cases ts with
  | nil => exact absurd h (by simp)
  | cons t ts => exact h

theorem begins_append_eq_false (h : begins wanted ts = true)
    (hother : ∀ kind, wanted kind = true → other kind = false) (us : List Token) :
    begins other (ts ++ us) = false := by
  cases ts with
  | nil => exact absurd h (by simp)
  | cons t ts => exact hother _ h

theorem begins_eq_false_of_begins {kind : Kind} (h : begins wanted ts = true)
    (hkind : wanted kind = false) (us : List Token) :
    begins (· = kind) (ts ++ us) = false := by
  refine begins_append_eq_false h (fun other hother ↦ ?_) us
  rw [decide_eq_false_iff_not]
  rintro rfl
  exact absurd hother (by simp [hkind])

theorem length_pos_of_begins (h : begins wanted ts = true) : 0 < ts.length := by
  cases ts with
  | nil => exact absurd h (by simp)
  | cons t ts => exact Nat.zero_lt_succ _

/-- The kinds at which an expression starts. -/
def startsExpression (kind : Kind) : Bool :=
  Parser.startsPrimary kind || Parser.isSign kind

theorem Chain.begins (h : Chain operators node operand ts e)
    (hoperand : ∀ us e, operand us e → begins wanted us = true) : begins wanted ts = true := by
  induction h with
  | one h => exact hoperand _ _ h
  | more _ _ _ ih => exact begins_append ih _

theorem Suffixed.begins {argument : Phrase Expr} (h : Suffixed argument operand ts e)
    (hoperand : ∀ us e, operand us e → begins wanted us = true) : begins wanted ts = true := by
  induction h with
  | bare h => exact hoperand _ _ h
  | call _ _ _ _ ih => exact begins_append ih _
  | property _ _ _ ih => exact begins_append ih _

theorem Primary.begins (h : Primary ts e) : begins Parser.startsPrimary ts = true := by
  cases h <;> simp [Parser.startsPrimary, *]

theorem Call.begins (h : Call ts e) : begins Parser.startsPrimary ts = true := by
  obtain ⟨h⟩ := h
  exact h.begins fun _ _ hprimary ↦ hprimary.begins

theorem begins_imp (h : begins wanted ts = true)
    (himp : ∀ kind, wanted kind = true → other kind = true) : begins other ts = true := by
  cases ts with
  | nil => exact absurd h (by simp)
  | cons t ts => exact himp _ h

theorem startsExpression_of_startsPrimary {kind : Kind}
    (h : Parser.startsPrimary kind = true) : startsExpression kind = true := by
  rw [startsExpression, h, Bool.true_or]

theorem Unary.begins (h : Unary ts e) : begins startsExpression ts = true := by
  cases h with
  | sign hop h => rcases hop with hop | hop <;> simp [startsExpression, Parser.isSign, hop]
  | call h => exact begins_imp h.begins fun _ ↦ startsExpression_of_startsPrimary

theorem LogicOr.begins (h : LogicOr ts e) : begins startsExpression ts = true := by
  obtain ⟨h⟩ := h
  refine h.begins fun _ _ ⟨h⟩ ↦ h.begins fun _ _ ⟨h⟩ ↦ h.begins fun _ _ ⟨h⟩ ↦ ?_
  exact h.begins fun _ _ ⟨h⟩ ↦ h.begins fun _ _ ⟨h⟩ ↦ h.begins fun _ _ h ↦ h.begins

theorem Expression.begins (h : Expression ts e) : begins startsExpression ts = true := by
  cases h with
  | assign hname _ _ => simp [startsExpression, Parser.startsPrimary, hname]
  | set hobject _ _ _ _ =>
    exact begins_append (begins_imp hobject.begins fun _ ↦ startsExpression_of_startsPrimary) _
  | operation h => exact h.begins

variable {nearest inLoop dangling : Bool} {s : Stmt}

theorem ExprStmt.begins (h : ExprStmt ts s) : begins startsExpression ts = true := by
  obtain ⟨h, -⟩ := h
  exact begins_append h.begins _

theorem Statement.begins (h : Statement nearest inLoop dangling ts s) :
    begins (fun kind ↦ startsExpression kind || Parser.startsStatement kind) ts = true := by
  cases h with
  | expression h => exact begins_imp h.begins fun _ hkind ↦ by rw [hkind, Bool.true_or]
  | block h =>
    obtain ⟨hleft, -, -⟩ := h
    simp [Parser.startsStatement, hleft]
  | _ => simp [Parser.startsStatement, *]

theorem Declaration.begins (h : Declaration nearest inLoop dangling ts s) :
    begins (fun kind ↦ startsExpression kind || Parser.startsStatement kind ||
      Parser.startsDeclaration kind) ts = true := by
  cases h with
  | classDecl hkeyword => simp [Parser.startsDeclaration, hkeyword]
  | funDecl hkeyword => simp [Parser.startsDeclaration, hkeyword]
  | varDecl h =>
    obtain ⟨hkeyword, -, -, -⟩ := h
    simp [Parser.startsDeclaration, hkeyword]
  | statement h => exact begins_imp h.begins fun _ hkind ↦ by rw [hkind, Bool.true_or]

theorem Many.length_le {α : Type} {item : Phrase α} {as : List α} (h : Many item ts as)
    (hitem : ∀ us a, item us a → 0 < us.length) : as.length ≤ ts.length := by
  induction h with
  | nil => exact Nat.le_refl _
  | cons h _ ih =>
    have hpos := hitem _ _ h
    rw [List.length_cons, List.length_append]
    omega

theorem Declarations.many {ts : List Token} {body : List Stmt} :
    Declarations nearest inLoop ts body →
      Many (fun us s ↦ ∃ dangling, Declaration nearest inLoop dangling us s) ts body
  | .nil => .nil
  | .cons h hrest => .cons ⟨_, h⟩ hrest.many

theorem Declarations.append {ts us : List Token} {body rest : List Stmt} :
    Declarations nearest inLoop ts body → Declarations nearest inLoop us rest →
      Declarations nearest inLoop (ts ++ us) (body ++ rest)
  | .nil, hrest => hrest
  | .cons h hbody, hrest => by
    rw [List.append_assoc]
    exact .cons h (hbody.append hrest)

theorem Functions.many {ts : List Token} {methods : List (Routine Stmt)} :
    Functions nearest ts methods → Many (Function nearest) ts methods
  | .nil => .nil
  | .cons h hrest => .cons h hrest.many

theorem Declaration.length_pos (h : Declaration nearest inLoop dangling ts s) : 0 < ts.length :=
  length_pos_of_begins h.begins

end Lox.Grammar
