import Lox.Parser.Statement
import Lox.Proofs.Computation
import Lox.Proofs.Tree.Alike

/-!
# Reading token lists that correspond

Reading looks at the kinds of tokens alone.  So two token lists that correspond in kind are read
alike, errors and recovery included, whatever identifiers the nodes are given.
-/

namespace Lox

/-- Syntax errors with the same cause at corresponding tokens. -/
structure SyntaxError.Alike (T : Token → Token → Prop) (e e' : SyntaxError) : Prop where
  token : T e.token e'.token
  fault : e.fault = e'.fault

namespace Parser

/-- States with corresponding tokens and errors, whatever the next identifiers are. -/
structure State.Alike (T : Token → Token → Prop) (s s' : State) : Prop where
  rest : List.Forall₂ T s.rest s'.rest
  stop : T s.stop s'.stop
  errors : List.Forall₂ (SyntaxError.Alike T) s.errors.toList s'.errors.toList

variable {α β : Type} {T : Token → Token → Prop}

theorem State.Alike.note {s s' : State} (h : s.Alike T s') {e e' : SyntaxError}
    (he : e.Alike T e') {rest rest' : List Token} (hrest : List.Forall₂ T rest rest') :
    State.Alike T { s with errors := s.errors.push e, rest := rest }
      { s' with errors := s'.errors.push e', rest := rest' } where
  rest := hrest
  stop := h.stop
  errors := by
    rw [Array.toList_push, Array.toList_push]
    exact List.rel_append h.errors (.cons he .nil)

/-- Two rules read alike. -/
abbrev Likewise (T : Token → Token → Prop) (V : α → β → Prop) (p : Parser α) (q : Parser β) :
    Prop :=
  Computation.Related (State.Alike T) (SyntaxError.Alike T) V p q

open Lox.Computation (Related)

namespace Likewise

theorem peek : Likewise T T Parser.peek Parser.peek := by
  intro s s' hs
  refine .ok ?_ hs
  obtain ⟨hrest, hstop, -⟩ := hs
  generalize s.rest = rest at hrest
  generalize s'.rest = rest' at hrest
  cases hrest with
  | nil => exact hstop
  | cons ht _ => exact ht

theorem atEnd : Likewise T Eq Parser.atEnd Parser.atEnd := by
  intro s s' hs
  refine .ok ?_ hs
  obtain ⟨hrest, -, -⟩ := hs
  generalize s.rest = rest at hrest
  generalize s'.rest = rest' at hrest
  cases hrest with
  | nil => rfl
  | cons _ _ => rfl

theorem fail {V : α → β → Prop} (fault : SyntaxFault) :
    Likewise T V (Parser.fail fault) (Parser.fail fault) :=
  .bind peek fun _ _ ht ↦ .throw ⟨ht, rfl⟩

theorem note {t t' : Token} (ht : T t t') (fault : SyntaxFault) :
    Likewise T Eq (Parser.note t fault) (Parser.note t' fault) := by
  intro s s' hs
  have he : SyntaxError.Alike T ⟨t, fault⟩ ⟨t', fault⟩ := ⟨ht, rfl⟩
  exact .ok rfl (hs.note he hs.rest)

theorem freshId : Likewise T (fun _ _ ↦ True) Parser.freshId Parser.freshId :=
  fun _ _ hs ↦ .ok trivial ⟨hs.rest, hs.stop, hs.errors⟩

section Faithful

variable (hT : Token.Faithful T)

include hT

theorem acceptIf (wanted : Kind → Bool) :
    Likewise T (Option.Rel T) (Parser.acceptIf wanted) (Parser.acceptIf wanted) := by
  intro s s' hs
  have hrest := hs.rest
  unfold Parser.acceptIf
  generalize hr : s.rest = rest at hrest
  generalize hr' : s'.rest = rest' at hrest
  cases hrest with
  | nil => exact .ok .none hs
  | cons ht hrest =>
    dsimp only
    rw [hT.kind ht]
    split
    · exact .ok (.some ht) ⟨hrest, hs.stop, hs.errors⟩
    · exact .ok .none hs

theorem accept (kind : Kind) : Likewise T Eq (Parser.accept kind) (Parser.accept kind) := by
  refine .bind (acceptIf hT _) fun o o' ho ↦ .pure ?_
  cases ho with
  | none => rfl
  | some _ => rfl

theorem check (kind : Kind) : Likewise T Eq (Parser.check kind) (Parser.check kind) := by
  intro s s' hs
  have hrest := hs.rest
  unfold Parser.check
  rw [Computation.get_bind, Computation.get_bind]
  generalize hr : s.rest = rest at hrest
  generalize hr' : s'.rest = rest' at hrest
  cases hrest with
  | nil => exact .ok rfl hs
  | cons ht hrest =>
    dsimp only
    rw [hT.kind ht]
    exact .ok rfl hs

theorem expect {kind : Kind} {fault : SyntaxFault} :
    Likewise T T (Parser.expect kind fault) (Parser.expect kind fault) := by
  refine .bind (acceptIf hT _) fun o o' ho ↦ ?_
  cases ho with
  | none => exact fail fault
  | some ht => exact .pure ht

omit hT

theorem manyUntil {V : α → β → Prop} {done : Parser Bool} {item : Parser α} {item' : Parser β}
    (hdone : Likewise T Eq done done) (hitem : Likewise T V item item') (bound : Nat) :
    Likewise T (List.Forall₂ V) (Parser.manyUntil done item bound)
      (Parser.manyUntil done item' bound) := by
  induction bound with
  | zero => exact .pure .nil
  | succ bound ih =>
    refine .bind hdone fun b b' hb ↦ ?_
    subst hb
    cases b with
    | true => exact .pure .nil
    | false =>
      exact .bind hitem fun a a' ha ↦ .bind ih fun as as' has ↦ .pure (.cons ha has)

theorem limited {V : α → β → Prop} {item : Parser α} {item' : Parser β}
    (hitem : Likewise T V item item') (fault : SyntaxFault) (index : Nat) :
    Likewise T V (Parser.limited fault item index) (Parser.limited fault item' index) := by
  unfold Parser.limited
  split
  · exact .bind peek fun t t' ht ↦ .bind (note ht fault) fun _ _ _ ↦ hitem
  · exact hitem

include hT

theorem commaSeparated {V : α → β → Prop} {item : Nat → Parser α} {item' : Nat → Parser β}
    (hitem : ∀ index, Likewise T V (item index) (item' index)) (bound : Nat) :
    ∀ index, Likewise T (List.Forall₂ V) (Parser.commaSeparated item bound index)
      (Parser.commaSeparated item' bound index) := by
  induction bound with
  | zero => exact fun index ↦ .bind (hitem index) fun a a' ha ↦ .pure (.cons ha .nil)
  | succ bound ih =>
    intro index
    refine .bind (hitem index) fun a a' ha ↦ .bind (accept hT _) fun b b' hb ↦ ?_
    subst hb
    cases b with
    | true => exact .bind (ih (index + 1)) fun as as' has ↦ .pure (.cons ha has)
    | false => exact .pure (.cons ha .nil)

theorem listed {V : α → β → Prop} {item : Parser α} {item' : Parser β}
    (hitem : Likewise T V item item') (fault : SyntaxFault) (bound : Nat) :
    Likewise T (List.Forall₂ V) (Parser.listed bound fault item)
      (Parser.listed bound fault item') := by
  refine .bind (check hT _) fun b b' hb ↦ ?_
  subst hb
  cases b with
  | true => exact .pure .nil
  | false => exact commaSeparated hT (limited hitem fault) bound 0

theorem skipStatement {rest rest' : List Token} (h : List.Forall₂ T rest rest') :
    ∀ {last last' : Token}, T last last' →
      List.Forall₂ T (Parser.skipStatement last rest) (Parser.skipStatement last' rest') := by
  induction h with
  | nil => exact fun _ ↦ .nil
  | cons ht hrest ih =>
    intro last last' hlast
    unfold Parser.skipStatement
    rw [hT.kind ht, hT.kind hlast]
    split
    · exact .cons ht hrest
    · exact ih ht

theorem synchronize {rest rest' : List Token} (h : List.Forall₂ T rest rest') :
    List.Forall₂ T (Parser.synchronize rest) (Parser.synchronize rest') := by
  cases h with
  | nil => exact .nil
  | cons ht hrest => exact skipStatement hT hrest ht

theorem recover {V : α → β → Prop} {rule : Parser α} {rule' : Parser β}
    (h : Likewise T V rule rule') :
    Likewise T (Option.Rel V) (Parser.recover rule) (Parser.recover rule') := by
  intro s s' hs
  have hends := h s s' hs
  unfold Parser.recover
  generalize rule s = r at hends ⊢
  generalize rule' s' = r' at hends ⊢
  cases hends with
  | ok ha ht => exact .ok (.some ha) ht
  | error he ht => exact .ok .none (ht.note he (synchronize hT ht.rest))

/-! ### Expressions -/

theorem chain {level : Level} (hlevel : level ∈ levels) {operand : Parser Expr}
    (hoperand : Likewise T (Expr.Similar T) operand operand) (bound : Nat) :
    ∀ {left left' : Expr}, left.Similar T left' →
      Likewise T (Expr.Similar T) (Parser.chain level operand bound left)
        (Parser.chain level operand bound left') := by
  have hnode : ∀ {op op' : Token} {left left' right right' : Expr}, T op op' →
      left.Similar T left' → right.Similar T right' →
      (level.node op left right).Similar T (level.node op' left' right') := by
    intro op op' left left' right right' hop hleft hright
    simp only [levels, List.mem_cons, List.not_mem_nil, or_false] at hlevel
    rcases hlevel with rfl | rfl | rfl | rfl | rfl | rfl
    · exact .logical hop hleft hright
    · exact .logical hop hleft hright
    all_goals exact .binary hop hleft hright
  induction bound with
  | zero => exact fun hleft ↦ .pure hleft
  | succ bound ih =>
    intro left left' hleft
    refine .bind (acceptIf hT _) fun o o' ho ↦ ?_
    cases ho with
    | none => exact .pure hleft
    | some hop => exact .bind hoperand fun right right' hright ↦ ih (hnode hop hleft hright)

theorem operators {operand : Parser Expr} (hoperand : Likewise T (Expr.Similar T) operand operand)
    (bound : Nat) {tighter : List Level} (hlevels : tighter ⊆ levels) :
    Likewise T (Expr.Similar T) (Parser.operators bound operand tighter)
      (Parser.operators bound operand tighter) := by
  induction tighter with
  | nil => exact hoperand
  | cons level tighter ih =>
    obtain ⟨hlevel, htighter⟩ := List.cons_subset.1 hlevels
    exact .bind (ih htighter) fun left left' hleft ↦ chain hT hlevel (ih htighter) bound hleft

theorem primary {nested : Parser Expr} (hnested : Likewise T (Expr.Similar T) nested nested) :
    Likewise T (Expr.Similar T) (Parser.primary nested) (Parser.primary nested) := by
  refine .bind (acceptIf hT _) fun o o' ho ↦ ?_
  cases ho with
  | none => exact fail _
  | some ht =>
    dsimp only
    unfold Parser.primaryAfter
    rw [hT.kind ht]
    split
    · exact .pure (.literal _)
    · exact .pure (.literal _)
    · exact .pure (.literal _)
    · exact .pure (.literal _)
    · exact .pure (.literal _)
    · exact .bind freshId fun _ _ _ ↦ .pure (.this trivial ht)
    · exact .bind freshId fun _ _ _ ↦ .pure (.var trivial ht)
    · refine .bind (expect hT) fun _ _ _ ↦ ?_
      refine .bind (expect hT) fun _ _ hmethod ↦ ?_
      refine .bind freshId fun _ _ _ ↦ ?_
      exact .pure (.super trivial ht hmethod)
    · exact .bind hnested fun _ _ hinner ↦ .bind (expect hT) fun _ _ _ ↦ .pure (.grouping hinner)

theorem arguments {nested : Parser Expr} (hnested : Likewise T (Expr.Similar T) nested nested)
    (bound : Nat) :
    Likewise T (fun a a' ↦ List.Forall₂ (Expr.Similar T) a.1 a'.1 ∧ T a.2 a'.2)
      (Parser.arguments bound nested) (Parser.arguments bound nested) := by
  refine .bind (listed hT hnested _ bound) fun _ _ hvalues ↦ ?_
  refine .bind (expect hT) fun _ _ hparen ↦ ?_
  exact .pure ⟨hvalues, hparen⟩

theorem suffixes {nested : Parser Expr} (hnested : Likewise T (Expr.Similar T) nested nested)
    (bound rounds : Nat) : ∀ {e e' : Expr}, e.Similar T e' →
      Likewise T (Expr.Similar T) (Parser.suffixes bound nested rounds e)
        (Parser.suffixes bound nested rounds e') := by
  induction rounds with
  | zero => exact fun he ↦ .pure he
  | succ rounds ih =>
    intro e e' he
    refine .bind (accept hT _) fun b b' hb ↦ ?_
    subst hb
    cases b with
    | true =>
      exact .bind (arguments hT hnested bound) fun a a' ha ↦ ih (.call he ha.2 ha.1)
    | false =>
      refine .bind (accept hT _) fun b b' hb ↦ ?_
      subst hb
      cases b with
      | true => exact .bind (expect hT) fun _ _ hname ↦ ih (.get he hname)
      | false => exact .pure he

theorem signs {operand : Parser Expr} (hoperand : Likewise T (Expr.Similar T) operand operand)
    (bound : Nat) :
    Likewise T (Expr.Similar T) (Parser.signs operand bound) (Parser.signs operand bound) := by
  induction bound with
  | zero => exact hoperand
  | succ bound ih =>
    refine .bind (acceptIf hT _) fun o o' ho ↦ ?_
    cases ho with
    | none => exact hoperand
    | some hop => exact .bind ih fun _ _ he ↦ .pure (.unary hop he)

omit hT in
theorem assignTo {target target' value value' : Expr} {equals equals' : Token}
    (htarget : target.Similar T target') (hequals : T equals equals')
    (hvalue : value.Similar T value') :
    Likewise T (Expr.Similar T) (Parser.assignTo target equals value)
      (Parser.assignTo target' equals' value') := by
  have hinvalid : ∀ {e e' : Expr}, e.Similar T e' →
      Likewise T (Expr.Similar T) (do Parser.note equals .invalidTarget; return e)
        (do Parser.note equals' .invalidTarget; return e') :=
    fun he ↦ .bind (note hequals _) fun _ _ _ ↦ .pure he
  cases htarget with
  | var hid hname => exact .bind freshId fun _ _ _ ↦ .pure (.assign trivial hname hvalue)
  | get hobject hname => exact .pure (.set hobject hname hvalue)
  | literal v => exact hinvalid (.literal v)
  | grouping h => exact hinvalid (.grouping h)
  | unary hop h => exact hinvalid (.unary hop h)
  | binary hop hleft hright => exact hinvalid (.binary hop hleft hright)
  | logical hop hleft hright => exact hinvalid (.logical hop hleft hright)
  | assign hid hname h => exact hinvalid (.assign hid hname h)
  | call hcallee hparen h => exact hinvalid (.call hcallee hparen h)
  | set hobject hname h => exact hinvalid (.set hobject hname h)
  | this hid hkeyword => exact hinvalid (.this hid hkeyword)
  | super hid hkeyword hmethod => exact hinvalid (.super hid hkeyword hmethod)

theorem assignment {nested : Parser Expr} (hnested : Likewise T (Expr.Similar T) nested nested)
    (bound : Nat) :
    Likewise T (Expr.Similar T) (Parser.assignment bound nested)
      (Parser.assignment bound nested) := by
  have hcall : Likewise T (Expr.Similar T)
      (do Parser.suffixes bound nested bound (← Parser.primary nested))
      (do Parser.suffixes bound nested bound (← Parser.primary nested)) :=
    .bind (primary hT hnested) fun _ _ he ↦ suffixes hT hnested bound bound he
  refine .bind (operators hT (signs hT hcall bound) bound (List.Subset.refl _)) fun target target'
    htarget ↦ ?_
  refine .bind (acceptIf hT _) fun o o' ho ↦ ?_
  cases ho with
  | none => exact .pure htarget
  | some hequals => exact .bind hnested fun _ _ hvalue ↦ assignTo htarget hequals hvalue

/-- By induction on the bound: expressions are read alike. -/
theorem expression (bound : Nat) :
    Likewise T (Expr.Similar T) (Parser.expression bound) (Parser.expression bound) := by
  induction bound with
  | zero => exact fail _
  | succ bound ih => exact assignment hT ih (bound + 1)

/-! ### Statements and programs -/

theorem optionalExpression (bound : Nat) (closing : Kind) :
    Likewise T (Option.Rel (Expr.Similar T)) (Parser.optionalExpression bound closing)
      (Parser.optionalExpression bound closing) := by
  refine .bind (check hT _) fun b b' hb ↦ ?_
  subst hb
  cases b with
  | true => exact .pure .none
  | false => exact .bind (expression hT bound) fun _ _ he ↦ .pure (.some he)

theorem initialValue (bound : Nat) :
    Likewise T (Option.Rel (Expr.Similar T)) (Parser.initialValue bound)
      (Parser.initialValue bound) := by
  refine .bind (accept hT _) fun b b' hb ↦ ?_
  subst hb
  cases b with
  | true => exact .bind (expression hT bound) fun _ _ he ↦ .pure (.some he)
  | false => exact .pure .none

theorem variableDeclaration (bound : Nat) :
    Likewise T (Stmt.Similar T) (Parser.variableDeclaration bound)
      (Parser.variableDeclaration bound) := by
  refine .bind (expect hT) fun _ _ hname ↦ ?_
  refine .bind (initialValue hT bound) fun _ _ hinitializer ↦ ?_
  refine .bind (expect hT) fun _ _ _ ↦ ?_
  exact .pure (.var hname hinitializer)

theorem expressionStatement (bound : Nat) :
    Likewise T (Stmt.Similar T) (Parser.expressionStatement bound)
      (Parser.expressionStatement bound) :=
  .bind (expression hT bound) fun _ _ he ↦ .bind (expect hT) fun _ _ _ ↦ .pure (.expression he)

theorem blockEnd : Likewise T Eq Parser.blockEnd Parser.blockEnd := by
  refine .bind atEnd fun b b' hb ↦ ?_
  subst hb
  exact .bind (check hT _) fun b b' hb ↦ .pure (by rw [hb])

omit hT in
theorem reduceOption {V : α → β → Prop} {os : List (Option α)} {os' : List (Option β)}
    (h : List.Forall₂ (Option.Rel V) os os') :
    List.Forall₂ V os.reduceOption os'.reduceOption := by
  induction h with
  | nil => exact .nil
  | cons ho _ ih =>
    cases ho with
    | none => exact ih
    | some ha => exact .cons ha ih

theorem block {declaration : Parser (Option Stmt)}
    (h : Likewise T (Option.Rel (Stmt.Similar T)) declaration declaration) (bound : Nat) :
    Likewise T (List.Forall₂ (Stmt.Similar T)) (Parser.block bound declaration)
      (Parser.block bound declaration) := by
  refine .bind (manyUntil (blockEnd hT) h bound) fun _ _ hbody ↦ ?_
  refine .bind (expect hT) fun _ _ _ ↦ ?_
  exact .pure (reduceOption hbody)

theorem routine {declaration : Bool → Parser (Option Stmt)}
    (h : ∀ inLoop,
      Likewise T (Option.Rel (Stmt.Similar T)) (declaration inLoop) (declaration inLoop))
    (bound : Nat) (kind : RoutineKind) :
    Likewise T (Routine.Alike T (Stmt.Similar T)) (Parser.routine bound kind declaration)
      (Parser.routine bound kind declaration) := by
  refine .bind (expect hT) fun _ _ hname ↦ ?_
  refine .bind (expect hT) fun _ _ _ ↦ ?_
  refine .bind (listed hT (expect hT) _ bound) fun _ _ hparams ↦ ?_
  refine .bind (expect hT) fun _ _ _ ↦ ?_
  refine .bind (expect hT) fun _ _ _ ↦ ?_
  refine .bind (block hT (h false) bound) fun _ _ hbody ↦ ?_
  exact .pure (.mk hname hparams hbody)

theorem superclass :
    Likewise T (Option.Rel (Expr.Similar T)) Parser.superclass Parser.superclass := by
  refine .bind (accept hT _) fun b b' hb ↦ ?_
  subst hb
  cases b with
  | true =>
    refine .bind (expect hT) fun _ _ hname ↦ ?_
    refine .bind freshId fun _ _ _ ↦ ?_
    exact .pure (.some (.var trivial hname))
  | false => exact .pure .none

theorem classDeclaration {declaration : Bool → Parser (Option Stmt)}
    (h : ∀ inLoop,
      Likewise T (Option.Rel (Stmt.Similar T)) (declaration inLoop) (declaration inLoop))
    (bound : Nat) :
    Likewise T (Stmt.Similar T) (Parser.classDeclaration bound declaration)
      (Parser.classDeclaration bound declaration) := by
  refine .bind (expect hT) fun _ _ hname ↦ ?_
  refine .bind (superclass hT) fun _ _ hsuperclass ↦ ?_
  refine .bind (expect hT) fun _ _ _ ↦ ?_
  refine .bind (manyUntil (blockEnd hT) (routine hT h bound _) bound) fun _ _ hmethods ↦ ?_
  refine .bind (expect hT) fun _ _ _ ↦ ?_
  exact .pure (.classDecl hname hsuperclass hmethods)

theorem declarationAfter {declaration : Bool → Parser (Option Stmt)}
    (h : ∀ inLoop,
      Likewise T (Option.Rel (Stmt.Similar T)) (declaration inLoop) (declaration inLoop))
    (bound : Nat) {token token' : Token} (htoken : T token token') :
    Likewise T (Stmt.Similar T) (Parser.declarationAfter bound declaration token)
      (Parser.declarationAfter bound declaration token') := by
  unfold Parser.declarationAfter
  rw [hT.kind htoken]
  split
  · exact classDeclaration hT h bound
  · exact .map (routine hT h bound _) fun _ _ hroutine ↦ .function hroutine
  · exact variableDeclaration hT bound

theorem forInitializer (bound : Nat) :
    Likewise T (Option.Rel (Stmt.Similar T)) (Parser.forInitializer bound)
      (Parser.forInitializer bound) := by
  refine .bind (accept hT _) fun b b' hb ↦ ?_
  subst hb
  cases b with
  | true => exact .pure .none
  | false =>
    refine .bind (accept hT _) fun b b' hb ↦ ?_
    subst hb
    cases b with
    | true => exact .bind (variableDeclaration hT bound) fun _ _ hs ↦ .pure (.some hs)
    | false => exact .bind (expressionStatement hT bound) fun _ _ hs ↦ .pure (.some hs)

theorem forStatement {body : Parser Stmt} (hbody : Likewise T (Stmt.Similar T) body body)
    (bound : Nat) :
    Likewise T (Stmt.Similar T) (Parser.forStatement bound body)
      (Parser.forStatement bound body) := by
  refine .bind (expect hT) fun _ _ _ ↦ ?_
  refine .bind (forInitializer hT bound) fun _ _ hinitializer ↦ ?_
  refine .bind (optionalExpression hT bound _) fun _ _ hcondition ↦ ?_
  refine .bind (expect hT) fun _ _ _ ↦ ?_
  refine .bind (optionalExpression hT bound _) fun _ _ hincrement ↦ ?_
  refine .bind (expect hT) fun _ _ _ ↦ ?_
  refine .bind hbody fun _ _ hs ↦ ?_
  exact .pure (.forLoop hinitializer hcondition hincrement hs)

theorem ifStatement {branch : Parser Stmt} (hbranch : Likewise T (Stmt.Similar T) branch branch)
    (bound : Nat) :
    Likewise T (Stmt.Similar T) (Parser.ifStatement bound branch)
      (Parser.ifStatement bound branch) := by
  refine .bind (expect hT) fun _ _ _ ↦ ?_
  refine .bind (expression hT bound) fun _ _ hcondition ↦ ?_
  refine .bind (expect hT) fun _ _ _ ↦ ?_
  refine .bind hbranch fun _ _ hthen ↦ ?_
  refine .bind (accept hT _) fun b b' hb ↦ ?_
  subst hb
  cases b with
  | true => exact .bind hbranch fun _ _ helse ↦ .pure (.ifElse hcondition hthen helse)
  | false => exact .pure (.ifThen hcondition hthen)

theorem whileStatement {body : Parser Stmt} (hbody : Likewise T (Stmt.Similar T) body body)
    (bound : Nat) :
    Likewise T (Stmt.Similar T) (Parser.whileStatement bound body)
      (Parser.whileStatement bound body) := by
  refine .bind (expect hT) fun _ _ _ ↦ ?_
  refine .bind (expression hT bound) fun _ _ hcondition ↦ ?_
  refine .bind (expect hT) fun _ _ _ ↦ ?_
  refine .bind hbody fun _ _ hs ↦ ?_
  exact .pure (.while hcondition hs)

theorem printStatement (bound : Nat) :
    Likewise T (Stmt.Similar T) (Parser.printStatement bound) (Parser.printStatement bound) :=
  .bind (expression hT bound) fun _ _ he ↦ .bind (expect hT) fun _ _ _ ↦ .pure (.print he)

theorem returnStatement (bound : Nat) {keyword keyword' : Token} (hkeyword : T keyword keyword') :
    Likewise T (Stmt.Similar T) (Parser.returnStatement bound keyword)
      (Parser.returnStatement bound keyword') := by
  refine .bind (optionalExpression hT bound _) fun _ _ hvalue ↦ ?_
  refine .bind (expect hT) fun _ _ _ ↦ ?_
  exact .pure (.return hkeyword hvalue)

theorem jump (inLoop : Bool) {keyword keyword' : Token} (hkeyword : T keyword keyword')
    (stray missingEnd : SyntaxFault) {node : Token → Stmt}
    (hnode : (node keyword).Similar T (node keyword')) :
    Likewise T (Stmt.Similar T) (Parser.jump inLoop keyword stray missingEnd node)
      (Parser.jump inLoop keyword' stray missingEnd node) := by
  have hend : Likewise T (Stmt.Similar T)
      (do let _ ← Parser.expect .semicolon missingEnd; return node keyword)
      (do let _ ← Parser.expect .semicolon missingEnd; return node keyword') :=
    .bind (expect hT) fun _ _ _ ↦ .pure hnode
  unfold Parser.jump
  cases inLoop with
  | true => exact hend
  | false => exact .bind (note hkeyword stray) fun _ _ _ ↦ hend

theorem statementAfter {statement : Bool → Parser Stmt}
    {declaration : Bool → Parser (Option Stmt)}
    (hstatement : ∀ inLoop, Likewise T (Stmt.Similar T) (statement inLoop) (statement inLoop))
    (hdeclaration : ∀ inLoop,
      Likewise T (Option.Rel (Stmt.Similar T)) (declaration inLoop) (declaration inLoop))
    (bound : Nat) (inLoop : Bool) {token token' : Token} (htoken : T token token') :
    Likewise T (Stmt.Similar T) (Parser.statementAfter bound statement declaration inLoop token)
      (Parser.statementAfter bound statement declaration inLoop token') := by
  unfold Parser.statementAfter
  rw [hT.kind htoken]
  split
  · exact forStatement hT (hstatement true) bound
  · exact ifStatement hT (hstatement inLoop) bound
  · exact printStatement hT bound
  · exact returnStatement hT bound htoken
  · exact whileStatement hT (hstatement true) bound
  · exact .map (block hT (hdeclaration inLoop) bound) fun _ _ hbody ↦ .block hbody
  · exact jump hT inLoop htoken _ _ (.break htoken)
  · exact jump hT inLoop htoken _ _ (.continue htoken)

/-- By induction on the bound: declarations and statements are read alike. -/
theorem declaration_and_statement (bound : Nat) :
    (∀ inLoop, Likewise T (Option.Rel (Stmt.Similar T)) (Parser.declaration bound inLoop)
      (Parser.declaration bound inLoop)) ∧
    ∀ inLoop, Likewise T (Stmt.Similar T) (Parser.statement bound inLoop)
      (Parser.statement bound inLoop) := by
  induction bound with
  | zero =>
    refine ⟨fun inLoop ↦ ?_, fun inLoop ↦ ?_⟩
    · rw [Parser.declaration]
      exact recover hT (fail _)
    · rw [Parser.statement]
      exact fail _
  | succ bound ih =>
    obtain ⟨hdeclaration, hstatement⟩ := ih
    refine ⟨fun inLoop ↦ ?_, fun inLoop ↦ ?_⟩
    · rw [Parser.declaration]
      refine recover hT (.bind (acceptIf hT _) fun o o' ho ↦ ?_)
      cases ho with
      | none => exact hstatement inLoop
      | some htoken => exact declarationAfter hT hdeclaration bound htoken
    · rw [Parser.statement]
      refine .bind (acceptIf hT _) fun o o' ho ↦ ?_
      cases ho with
      | none => exact expressionStatement hT bound
      | some htoken => exact statementAfter hT hstatement hdeclaration bound inLoop htoken

end Faithful

end Likewise

end Parser

/-- Two readings with corresponding results and errors. -/
structure Reading.Alike {α : Type} (T : Token → Token → Prop) (V : α → α → Prop)
    (r r' : Reading α) : Prop where
  result : V r.result r'.result
  errors : List.Forall₂ (SyntaxError.Alike T) r.errors r'.errors

namespace Reading.Alike

variable {T : Token → Token → Prop} {ts ts' : List Token}

/-- Token lists that correspond up to the end give states that correspond. -/
theorem start (hT : Token.Faithful T) (hts : List.Forall₂ T ts ts')
    (hstop : T (Parser.stopOf ts) (Parser.stopOf ts')) (n n' : NodeId) :
    Parser.State.Alike T (.start n ts) (.start n' ts') where
  rest := by
    unfold Parser.State.start
    dsimp only
    clear hstop
    induction hts with
    | nil => exact .nil
    | cons ht _ ih =>
      rw [List.takeWhile_cons, List.takeWhile_cons, hT.kind ht]
      split
      · exact .cons ht ih
      · exact .nil
  stop := hstop
  errors := .nil

theorem readProgram (hT : Token.Faithful T) (hts : List.Forall₂ T ts ts')
    (hstop : T (Parser.stopOf ts) (Parser.stopOf ts')) (n n' : NodeId) :
    Reading.Alike T (List.Forall₂ (Stmt.Similar T)) (Lox.readProgram n ts)
      (Lox.readProgram n' ts') := by
  have hstart := start hT hts hstop n n'
  have hends := Parser.Likewise.manyUntil Parser.Likewise.atEnd
    ((Parser.Likewise.declaration_and_statement hT
      (2 * (Parser.State.start n ts).rest.length + 1)).1 false)
    (Parser.State.start n ts).rest.length _ _ hstart
  unfold Lox.readProgram
  dsimp only
  rw [← hstart.rest.length_eq]
  generalize hr : Parser.manyUntil _ _ _ (Parser.State.start n ts) = r at hends ⊢
  generalize hr' : Parser.manyUntil _ _ _ (Parser.State.start n' ts') = r' at hends ⊢
  cases hends with
  | ok hos hs => exact ⟨Parser.Likewise.reduceOption hos, hs.errors⟩
  | error he hs => exact ⟨.nil, (hs.note he hs.rest).errors⟩

theorem readExpression (hT : Token.Faithful T) (hts : List.Forall₂ T ts ts')
    (hstop : T (Parser.stopOf ts) (Parser.stopOf ts')) (n n' : NodeId) :
    Reading.Alike T (Option.Rel (Expr.Similar T)) (Lox.readExpression n ts)
      (Lox.readExpression n' ts') := by
  have hstart := start hT hts hstop n n'
  have hends := Parser.Likewise.expression hT (Parser.State.start n ts).rest.length _ _ hstart
  unfold Lox.readExpression
  dsimp only
  rw [← hstart.rest.length_eq]
  generalize hr : Parser.expression _ (Parser.State.start n ts) = r at hends ⊢
  generalize hr' : Parser.expression _ (Parser.State.start n' ts') = r' at hends ⊢
  cases hends with
  | ok he hs => exact ⟨.some he, hs.errors⟩
  | error he hs => exact ⟨.none, (hs.note he hs.rest).errors⟩

end Reading.Alike

end Lox
