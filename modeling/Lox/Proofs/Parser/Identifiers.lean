import Lox.Parser.Statement
import Lox.Proofs.Computation
import Lox.Proofs.Tree.Alike
import Mathlib.Data.List.Nodup

/-!
# Identifiers are given out once

A rule of the grammar takes the identifiers of the nodes it builds from the counter, one for each
node, and moves the counter behind them, whether it succeeds or fails.  So the identifiers in a tree
differ from each other and from all identifiers that were given out before.
-/

namespace Lox

/-- Different identifiers in a range. -/
def Issued (low high : Nat) (ids : List NodeId) : Prop :=
  ∀ id : Nat, ids.count id ≤ if low ≤ id ∧ id < high then 1 else 0

namespace Issued

variable {low high high' : Nat} {ids ids' : List NodeId}

theorem mono (h : Issued low high ids) (hcount : ∀ id : Nat, ids'.count id ≤ ids.count id)
    (hhigh : high ≤ high') : Issued low high' ids' := by
  intro id
  have hid := h id
  have hle := hcount id
  split at hid <;> split <;> omega

theorem nil : Issued low high [] := by
  intro id
  exact Nat.zero_le _

theorem nodup (h : Issued low high ids) : ids.Nodup := by
  rw [List.nodup_iff_count_le_one]
  intro id
  have hid := h id
  split at hid <;> omega

theorem bounds (h : Issued low high ids) {id : Nat} (hid : id ∈ ids) : low ≤ id ∧ id < high := by
  have hpos := List.count_pos_iff.2 hid
  have hle := h id
  split at hle
  · assumption
  · omega

theorem append {low middle high : Nat} {ids ids' : List NodeId}
    (h : Issued low middle ids) (h' : Issued middle high ids') (hlow : low ≤ middle)
    (hhigh : middle ≤ high) : Issued low high (ids ++ ids') := by
  intro id
  have hid := h id
  have hid' := h' id
  rw [List.count_append]
  split at hid <;> split at hid' <;> split <;> omega

end Issued

namespace Parser

variable {α β : Type}

/-- With some identifiers given out already, a rule ends with some, and the counter behind them. -/
def Issues (low : Nat) (given : List NodeId) (p : Parser α) (ids : α → List NodeId) : Prop :=
  ∀ s, low ≤ s.nextId → Issued low s.nextId given →
    match p s with
    | .ok a t => s.nextId ≤ t.nextId ∧ Issued low t.nextId (ids a)
    | .error _ t => s.nextId ≤ t.nextId

/-- Whatever has been given out already, a rule adds the identifiers of its result. -/
def Fresh (p : Parser α) (ids : α → List NodeId) : Prop :=
  ∀ low given, Issues low given p fun a ↦ given ++ ids a

namespace Issues

variable {low : Nat} {given : List NodeId}

theorem mono {p : Parser α} {ids ids' : α → List NodeId} (h : Issues low given p ids)
    (hcount : ∀ a id, (ids' a).count id ≤ (ids a).count id) : Issues low given p ids' := by
  intro s hlow hgiven
  have hs := h s hlow hgiven
  split at hs
  · exact ⟨hs.1, hs.2.mono (hcount _) (Nat.le_refl _)⟩
  · exact hs

theorem pure {a : α} {ids : α → List NodeId}
    (hcount : ∀ id, (ids a).count id ≤ given.count id) :
    Issues low given (Pure.pure a : Parser α) ids :=
  fun _ _ hgiven ↦ ⟨Nat.le_refl _, hgiven.mono hcount (Nat.le_refl _)⟩

theorem pure_of_eq {a : α} {ids : α → List NodeId} (h : ids a = given) :
    Issues low given (Pure.pure a : Parser α) ids :=
  pure fun id ↦ Nat.le_of_eq (congrArg (List.count id) h)

theorem bind {p : Parser α} {f : α → Parser β} {ids : α → List NodeId} {ids' : β → List NodeId}
    (hp : Issues low given p ids) (hf : ∀ a, Issues low (ids a) (f a) ids') :
    Issues low given (p >>= f) ids' := by
  intro s hlow hgiven
  have hs := hp s hlow hgiven
  cases h : p s with
  | error e t =>
    rw [h] at hs
    rw [Computation.bind_of_error h]
    exact hs
  | ok a t =>
    rw [h] at hs
    obtain ⟨hle, ha⟩ := hs
    have ht := hf a t (Nat.le_trans hlow hle) ha
    rw [Computation.bind_of_ok h]
    split at ht
    · exact ⟨Nat.le_trans hle ht.1, ht.2⟩
    · exact Nat.le_trans hle ht

theorem ite {p q : Parser α} {ids : α → List NodeId} {c : Prop} [Decidable c]
    (hp : Issues low given p ids) (hq : Issues low given q ids) :
    Issues low given (if c then p else q) ids := by
  split
  · exact hp
  · exact hq

/-- A rule that leaves the counter alone keeps what was given out. -/
theorem keep {p : Parser α}
    (h : ∀ s, match p s with
      | .ok _ t => t.nextId = s.nextId
      | .error _ t => t.nextId = s.nextId) : Issues low given p fun _ ↦ given := by
  intro s _ hgiven
  have hs := h s
  split at hs
  · exact ⟨Nat.le_of_eq hs.symm, hs ▸ hgiven⟩
  · exact Nat.le_of_eq hs.symm

theorem freshId : Issues low given Parser.freshId fun id ↦ given ++ [id] := by
  rintro ⟨_, _, next, _⟩ hlow hgiven
  refine ⟨Nat.le_succ _, fun id ↦ ?_⟩
  have hid := hgiven id
  rw [List.count_append]
  by_cases heq : next = id
  · subst heq
    simp only [Nat.lt_irrefl, and_false, if_false] at hid
    rw [if_pos ⟨hlow, Nat.lt_succ_self _⟩]
    simp only [List.count_singleton_self]
    omega
  · have hzero : [next].count id = 0 :=
      List.count_eq_zero_of_not_mem (by simpa using Ne.symm heq)
    rw [hzero]
    refine Nat.le_trans hid ?_
    dsimp only
    split
    · rename_i hrange
      exact Nat.le_of_eq (if_pos ⟨hrange.1, Nat.lt_succ_of_lt hrange.2⟩).symm
    · exact Nat.zero_le _

theorem acceptIf {wanted : Kind → Bool} :
    Issues low given (Parser.acceptIf wanted) fun _ ↦ given := by
  refine keep fun s ↦ ?_
  rcases Parser.acceptIf_cases wanted s with ⟨-, hnone⟩ | ⟨t, rest, -, -, hsome⟩
  · rw [hnone]
  · rw [hsome]

theorem accept {kind : Kind} : Issues low given (Parser.accept kind) fun _ ↦ given :=
  bind acceptIf fun _ ↦ pure fun _ ↦ Nat.le_refl _

theorem fail {ids : α → List NodeId} (fault : SyntaxFault) :
    Issues low given (Parser.fail fault : Parser α) ids :=
  fun _ _ _ ↦ Nat.le_refl _

theorem expect {kind : Kind} {fault : SyntaxFault} :
    Issues low given (Parser.expect kind fault) fun _ ↦ given := by
  refine bind acceptIf fun o ↦ ?_
  cases o with
  | none => exact fail fault
  | some t => exact pure fun _ ↦ Nat.le_refl _

theorem check {kind : Kind} : Issues low given (Parser.check kind) fun _ ↦ given := by
  refine keep ?_
  rintro ⟨rest, _, _, _⟩
  cases rest <;> rfl

theorem atEnd : Issues low given Parser.atEnd fun _ ↦ given :=
  keep fun _ ↦ rfl

theorem note {token : Token} {fault : SyntaxFault} :
    Issues low given (Parser.note token fault) fun _ ↦ given :=
  keep fun _ ↦ rfl

theorem peek : Issues low given Parser.peek fun _ ↦ given :=
  keep fun _ ↦ rfl

end Issues

namespace Fresh

variable {low : Nat} {given : List NodeId}

theorem none {p : Parser α} (h : ∀ low given, Issues low given p fun _ ↦ given) :
    Fresh p fun _ ↦ [] := by
  intro low given
  exact (h low given).mono fun _ _ ↦ by simp

theorem manyUntil {done : Parser Bool} {item : Parser α} {ids : α → List NodeId}
    {idsAll : List α → List NodeId} (hdone : ∀ low given, Issues low given done fun _ ↦ given)
    (hitem : Fresh item ids) (hnil : idsAll [] = [])
    (hcons : ∀ a as, idsAll (a :: as) = ids a ++ idsAll as) (bound : Nat) :
    Fresh (Parser.manyUntil done item bound) idsAll := by
  induction bound with
  | zero => exact fun low given ↦ .pure fun id ↦ by simp [hnil]
  | succ bound ih =>
    intro low given
    refine .bind (hdone low given) fun b ↦ .ite (.pure fun id ↦ by simp [hnil]) ?_
    refine .bind (hitem low given) fun a ↦ .bind (ih low _) fun as ↦ .pure_of_eq ?_
    rw [hcons, List.append_assoc]

theorem limited {fault : SyntaxFault} {item : Parser α} {ids : α → List NodeId}
    (hitem : Fresh item ids) (index : Nat) : Fresh (Parser.limited fault item index) ids := by
  intro low given
  unfold Parser.limited
  split
  · exact .bind .peek fun _ ↦ .bind .note fun _ ↦ hitem low given
  · exact hitem low given

theorem commaSeparated {fault : SyntaxFault} {item : Parser α} {ids : α → List NodeId}
    {idsAll : List α → List NodeId} (hitem : Fresh item ids) (hnil : idsAll [] = [])
    (hcons : ∀ a as, idsAll (a :: as) = ids a ++ idsAll as) (bound : Nat) :
    ∀ index, Fresh (Parser.commaSeparated (Parser.limited fault item) bound index) idsAll := by
  induction bound with
  | zero =>
    intro index low given
    refine .bind (limited hitem index low given) fun a ↦ .pure_of_eq ?_
    rw [hcons, hnil, List.append_nil]
  | succ bound ih =>
    intro index low given
    refine .bind (limited hitem index low given) fun a ↦ .bind .accept fun b ↦ .ite ?_ ?_
    · refine .bind (ih (index + 1) low _) fun as ↦ .pure_of_eq ?_
      rw [hcons, List.append_assoc]
    · refine .pure_of_eq ?_
      rw [hcons, hnil, List.append_nil]

theorem listed {fault : SyntaxFault} {item : Parser α} {ids : α → List NodeId}
    {idsAll : List α → List NodeId} (hitem : Fresh item ids) (hnil : idsAll [] = [])
    (hcons : ∀ a as, idsAll (a :: as) = ids a ++ idsAll as) (bound : Nat) :
    Fresh (Parser.listed bound fault item) idsAll := by
  intro low given
  refine .bind .check fun b ↦ .ite (.pure fun id ↦ by simp [hnil]) ?_
  exact commaSeparated hitem hnil hcons bound 0 low given

/-! ### Expressions -/

/-- The node of an operator has the identifiers of its operands. -/
def Level.Plain (level : Level) : Prop :=
  ∀ op left right, (level.node op left right).ids = left.ids ++ right.ids

theorem levels_plain : ∀ level ∈ levels, Level.Plain level := by
  intro level hlevel op left right
  simp only [levels, List.mem_cons, List.not_mem_nil, or_false] at hlevel
  rcases hlevel with rfl | rfl | rfl | rfl | rfl | rfl <;> rfl

theorem chain {level : Level} {operand : Parser Expr} (hlevel : Level.Plain level)
    (hoperand : Fresh operand Expr.ids) (bound : Nat) :
    ∀ left low given, Issues low (given ++ left.ids) (Parser.chain level operand bound left)
      fun e ↦ given ++ e.ids := by
  induction bound with
  | zero => exact fun left low given ↦ .pure fun _ ↦ Nat.le_refl _
  | succ bound ih =>
    intro left low given
    refine .bind .acceptIf fun o ↦ ?_
    cases o with
    | none => exact .pure fun _ ↦ Nat.le_refl _
    | some op =>
      refine .bind (hoperand low _) fun right ↦ ?_
      have hnode := ih (level.node op left right) low given
      rwa [hlevel, ← List.append_assoc] at hnode

theorem operators {operand : Parser Expr} (hoperand : Fresh operand Expr.ids) (bound : Nat)
    (tighter : List Level) (hlevels : ∀ level ∈ tighter, Level.Plain level) :
    Fresh (Parser.operators bound operand tighter) Expr.ids := by
  induction tighter with
  | nil => exact hoperand
  | cons level tighter ih =>
    have htighter := ih fun other hother ↦ hlevels other (List.mem_cons_of_mem _ hother)
    intro low given
    refine .bind (htighter low given) fun left ↦ ?_
    exact chain (hlevels level List.mem_cons_self) htighter bound left low given

theorem primary {nested : Parser Expr} (hnested : Fresh nested Expr.ids) :
    Fresh (Parser.primary nested) Expr.ids := by
  intro low given
  refine .bind .acceptIf fun o ↦ ?_
  cases o with
  | none => exact .fail _
  | some t =>
    unfold primaryAfter
    dsimp only
    split
    · exact .pure fun id ↦ by simp [Expr.ids]
    · exact .pure fun id ↦ by simp [Expr.ids]
    · exact .pure fun id ↦ by simp [Expr.ids]
    · exact .pure fun id ↦ by simp [Expr.ids]
    · exact .pure fun id ↦ by simp [Expr.ids]
    · exact .bind .freshId fun id ↦ .pure fun _ ↦ by simp [Expr.ids]
    · exact .bind .freshId fun id ↦ .pure fun _ ↦ by simp [Expr.ids]
    · refine .bind .expect fun _ ↦ ?_
      refine .bind .expect fun _ ↦ ?_
      refine .bind .freshId fun id ↦ ?_
      exact .pure fun _ ↦ by simp [Expr.ids]
    · exact .bind (hnested low given) fun e ↦ .bind .expect fun _ ↦ .pure fun _ ↦ by simp [Expr.ids]

theorem arguments {nested : Parser Expr} (hnested : Fresh nested Expr.ids) (bound : Nat) :
    Fresh (Parser.arguments bound nested) fun a ↦ Expr.idsAll a.1 := by
  intro low given
  have hlist : Fresh (Parser.listed bound .tooManyArguments nested) Expr.idsAll :=
    listed hnested rfl (fun _ _ ↦ rfl) bound
  exact .bind (hlist low given) fun es ↦ .bind .expect fun _ ↦ .pure fun _ ↦ Nat.le_refl _

theorem suffixes {nested : Parser Expr} (hnested : Fresh nested Expr.ids) (bound rounds : Nat) :
    ∀ e low given, Issues low (given ++ e.ids) (Parser.suffixes bound nested rounds e)
      fun e ↦ given ++ e.ids := by
  induction rounds with
  | zero => exact fun e low given ↦ .pure fun _ ↦ Nat.le_refl _
  | succ rounds ih =>
    intro e low given
    refine .bind .accept fun b ↦ .ite ?_ (.bind .accept fun b ↦ .ite ?_ ?_)
    · refine .bind (arguments hnested bound low _) fun a ↦ ?_
      rw [List.append_assoc]
      exact ih (.call e a.2 a.1) low given
    · exact .bind .expect fun name ↦ ih (.get e name) low given
    · exact .pure fun _ ↦ Nat.le_refl _

theorem signs {operand : Parser Expr} (hoperand : Fresh operand Expr.ids) (bound : Nat) :
    Fresh (Parser.signs operand bound) Expr.ids := by
  induction bound with
  | zero => exact hoperand
  | succ bound ih =>
    intro low given
    refine .bind .acceptIf fun o ↦ ?_
    cases o with
    | none => exact hoperand low given
    | some op => exact .bind (ih low given) fun e ↦ .pure fun _ ↦ Nat.le_refl _

theorem operation {nested : Parser Expr} (hnested : Fresh nested Expr.ids) (bound : Nat) :
    Fresh (Parser.operation bound nested) Expr.ids := by
  have hcall : Fresh (Parser.primary nested >>= Parser.suffixes bound nested bound) Expr.ids :=
    fun low given ↦ .bind (primary hnested low given) fun e ↦
      suffixes hnested bound bound e low given
  exact operators (signs hcall bound) bound levels levels_plain

/-- An assignment drops the identifier of the variable that was read in place of its target. -/
theorem assignTo {low : Nat} {given : List NodeId} (target value : Expr) (equals : Token) :
    Issues low (given ++ target.ids ++ value.ids) (Parser.assignTo target equals value)
      fun e ↦ given ++ e.ids := by
  unfold Parser.assignTo
  split
  · refine .bind .freshId fun id ↦ .pure fun id' ↦ ?_
    simp only [Expr.ids, List.count_append, List.count_cons, List.count_nil]
    omega
  · exact .pure fun _ ↦ by simp [Expr.ids, Nat.add_comm]
  · exact .bind .note fun _ ↦ .pure fun _ ↦ by simp

theorem assignment {nested : Parser Expr} (hnested : Fresh nested Expr.ids) (bound : Nat) :
    Fresh (Parser.assignment bound nested) Expr.ids := by
  intro low given
  refine .bind (operation hnested bound low given) fun target ↦ .bind .acceptIf fun o ↦ ?_
  cases o with
  | none => exact .pure fun _ ↦ Nat.le_refl _
  | some equals => exact .bind (hnested low _) fun value ↦ assignTo target value equals

theorem expression (bound : Nat) : Fresh (Parser.expression bound) Expr.ids := by
  induction bound with
  | zero => exact fun _ _ ↦ .fail _
  | succ bound ih => exact assignment ih (bound + 1)

/-! ### Statements -/

theorem optionalExpression (bound : Nat) (closing : Kind) :
    Fresh (Parser.optionalExpression bound closing) Expr.idsOption := by
  intro low given
  refine .bind .check fun b ↦ .ite (.pure_of_eq (List.append_nil _)) ?_
  exact .bind (expression bound low given) fun e ↦ .pure_of_eq rfl

theorem initialValue (bound : Nat) : Fresh (Parser.initialValue bound) Expr.idsOption := by
  intro low given
  refine .bind .accept fun b ↦ .ite ?_ (.pure_of_eq (List.append_nil _))
  exact .bind (expression bound low given) fun e ↦ .pure_of_eq rfl

theorem superclass : Fresh Parser.superclass Expr.idsOption := by
  intro low given
  refine .bind .accept fun b ↦ .ite ?_ (.pure_of_eq (List.append_nil _))
  exact .bind .expect fun name ↦ .bind .freshId fun id ↦ .pure_of_eq rfl

theorem variableDeclaration (bound : Nat) :
    Fresh (Parser.variableDeclaration bound) Stmt.ids := by
  intro low given
  refine .bind .expect fun name ↦ ?_
  refine .bind (initialValue bound low given) fun o ↦ ?_
  refine .bind .expect fun _ ↦ ?_
  exact .pure_of_eq (by rw [Stmt.ids])

theorem expressionStatement (bound : Nat) :
    Fresh (Parser.expressionStatement bound) Stmt.ids := by
  intro low given
  refine .bind (expression bound low given) fun e ↦ ?_
  refine .bind .expect fun _ ↦ ?_
  exact .pure_of_eq (by rw [Stmt.ids])

theorem forInitializer (bound : Nat) : Fresh (Parser.forInitializer bound) Stmt.idsOption := by
  intro low given
  refine .bind .accept fun b ↦ .ite (.pure_of_eq ?_) (.bind .accept fun b ↦ .ite ?_ ?_)
  · rw [Stmt.idsOption, List.append_nil]
  · exact .bind (variableDeclaration bound low given) fun s ↦ .pure_of_eq (by rw [Stmt.idsOption])
  · exact .bind (expressionStatement bound low given) fun s ↦ .pure_of_eq (by rw [Stmt.idsOption])

theorem blockEnd {low : Nat} {given : List NodeId} :
    Issues low given Parser.blockEnd fun _ ↦ given :=
  .bind .atEnd fun _ ↦ .bind .check fun _ ↦ .pure_of_eq rfl

/-- The identifiers of the declarations that did not fail. -/
def idsKept (os : List (Option Stmt)) : List NodeId :=
  Stmt.idsAll os.reduceOption

theorem idsKept_nil : idsKept [] = [] := by
  have hnil : ([] : List (Option Stmt)).reduceOption = [] := rfl
  rw [idsKept, hnil, Stmt.idsAll]

theorem idsKept_cons (o : Option Stmt) (os : List (Option Stmt)) :
    idsKept (o :: os) = Stmt.idsOption o ++ idsKept os := by
  cases o with
  | none => simp only [Stmt.idsOption, List.nil_append]; rfl
  | some s =>
    have hcons : (some s :: os).reduceOption = s :: os.reduceOption := rfl
    rw [idsKept, hcons, Stmt.idsAll, Stmt.idsOption, idsKept]

theorem declarations {done : Parser Bool} {declaration : Parser (Option Stmt)}
    (hdone : ∀ low given, Issues low given done fun _ ↦ given)
    (hdeclaration : Fresh declaration Stmt.idsOption) (bound : Nat) :
    Fresh (Parser.manyUntil done declaration bound) idsKept :=
  manyUntil hdone hdeclaration idsKept_nil idsKept_cons bound

theorem block {declaration : Parser (Option Stmt)} (hdeclaration : Fresh declaration Stmt.idsOption)
    (bound : Nat) : Fresh (Parser.block bound declaration) Stmt.idsAll := by
  intro low given
  refine .bind (declarations (fun _ _ ↦ blockEnd) hdeclaration bound low given) fun os ↦ ?_
  refine .bind .expect fun _ ↦ ?_
  exact .pure_of_eq rfl

theorem routine {kind : RoutineKind} {declaration : Bool → Parser (Option Stmt)}
    (hdeclaration : ∀ inLoop, Fresh (declaration inLoop) Stmt.idsOption) (bound : Nat) :
    Fresh (Parser.routine bound kind declaration) Stmt.idsRoutine := by
  intro low given
  have hparams : Fresh (Parser.listed bound .tooManyParameters
      (Parser.expect .identifier .expectParameterName)) fun _ ↦ [] :=
    listed (none fun low given ↦ .expect) rfl (fun _ _ ↦ rfl) bound
  refine .bind .expect fun name ↦ ?_
  refine .bind .expect fun _ ↦ ?_
  refine .bind (hparams low given) fun params ↦ ?_
  rw [List.append_nil]
  refine .bind .expect fun _ ↦ ?_
  refine .bind .expect fun _ ↦ ?_
  refine .bind (block (hdeclaration false) bound low given) fun body ↦ ?_
  refine .pure_of_eq ?_
  rw [Stmt.idsRoutine]

theorem classDeclaration {declaration : Bool → Parser (Option Stmt)}
    (hdeclaration : ∀ inLoop, Fresh (declaration inLoop) Stmt.idsOption) (bound : Nat) :
    Fresh (Parser.classDeclaration bound declaration) Stmt.ids := by
  intro low given
  have hmethods : Fresh (Parser.manyUntil Parser.blockEnd
      (Parser.routine bound .method declaration) bound) Stmt.idsMethods :=
    manyUntil (fun _ _ ↦ blockEnd) (routine hdeclaration bound) (by rw [Stmt.idsMethods])
      (fun _ _ ↦ by rw [Stmt.idsMethods]) bound
  refine .bind .expect fun name ↦ ?_
  refine .bind (superclass low given) fun o ↦ ?_
  refine .bind .expect fun _ ↦ ?_
  refine .bind (hmethods low _) fun methods ↦ ?_
  refine .bind .expect fun _ ↦ ?_
  refine .pure_of_eq ?_
  rw [Stmt.ids, List.append_assoc]

theorem declarationAfter {declaration : Bool → Parser (Option Stmt)}
    (hdeclaration : ∀ inLoop, Fresh (declaration inLoop) Stmt.idsOption) (bound : Nat)
    (token : Token) : Fresh (Parser.declarationAfter bound declaration token) Stmt.ids := by
  unfold Parser.declarationAfter
  split
  · exact classDeclaration hdeclaration bound
  · intro low given
    exact .bind (routine hdeclaration bound low given) fun r ↦ .pure_of_eq (by rw [Stmt.ids])
  · exact variableDeclaration bound

theorem ids_forLoop (initializer : Option Stmt) (condition increment : Option Expr) (body : Stmt)
    (id : NodeId) :
    (Stmt.forLoop initializer condition increment body).ids.count id =
      (Stmt.idsOption initializer ++ Expr.idsOption condition ++ Expr.idsOption increment ++
        body.ids).count id := by
  cases initializer <;> cases condition <;> cases increment <;>
    simp [Stmt.forLoop, Stmt.ids, Stmt.idsAll, Stmt.idsOption, Expr.idsOption, Expr.ids] <;> omega

theorem forStatement {body : Parser Stmt} (hbody : Fresh body Stmt.ids) (bound : Nat) :
    Fresh (Parser.forStatement bound body) Stmt.ids := by
  intro low given
  refine .bind .expect fun _ ↦ ?_
  refine .bind (forInitializer bound low given) fun initializer ↦ ?_
  refine .bind (optionalExpression bound .semicolon low _) fun condition ↦ ?_
  refine .bind .expect fun _ ↦ ?_
  refine .bind (optionalExpression bound .rightParen low _) fun increment ↦ ?_
  refine .bind .expect fun _ ↦ ?_
  refine .bind (hbody low _) fun s ↦ ?_
  refine .pure fun id ↦ ?_
  rw [List.count_append, ids_forLoop]
  simp only [List.count_append]
  omega

theorem ifStatement {branch : Parser Stmt} (hbranch : Fresh branch Stmt.ids) (bound : Nat) :
    Fresh (Parser.ifStatement bound branch) Stmt.ids := by
  intro low given
  refine .bind .expect fun _ ↦ ?_
  refine .bind (expression bound low given) fun condition ↦ ?_
  refine .bind .expect fun _ ↦ ?_
  refine .bind (hbranch low _) fun thenBranch ↦ ?_
  refine .bind .accept fun b ↦ ?_
  refine .ite ?_ ?_
  · refine .bind (hbranch low _) fun other ↦ .pure_of_eq ?_
    simp only [Stmt.ids, Stmt.idsOption, List.append_assoc]
  · exact .pure_of_eq (by simp only [Stmt.ids, Stmt.idsOption, List.append_assoc, List.append_nil])

theorem whileStatement {body : Parser Stmt} (hbody : Fresh body Stmt.ids) (bound : Nat) :
    Fresh (Parser.whileStatement bound body) Stmt.ids := by
  intro low given
  refine .bind .expect fun _ ↦ ?_
  refine .bind (expression bound low given) fun condition ↦ ?_
  refine .bind .expect fun _ ↦ ?_
  refine .bind (hbody low _) fun s ↦ ?_
  refine .pure_of_eq ?_
  rw [Stmt.ids, List.append_assoc]

theorem printStatement (bound : Nat) : Fresh (Parser.printStatement bound) Stmt.ids := by
  intro low given
  refine .bind (expression bound low given) fun e ↦ ?_
  refine .bind .expect fun _ ↦ ?_
  exact .pure_of_eq (by rw [Stmt.ids])

theorem returnStatement (bound : Nat) (keyword : Token) :
    Fresh (Parser.returnStatement bound keyword) Stmt.ids := by
  intro low given
  refine .bind (optionalExpression bound .semicolon low given) fun o ↦ ?_
  refine .bind .expect fun _ ↦ ?_
  exact .pure_of_eq (by rw [Stmt.ids])

theorem jump {inLoop : Bool} {keyword : Token} {stray missingEnd : SyntaxFault}
    {node : Token → Stmt} (hnode : (node keyword).ids = []) :
    Fresh (Parser.jump inLoop keyword stray missingEnd node) Stmt.ids := by
  intro low given
  have hend : Issues low given (do
      let _ ← Parser.expect .semicolon missingEnd
      return node keyword) fun s ↦ given ++ s.ids :=
    .bind .expect fun _ ↦ .pure_of_eq (by rw [hnode, List.append_nil])
  cases inLoop with
  | false => exact .bind .note fun _ ↦ hend
  | true => exact hend

theorem statementAfter {statement : Bool → Parser Stmt} {declaration : Bool → Parser (Option Stmt)}
    (hstatement : ∀ inLoop, Fresh (statement inLoop) Stmt.ids)
    (hdeclaration : ∀ inLoop, Fresh (declaration inLoop) Stmt.idsOption) (bound : Nat)
    (inLoop : Bool) (token : Token) :
    Fresh (Parser.statementAfter bound statement declaration inLoop token) Stmt.ids := by
  unfold Parser.statementAfter
  split
  · exact forStatement (hstatement true) bound
  · exact ifStatement (hstatement inLoop) bound
  · exact printStatement bound
  · exact returnStatement bound token
  · exact whileStatement (hstatement true) bound
  · intro low given
    exact .bind (block (hdeclaration inLoop) bound low given) fun body ↦
      .pure_of_eq (by rw [Stmt.ids])
  · exact jump (by rw [Stmt.ids])
  · exact jump (by rw [Stmt.ids])

theorem recover {p : Parser Stmt} (h : Fresh p Stmt.ids) :
    Fresh (Parser.recover p) Stmt.idsOption := by
  intro low given s hlow hgiven
  have hs := h low given s hlow hgiven
  unfold Parser.recover
  cases hp : p s with
  | ok a t =>
    rw [hp] at hs
    exact ⟨hs.1, by simpa only [Stmt.idsOption] using hs.2⟩
  | error e t =>
    rw [hp] at hs
    refine ⟨hs, ?_⟩
    simp only [Stmt.idsOption, List.append_nil]
    exact hgiven.mono (fun _ ↦ Nat.le_refl _) hs

/-- Both recursive rules, by induction on their bound. -/
theorem declaration_and_statement (bound : Nat) :
    (∀ inLoop, Fresh (Parser.declaration bound inLoop) Stmt.idsOption) ∧
      ∀ inLoop, Fresh (Parser.statement bound inLoop) Stmt.ids := by
  induction bound with
  | zero => exact ⟨fun _ ↦ recover fun _ _ ↦ .fail _, fun _ _ _ ↦ .fail _⟩
  | succ bound ih =>
    obtain ⟨hdeclaration, hstatement⟩ := ih
    refine ⟨fun inLoop ↦ recover fun low given ↦ .bind .acceptIf fun o ↦ ?_,
      fun inLoop low given ↦ .bind .acceptIf fun o ↦ ?_⟩
    · cases o with
      | none => exact hstatement inLoop low given
      | some token => exact declarationAfter hdeclaration bound token low given
    · cases o with
      | none => exact expressionStatement bound low given
      | some token =>
        exact statementAfter hstatement hdeclaration bound inLoop token low given

end Fresh

end Parser

theorem issued_readProgram (nextId : NodeId) (tokens : List Token) :
    nextId ≤ (readProgram nextId tokens).nextId ∧
      Issued nextId (readProgram nextId tokens).nextId
        (Stmt.idsAll (readProgram nextId tokens).result) := by
  have h := Parser.Fresh.declarations (fun _ _ ↦ .atEnd)
    ((Parser.Fresh.declaration_and_statement
      (2 * (Parser.State.start nextId tokens).rest.length + 1)).1 false)
    (Parser.State.start nextId tokens).rest.length nextId [] (Parser.State.start nextId tokens)
    (Nat.le_refl _) .nil
  unfold readProgram
  dsimp only
  split at h
  · rename_i os t hos
    rw [hos]
    exact h
  · rename_i e t he
    rw [he]
    refine ⟨h, ?_⟩
    rw [Stmt.idsAll]
    exact .nil

theorem issued_readExpression (nextId : NodeId) (tokens : List Token) :
    nextId ≤ (readExpression nextId tokens).nextId ∧
      Issued nextId (readExpression nextId tokens).nextId
        (Expr.idsOption (readExpression nextId tokens).result) := by
  have h := Parser.Fresh.expression (Parser.State.start nextId tokens).rest.length nextId []
    (Parser.State.start nextId tokens) (Nat.le_refl _) .nil
  unfold readExpression
  dsimp only
  split at h
  · rename_i e t he
    rw [he]
    exact h
  · rename_i e t he
    rw [he]
    exact ⟨h, .nil⟩

end Lox
