import Lox.Proofs.Parser.Acceptance
import Lox.Proofs.Parser.Indexing

/-!
# Bounds that are never reached

The loops and the recursion of the rules take bounds.  A bound that is large enough for the tokens
left is never reached: every larger one gives the same result.  What carries this is that each round
and each nested rule takes a token first.
-/

namespace Lox.Parser

variable {α β : Type}

/-- A rule that succeeds has taken a token. -/
def Consumes (p : Parser α) : Prop :=
  ∀ s a t, p s = .ok a t → t.rest.length < s.rest.length

theorem acceptIf_of_nil {s : State} (h : s.rest = []) (wanted : Kind → Bool) :
    acceptIf wanted s = .ok none s :=
  acceptIf_of_stops (h ▸ rfl)

theorem accept_of_nil {s : State} (h : s.rest = []) (kind : Kind) :
    accept kind s = .ok false s :=
  Computation.bind_of_ok (acceptIf_of_nil h _)

theorem lt_of_acceptIf {wanted : Kind → Bool} {s t : State} {token : Token}
    (h : acceptIf wanted s = .ok (some token) t) : t.rest.length < s.rest.length := by
  rcases acceptIf_cases wanted s with ⟨-, hnone⟩ | ⟨next, rest, hrest, -, hsome⟩
  · rw [hnone] at h
    cases h
  · rw [hsome] at h
    cases h
    rw [hrest]
    exact Nat.lt_succ_self _

theorem eq_of_acceptIf {wanted : Kind → Bool} {s t : State}
    (h : acceptIf wanted s = .ok none t) : t = s := by
  rcases acceptIf_cases wanted s with ⟨-, hnone⟩ | ⟨next, rest, -, -, hsome⟩
  · rw [hnone] at h
    cases h
    rfl
  · rw [hsome] at h
    cases h

namespace Consumes

theorem fail (fault : SyntaxFault) : Consumes (Parser.fail fault : Parser α) := by
  intro s a t h
  cases h

theorem bind_left {p : Parser α} {f : α → Parser β} (hp : Consumes p) (hf : ∀ a, Shrinks (f a)) :
    Consumes (p >>= f) := by
  intro s b u h
  obtain ⟨a, t, ha, hb⟩ := Computation.bind_eq_ok_iff.1 h
  exact Nat.lt_of_le_of_lt ((hf a).of_ok hb) (hp s a t ha)

theorem bind_right {p : Parser α} {f : α → Parser β} (hp : Shrinks p) (hf : ∀ a, Consumes (f a)) :
    Consumes (p >>= f) := by
  intro s b u h
  obtain ⟨a, t, ha, hb⟩ := Computation.bind_eq_ok_iff.1 h
  exact Nat.lt_of_lt_of_le (hf a t b u hb) (hp.of_ok ha)

theorem acceptIf {wanted : Kind → Bool} {f : Option Token → Parser β}
    (hsome : ∀ t, Shrinks (f (some t))) (hnone : Consumes (f none)) :
    Consumes (Parser.acceptIf wanted >>= f) := by
  intro s b u h
  obtain ⟨o, t, ho, hb⟩ := Computation.bind_eq_ok_iff.1 h
  cases o with
  | none =>
    rw [eq_of_acceptIf ho] at hb
    exact hnone s b u hb
  | some token => exact Nat.lt_of_le_of_lt ((hsome token).of_ok hb) (lt_of_acceptIf ho)

theorem expect (kind : Kind) (fault : SyntaxFault) : Consumes (Parser.expect kind fault) :=
  acceptIf (fun t ↦ (Indexable.pure t).shrinks) (fail fault)

theorem expressionStatement (bound : Nat) : Consumes (Parser.expressionStatement bound) :=
  bind_right (Indexable.expression bound).shrinks fun _ ↦
    bind_left (expect _ _) fun _ ↦ (Indexable.pure _).shrinks

theorem routine (bound : Nat) (kind : RoutineKind) {declaration : Bool → Parser (Option Stmt)}
    (hdeclaration : ∀ inLoop, Indexable (declaration inLoop)) :
    Consumes (Parser.routine bound kind declaration) := by
  have hparam := Indexable.expect .identifier .expectParameterName
  refine bind_left (expect .identifier _) fun name ↦ ?_
  apply Indexable.shrinks
  refine (Indexable.expect .leftParen _).bind fun _ ↦ ?_
  refine (Indexable.listed hparam bound _).bind fun params ↦ ?_
  refine (Indexable.expect .rightParen _).bind fun _ ↦ ?_
  refine (Indexable.expect .leftBrace _).bind fun _ ↦ ?_
  exact (Indexable.block hdeclaration bound false).bind fun body ↦ .pure _

theorem statement (bound : Nat) (inLoop : Bool) : Consumes (Parser.statement bound inLoop) := by
  cases bound with
  | zero =>
    rw [Parser.statement]
    exact fail _
  | succ bound =>
    obtain ⟨hdeclaration, hstatement⟩ := Indexable.declaration_and_statement bound
    rw [Parser.statement]
    refine acceptIf (fun token ↦ ?_) (expressionStatement bound)
    exact (Indexable.statementAfter hstatement hdeclaration bound inLoop token).shrinks

end Consumes

/-- A declaration takes a token even if it fails, for then recovery skips one. -/
theorem declaration_advances (bound : Nat) (inLoop : Bool) {s : State} (hs : s.rest ≠ []) :
    ∃ o t, declaration bound inLoop s = .ok o t ∧ t.rest.length < s.rest.length := by
  have hrecover : ∀ p : Parser Stmt, Shrinks p → Consumes p →
      ∃ o t, recover p s = .ok o t ∧ t.rest.length < s.rest.length := by
    intro p hshrinks hconsumes
    unfold recover
    cases hp : p s with
    | ok a t => exact ⟨_, _, rfl, hconsumes s a t hp⟩
    | error e t =>
      refine ⟨_, _, rfl, ?_⟩
      have hle := hshrinks.of_error hp
      cases hrest : t.rest with
      | nil => exact List.length_pos_iff.2 hs
      | cons token rest =>
        rw [hrest] at hle
        exact Nat.lt_of_le_of_lt (length_synchronize_cons_le token rest) hle
  cases bound with
  | zero =>
    rw [declaration]
    exact hrecover _ (Indexable.fail _).shrinks (.fail _)
  | succ bound =>
    obtain ⟨hdeclaration, hstatement⟩ := Indexable.declaration_and_statement bound
    rw [declaration]
    refine hrecover _ ?_ ?_
    · refine ((Indexable.acceptIf _).bind fun o ↦ ?_).shrinks
      cases o with
      | none => exact hstatement inLoop
      | some token => exact Indexable.declarationAfter hdeclaration bound token
    · refine .acceptIf (fun token ↦ ?_) (.statement bound inLoop)
      exact (Indexable.declarationAfter hdeclaration bound token).shrinks

theorem lt_of_declaration {bound : Nat} {inLoop : Bool} {s t : State} {o : Option Stmt}
    (hs : s.rest ≠ []) (h : declaration bound inLoop s = .ok o t) :
    t.rest.length < s.rest.length := by
  obtain ⟨o', u, hu, hlt⟩ := declaration_advances bound inLoop hs
  rw [h] at hu
  cases hu
  exact hlt

/-- Two rules do the same where there are at most `n` tokens left. -/
def Agree (n : Nat) (p p' : Parser α) : Prop :=
  ∀ s, s.rest.length ≤ n → p s = p' s

namespace Agree

variable {n : Nat} {p p' : Parser α} {f f' : α → Parser β}

theorem refl (n : Nat) (p : Parser α) : Agree n p p :=
  fun _ _ ↦ rfl

theorem of_nil (h : ∀ s, s.rest = [] → p s = p' s) : Agree 0 p p' :=
  fun s hs ↦ h s (List.length_eq_zero_iff.1 (Nat.le_zero.1 hs))

theorem mono {m : Nat} (h : Agree n p p') (hle : m ≤ n) : Agree m p p' :=
  fun s hs ↦ h s (Nat.le_trans hs hle)

theorem bind (hp : Agree n p p') (hshrinks : Shrinks p') (hf : ∀ a, Agree n (f a) (f' a)) :
    Agree n (p >>= f) (p' >>= f') := by
  intro s hs
  have hsame := hp s hs
  cases hr : p' s with
  | ok a t =>
    rw [hr] at hsame
    rw [Computation.bind_of_ok hsame, Computation.bind_of_ok hr]
    exact hf a t (Nat.le_trans (hshrinks.of_ok hr) hs)
  | error e t =>
    rw [hr] at hsame
    rw [Computation.bind_of_error hsame, Computation.bind_of_error hr]

theorem after (hp : Indexable p) (hf : ∀ a, Agree n (f a) (f' a)) : Agree n (p >>= f) (p >>= f') :=
  bind (refl n p) hp.shrinks hf

theorem acceptIf {wanted : Kind → Bool} {f f' : Option Token → Parser β}
    (hsome : ∀ m < n, ∀ t, Agree m (f (some t)) (f' (some t)))
    (hnone : Agree n (f none) (f' none)) :
    Agree n (Parser.acceptIf wanted >>= f) (Parser.acceptIf wanted >>= f') := by
  intro s hs
  cases hr : Parser.acceptIf wanted s with
  | ok o t =>
    rw [Computation.bind_of_ok hr, Computation.bind_of_ok hr]
    cases o with
    | none => exact hnone t (eq_of_acceptIf hr ▸ hs)
    | some token =>
      exact hsome t.rest.length (Nat.lt_of_lt_of_le (lt_of_acceptIf hr) hs) token t (Nat.le_refl _)
  | error e t => rw [Computation.bind_of_error hr, Computation.bind_of_error hr]

theorem accept {kind : Kind} {f f' : Bool → Parser β}
    (htrue : ∀ m < n, Agree m (f true) (f' true)) (hfalse : Agree n (f false) (f' false)) :
    Agree n (Parser.accept kind >>= f) (Parser.accept kind >>= f') := by
  simp only [Parser.accept, bind_assoc, pure_bind]
  exact acceptIf (fun m hm _ ↦ htrue m hm) hfalse

theorem ite {b : Bool} {q q' : Parser α} (hp : Agree n p p') (hq : Agree n q q') :
    Agree n (if b = true then p else q) (if b = true then p' else q') := by
  cases b with
  | true => exact hp
  | false => exact hq

theorem recover (h : Agree n p p') : Agree n (Parser.recover p) (Parser.recover p') := by
  intro s hs
  unfold Parser.recover
  rw [h s hs]

/-! ### Loops -/

theorem manyUntil {done : Parser Bool} {item item' : Parser α} (hitem : Agree n item item')
    (hdone : ∀ s, ∃ b, done s = .ok b s ∧ (s.rest = [] → b = true))
    (hprogress : ∀ s a t, s.rest ≠ [] → item' s = .ok a t → t.rest.length < s.rest.length)
    {bound bound' : Nat} (hbound : n ≤ bound) (hbound' : n ≤ bound') :
    Agree n (Parser.manyUntil done item bound) (Parser.manyUntil done item' bound') := by
  have hnil : ∀ {s : State}, s.rest = [] → ∀ (item : Parser α) (bound : Nat),
      Parser.manyUntil done item bound s = .ok [] s := by
    intro s hs item bound
    obtain ⟨b, hb, htrue⟩ := hdone s
    cases bound with
    | zero => rfl
    | succ bound =>
      rw [htrue hs] at hb
      exact Computation.bind_of_ok hb
  induction n generalizing bound bound' with
  | zero =>
    refine of_nil fun s hrest ↦ ?_
    rw [hnil hrest, hnil hrest]
  | succ n ih =>
    obtain ⟨bound, rfl⟩ := Nat.exists_eq_add_of_le' (Nat.le_of_add_left_le hbound)
    obtain ⟨bound', rfl⟩ := Nat.exists_eq_add_of_le' (Nat.le_of_add_left_le hbound')
    intro s hs
    obtain ⟨b, hb, htrue⟩ := hdone s
    have hsame := hitem s hs
    unfold Parser.manyUntil
    rw [Computation.bind_of_ok hb, Computation.bind_of_ok hb]
    cases b with
    | true => rfl
    | false =>
      -- A round behind which there is another one has taken a token.
      have hne : s.rest ≠ [] := fun hrest ↦ Bool.false_ne_true (htrue hrest)
      cases hr : item' s with
      | error e t =>
        rw [hr] at hsame
        rw [if_neg Bool.false_ne_true, if_neg Bool.false_ne_true, Computation.bind_of_error hsame,
          Computation.bind_of_error hr]
      | ok a t =>
        rw [hr] at hsame
        have hlt := hprogress s a t hne hr
        have hrest := ih (hitem.mono (Nat.le_succ n)) (Nat.le_of_succ_le_succ hbound)
          (Nat.le_of_succ_le_succ hbound') t (by omega)
        rw [if_neg Bool.false_ne_true, if_neg Bool.false_ne_true, Computation.bind_of_ok hsame,
          Computation.bind_of_ok hr]
        exact Computation.bind_eq_bind hrest

theorem commaSeparated_zero {item : Nat → Parser α} (hitem : ∀ index, Indexable (item index))
    (bound index : Nat) :
    Agree 0 (Parser.commaSeparated item bound index) (do return [← item index]) := by
  cases bound with
  | zero => exact refl 0 _
  | succ bound =>
    refine after (hitem index) fun a ↦ of_nil fun t hrest ↦ ?_
    exact Computation.bind_of_ok (accept_of_nil hrest .comma)

theorem commaSeparated {item item' : Nat → Parser α}
    (hitem : ∀ index, Agree n (item index) (item' index))
    (hindexable : ∀ index, Indexable (item index)) (hindexable' : ∀ index, Indexable (item' index))
    {bound bound' : Nat} (hbound : n ≤ bound) (hbound' : n ≤ bound') (index : Nat) :
    Agree n (Parser.commaSeparated item bound index)
      (Parser.commaSeparated item' bound' index) := by
  induction n generalizing bound bound' index with
  | zero =>
    intro s hs
    rw [commaSeparated_zero hindexable bound index s hs,
      commaSeparated_zero hindexable' bound' index s hs]
    exact bind (hitem index) (hindexable' index).shrinks (fun a ↦ refl 0 _) s hs
  | succ n ih =>
    obtain ⟨bound, rfl⟩ := Nat.exists_eq_add_of_le' (Nat.le_of_add_left_le hbound)
    obtain ⟨bound', rfl⟩ := Nat.exists_eq_add_of_le' (Nat.le_of_add_left_le hbound')
    refine bind (hitem index) (hindexable' index).shrinks fun a ↦ accept (fun m hm ↦ ?_) (refl _ _)
    have hrest := ih (fun index ↦ (hitem index).mono (Nat.le_succ n))
      (Nat.le_of_succ_le_succ hbound) (Nat.le_of_succ_le_succ hbound') (index + 1)
    have hshrinks := (Indexable.commaSeparated hindexable' bound' (index + 1)).shrinks
    exact bind (hrest.mono (Nat.le_of_lt_succ hm)) hshrinks fun as ↦ refl _ _

theorem listed {item item' : Parser α} (hitem : Agree n item item') (hindexable : Indexable item)
    (hindexable' : Indexable item') {bound bound' : Nat} (hbound : n ≤ bound)
    (hbound' : n ≤ bound') (fault : SyntaxFault) :
    Agree n (Parser.listed bound fault item) (Parser.listed bound' fault item') := by
  refine after (.check _) fun b ↦ ite (refl _ _) ?_
  refine commaSeparated (fun index ↦ ?_) (hindexable.limited fault) (hindexable'.limited fault)
    hbound hbound' 0
  unfold Parser.limited
  split
  · exact after ⟨_, .peek⟩ fun t ↦ after (.note t fault) fun _ ↦ hitem
  · exact hitem

theorem chain (level : Level) {operand operand' : Parser Expr} (hoperand : Agree n operand operand')
    (hindexable : Indexable operand') {bound bound' : Nat} (hbound : n ≤ bound)
    (hbound' : n ≤ bound') (left : Expr) :
    Agree n (Parser.chain level operand bound left) (Parser.chain level operand' bound' left) := by
  induction n generalizing bound bound' left with
  | zero =>
    refine of_nil fun s hrest ↦ ?_
    have hstops : Stops level.isOperator s.rest := hrest ▸ rfl
    rw [Complete.chain_of_stops hstops, Complete.chain_of_stops hstops]
  | succ n ih =>
    obtain ⟨bound, rfl⟩ := Nat.exists_eq_add_of_le' (Nat.le_of_add_left_le hbound)
    obtain ⟨bound', rfl⟩ := Nat.exists_eq_add_of_le' (Nat.le_of_add_left_le hbound')
    refine acceptIf (fun m hm op ↦ ?_) (refl _ _)
    have hright := hoperand.mono (Nat.le_of_lt hm)
    refine bind hright hindexable.shrinks fun right ↦ ?_
    have hrest := ih (hoperand.mono (Nat.le_succ n)) (Nat.le_of_succ_le_succ hbound)
      (Nat.le_of_succ_le_succ hbound') (level.node op left right)
    exact hrest.mono (Nat.le_of_lt_succ hm)

theorem signs_zero (operand : Parser Expr) (bound : Nat) :
    Agree 0 (Parser.signs operand bound) operand := by
  refine of_nil fun s hrest ↦ ?_
  cases bound with
  | zero => rfl
  | succ bound => exact Computation.bind_of_ok (acceptIf_of_nil hrest isSign)

theorem signs {operand operand' : Parser Expr} (hoperand : Agree n operand operand')
    (hindexable : Indexable operand') {bound bound' : Nat} (hbound : n ≤ bound)
    (hbound' : n ≤ bound') :
    Agree n (Parser.signs operand bound) (Parser.signs operand' bound') := by
  induction n generalizing bound bound' with
  | zero =>
    intro s hs
    rw [signs_zero operand bound s hs, signs_zero operand' bound' s hs, hoperand s hs]
  | succ n ih =>
    obtain ⟨bound, rfl⟩ := Nat.exists_eq_add_of_le' (Nat.le_of_add_left_le hbound)
    obtain ⟨bound', rfl⟩ := Nat.exists_eq_add_of_le' (Nat.le_of_add_left_le hbound')
    refine acceptIf (fun m hm op ↦ ?_) hoperand
    have hrest := ih (hoperand.mono (Nat.le_succ n)) (Nat.le_of_succ_le_succ hbound)
      (Nat.le_of_succ_le_succ hbound')
    refine bind (hrest.mono (Nat.le_of_lt_succ hm)) (hindexable.signs bound').shrinks fun e ↦ ?_
    exact refl _ _

theorem operators {operand operand' : Parser Expr} (hoperand : Agree n operand operand')
    (hindexable : Indexable operand') {bound bound' : Nat} (hbound : n ≤ bound)
    (hbound' : n ≤ bound') (levels : List Level) :
    Agree n (Parser.operators bound operand levels) (Parser.operators bound' operand' levels) := by
  induction levels with
  | nil => exact hoperand
  | cons level tighter ih =>
    have htighter := hindexable.operators bound' tighter
    exact bind ih htighter.shrinks fun left ↦ chain level ih htighter hbound hbound' left

/-! ### Expressions -/

section Nested

variable {nested nested' : Parser Expr} (hnested : Agree n nested nested')
  (hindexable : Indexable nested) (hindexable' : Indexable nested') {bound bound' : Nat}

include hnested hindexable'

/-- The expression in parentheses stands behind the opening one. -/
theorem primary : Agree (n + 1) (Parser.primary nested) (Parser.primary nested') := by
  refine acceptIf (fun m hm token ↦ ?_) (refl _ _)
  dsimp only
  unfold Parser.primaryAfter
  split
  case h_9 =>
    exact bind (hnested.mono (Nat.le_of_lt_succ hm)) hindexable'.shrinks fun _ ↦ refl _ _
  all_goals exact refl _ _

include hindexable

theorem arguments (hbound : n ≤ bound) (hbound' : n ≤ bound') :
    Agree n (Parser.arguments bound nested) (Parser.arguments bound' nested') := by
  have hlisted := listed hnested hindexable hindexable' hbound hbound' .tooManyArguments
  exact bind hlisted (hindexable'.listed bound' _).shrinks fun _ ↦ refl _ _

/-- Every round takes a parenthesis or a dot. -/
theorem suffixes {rounds rounds' : Nat} (hbound : n ≤ bound) (hbound' : n ≤ bound')
    {k : Nat} (hk : k ≤ n + 1) (hrounds : k ≤ rounds) (hrounds' : k ≤ rounds') (e : Expr) :
    Agree k (Parser.suffixes bound nested rounds e) (Parser.suffixes bound' nested' rounds' e) := by
  induction k generalizing rounds rounds' e with
  | zero =>
    refine of_nil fun s hrest ↦ ?_
    have hstops : Stops extendsCall s.rest := hrest ▸ rfl
    rw [Complete.suffixes_of_stops hstops, Complete.suffixes_of_stops hstops]
  | succ k ih =>
    obtain ⟨rounds, rfl⟩ := Nat.exists_eq_add_of_le' (Nat.le_of_add_left_le hrounds)
    obtain ⟨rounds', rfl⟩ := Nat.exists_eq_add_of_le' (Nat.le_of_add_left_le hrounds')
    have hrest := fun e ↦ ih (Nat.le_of_succ_le hk) (Nat.le_of_succ_le_succ hrounds)
      (Nat.le_of_succ_le_succ hrounds') e
    refine accept (fun m hm ↦ ?_) (accept (fun m hm ↦ ?_) (refl _ _))
    · have harguments := (arguments hnested hindexable hindexable' hbound hbound').mono
        (Nat.le_trans (Nat.le_of_lt_succ hm) (Nat.le_of_succ_le_succ hk))
      refine bind harguments (hindexable'.arguments bound').shrinks fun a ↦ ?_
      exact (hrest _).mono (Nat.le_of_lt_succ hm)
    · exact after (.expect _ _) fun name ↦ (hrest _).mono (Nat.le_of_lt_succ hm)

theorem assignment (hbound : n + 1 ≤ bound) (hbound' : n + 1 ≤ bound') :
    Agree (n + 1) (Parser.assignment bound nested) (Parser.assignment bound' nested') := by
  have hcall : Agree (n + 1) (do Parser.suffixes bound nested bound (← Parser.primary nested))
      (do Parser.suffixes bound' nested' bound' (← Parser.primary nested')) := by
    refine bind (primary hnested hindexable') hindexable'.primary.shrinks fun e ↦ ?_
    exact suffixes hnested hindexable hindexable' (Nat.le_of_succ_le hbound)
      (Nat.le_of_succ_le hbound') (Nat.le_refl _) hbound hbound' e
  have hcall' : Indexable (do Parser.suffixes bound' nested' bound' (← Parser.primary nested')) :=
    hindexable'.primary.bind fun e ↦ hindexable'.suffixes bound' bound' e
  have hoperation : Agree (n + 1) (Parser.operation bound nested)
      (Parser.operation bound' nested') :=
    operators (signs hcall hcall' hbound hbound') (hcall'.signs bound') hbound hbound' levels
  refine bind hoperation (hindexable'.operation bound').shrinks fun target ↦ ?_
  refine acceptIf (fun m hm equals ↦ ?_) (refl _ _)
  exact bind (hnested.mono (Nat.le_of_lt_succ hm)) hindexable'.shrinks fun value ↦ refl _ _

end Nested

theorem operators_of_error {operand : Parser Expr} {s t : State} {e : SyntaxError}
    (h : operand s = .error e t) (bound : Nat) (levels : List Level) :
    Parser.operators bound operand levels s = .error e t := by
  induction levels with
  | nil => exact h
  | cons level tighter ih => exact Computation.bind_of_error ih

theorem expression_zero (bound : Nat) :
    Agree 0 (Parser.expression bound) (Parser.fail .expectExpression) := by
  refine of_nil fun s hrest ↦ ?_
  have hs : s.rest.length ≤ 0 := (List.length_eq_zero_iff.2 hrest).le
  cases bound with
  | zero => rfl
  | succ bound =>
    have hprimary : Parser.primary (Parser.expression bound) s =
        (Parser.fail .expectExpression : Parser Expr) s :=
      Computation.bind_of_ok (acceptIf_of_nil hrest startsPrimary)
    have hsigns := signs_zero (do
      Parser.suffixes (bound + 1) (Parser.expression bound) (bound + 1)
        (← Parser.primary (Parser.expression bound))) (bound + 1) s hs
    rw [Computation.bind_of_error hprimary] at hsigns
    exact Computation.bind_of_error (operators_of_error hsigns (bound + 1) levels)

/-- By induction on the number of tokens: a bound of as many is never reached. -/
theorem expression {bound bound' : Nat} (hbound : n ≤ bound) (hbound' : n ≤ bound') :
    Agree n (Parser.expression bound) (Parser.expression bound') := by
  induction n generalizing bound bound' with
  | zero =>
    intro s hs
    rw [expression_zero bound s hs, expression_zero bound' s hs]
  | succ n ih =>
    obtain ⟨bound, rfl⟩ := Nat.exists_eq_add_of_le' (Nat.le_of_add_left_le hbound)
    obtain ⟨bound', rfl⟩ := Nat.exists_eq_add_of_le' (Nat.le_of_add_left_le hbound')
    exact assignment (ih (Nat.le_of_succ_le_succ hbound) (Nat.le_of_succ_le_succ hbound'))
      (.expression bound) (.expression bound') hbound hbound'

/-! ### Statements -/

section Bodies

variable {bound bound' : Nat} (hbound : n ≤ bound) (hbound' : n ≤ bound')

include hbound hbound'

theorem expressionStatement :
    Agree n (Parser.expressionStatement bound) (Parser.expressionStatement bound') :=
  bind (expression hbound hbound') (Indexable.expression bound').shrinks fun _ ↦ refl _ _

theorem printStatement : Agree n (Parser.printStatement bound) (Parser.printStatement bound') :=
  bind (expression hbound hbound') (Indexable.expression bound').shrinks fun _ ↦ refl _ _

theorem optionalExpression (closing : Kind) :
    Agree n (Parser.optionalExpression bound closing)
      (Parser.optionalExpression bound' closing) := by
  refine after (.check closing) fun b ↦ ite (refl _ _) ?_
  exact bind (expression hbound hbound') (Indexable.expression bound').shrinks fun _ ↦ refl _ _

theorem returnStatement (keyword : Token) :
    Agree n (Parser.returnStatement bound keyword) (Parser.returnStatement bound' keyword) :=
  bind (optionalExpression hbound hbound' _) (Indexable.optionalExpression bound' _).shrinks
    fun _ ↦ refl _ _

theorem variableDeclaration :
    Agree n (Parser.variableDeclaration bound) (Parser.variableDeclaration bound') := by
  have hinitial : Agree n (Parser.initialValue bound) (Parser.initialValue bound') := by
    refine after (.accept _) fun b ↦ ite ?_ (refl _ _)
    exact bind (expression hbound hbound') (Indexable.expression bound').shrinks fun _ ↦ refl _ _
  refine after (.expect _ _) fun name ↦ ?_
  exact bind hinitial (Indexable.initialValue bound').shrinks fun _ ↦ refl _ _

theorem forInitializer : Agree n (Parser.forInitializer bound) (Parser.forInitializer bound') := by
  refine after (.accept _) fun b ↦ ite (refl _ _) (after (.accept _) fun b ↦ ite ?_ ?_)
  · exact bind (variableDeclaration hbound hbound') (Indexable.variableDeclaration bound').shrinks
      fun _ ↦ refl _ _
  · exact bind (expressionStatement hbound hbound') (Indexable.expressionStatement bound').shrinks
      fun _ ↦ refl _ _

theorem forStatement {body body' : Parser Stmt} (hbody : Agree n body body')
    (hindexable : Indexable body') :
    Agree n (Parser.forStatement bound body) (Parser.forStatement bound' body') := by
  refine after (.expect _ _) fun _ ↦ ?_
  refine bind (forInitializer hbound hbound') (Indexable.forInitializer bound').shrinks fun _ ↦ ?_
  refine bind (optionalExpression hbound hbound' _) (Indexable.optionalExpression bound' _).shrinks
    fun _ ↦ ?_
  refine after (.expect _ _) fun _ ↦ ?_
  refine bind (optionalExpression hbound hbound' _) (Indexable.optionalExpression bound' _).shrinks
    fun _ ↦ ?_
  refine after (.expect _ _) fun _ ↦ ?_
  exact bind hbody hindexable.shrinks fun _ ↦ refl _ _

theorem ifStatement {branch branch' : Parser Stmt} (hbranch : Agree n branch branch')
    (hindexable : Indexable branch') :
    Agree n (Parser.ifStatement bound branch) (Parser.ifStatement bound' branch') := by
  refine after (.expect _ _) fun _ ↦ ?_
  refine bind (expression hbound hbound') (Indexable.expression bound').shrinks fun _ ↦ ?_
  refine after (.expect _ _) fun _ ↦ bind hbranch hindexable.shrinks fun _ ↦ ?_
  refine after (.accept _) fun b ↦ ite ?_ (refl _ _)
  exact bind hbranch hindexable.shrinks fun _ ↦ refl _ _

theorem whileStatement {body body' : Parser Stmt} (hbody : Agree n body body')
    (hindexable : Indexable body') :
    Agree n (Parser.whileStatement bound body) (Parser.whileStatement bound' body') := by
  refine after (.expect _ _) fun _ ↦ ?_
  refine bind (expression hbound hbound') (Indexable.expression bound').shrinks fun _ ↦ ?_
  exact after (.expect _ _) fun _ ↦ bind hbody hindexable.shrinks fun _ ↦ refl _ _

omit hbound hbound' in
/-- A block looks for its end without a step, and it ends with the tokens in any case. -/
theorem blockEnd_eq_ok (s : State) :
    ∃ b, Parser.blockEnd s = .ok b s ∧ (s.rest = [] → b = true) := by
  refine ⟨_, Complete.blockEnd_eq s, fun hrest ↦ ?_⟩
  rw [hrest]
  rfl

section Declarations

variable {declaration declaration' : Bool → Parser (Option Stmt)}
  (hdeclaration : ∀ inLoop, Agree n (declaration inLoop) (declaration' inLoop))
  (hindexable : ∀ inLoop, Indexable (declaration' inLoop))
  (hprogress : ∀ inLoop s a t, s.rest ≠ [] → declaration' inLoop s = .ok a t →
    t.rest.length < s.rest.length)

include hdeclaration hindexable hprogress

theorem block (inLoop : Bool) :
    Agree n (Parser.block bound (declaration inLoop))
      (Parser.block bound' (declaration' inLoop)) := by
  have hmany := manyUntil (hdeclaration inLoop) blockEnd_eq_ok (hprogress inLoop) hbound hbound'
  have hshrinks := (Indexable.manyUntil .blockEnd (hindexable inLoop) bound').shrinks
  exact bind hmany hshrinks fun _ ↦ refl _ _

theorem routine (kind : RoutineKind) :
    Agree n (Parser.routine bound kind declaration) (Parser.routine bound' kind declaration') := by
  have hparameter : Indexable (Parser.expect .identifier .expectParameterName) := .expect _ _
  refine after (.expect _ _) fun _ ↦ after (.expect _ _) fun _ ↦ ?_
  refine bind (listed (refl n _) hparameter hparameter hbound hbound' _)
    (hparameter.listed bound' _).shrinks fun _ ↦ ?_
  refine after (.expect _ _) fun _ ↦ after (.expect _ _) fun _ ↦ ?_
  have hblock := block hbound hbound' hdeclaration hindexable hprogress false
  exact bind hblock (Indexable.block hindexable bound' false).shrinks fun _ ↦ refl _ _

theorem classDeclaration :
    Agree n (Parser.classDeclaration bound declaration)
      (Parser.classDeclaration bound' declaration') := by
  have hroutine := routine hbound hbound' hdeclaration hindexable hprogress .method
  have hmany := manyUntil hroutine blockEnd_eq_ok
    (fun s a t _ h ↦ Consumes.routine bound' .method hindexable s a t h) hbound hbound'
  have hshrinks :=
    (Indexable.manyUntil .blockEnd (Indexable.routine hindexable bound' .method) bound').shrinks
  refine after (.expect _ _) fun _ ↦ ?_
  refine after .superclass fun _ ↦ ?_
  refine after (.expect _ _) fun _ ↦ ?_
  exact bind hmany hshrinks fun _ ↦ refl _ _

theorem declarationAfter (token : Token) :
    Agree n (Parser.declarationAfter bound declaration token)
      (Parser.declarationAfter bound' declaration' token) := by
  unfold Parser.declarationAfter
  split
  · exact classDeclaration hbound hbound' hdeclaration hindexable hprogress
  · have hroutine := routine hbound hbound' hdeclaration hindexable hprogress .function
    rw [map_eq_pure_bind, map_eq_pure_bind]
    exact bind hroutine (Indexable.routine hindexable bound' .function).shrinks fun _ ↦ refl _ _
  · exact variableDeclaration hbound hbound'

theorem statementAfter {statement statement' : Bool → Parser Stmt}
    (hstatement : ∀ inLoop, Agree n (statement inLoop) (statement' inLoop))
    (hbody : ∀ inLoop, Indexable (statement' inLoop)) (inLoop : Bool) (token : Token) :
    Agree n (Parser.statementAfter bound statement declaration inLoop token)
      (Parser.statementAfter bound' statement' declaration' inLoop token) := by
  unfold Parser.statementAfter
  split
  · exact forStatement hbound hbound' (hstatement true) (hbody true)
  · exact ifStatement hbound hbound' (hstatement inLoop) (hbody inLoop)
  · exact printStatement hbound hbound'
  · exact returnStatement hbound hbound' token
  · exact whileStatement hbound hbound' (hstatement true) (hbody true)
  · have hblock := block hbound hbound' hdeclaration hindexable hprogress inLoop
    rw [map_eq_pure_bind, map_eq_pure_bind]
    exact bind hblock (Indexable.block hindexable bound' inLoop).shrinks fun _ ↦ refl _ _
  · exact refl _ _
  · exact refl _ _

end Declarations

end Bodies

theorem statement_zero (bound : Nat) (inLoop : Bool) :
    Agree 0 (Parser.statement bound inLoop) (Parser.fail .expectExpression) := by
  refine of_nil fun s hrest ↦ ?_
  have hs : s.rest.length ≤ 0 := (List.length_eq_zero_iff.2 hrest).le
  cases bound with
  | zero =>
    rw [Parser.statement]
  | succ bound =>
    rw [Parser.statement, Computation.bind_of_ok (acceptIf_of_nil hrest startsStatement)]
    exact Computation.bind_of_error (expression_zero bound s hs)

/-- By induction on the number of tokens: for statements a bound of twice as many is never reached,
and for declarations one more. -/
theorem statement_and_declaration (n : Nat) :
    (∀ {bound bound' : Nat} (inLoop : Bool), 2 * n ≤ bound → 2 * n ≤ bound' →
      Agree n (Parser.statement bound inLoop) (Parser.statement bound' inLoop)) ∧
    ∀ {bound bound' : Nat} (inLoop : Bool), 2 * n + 1 ≤ bound → 2 * n + 1 ≤ bound' →
      Agree n (Parser.declaration bound inLoop) (Parser.declaration bound' inLoop) := by
  induction n using Nat.strong_induction_on with
  | _ n ih =>
    have hstatement : ∀ {bound bound' : Nat} (inLoop : Bool), 2 * n ≤ bound → 2 * n ≤ bound' →
        Agree n (Parser.statement bound inLoop) (Parser.statement bound' inLoop) := by
      intro bound bound' inLoop hbound hbound'
      cases n with
      | zero =>
        intro s hs
        rw [statement_zero bound inLoop s hs, statement_zero bound' inLoop s hs]
      | succ n =>
        obtain ⟨bound, rfl⟩ : ∃ c, bound = c + 1 := ⟨bound - 1, by omega⟩
        obtain ⟨bound', rfl⟩ : ∃ c, bound' = c + 1 := ⟨bound' - 1, by omega⟩
        obtain ⟨hdeclares, hstates⟩ := Indexable.declaration_and_statement bound'
        rw [Parser.statement, Parser.statement]
        -- What stands inside a statement is behind its first token, with fewer tokens left.
        refine acceptIf (fun m hm token ↦ ?_) (expressionStatement (by omega) (by omega))
        exact statementAfter (by omega) (by omega)
          (fun inLoop ↦ (ih m hm).2 inLoop (by omega) (by omega)) hdeclares
          (fun _ _ _ _ ↦ lt_of_declaration)
          (fun inLoop ↦ (ih m hm).1 inLoop (by omega) (by omega)) hstates inLoop token
    -- A declaration that is a statement takes nothing first; hence the one more.
    refine ⟨hstatement, fun {bound bound'} inLoop hbound hbound' ↦ ?_⟩
    obtain ⟨bound, rfl⟩ : ∃ c, bound = c + 1 := ⟨bound - 1, by omega⟩
    obtain ⟨bound', rfl⟩ : ∃ c, bound' = c + 1 := ⟨bound' - 1, by omega⟩
    obtain ⟨hdeclares, -⟩ := Indexable.declaration_and_statement bound'
    rw [Parser.declaration, Parser.declaration]
    refine recover (acceptIf (fun m hm token ↦ ?_) (hstatement inLoop (by omega) (by omega)))
    exact declarationAfter (by omega) (by omega)
      (fun inLoop ↦ (ih m hm).2 inLoop (by omega) (by omega)) hdeclares
      (fun _ _ _ _ ↦ lt_of_declaration) token

end Agree

end Lox.Parser
