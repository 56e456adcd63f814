import Lox.Machine.Evaluation
import Lox.Proofs.Computation

/-!
# More fuel

Fuel decides nothing but whether a computation halts as exhausted: with more fuel it ends as it did,
unless it was exhausted (`Outlasts.evaluate_and_execute`).  So how an expression is evaluated or a
statement executed with enough fuel is a question that has at most one answer (`Growing.unique`).
-/

namespace Lox.Run

/-- How a computation ends: with a result or with a halt, and with a machine either way. -/
abbrev Ending (α : Type) :=
  EStateM.Result Halt Machine α

/-- It did not run out of fuel. -/
def Settled {α : Type} : Ending α → Prop
  | .ok _ _ => True
  | .error halt _ => halt ≠ .exhausted

variable {α β : Type}

/-- The second computation ends as the first one does, unless that runs out of fuel. -/
def Outlasts (p q : Run α) : Prop :=
  ∀ m, Settled (p m) → q m = p m

namespace Outlasts

variable {p q : Run α}

theorem refl (p : Run α) : Outlasts p p :=
  fun _ _ ↦ rfl

theorem exhausted (q : Run α) : Outlasts (throw .exhausted) q :=
  fun _ hsettled ↦ absurd rfl hsettled

theorem bind {f g : α → Run β} (hp : Outlasts p q) (hf : ∀ a, Outlasts (f a) (g a)) :
    Outlasts (p >>= f) (q >>= g) := by
  intro m hsettled
  cases hfirst : p m with
  | ok a m' =>
    have hsame : q m = .ok a m' := by
      rw [← hfirst]
      exact hp m (by rw [hfirst]; trivial)
    rw [Computation.bind_of_ok hfirst] at hsettled ⊢
    rw [Computation.bind_of_ok hsame]
    exact hf a m' hsettled
  | error halt m' =>
    rw [Computation.bind_of_error hfirst] at hsettled ⊢
    have hsame : q m = .error halt m' := by
      rw [← hfirst]
      exact hp m (by rw [hfirst]; exact hsettled)
    exact Computation.bind_of_error hsame

theorem ite {c : Prop} [Decidable c] {p' q' : Run α} (hp : Outlasts p p') (hq : Outlasts q q') :
    Outlasts (if c then p else q) (if c then p' else q') := by
  split
  · exact hp
  · exact hq

theorem inScope (scope : ScopeRef) (h : Outlasts p q) :
    Outlasts (Run.inScope scope p) (Run.inScope scope q) := by
  intro m hsettled
  unfold Run.inScope at hsettled ⊢
  have hsame : q { m with current := scope } = p { m with current := scope } := by
    apply h
    cases hinner : p { m with current := scope } with
    | ok a m' => trivial
    | error halt m' =>
      rw [hinner] at hsettled
      exact hsettled
  rw [hsame]

section Step

variable {evaluate evaluate' : Expr → Run Value} {execute execute' : Stmt → Run Flow}

theorem sequence (hexecute : ∀ s, Outlasts (execute s) (execute' s)) (body : List Stmt) :
    Outlasts (Run.sequence execute body) (Run.sequence execute' body) := by
  induction body with
  | nil => exact refl _
  | cons s rest ih =>
    apply bind (hexecute s)
    intro flow
    cases flow with
    | normal => exact ih
    | _ => exact refl _

theorem valuesOf (hevaluate : ∀ e, Outlasts (evaluate e) (evaluate' e)) (es : List Expr) :
    Outlasts (Run.valuesOf evaluate es) (Run.valuesOf evaluate' es) := by
  induction es with
  | nil => exact refl _
  | cons e rest ih => exact bind (hevaluate e) fun value ↦ bind ih fun values ↦ refl _

theorem valueOrNil (hevaluate : ∀ e, Outlasts (evaluate e) (evaluate' e)) (o : Option Expr) :
    Outlasts (Run.valueOrNil evaluate o) (Run.valueOrNil evaluate' o) := by
  cases o with
  | none => exact refl _
  | some e => exact hevaluate e

/-- A loop that may make more rounds goes on as before. -/
theorem loop {condition condition' : Run Value} {body body' : Run Flow}
    (hcondition : Outlasts condition condition') (hbody : Outlasts body body') {rounds : Nat}
    (more : Nat) :
    Outlasts (Run.loop condition body rounds) (Run.loop condition' body' (rounds + more)) := by
  induction rounds with
  | zero => exact exhausted _
  | succ rounds ih =>
    rw [Nat.succ_add]
    apply bind hcondition
    intro value
    apply ite
    · apply bind hbody
      intro flow
      cases flow with
      | normal => exact ih
      | «continue» => exact ih
      | «break» => exact refl _
      | «return» value => exact refl _
    · exact refl _

theorem block (hexecute : ∀ s, Outlasts (execute s) (execute' s)) (body : List Stmt) :
    Outlasts (Run.block execute body) (Run.block execute' body) :=
  bind (refl _) fun _ ↦ bind (refl _) fun scope ↦ inScope scope (sequence hexecute body)

theorem callFunction (hexecute : ∀ s, Outlasts (execute s) (execute' s)) (f : Function)
    (arguments : List Value) :
    Outlasts (Run.callFunction execute f arguments) (Run.callFunction execute' f arguments) :=
  bind (refl _) fun scope ↦ bind (inScope scope (sequence hexecute f.routine.body)) fun _ ↦ refl _

theorem construct (hexecute : ∀ s, Outlasts (execute s) (execute' s)) (c : Class)
    (arguments : List Value) :
    Outlasts (Run.construct execute c arguments) (Run.construct execute' c arguments) := by
  apply bind (refl _)
  intro i
  cases c.findMethod? Class.initializerName with
  | none => exact refl _
  | some init =>
    exact bind (refl _) fun f ↦ bind (callFunction hexecute f arguments) fun _ ↦ refl _

theorem call (hexecute : ∀ s, Outlasts (execute s) (execute' s)) (callee : Callee) (line : Nat)
    (arguments : List Value) :
    Outlasts (Run.call execute callee line arguments)
      (Run.call execute' callee line arguments) := by
  cases callee with
  | builtin b => exact refl _
  | function f => exact callFunction hexecute f arguments
  | cls c => exact construct hexecute c arguments

theorem declareClass (hevaluate : ∀ e, Outlasts (evaluate e) (evaluate' e)) (name : Token)
    (superclass : Option Expr) (methods : List (Routine Stmt)) :
    Outlasts (Run.declareClass evaluate name superclass methods)
      (Run.declareClass evaluate' name superclass methods) := by
  apply bind (refl _)
  intro _
  cases superclass with
  | none => exact refl _
  | some e => exact bind (hevaluate e) fun _ ↦ refl _

theorem evaluateWith (hevaluate : ∀ e, Outlasts (evaluate e) (evaluate' e))
    (hexecute : ∀ s, Outlasts (execute s) (execute' s)) (e : Expr) :
    Outlasts (Run.evaluateWith evaluate execute e) (Run.evaluateWith evaluate' execute' e) := by
  cases e with
  | literal value => exact refl _
  | grouping inner => exact hevaluate inner
  | unary op operand => exact bind (hevaluate operand) fun _ ↦ refl _
  | binary op left right =>
    exact bind (hevaluate left) fun _ ↦ bind (hevaluate right) fun _ ↦ refl _
  | logical op left right => exact bind (hevaluate left) fun a ↦ ite (refl _) (hevaluate right)
  | var id name => exact refl _
  | assign id name value => exact bind (hevaluate value) fun _ ↦ refl _
  | call callee paren arguments =>
    apply bind (hevaluate callee)
    intro value
    cases value.callee? with
    | none => exact refl _
    | some target =>
      apply bind (valuesOf hevaluate arguments)
      intro values
      exact ite (refl _) (call hexecute target paren.line values)
  | get object name => exact bind (hevaluate object) fun _ ↦ refl _
  | set object name value =>
    apply bind (hevaluate object)
    intro target
    split
    · exact bind (hevaluate value) fun _ ↦ refl _
    · exact refl _
  | this id keyword => exact refl _
  | super id keyword method => exact refl _

theorem executeWith (hevaluate : ∀ e, Outlasts (evaluate e) (evaluate' e))
    (hexecute : ∀ s, Outlasts (execute s) (execute' s)) (rounds more : Nat) (s : Stmt) :
    Outlasts (Run.executeWith evaluate execute rounds s)
      (Run.executeWith evaluate' execute' (rounds + more) s) := by
  cases s with
  | block body => exact block hexecute body
  | classDecl name superclass methods =>
    exact bind (declareClass hevaluate name superclass methods) fun _ ↦ refl _
  | expression e => exact bind (hevaluate e) fun _ ↦ refl _
  | function routine => exact refl _
  | ifElse condition thenBranch elseBranch =>
    apply bind (hevaluate condition)
    intro value
    apply ite (hexecute thenBranch)
    cases elseBranch with
    | none => exact refl _
    | some other => exact hexecute other
  | print e => exact bind (hevaluate e) fun _ ↦ refl _
  | «return» keyword value => exact bind (valueOrNil hevaluate value) fun _ ↦ refl _
  | var name initializer => exact bind (valueOrNil hevaluate initializer) fun _ ↦ refl _
  | «while» condition body => exact loop (hevaluate condition) (hexecute body) more
  | «break» keyword => exact refl _
  | «continue» keyword => exact refl _

end Step

theorem evaluate_and_execute (fuel more : Nat) :
    (∀ e, Outlasts (evaluate fuel e) (evaluate (fuel + more) e)) ∧
      ∀ s, Outlasts (execute fuel s) (execute (fuel + more) s) := by
  induction fuel with
  | zero => exact ⟨fun _ ↦ exhausted _, fun _ ↦ exhausted _⟩
  | succ fuel ih =>
    obtain ⟨hevaluate, hexecute⟩ := ih
    rw [Nat.succ_add]
    exact ⟨evaluateWith hevaluate hexecute, executeWith hevaluate hexecute fuel more⟩

end Outlasts

/-! ### Enough fuel -/

/-- A computation for every amount of fuel, which ends no differently with more of it. -/
def Growing (p : Nat → Run α) : Prop :=
  ∀ fuel more, Outlasts (p fuel) (p (fuel + more))

/-- How a computation ends if it has enough fuel. -/
def Comes (p : Nat → Run α) (m : Machine) (ending : Ending α) : Prop :=
  ∃ fuel, p fuel m = ending ∧ Settled ending

theorem growing_evaluate (e : Expr) : Growing fun fuel ↦ evaluate fuel e :=
  fun fuel more ↦ (Outlasts.evaluate_and_execute fuel more).1 e

theorem growing_execute (s : Stmt) : Growing fun fuel ↦ execute fuel s :=
  fun fuel more ↦ (Outlasts.evaluate_and_execute fuel more).2 s

namespace Growing

variable {p : Nat → Run α} {m : Machine} {ending : Ending α}

theorem const (x : Run α) : Growing fun _ ↦ x :=
  fun _ _ ↦ .refl x

theorem at_more (hp : Growing p) {fuel more : Nat} (hfuel : p fuel m = ending)
    (hsettled : Settled ending) (hle : fuel ≤ more) : p more m = ending := by
  obtain ⟨extra, rfl⟩ := Nat.exists_eq_add_of_le hle
  rw [← hfuel] at hsettled ⊢
  exact hp fuel extra m hsettled

/-- Enough fuel settles the question. -/
theorem unique (hp : Growing p) {other : Ending α} (h : Comes p m ending) (h' : Comes p m other) :
    ending = other := by
  obtain ⟨fuel, hfuel, hsettled⟩ := h
  obtain ⟨fuel', hfuel', hsettled'⟩ := h'
  calc ending
    _ = p (max fuel fuel') m := (hp.at_more hfuel hsettled (Nat.le_max_left ..)).symm
    _ = other := hp.at_more hfuel' hsettled' (Nat.le_max_right ..)

/-- It does not matter how fuel is counted. -/
theorem comes_succ (hp : Growing p) :
    Comes (fun fuel ↦ p (fuel + 1)) m ending ↔ Comes p m ending := by
  constructor
  · rintro ⟨fuel, hfuel, hsettled⟩
    exact ⟨fuel + 1, hfuel, hsettled⟩
  · rintro ⟨fuel, hfuel, hsettled⟩
    exact ⟨fuel, hp.at_more hfuel hsettled (Nat.le_succ fuel), hsettled⟩

end Growing

theorem comes_const {x : Run α} {m : Machine} {ending : Ending α} :
    Comes (fun _ ↦ x) m ending ↔ x m = ending ∧ Settled ending :=
  ⟨fun ⟨_, h⟩ ↦ h, fun h ↦ ⟨0, h⟩⟩

/-- A sequence comes to an end if its first part halts, or if its second part ends behind a result
of the first. -/
theorem comes_bind {p : Nat → Run α} {f : Nat → α → Run β} (hp : Growing p)
    (hf : ∀ a, Growing (f · a)) {m : Machine} {ending : Ending β} :
    Comes (fun fuel ↦ p fuel >>= f fuel) m ending ↔
      (∃ halt m', Comes p m (.error halt m') ∧ ending = .error halt m') ∨
        ∃ a m', Comes p m (.ok a m') ∧ Comes (f · a) m' ending := by
  constructor
  · rintro ⟨fuel, hends, hsettled⟩
    have hends : (p fuel >>= f fuel) m = ending := hends
    cases hfirst : p fuel m with
    | error halt m' =>
      rw [Computation.bind_of_error hfirst] at hends
      subst hends
      exact .inl ⟨halt, m', ⟨fuel, hfirst, hsettled⟩, rfl⟩
    | ok a m' =>
      rw [Computation.bind_of_ok hfirst] at hends
      exact .inr ⟨a, m', ⟨fuel, hfirst, trivial⟩, fuel, hends, hsettled⟩
  · rintro (⟨halt, m', ⟨fuel, hfirst, hsettled⟩, rfl⟩ |
      ⟨a, m', ⟨fuel, hfirst, hsettled⟩, fuel', hsecond, hsettled'⟩)
    · exact ⟨fuel, Computation.bind_of_error hfirst, hsettled⟩
    · have hfirst' := hp.at_more hfirst hsettled (Nat.le_max_left fuel fuel')
      have hsecond' := (hf a).at_more hsecond hsettled' (Nat.le_max_right fuel fuel')
      refine ⟨max fuel fuel', ?_, hsettled'⟩
      calc (p (max fuel fuel') >>= f (max fuel fuel')) m
        _ = f (max fuel fuel') a m' := Computation.bind_of_ok hfirst'
        _ = ending := hsecond'

/-- Back in a scope, however it ended. -/
def Ending.leave (scope : ScopeRef) : Ending α → Ending α
  | .ok a m => .ok a { m with current := scope }
  | .error halt m => .error halt { m with current := scope }

theorem settled_leave {scope : ScopeRef} {ending : Ending α} :
    Settled (ending.leave scope) ↔ Settled ending := by
  cases ending with
  | ok a m => exact Iff.rfl
  | error halt m => exact Iff.rfl

theorem comes_inScope {p : Nat → Run α} {scope : ScopeRef} {m : Machine} {ending : Ending α} :
    Comes (fun fuel ↦ inScope scope (p fuel)) m ending ↔
      ∃ inner, Comes p { m with current := scope } inner ∧ ending = inner.leave m.current := by
  have hscope : ∀ fuel, inScope scope (p fuel) m =
      Ending.leave m.current (p fuel { m with current := scope }) := by
    intro fuel
    unfold inScope
    cases p fuel { m with current := scope } with
    | ok a m' => rfl
    | error halt m' => rfl
  constructor
  · rintro ⟨fuel, hends, hsettled⟩
    have hends := (hscope fuel).symm.trans hends
    rw [← hends, settled_leave] at hsettled
    exact ⟨_, ⟨fuel, rfl, hsettled⟩, hends.symm⟩
  · rintro ⟨inner, ⟨fuel, rfl, hsettled⟩, rfl⟩
    exact ⟨fuel, hscope fuel, settled_leave.2 hsettled⟩

/-- How an expression is evaluated with enough fuel. -/
def Evaluates (e : Expr) : Machine → Ending Value → Prop :=
  Comes fun fuel ↦ evaluate fuel e

/-- How a statement is executed with enough fuel. -/
def Executes (s : Stmt) : Machine → Ending Flow → Prop :=
  Comes fun fuel ↦ execute fuel s

end Lox.Run
