import Lox.Proofs.Machine.Fuel
import Mathlib.Logic.Relation
import Mathlib.Order.Filter.AtTopBot.Basic

/-!
# Rounds

Each round of a loop begins with a test and goes on with a turn.  A loop that comes to an end makes
some rounds behind which it goes on, and then one in which it stops.  For a `while` loop the test is
its condition and the turn is its body (`executes_while`).
-/

namespace Lox.Run

section Loops

variable (test : Machine → Ending Bool → Prop) (turn : Machine → Ending Flow → Prop)

/-- One round, behind which the loop goes on. -/
inductive GoesOn (m : Machine) : Machine → Prop
  | normal {m' m'' : Machine} (htest : test m (.ok true m'))
      (hturn : turn m' (.ok .normal m'')) : GoesOn m m''
  | continue {m' m'' : Machine} (htest : test m (.ok true m'))
      (hturn : turn m' (.ok .continue m'')) : GoesOn m m''

/-- The round in which the loop stops. -/
inductive Stops (m : Machine) : Ending Flow → Prop
  | done {m' : Machine} (htest : test m (.ok false m')) : Stops m (.ok .normal m')
  | break {m' m'' : Machine} (htest : test m (.ok true m'))
      (hturn : turn m' (.ok .break m'')) : Stops m (.ok .normal m'')
  | return {m' m'' : Machine} {value : Value} (htest : test m (.ok true m'))
      (hturn : turn m' (.ok (.return value) m'')) : Stops m (.ok (.return value) m'')
  | untested {halt : Halt} {m' : Machine} (htest : test m (.error halt m')) :
      Stops m (.error halt m')
  | halted {halt : Halt} {m' m'' : Machine} (htest : test m (.ok true m'))
      (hturn : turn m' (.error halt m'')) : Stops m (.error halt m'')

/-- A loop that comes to an end. -/
def Repeats (m : Machine) (ending : Ending Flow) : Prop :=
  ∃ last, Relation.ReflTransGen (GoesOn test turn) m last ∧ Stops test turn last ending

end Loops

section Mono

variable {test test' : Machine → Ending Bool → Prop} {turn turn' : Machine → Ending Flow → Prop}
  {m m' : Machine} {ending : Ending Flow}

theorem GoesOn.mono (h : GoesOn test turn m m')
    (htest : ∀ m ending, Settled ending → test m ending → test' m ending)
    (hturn : ∀ m ending, Settled ending → turn m ending → turn' m ending) :
    GoesOn test' turn' m m' := by
  cases h with
  | normal h h' => exact .normal (htest _ _ trivial h) (hturn _ _ trivial h')
  | «continue» h h' => exact .continue (htest _ _ trivial h) (hturn _ _ trivial h')

theorem Stops.mono (h : Stops test turn m ending) (hsettled : Settled ending)
    (htest : ∀ m ending, Settled ending → test m ending → test' m ending)
    (hturn : ∀ m ending, Settled ending → turn m ending → turn' m ending) :
    Stops test' turn' m ending := by
  cases h with
  | done h => exact .done (htest _ _ trivial h)
  | «break» h h' => exact .break (htest _ _ trivial h) (hturn _ _ trivial h')
  | «return» h h' => exact .return (htest _ _ trivial h) (hturn _ _ trivial h')
  | untested h => exact .untested (htest _ _ hsettled h)
  | halted h h' => exact .halted (htest _ _ trivial h) (hturn _ _ hsettled h')

theorem Stops.settled (h : Stops test turn m ending)
    (htest : ∀ m ending, test m ending → Settled ending)
    (hturn : ∀ m ending, turn m ending → Settled ending) : Settled ending := by
  cases h with
  | done h => trivial
  | «break» h h' => trivial
  | «return» h h' => trivial
  | untested h => exact htest _ _ h
  | halted h h' => exact hturn _ _ h'

end Mono

/-- Whether there is a value that counts as true. -/
def Ending.truth : Ending Value → Ending Bool
  | .ok value m => .ok value.isTruthy m
  | .error halt m => .error halt m

/-- What the test of a condition tells; it holds if there is none. -/
def Tests : Option Expr → Machine → Ending Bool → Prop
  | none, m, ending => ending = .ok true m
  | some e, m, ending => ∃ given, Evaluates e m given ∧ given.truth = ending

theorem settled_truth {given : Ending Value} : Settled given.truth ↔ Settled given := by
  cases given with
  | ok value m => exact Iff.rfl
  | error halt m => exact Iff.rfl

theorem Tests.settled {condition : Option Expr} {m : Machine} {ending : Ending Bool}
    (h : Tests condition m ending) : Settled ending := by
  cases condition with
  | none =>
    subst h
    trivial
  | some e =>
    obtain ⟨given, ⟨fuel, -, hsettled⟩, rfl⟩ := h
    exact settled_truth.2 hsettled

theorem evaluates_literal {value : Literal} {m : Machine} {ending : Ending Value} :
    Evaluates (.literal value) m ending ↔ ending = .ok (.ofLiteral value) m := by
  unfold Evaluates
  rw [← (growing_evaluate _).comes_succ]
  constructor
  · rintro ⟨fuel, rfl, -⟩
    rfl
  · rintro rfl
    exact ⟨0, rfl, trivial⟩

/-- No condition is a condition that is always true. -/
theorem tests_getD (condition : Option Expr) :
    Tests (some (condition.getD (.literal (.bool true)))) = Tests condition := by
  cases condition with
  | some e => rfl
  | none =>
    funext m ending
    simp only [Tests, Option.getD_none, evaluates_literal, exists_eq_left]
    exact propext eq_comm

/-! ### `while` -/

/-- What a condition tells. -/
def Tested (condition : Run Value) (m : Machine) (ending : Ending Bool) : Prop :=
  Ending.truth (condition m) = ending

/-- How a body ends. -/
def Turned (body : Run Flow) (m : Machine) (ending : Ending Flow) : Prop :=
  body m = ending

section While

variable {condition : Run Value} {body : Run Flow} {rounds : Nat} {m m' : Machine}
  {ending : Ending Flow}

theorem loop_of_error {halt : Halt} (h : Tested condition m (.error halt m')) :
    loop condition body (rounds + 1) m = .error halt m' := by
  unfold Tested at h
  cases hgiven : condition m with
  | ok value m'' =>
    rw [hgiven] at h
    cases h
  | error halt' m'' =>
    rw [hgiven] at h
    cases h
    exact Computation.bind_of_error hgiven

theorem Tested.exists_value {truth : Bool} (h : Tested condition m (.ok truth m')) :
    ∃ value, condition m = .ok value m' ∧ value.isTruthy = truth := by
  unfold Tested at h
  cases hgiven : condition m with
  | error halt m'' =>
    rw [hgiven] at h
    cases h
  | ok value m'' =>
    rw [hgiven] at h
    obtain ⟨hvalue, rfl⟩ := EStateM.Result.ok.inj h
    exact ⟨value, rfl, hvalue⟩

theorem loop_of_false (h : Tested condition m (.ok false m')) :
    loop condition body (rounds + 1) m = .ok .normal m' := by
  obtain ⟨value, hgiven, hvalue⟩ := h.exists_value
  rw [loop, Computation.bind_of_ok hgiven, hvalue]
  rfl

theorem loop_of_true (h : Tested condition m (.ok true m')) :
    loop condition body (rounds + 1) m = (body >>= fun flow ↦
      match flow with
      | .break => return .normal
      | .return value => return .return value
      | _ => loop condition body rounds) m' := by
  obtain ⟨value, hgiven, hvalue⟩ := h.exists_value
  rw [loop, Computation.bind_of_ok hgiven, hvalue]
  rfl

theorem loop_of_stops (h : Stops (Tested condition) (Turned body) m ending) :
    loop condition body (rounds + 1) m = ending := by
  cases h with
  | done htest => exact loop_of_false htest
  | «break» htest hturn => rw [loop_of_true htest, Computation.bind_of_ok hturn]; rfl
  | «return» htest hturn => rw [loop_of_true htest, Computation.bind_of_ok hturn]; rfl
  | untested htest => exact loop_of_error htest
  | halted htest hturn => rw [loop_of_true htest, Computation.bind_of_error hturn]

theorem loop_of_goesOn (h : GoesOn (Tested condition) (Turned body) m m') :
    loop condition body (rounds + 1) m = loop condition body rounds m' := by
  cases h with
  | normal htest hturn => rw [loop_of_true htest, Computation.bind_of_ok hturn]
  | «continue» htest hturn => rw [loop_of_true htest, Computation.bind_of_ok hturn]

/-- A round stops the loop, or the loop goes on behind it. -/
theorem stops_or_goesOn (condition : Run Value) (body : Run Flow) (m : Machine) :
    (∃ ending, Stops (Tested condition) (Turned body) m ending) ∨
      ∃ m', GoesOn (Tested condition) (Turned body) m m' := by
  cases htest : Ending.truth (condition m) with
  | error halt m' => exact .inl ⟨_, .untested htest⟩
  | ok truth m' =>
    cases truth with
    | false => exact .inl ⟨_, .done htest⟩
    | true =>
      cases hturn : body m' with
      | error halt m'' => exact .inl ⟨_, .halted htest hturn⟩
      | ok flow m'' =>
        cases flow with
        | normal => exact .inr ⟨m'', .normal htest hturn⟩
        | «continue» => exact .inr ⟨m'', .continue htest hturn⟩
        | «break» => exact .inl ⟨_, .break htest hturn⟩
        | «return» value => exact .inl ⟨_, .return htest hturn⟩

/-- By induction on the rounds that a loop may make: if they were enough, it came to an end. -/
theorem repeats_of_loop (h : loop condition body rounds m = ending) (hsettled : Settled ending) :
    Repeats (Tested condition) (Turned body) m ending := by
  induction rounds generalizing m with
  | zero =>
    subst h
    exact absurd rfl hsettled
  | succ rounds ih =>
    rcases stops_or_goesOn condition body m with ⟨ending', hstops⟩ | ⟨m', hround⟩
    · rw [loop_of_stops hstops] at h
      subst h
      exact ⟨m, .refl, hstops⟩
    · rw [loop_of_goesOn hround] at h
      obtain ⟨last, hrounds, hstops⟩ := ih h
      exact ⟨last, hrounds.head hround, hstops⟩

end While

/-- With enough fuel, a computation ends as it comes to end. -/
theorem Growing.eventually {α : Type} {p : Nat → Run α} {m : Machine} {ending : Ending α}
    (hp : Growing p) (h : Comes p m ending) : ∀ᶠ fuel in Filter.atTop, p fuel m = ending := by
  obtain ⟨fuel, hfuel, hsettled⟩ := h
  exact Filter.eventually_atTop.2 ⟨fuel, fun more hle ↦ hp.at_more hfuel hsettled hle⟩

section While

variable {condition : Expr} {body : Stmt} {m m' : Machine} {ending : Ending Flow}

theorem eventually_tested {given : Ending Bool} (h : Tests (some condition) m given) :
    ∀ᶠ fuel in Filter.atTop, Tested (evaluate fuel condition) m given := by
  obtain ⟨value, hvalue, rfl⟩ := h
  filter_upwards [(growing_evaluate condition).eventually hvalue] with fuel hfuel
  exact congrArg Ending.truth hfuel

theorem eventually_turned (h : Executes body m ending) :
    ∀ᶠ fuel in Filter.atTop, Turned (execute fuel body) m ending :=
  (growing_execute body).eventually h

theorem eventually_stops (h : Stops (Tests (some condition)) (Executes body) m ending) :
    ∀ᶠ fuel in Filter.atTop,
      Stops (Tested (evaluate fuel condition)) (Turned (execute fuel body)) m ending := by
  cases h with
  | done htest =>
    filter_upwards [eventually_tested htest] with fuel htest
    exact .done htest
  | «break» htest hturn =>
    filter_upwards [eventually_tested htest, eventually_turned hturn] with fuel htest hturn
    exact .break htest hturn
  | «return» htest hturn =>
    filter_upwards [eventually_tested htest, eventually_turned hturn] with fuel htest hturn
    exact .return htest hturn
  | untested htest =>
    filter_upwards [eventually_tested htest] with fuel htest
    exact .untested htest
  | halted htest hturn =>
    filter_upwards [eventually_tested htest, eventually_turned hturn] with fuel htest hturn
    exact .halted htest hturn

theorem eventually_goesOn (h : GoesOn (Tests (some condition)) (Executes body) m m') :
    ∀ᶠ fuel in Filter.atTop,
      GoesOn (Tested (evaluate fuel condition)) (Turned (execute fuel body)) m m' := by
  cases h with
  | normal htest hturn =>
    filter_upwards [eventually_tested htest, eventually_turned hturn] with fuel htest hturn
    exact .normal htest hturn
  | «continue» htest hturn =>
    filter_upwards [eventually_tested htest, eventually_turned hturn] with fuel htest hturn
    exact .continue htest hturn

/-- By induction on the rounds that it makes: a loop that comes to an end ends so if it may make
enough rounds, each with enough fuel. -/
theorem eventually_loop (h : Repeats (Tests (some condition)) (Executes body) m ending) :
    ∃ rounds, ∀ᶠ fuel in Filter.atTop,
      loop (evaluate fuel condition) (execute fuel body) rounds m = ending := by
  obtain ⟨last, hrounds, hstops⟩ := h
  induction hrounds using Relation.ReflTransGen.head_induction_on with
  | refl =>
    refine ⟨1, ?_⟩
    filter_upwards [eventually_stops hstops] with fuel hstops
    exact loop_of_stops hstops
  | head hround _ ih =>
    obtain ⟨rounds, hloop⟩ := ih
    refine ⟨rounds + 1, ?_⟩
    filter_upwards [eventually_goesOn hround, hloop] with fuel hround hloop
    rw [loop_of_goesOn hround, hloop]

theorem executes_succ (s : Stmt) :
    Comes (fun fuel ↦ execute (fuel + 1) s) m ending ↔ Executes s m ending :=
  (growing_execute s).comes_succ

/-- A `while` loop tests its condition and executes its body in each round. -/
theorem executes_while :
    Executes (.while condition body) m ending ↔
      Repeats (Tests (some condition)) (Executes body) m ending := by
  rw [← executes_succ]
  constructor
  · rintro ⟨fuel, hends, hsettled⟩
    obtain ⟨last, hrounds, hstops⟩ := repeats_of_loop hends hsettled
    have htest : ∀ m given, Settled given → Tested (evaluate fuel condition) m given →
        Tests (some condition) m given := by
      rintro m _ hsettled rfl
      exact ⟨_, ⟨fuel, rfl, settled_truth.1 hsettled⟩, rfl⟩
    have hturn : ∀ m given, Settled given → Turned (execute fuel body) m given →
        Executes body m given :=
      fun m given hsettled h ↦ ⟨fuel, h, hsettled⟩
    have hround : ∀ m m',
        GoesOn (Tested (evaluate fuel condition)) (Turned (execute fuel body)) m m' →
          GoesOn (Tests (some condition)) (Executes body) m m' :=
      fun m m' h ↦ h.mono htest hturn
    exact ⟨last, Relation.ReflTransGen.mono hround m last hrounds,
      hstops.mono hsettled htest hturn⟩
  · intro h
    have hsettled : Settled ending := by
      obtain ⟨last, -, hstops⟩ := h
      exact hstops.settled (fun _ _ ↦ Tests.settled) fun _ _ ⟨_, _, hsettled⟩ ↦ hsettled
    obtain ⟨rounds, hloop⟩ := eventually_loop h
    obtain ⟨fuel, hloop, hle⟩ := (hloop.and (Filter.eventually_ge_atTop rounds)).exists
    obtain ⟨more, rfl⟩ := Nat.exists_eq_add_of_le hle
    refine ⟨rounds + more, ?_, hsettled⟩
    rw [← hloop] at hsettled ⊢
    exact Outlasts.loop (.refl _) (.refl _) more m hsettled

end While

end Lox.Run
