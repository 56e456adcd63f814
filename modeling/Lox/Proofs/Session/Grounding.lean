import Lox.Proofs.Machine.Grounding
import Lox.Proofs.Session.Lasting

/-!
# Expressions and blocks declare nothing outside

Sessions keep their machines grounded, and in a grounded machine neither an expression nor a block
adds a name to a scope that exists (`Session.scopes_framed`).
-/

namespace Lox

theorem Machine.Grounded.start (host : Host) : (Machine.start host).Grounded := by
  refine ⟨Discipline.kept_start host ?_ fun _ ↦ trivial, Nat.zero_lt_one⟩
  refine ⟨Nat.zero_le _, fun scope parent hparent ↦ ?_⟩
  have hscope : scope = 0 := Nat.lt_one_iff.1 (Heap.lt_size_of_parent? hparent)
  subst hscope
  cases hparent

theorem Machine.Grounded.lasting : Machine.Lasting Machine.Grounded where
  start := .start
  host _ hm := ⟨hm.kept, hm.current⟩
  record _ hm := ⟨hm.kept, hm.current⟩
  program {m n source} fuel _ _ hm := by
    have hrecorded : ∀ findings, (m.record findings).Grounded := fun _ ↦ ⟨hm.kept, hm.current⟩
    exact (hrecorded _).program fuel _
  expression {m _ _ e} fuel _ _ hm := by
    have hframes := (hm.evaluate .exhausted fuel e).2
    unfold Run.Frames Computation.EndsIn at hframes
    unfold Computation.EndsIn
    split at hframes
    · exact hframes.grounded
    · exact hframes.grounded

/-- Expressions and blocks declare nothing in scopes that exist.  However they end, each scope has
kept its parent and its names, each new one lies in an older one, and each chain ends where one
ended before.  To assign to a name that its scope does not hold fails, whatever the right side does.
A block and a call open a scope that stays, and every statement on the way is executed in a scope
that was not there at the start: the demand for that can be made of each, in whatever block or call,
without changing what happens.  So no two of them ever share a scope. -/
theorem Session.scopes_framed :
    (∀ (s : Session) (known : List Site), s.Reachable known → s.machine.Grounded) ∧
      ∀ m : Machine, m.Grounded → ∀ (fuel : Nat) (alarm : Halt),
        (∀ e, Run.Frames (Run.evaluate fuel e) m ∧
          Run.evaluateOverseen (Run.demandNew m.heap.scopes.size alarm) fuel e m =
            Run.evaluate fuel e m) ∧
        (∀ body, Run.Frames (Run.execute (fuel + 1) (.block body)) m ∧
          Run.Opens (Run.execute (fuel + 1) (.block body)) m ∧
          Run.block (Run.executeOverseen (Run.demandNew m.heap.scopes.size alarm) fuel) body m =
            Run.execute (fuel + 1) (.block body) m) ∧
        (∀ v callee line arguments, v.callee? = some callee →
          (Discipline.grounding 0).Admits m.heap v →
          (∀ argument ∈ arguments, (Discipline.grounding 0).Admits m.heap argument) →
          Run.Frames (Run.call (Run.execute fuel) callee line arguments) m ∧
            (∀ f, callee = .function f →
              Run.Opens (Run.call (Run.execute fuel) callee line arguments) m) ∧
            Run.call (Run.executeOverseen (Run.demandNew m.heap.scopes.size alarm) fuel) callee line
              arguments m = Run.call (Run.execute fuel) callee line arguments m) ∧
        ∀ id name value,
          (∀ scope, m.scopeOf? id = some scope → m.heap.holds scope name.lexeme = false) →
          match Run.evaluate fuel value m with
          | .ok _ m' => Run.evaluate (fuel + 1) (.assign id name value) m =
              .error (.fault name.line (.undefinedVariable name.lexeme)) m'
          | .error halt m' =>
            Run.evaluate (fuel + 1) (.assign id name value) m = .error halt m' := by
  refine ⟨fun s known hs ↦ hs.lasting Machine.Grounded.lasting, fun m hm fuel alarm ↦ ?_⟩
  refine ⟨fun e ↦ ?_, fun body ↦ ?_, fun v callee line arguments hcallee hv harguments ↦ ?_,
    fun id name value hunbound ↦ hm.assign hunbound fuel value⟩
  · exact (hm.evaluate alarm fuel e).symm
  · obtain ⟨heq, hframes⟩ := hm.block alarm fuel body
    rw [Run.execute]
    exact ⟨hframes, Run.opens_block fuel body m, heq⟩
  · obtain ⟨heq, hframes⟩ := hm.call alarm fuel hcallee hv line harguments
    refine ⟨hframes, ?_, heq⟩
    rintro f rfl
    exact Run.opens_callFunction fuel f arguments m

/-- Whether `f` can be called in the session of a step, and whether no scope holds the name to which
`missing = f()` assigns. -/
def Step.closureFacts (step : Step) : Option (Bool × Bool) := do
  let e ← (readExpression step.session.nextId (tokens "missing = f()")).result
  let v ← step.session.machine.heap.get? Machine.globals "f"
  return (v.callee?.isSome, match e with
    | .assign id name _ => (step.session.machine.scopeOf? id).all fun scope ↦
        !step.session.machine.heap.holds scope name.lexeme
    | _ => false)

/-- A closure that counts, called in the session that made it, and an assignment to a name that is
nowhere. -/
theorem Session.scopes_framed_closure : ∃ step known e v callee,
    (Session.start {}).serve 40 (.run
        "fun make(n) { fun next() { n = !n; return n; } return next; } var f = make(true);") =
      some step ∧ step.session.Reachable known ∧
      (readExpression step.session.nextId (tokens "missing = f()")).result = some e ∧
      Run.Frames (Run.evaluate 40 e) step.session.machine ∧
      step.session.machine.heap.get? Machine.globals "f" = some v ∧ v.callee? = some callee ∧
      Run.Frames (Run.call (Run.execute 40) callee 1 []) step.session.machine ∧
      (∀ id name value, e = .assign id name value → ∀ v m',
        Run.evaluate 40 value step.session.machine = .ok v m' →
        Run.evaluate 41 e step.session.machine =
          .error (.fault name.line (.undefinedVariable name.lexeme)) m') := by
  have hsome : ((Session.start {}).serve 40 (.run
      "fun make(n) { fun next() { n = !n; return n; } return next; } var f = make(true);")).bind
        Step.closureFacts = some (true, true) := by
    decide +kernel
  obtain ⟨step, hstep, hfacts⟩ := Option.bind_eq_some_iff.1 hsome
  unfold Step.closureFacts at hfacts
  obtain ⟨e, he, hrest⟩ := Option.bind_eq_some_iff.1 hfacts
  obtain ⟨v, hv, hpair⟩ := Option.bind_eq_some_iff.1 hrest
  obtain ⟨hcallee, hunbound⟩ := Prod.mk.inj (Option.some.inj hpair)
  obtain ⟨callee, hcallee⟩ := Option.isSome_iff_exists.1 hcallee
  have hreachable := (Session.Reachable.start {}).serve 40 _ hstep
  obtain ⟨hgrounded, hframed⟩ := scopes_framed
  have hm := hgrounded _ _ hreachable
  obtain ⟨hevaluate, -, hcall, hassign⟩ := hframed _ hm 40 .exhausted
  refine ⟨step, _, e, v, callee, hstep, hreachable, he, (hevaluate e).1, hv, hcallee,
    (hcall v callee 1 [] hcallee (hm.kept.bound _ _ _ hv) nofun).1, ?_⟩
  rintro id name value rfl w m' hok
  have hall : (step.session.machine.scopeOf? id).all
      (fun scope ↦ !step.session.machine.heap.holds scope name.lexeme) = true := hunbound
  have hfails := hassign id name value fun scope hscope ↦ by
    rw [hscope] at hall
    simpa using hall
  rw [hok] at hfails
  exact hfails

end Lox
