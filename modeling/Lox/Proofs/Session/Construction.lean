import Lox.Proofs.Machine.Construction
import Lox.Proofs.Session.Receivers

/-!
# Construction hands back the instance, in every session

The machines of sessions are receptive, so all that is known of construction in a receptive machine
is known of every program and of every expression that a session runs
(`Session.Reachable.instances_handed_back`).
-/

namespace Lox

-- As for receivers: no program is computed to know what it obeys.
attribute [local irreducible] readProgram

namespace Session

/-- Print the value of an expression, with checks before every expression and every statement. -/
def evaluateOverseen (oversight : Oversight) (fuel : Nat) (s : Session) (source : String) :
    Option Step :=
  s.withExpression source fun e ↦ do
    let value ← Run.evaluateOverseen oversight fuel e
    Run.printLine value.display

end Session

/-- Every receptive machine meets a demand before expressions and one before statements. -/
structure Machine.Receptive.Meets (onExpr : Expr → Machine → Prop)
    (onStmt : Stmt → Machine → Prop) : Prop where
  expression : ∀ {m : Machine} {e : Expr}, m.Receptive → e.Proper (fun _ ↦ True) → onExpr e m
  statement : ∀ {m : Machine} {s : Stmt}, m.Receptive →
    s.Obeys (.proper (Machine.Locates m.addresses)) → onStmt s m

section Meets

variable {onExpr : Expr → Machine → Prop} {onStmt : Stmt → Machine → Prop}
  (h : Machine.Receptive.Meets onExpr onStmt) (alarm objection : Halt) (fuel : Nat)
include h

theorem Conduct.keeping_demanding_lawful (m : Machine) :
    (Conduct.keeping m (.demanding onExpr onStmt alarm objection)).Lawful := by
  apply Conduct.keeping_lawful
  · intro e m' he hm'
    exact Run.ensure_of_property (h.expression hm'.toSane.receptive he) alarm
  · intro s m' hs hm'
    have haddresses : m'.addresses = m.addresses := hm'.addresses
    rw [← haddresses] at hs
    exact Run.ensure_of_property (h.statement hm'.toSane.receptive hs) objection

theorem Machine.Receptive.programOverseen_demanding {m : Machine} (hm : m.Receptive)
    {statements : List Stmt}
    (hstatements : Stmt.ObeysAll (.proper (Machine.Locates m.addresses)) statements) :
    Run.programOverseen (.demanding onExpr onStmt alarm objection) fuel statements m =
      Run.program fuel statements m := by
  have hupheld := Conduct.program_upheld (Conduct.keeping_demanding_lawful h alarm objection m) fuel
    hstatements ⟨⟨hm, rfl⟩, trivial⟩
  calc Run.programOverseen (.demanding onExpr onStmt alarm objection) fuel statements m
    _ = Run.programOverseen .blind fuel statements m := hupheld.eq_of_not_excused fun _ ↦ id
    _ = Run.program fuel statements m := by rw [Run.programOverseen_blind]

theorem Machine.Receptive.evaluateOverseen_demanding {m : Machine} (hm : m.Receptive) {e : Expr}
    (he : e.Proper fun _ ↦ True) :
    Run.evaluateOverseen (.demanding onExpr onStmt alarm objection) fuel e m =
      Run.evaluate fuel e m := by
  have hupheld := (Conduct.evaluate_and_execute_upheld
    (Conduct.keeping_demanding_lawful h alarm objection m) fuel).1 e m he ⟨⟨hm, rfl⟩, trivial⟩
  calc Run.evaluateOverseen (.demanding onExpr onStmt alarm objection) fuel e m
    _ = Run.evaluateOverseen .blind fuel e m := hupheld.eq_of_not_excused fun _ ↦ id
    _ = Run.evaluate fuel e m := by rw [(Run.overseen_blind fuel).1]

variable {s : Session} {known : List Site} (hs : s.Reachable known) (source : String)
include hs

/-- In a session no demand that receptive machines meet is noticed. -/
theorem Session.Reachable.runOverseen_demanding :
    s.runOverseen (.demanding onExpr onStmt alarm objection) fuel source = s.run fuel source := by
  apply Session.runWith_congr
  intro herrors hquiet
  have hm := (hs.lasting Machine.Receptive.lasting).record
    (resolve (readProgram s.nextId (tokens source)).result)
  exact hm.programOverseen_demanding h alarm objection fuel
    (located_readProgram herrors hquiet s.machine)

theorem Session.Reachable.evaluateOverseen_demanding :
    s.evaluateOverseen (.demanding onExpr onStmt alarm objection) fuel source =
      s.evaluate fuel source := by
  apply Session.withExpression_congr
  intro e hresult herrors
  have hm := hs.lasting Machine.Receptive.lasting
  apply Computation.bind_eq_bind
  exact hm.evaluateOverseen_demanding h alarm objection fuel
    (proper_readExpression hresult herrors)

end Meets

/-- Whatever a session is asked for, no `this` that is bound is bound again. -/
theorem Machine.Receptive.enduring (h : Heap) :
    Machine.Enduring fun m ↦ m.Receptive ∧ h.KeepsReceivers m.heap where
  host _ hm := hm
  record findings hm := ⟨hm.1.record findings, hm.2⟩
  program fuel herrors hquiet hm := (hm.1.readProgram fuel herrors hquiet).mono
    fun _ hends ↦ ⟨hends.1, hm.2.trans hends.2⟩
  expression fuel hresult herrors hm := (hm.1.readExpression fuel hresult herrors).mono
    fun _ hends ↦ ⟨hends.1, hm.2.trans hends.2⟩

/-- Halt with an alarm where a call might not hand back its instance, where a value is not founded,
or where a `this` might be bound again. -/
noncomputable def Run.demandConstruction (alarm : Halt) : Oversight :=
  .demanding (fun e m ↦ m.Constructs e) (fun s m ↦ m.Conserves s) alarm alarm

theorem Machine.Receptive.meets_construction :
    Meets (fun e m ↦ m.Constructs e) fun s m ↦ m.Conserves s where
  expression hm he := hm.constructs he
  statement hm hs := hm.conserves hs

section Runs

variable {s : Session} {known : List Site}

/-- Construction and initializers hand back the instance.  Before every expression and every
statement that a session runs, in whatever call, it may be demanded that all values are founded and
that no `this` is bound again; that the call of a class gives a new instance of it, whatever its
initializer does; and that an initializer, whether it comes from an instance, from a superclass or
from construction, gives the instance that it is bound to.  The demand changes nothing. -/
theorem Session.Reachable.instances_handed_back (hs : s.Reachable known) (fuel : Nat) :
    s.machine.heap.Founded ∧
      (∀ alarm source,
        s.runOverseen (Run.demandConstruction alarm) fuel source = s.run fuel source ∧
          s.evaluateOverseen (Run.demandConstruction alarm) fuel source = s.evaluate fuel source) ∧
      ∀ request step, s.serve fuel request = some step →
        s.machine.heap.KeepsReceivers step.session.machine.heap := by
  have hm := hs.lasting Machine.Receptive.lasting
  refine ⟨Discipline.Kept.founded hm, fun alarm source ↦ ?_, fun request step hstep ↦ ?_⟩
  · exact ⟨hs.runOverseen_demanding Machine.Receptive.meets_construction alarm alarm fuel source,
      hs.evaluateOverseen_demanding Machine.Receptive.meets_construction alarm alarm fuel source⟩
  · exact ((Machine.Receptive.enduring s.machine.heap).serve ⟨hm, .refl _⟩ hstep).2

/-- An initializer that returns early, inherited, called through `super` and taken from its
instance. -/
theorem Session.instances_handed_back_inherited : ∃ first later known source,
    source = "class B < A { init() { this.up = super.init(true); } } class C < A {}" ++
      "var b = B(); print b.up == b; var again = C(true).init; print again(nil) == again(true);" ∧
    (Session.start {}).serve 40 (.run
        "class A { init(stop) { if (stop) return; this.rest = stop; } }") =
      some first ∧
    first.session.Reachable known ∧
    first.session.run 40 source = some later ∧
    first.session.runOverseen (Run.demandConstruction .exhausted) 40 source = some later ∧
    later.session.machine.host.log = #[(.out, "true\n"), (.out, "true\n")] ∧
    first.session.machine.heap.KeepsReceivers later.session.machine.heap := by
  generalize hsource : "class B < A { init() { this.up = super.init(true); } } class C < A {}" ++
    "var b = B(); print b.up == b; var again = C(true).init; print again(nil) == again(true);" =
      source
  have hprints : (((Session.start {}).serve 40 (.run
      "class A { init(stop) { if (stop) return; this.rest = stop; } }")).bind
        fun first ↦ first.session.run 40 source).map (·.session.machine.host.log) =
          some #[(.out, "true\n"), (.out, "true\n")] := by
    rw [← hsource]
    decide +kernel
  obtain ⟨later, hlater, hprinted⟩ := Option.map_eq_some_iff.1 hprints
  obtain ⟨first, hfirst, hrun⟩ := Option.bind_eq_some_iff.1 hlater
  have hreachable := (Session.Reachable.start {}).serve 40 _ hfirst
  obtain ⟨-, hdemanded, hkeeps⟩ := hreachable.instances_handed_back 40
  exact ⟨first, later, _, source, rfl, hfirst, hreachable, hrun,
    (hdemanded .exhausted source).1.trans hrun, hprinted, hkeeps (.run source) later hrun⟩

end Runs

end Lox
