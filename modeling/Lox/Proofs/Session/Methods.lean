import Lox.Proofs.Machine.Access
import Lox.Proofs.Session.Construction

/-!
# Methods and fields, in every session

All classes and instances of a session are on a census, whatever is declared and reassigned.  So the
search for methods always ends, and with the nearest one, and properties, superclasses and calls of
classes go by what it finds (`Session.Reachable.methods_nearest`).
-/

namespace Lox

open Lox.Computation (EndsIn)

-- As for receivers: no program is computed to know what it obeys.
attribute [local irreducible] readProgram

/-- Machines stay counted, whatever they are asked for. -/
theorem Machine.Counted.lasting : Machine.Lasting Machine.Counted where
  start host := ⟨_, Census.covers_start host⟩
  host _ hm := hm
  record _ hm := hm
  program {m n source} fuel _ _ hm := by
    have hrecorded : (m.record (resolve (readProgram n (tokens source)).result)).Counted := hm
    exact (hrecorded.program .exhausted fuel _).2
  expression fuel _ _ hm := (Machine.Counted.evaluate hm .exhausted fuel _).2

namespace Session

variable {s : Session} {source : String} {step : Step}

/-- A request that does not set a field leaves it as it was. -/
theorem sameField (s : Session) (i : Instance) (key : String) (alarm : Halt) (fuel : Nat)
    (hstep : s.runOverseen (Run.demandUnset i key alarm) fuel source = some step ∨
      s.evaluateOverseen (Run.demandUnset i key alarm) fuel source = some step) :
    s.machine.SameField i key step.session.machine := by
  have hpersistent : Persistent fun t ↦ s.machine.SameField i key t.machine :=
    .of_host fun {_ _ _} hmachine _ hsame ↦ by rw [hmachine]; exact hsame
  rcases hstep with hstep | hstep
  · exact hpersistent.runWith rfl rfl (fun _ _ ↦
      (((s.resolved source).machine.keepsField i key alarm fuel).program _).atEnd) hstep
  · exact hpersistent.printing rfl (fun e _ _ ↦
      ((s.machine.keepsField i key alarm fuel).expression e).atEnd) hstep

/-- What is known of machines on a census may be demanded in a session. -/
theorem Reachable.demandSurvey {known : List Site} (hs : s.Reachable known) (alarm : Halt)
    (fuel : Nat) (source : String) :
    s.runOverseen (Run.demandSurvey alarm) fuel source = s.run fuel source ∧
      s.evaluateOverseen (Run.demandSurvey alarm) fuel source = s.evaluate fuel source := by
  have hm := hs.lasting Machine.Counted.lasting
  constructor
  · apply Session.runWith_congr
    intro _ _
    have hresolved : (s.resolved source).machine.Counted := hm
    exact (hresolved.program alarm fuel _).1
  · apply Session.withExpression_congr
    intro e _ _
    exact Computation.bind_eq_bind (hm.evaluate alarm fuel e).1

end Session

/-- No class extends itself, over however many steps and whatever names are given to other classes
later, so the search for a method always ends.  It finds the last method of the name in the
declaration of the nearest class that has one, and nothing if and only if none has.  This is so in
every session and, what is more, before every expression and every statement that it runs: there it
may also be demanded that a property is the field of the instance, or else that method bound to the
instance; that the methods of a superclass are found in the same way; and that a call of a class
takes as many arguments as the initializer has parameters that it then runs.  The demand changes
nothing.

A field that has been set has the value it was set to from then on.  In any state of a machine,
whatever it goes on to do and wherever this evaluates an expression, the field is as it was until an
expression is about to set it; and so it is from one request to the next. -/
theorem Session.Reachable.methods_nearest {s : Session} {known : List Site}
    (hs : s.Reachable known) (fuel : Nat) :
    FindsMethods s.machine.heap.Knows ∧
      (∀ alarm source,
        s.runOverseen (Run.demandSurvey alarm) fuel source = s.run fuel source ∧
          s.evaluateOverseen (Run.demandSurvey alarm) fuel source = s.evaluate fuel source) ∧
      (∀ m i key alarm, Machine.KeepsField m i key alarm fuel) ∧
      ∀ i key alarm source step,
        s.runOverseen (Run.demandUnset i key alarm) fuel source = some step ∨
            s.evaluateOverseen (Run.demandUnset i key alarm) fuel source = some step →
          s.machine.SameField i key step.session.machine := by
  obtain ⟨w, hw⟩ := hs.lasting Machine.Counted.lasting
  exact ⟨hw.pedigree_knows.findsMethods, fun alarm source ↦ hs.demandSurvey alarm fuel source,
    fun m i key alarm ↦ m.keepsField i key alarm fuel,
    fun i key alarm source step hstep ↦ s.sameField i key alarm fuel hstep⟩

/-- A class that takes the name of the one that its superclass extends.  Then the name of the
superclass is given away, and methods are called that are two classes away, one of them declared
twice. -/
theorem Session.methods_nearest_redeclared : ∃ first later known classes source,
    classes = "class A { m() {} m() { return true; } init(x) { this.f = x; } }" ++
      "class B < A {} class A < B { n() { return super.m(); } }" ∧
    source = "B = nil; var a = A(nil); a.f = a.m(); print a.f; print a.n();" ∧
    (Session.start {}).serve 40 (.run classes) = some first ∧
    first.session.Reachable known ∧
    ((first.session.machine.heap.get? Machine.globals "A").map fun v ↦ v.classes.map Class.name) =
      some ["A", "B", "A"] ∧
    FindsMethods first.session.machine.heap.Knows ∧
    first.session.run 40 source = some later ∧
    first.session.runOverseen (Run.demandSurvey .exhausted) 40 source = some later ∧
    later.session.machine.host.log = #[(.out, "true\n"), (.out, "true\n")] := by
  generalize hclasses : "class A { m() {} m() { return true; } init(x) { this.f = x; } }" ++
    "class B < A {} class A < B { n() { return super.m(); } }" = classes
  generalize hsource : "B = nil; var a = A(nil); a.f = a.m(); print a.f; print a.n();" = source
  have hprints : (((Session.start {}).serve 40 (.run classes)).bind fun first ↦
      (first.session.run 40 source).map fun later ↦
        ((first.session.machine.heap.get? Machine.globals "A").map fun v ↦
          v.classes.map Class.name, later.session.machine.host.log)) =
        some (some ["A", "B", "A"], #[(.out, "true\n"), (.out, "true\n")]) := by
    rw [← hclasses, ← hsource]
    decide +kernel
  obtain ⟨first, hfirst, hlater⟩ := Option.bind_eq_some_iff.1 hprints
  obtain ⟨later, hrun, hfacts⟩ := Option.map_eq_some_iff.1 hlater
  obtain ⟨hnames, hprinted⟩ := Prod.mk.inj hfacts
  have hreachable := (Session.Reachable.start {}).serve 40 _ hfirst
  obtain ⟨hfinds, hdemanded, -⟩ := hreachable.methods_nearest 40
  exact ⟨first, later, _, classes, source, rfl, rfl, hfirst, hreachable, hnames, hfinds, hrun,
    (hdemanded .exhausted source).1.trans hrun, hprinted⟩

end Lox
