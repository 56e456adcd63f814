import Lox.Proofs.Machine.Lexical
import Lox.Proofs.Session.Construction
import Lox.Proofs.Session.Evaluation

/-!
# The superclass of the enclosing class, in every session

The machines of sessions are housed, so whenever a session evaluates `super.m`, it looks up the
method in the class that the class declaration around it extends.
-/

namespace Lox

open Lox.Computation (EndsIn)

-- As for receivers: no program is computed to know what it obeys.
attribute [local irreducible] readProgram readExpression

/-- What is known of the machine of a session. -/
def Session.ledger (s : Session) (made : Layer → Class → Prop) : Ledger :=
  ⟨made, s.machine.addresses⟩

theorem Session.HasResolved.records {s : Session} {program : List Stmt}
    (h : s.HasResolved program) : Records s.machine.addresses (resolve program) := by
  intro f hf
  refine ⟨h.quiet f hf, fun id depth haddress ↦ ?_⟩
  obtain ⟨site, hsite, rfl⟩ := (Stmt.talliesAll {} [] program).exists_of_address? hf haddress
  obtain ⟨rfl, hdepth⟩ := Site.address?_finding haddress
  rw [h.addressed site hsite, hdepth]

/-- A program that has been resolved may be executed in any scope: no `super` stands outside of all
classes. -/
theorem Session.HasResolved.housedAll {s : Session} {program : List Stmt}
    (h : s.HasResolved program) (hobeys : Stmt.ObeysAll (.proper fun _ ↦ True) program)
    (made : Layer → Class → Prop) (heap : Heap) (scope : ScopeRef) :
    Stmt.HousedAll (s.ledger made) heap scope program := by
  have hlead : Scopes.Lead [] ({} : Context).cls 0 := nofun
  obtain ⟨hsettled, hnodes⟩ := Stmt.settledAll_of_records program hlead hobeys h.records
  refine ⟨hobeys, hsettled, 0, fun p hp ↦ ?_⟩
  cases (hnodes p hp).1

/-- Halt with an alarm where a `super` is not looked up as it should be, and with an objection where
a subclass is about to be made that is not among the known ones. -/
noncomputable def Run.demandLexical (strict : Prop) (made : Layer → Class → Prop)
    (alarm objection : Halt) : Oversight :=
  .demanding (fun e m ↦ m.Lexical strict made e) (Machine.Registers made) alarm objection

/-- The objection alone. -/
noncomputable def Run.demandKnown (made : Layer → Class → Prop) (objection : Halt) : Oversight :=
  .demanding (fun _ _ ↦ True) (Machine.Registers made) objection objection

/-- To demand nothing of expressions takes no alarm. -/
theorem Run.demandKnown_eq (made : Layer → Class → Prop) (alarm objection : Halt) :
    .demanding (fun _ _ ↦ True) (Machine.Registers made) alarm objection =
      Run.demandKnown made objection := by
  rw [Run.demandKnown, Oversight.demanding, Oversight.demanding, Run.ensure_true, Run.ensure_true]

/-- Nothing is demanded if all subclasses that are made by declarations are known. -/
theorem Run.demandKnown_declared (objection : Halt) :
    Run.demandKnown Machine.Declared objection = .blind := by
  have hall : Machine.Registers Machine.Declared = fun _ _ ↦ True :=
    funext₂ fun s m ↦ eq_true fun _ _ hdeclares ↦ ⟨m, s, hdeclares⟩
  rw [Run.demandKnown, hall, Oversight.demanding_nothing]

namespace Session

theorem runOverseen_blind (fuel : Nat) (s : Session) (source : String) :
    s.runOverseen .blind fuel source = s.run fuel source := by
  rw [runOverseen, run, funext (Run.programOverseen_blind fuel)]

theorem evaluateOverseen_blind (fuel : Nat) (s : Session) (source : String) :
    s.evaluateOverseen .blind fuel source = s.evaluate fuel source := by
  rw [evaluateOverseen, evaluate, (Run.overseen_blind fuel).1]

def Housed (made : Layer → Class → Prop) (s : Session) : Prop :=
  s.machine.heap.Housed (s.ledger made)

namespace Housed

variable {made : Layer → Class → Prop} {s t : Session} {known : List Site}

theorem congr (h : s.Housed made) (hheap : t.machine.heap = s.machine.heap)
    (haddresses : t.machine.addresses = s.machine.addresses) : t.Housed made := by
  rw [Housed, ledger, hheap, haddresses]
  exact h

theorem persistent (made : Layer → Class → Prop) : Persistent (Session.Housed made) :=
  .of_host fun hmachine _ h ↦ h.congr (by rw [hmachine]) (by rw [hmachine])

/-- Depths are recorded for new nodes only. -/
theorem grow (h : s.Housed made) (hs : s.Sound known) (hgrows : s.Grows t) : t.Housed made := by
  rw [Housed, hgrows.heap]
  refine Heap.Housed.rebook (fun id depth hdepth ↦ ?_) h h.made
  exact (hgrows.kept id (hs.recorded id depth hdepth)).trans hdepth

/-- What two computations carry, the session behind either of them has. -/
theorem endsIn {α : Type} {x y : Run α} {Q : α → Machine → Prop}
    (hcarries : (s.ledger made).Carries x y s.machine Q) (n : NodeId) :
    EndsIn (fun m ↦ Session.Housed made { s with machine := m, nextId := n }) y s.machine := by
  have hfollow : ∀ m, (s.ledger made).Leads s.machine m →
      Session.Housed made { s with machine := m, nextId := n } := by
    intro m hleads
    rw [Housed, ledger, hleads.addresses]
    exact hleads.housed
  apply EndsIn.intro
  · intro a m hok
    rw [← hcarries.alike] at hok
    exact hfollow m (hcarries.of_ok hok).1
  · intro halt m herror
    rw [← hcarries.alike] at herror
    exact hfollow m (hcarries.of_error herror)

/-- A program does the same with and without the alarm, and leaves the session housed. -/
theorem carries_program (h : s.Housed made) (hs : s.Sound known) (alarm objection : Halt)
    (fuel : Nat) {source : String} (herrors : (readProgram s.nextId (tokens source)).errors = [])
    (hquiet : Quiet (resolve (readProgram s.nextId (tokens source)).result)) :
    ((s.resolved source).ledger made).Carries
      (Run.programOverseen (Run.demandLexical True made alarm objection) fuel
        (readProgram s.nextId (tokens source)).result)
      (Run.programOverseen (Run.demandKnown made objection) fuel
        (readProgram s.nextId (tokens source)).result)
      (s.resolved source).machine fun _ _ ↦ True := by
  have hresolved := h.grow hs (.resolved hs.recorded source)
  have hprogram := (Session.hasResolved hs.recorded hquiet).housedAll
    (proper_readProgram herrors) made (s.resolved source).machine.heap
    (s.resolved source).machine.current
  rw [← Run.demandKnown_eq made alarm objection]
  exact ((s.resolved source).ledger made).program_carries alarm objection
    (fun hm he ↦ hm.lexical he) fuel ⟨hresolved, rfl⟩ hprogram

/-- So does an expression, in which no depth is known but those of functions that it calls. -/
theorem carries_expression (h : s.Housed made) (hs : s.Sound known) (alarm objection : Halt)
    (fuel : Nat) {source : String} {e : Expr}
    (hresult : (readExpression s.nextId (tokens source)).result = some e)
    (herrors : (readExpression s.nextId (tokens source)).errors = []) :
    (s.ledger made).Carries
      (Run.evaluateOverseen (Run.demandLexical False made alarm objection) fuel e)
      (Run.evaluateOverseen (Run.demandKnown made objection) fuel e) s.machine
      fun v m' ↦ v.Housed (s.ledger made) m'.heap := by
  obtain ⟨-, hissued⟩ := issued_readExpression s.nextId (tokens source)
  rw [hresult] at hissued
  have hnone := unaddressed_of_issued hs.recorded hissued
  have hexpression : e.Housed (s.ledger made) s.machine.heap False s.machine.current :=
    ⟨proper_readExpression hresult herrors,
      fun id hid ↦ .inr ⟨not_false, hnone id (e.mem_ids_of_mem_supers hid)⟩⟩
  rw [← Run.demandKnown_eq made alarm objection]
  exact ((s.ledger made).evaluate_and_execute_carry alarm objection (fun hm he ↦ hm.lexical he)
    fuel).1 e s.machine ⟨h, rfl⟩ hexpression

theorem run (h : s.Housed made) (hs : s.Sound known) (alarm objection : Halt) (fuel : Nat)
    (source : String) :
    s.runOverseen (Run.demandLexical True made alarm objection) fuel source =
        s.runOverseen (Run.demandKnown made objection) fuel source ∧
      ∀ step, s.runOverseen (Run.demandKnown made objection) fuel source = some step →
        step.session.Housed made := by
  obtain ⟨hnext, -⟩ := issued_readProgram s.nextId (tokens source)
  constructor
  · apply runWith_congr
    intro herrors hquiet
    exact (h.carries_program hs alarm objection fuel herrors hquiet).alike
  · intro step hstep
    exact (persistent made).runWith (h.grow hs (.next_id hs.recorded hnext))
      (h.grow hs (.resolved hs.recorded source))
      (fun herrors hquiet ↦
        endsIn (h.carries_program hs alarm objection fuel herrors hquiet) _) hstep

theorem evaluate (h : s.Housed made) (hs : s.Sound known) (alarm objection : Halt) (fuel : Nat)
    (source : String) :
    s.evaluateOverseen (Run.demandLexical False made alarm objection) fuel source =
        s.evaluateOverseen (Run.demandKnown made objection) fuel source ∧
      ∀ step, s.evaluateOverseen (Run.demandKnown made objection) fuel source = some step →
        step.session.Housed made := by
  obtain ⟨hnext, -⟩ := issued_readExpression s.nextId (tokens source)
  constructor
  · apply withExpression_congr
    intro e hresult herrors
    apply Computation.bind_eq_bind
    exact (h.carries_expression hs alarm objection fuel hresult herrors).alike
  · intro step hstep
    exact (persistent made).printing (h.grow hs (.next_id hs.recorded hnext))
      (fun e hresult herrors ↦
        endsIn (h.carries_expression hs alarm objection fuel hresult herrors) _) hstep

theorem parse (h : s.Housed made) (hs : s.Sound known) {source : String} {step : Step}
    (hstep : s.parse source = some step) : step.session.Housed made := by
  obtain ⟨hnext, -⟩ := issued_readExpression s.nextId (tokens source)
  exact (persistent made).parse (h.grow hs (.next_id hs.recorded hnext)) hstep

/-- Every request leaves a session housed, with subclasses that declarations have made. -/
theorem serve (h : s.Housed Machine.Declared) (hs : s.Sound known) {fuel : Nat} {request : Request}
    {step : Step} (hstep : s.serve fuel request = some step) :
    step.session.Housed Machine.Declared := by
  cases request with
  | run source =>
    have hrun := (h.run hs .exhausted .exhausted fuel source).2 step
    rw [Run.demandKnown_declared, runOverseen_blind] at hrun
    exact hrun hstep
  | evaluate source =>
    have hevaluate := (h.evaluate hs .exhausted .exhausted fuel source).2 step
    rw [Run.demandKnown_declared, evaluateOverseen_blind] at hevaluate
    exact hevaluate hstep
  | parse source => exact h.parse hs hstep
  | tokenize json source =>
    cases hstep
    exact (persistent _).listItems h ..
  | reset =>
    cases hstep
    exact h.congr rfl rfl

theorem start (host : Host) : (Session.start host).Housed made := by
  constructor
  · intro scope name value hvalue
    obtain ⟨b, -, rfl⟩ := Heap.exists_builtin_of_get?_start hvalue
    trivial
  · intro i name value hvalue
    cases hvalue

end Housed

end Session

/-- By induction on the requests: reachable sessions are housed. -/
theorem Session.Reachable.housed {s : Session} {known : List Site} (hs : s.Reachable known) :
    s.Housed Machine.Declared := by
  induction hs with
  | start host => exact .start host
  | serve hs fuel request hstep ih => exact ih.serve hs.sound hstep
  | host _ host ih => exact ih.congr rfl rfl

/-- The class in which a method of a superclass is looked up is settled where the `super` is
written.  Before every expression that a session runs, in whatever call, it may be demanded that a
`super` is looked up in what the expression for the superclass was evaluated to when the declaration
around the `super` was executed, and is bound to the instance of the method around it.  The demand
changes nothing.

More may be known of this superclass than that it comes from some execution, and is said by any
relation between layers and superclasses.  As long as it holds of the subclasses in the heap and of
those that declarations make when they are executed (else all halts with the same objection), it
holds of the class of every method in which a `super` is evaluated.  Nothing that happens later to
the names of classes, or to fields, counts. -/
theorem Session.Reachable.super_lexical {s : Session} {known : List Site} (hs : s.Reachable known)
    (fuel : Nat) :
    (∀ alarm objection source,
      s.runOverseen (Run.demandLexical True Machine.Declared alarm objection) fuel source =
          s.run fuel source ∧
        s.evaluateOverseen (Run.demandLexical False Machine.Declared alarm objection) fuel source =
          s.evaluate fuel source) ∧
      ∀ made, s.machine.heap.Made made → ∀ alarm objection source,
        s.runOverseen (Run.demandLexical True made alarm objection) fuel source =
            s.runOverseen (Run.demandKnown made objection) fuel source ∧
          s.evaluateOverseen (Run.demandLexical False made alarm objection) fuel source =
            s.evaluateOverseen (Run.demandKnown made objection) fuel source ∧
          ∀ step, s.runOverseen (Run.demandKnown made objection) fuel source = some step ∨
              s.evaluateOverseen (Run.demandKnown made objection) fuel source = some step →
            step.session.machine.heap.Made made := by
  constructor
  · intro alarm objection source
    have hrun := (hs.housed.run hs.sound alarm objection fuel source).1
    have hevaluate := (hs.housed.evaluate hs.sound alarm objection fuel source).1
    rw [Run.demandKnown_declared, runOverseen_blind] at hrun
    rw [Run.demandKnown_declared, evaluateOverseen_blind] at hevaluate
    exact ⟨hrun, hevaluate⟩
  · intro made hmade alarm objection source
    have hhoused : s.Housed made :=
      Heap.Housed.rebook (L := s.ledger Machine.Declared) (fun _ _ ↦ id) hs.housed hmade
    obtain ⟨hrun, hafter⟩ := hhoused.run hs.sound alarm objection fuel source
    obtain ⟨hevaluate, hafter'⟩ := hhoused.evaluate hs.sound alarm objection fuel source
    refine ⟨hrun, hevaluate, fun step hstep ↦ ?_⟩
    rcases hstep with hstep | hstep
    · exact (hafter step hstep).made
    · exact (hafter' step hstep).made

/-- A method that goes back to its superclass from a block of a function inside it, taken from an
instance of a subclass with a field of the name, when the name of the superclass no longer stands
for a class and that of the class stands for another one. -/
theorem Session.super_lexical_reassigned : ∃ first later known classes source,
    classes = "class A { m() { return true; } }" ++
      "class B < A { m() {} test() { fun f() { { return super.m(); } } return f(); } }" ++
      "class C < B {}" ∧
    source = "var c = C(); A = nil; class B {} c.m = nil; var test = c.test; print test();" ∧
    (Session.start {}).serve 40 (.run classes) = some first ∧
    first.session.Reachable known ∧
    first.session.run 40 source = some later ∧
    first.session.runOverseen (Run.demandLexical True Machine.Declared .exhausted .exhausted) 40
      source = some later ∧
    later.session.machine.host.log = #[(.out, "true\n")] := by
  generalize hclasses : "class A { m() { return true; } }" ++
    "class B < A { m() {} test() { fun f() { { return super.m(); } } return f(); } }" ++
    "class C < B {}" = classes
  generalize hsource :
    "var c = C(); A = nil; class B {} c.m = nil; var test = c.test; print test();" = source
  have hprints : (((Session.start {}).serve 40 (.run classes)).bind
      fun first ↦ first.session.run 40 source).map (·.session.machine.host.log) =
        some #[(.out, "true\n")] := by
    rw [← hclasses, ← hsource]
    decide +kernel
  obtain ⟨later, hlater, hprinted⟩ := Option.map_eq_some_iff.1 hprints
  obtain ⟨first, hfirst, hrun⟩ := Option.bind_eq_some_iff.1 hlater
  have hreachable := (Session.Reachable.start {}).serve 40 _ hfirst
  obtain ⟨hdemanded, -⟩ := hreachable.super_lexical 40
  exact ⟨first, later, _, classes, source, rfl, rfl, hfirst, hreachable, hrun,
    (hdemanded .exhausted .exhausted source).1.trans hrun, hprinted⟩

end Lox
