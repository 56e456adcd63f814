import Lox.Proofs.Grammar.Rules
import Lox.Proofs.Machine.Receivers
import Lox.Proofs.Resolution.Receivers
import Lox.Proofs.Session.Lasting
import Lox.Proofs.Session.Splitting

/-!
# Every receiver is there

The grammar admits operators only where an operator belongs, resolution locates every `this` and
every `super`, and the machine opens the scopes that hold them.  So an accepted program never runs
into the faults that would tell otherwise (`Session.Reachable.receivers_present`).
-/

namespace Lox

open Lox.Computation (EndsIn)

-- What a program has to obey is said by recursion on it; a program that is read is not computed.
attribute [local irreducible] readProgram

theorem proper_readProgram {n : NodeId} {source : String}
    (herrors : (readProgram n (tokens source)).errors = []) :
    Stmt.ObeysAll (.proper fun _ ↦ True) (readProgram n (tokens source)).result :=
  (program_of_errors_eq_nil herrors).obeys Grammar.fits_proper fun _ ht ↦
    spelt_of_mem_tokens (List.takeWhile_subset _ ht)

theorem proper_readExpression {n : NodeId} {source : String} {e : Expr}
    (hresult : (readExpression n (tokens source)).result = some e)
    (herrors : (readExpression n (tokens source)).errors = []) : e.Proper fun _ ↦ True := by
  obtain ⟨taken, final, htaken, -, hderived⟩ := derived_of_readExpression hresult herrors
  refine hderived.proper fun t ht ↦ ?_
  have hmem : t ∈ (Parser.State.start n (tokens source)).rest :=
    htaken ▸ List.mem_append_left final.rest ht
  exact spelt_of_mem_tokens (List.takeWhile_subset _ hmem)

/-- Once a program that is accepted is resolved, its receivers are located. -/
theorem located_readProgram {n : NodeId} {source : String}
    (herrors : (readProgram n (tokens source)).errors = [])
    (hquiet : Quiet (resolve (readProgram n (tokens source)).result)) (m : Machine) :
    Stmt.ObeysAll (.proper (Machine.Locates
        (m.record (resolve (readProgram n (tokens source)).result)).addresses))
      (readProgram n (tokens source)).result := by
  refine Stmt.obeysAll_of_locates (Scopes.suits_none []) _ (proper_readProgram herrors)
    fun f hf ↦ ⟨hquiet f hf, fun id depth haddress ↦ ?_⟩
  exact Machine.isSome_getElem?_record hf haddress

theorem Builtin.not_reserved (b : Builtin) : ¬Reserved b.name := by
  unfold Reserved
  cases b <;> decide

namespace Machine.Receptive

variable {m : Machine}

/-- A program that is accepted leaves a machine receptive and binds no `this` again. -/
theorem readProgram (hm : m.Receptive) {n : NodeId} {source : String} (fuel : Nat)
    (herrors : (Lox.readProgram n (tokens source)).errors = [])
    (hquiet : Quiet (resolve (Lox.readProgram n (tokens source)).result)) :
    EndsIn (fun m' ↦ m'.Receptive ∧ m.heap.KeepsReceivers m'.heap)
      (Run.program fuel (Lox.readProgram n (tokens source)).result)
      (m.record (resolve (Lox.readProgram n (tokens source)).result)) :=
  ((hm.record _).program fuel (located_readProgram herrors hquiet m)).endsIn.mono fun _ hleads ↦
    ⟨hleads.receptive, hleads.advances.step⟩

theorem readExpression (hm : m.Receptive) {n : NodeId} {source : String} {e : Expr} (fuel : Nat)
    (hresult : (Lox.readExpression n (tokens source)).result = some e)
    (herrors : (Lox.readExpression n (tokens source)).errors = []) :
    EndsIn (fun m' ↦ m'.Receptive ∧ m.heap.KeepsReceivers m'.heap) (Run.evaluate fuel e) m :=
  (hm.evaluate fuel (proper_readExpression hresult herrors)).endsIn.mono fun _ hleads ↦
    ⟨hleads.receptive, hleads.advances.step⟩

theorem lasting : Machine.Lasting Machine.Receptive where
  start host := Discipline.kept_start host trivial fun b ↦ .of_not_reserved b.not_reserved _
  host _ hm := hm
  record findings hm := hm.record findings
  program fuel herrors hquiet hm := (hm.readProgram fuel herrors hquiet).mono fun _ ↦ And.left
  expression fuel hresult herrors hm :=
    (hm.readExpression fuel hresult herrors).mono fun _ ↦ And.left

end Machine.Receptive

section Silent

variable {m : Machine} {addresses : Std.TreeMap NodeId Nat} {next : NodeId} {known : List Site}
  {scopes : Scopes}

theorem Scopes.ReadyAt.isSome_getAt? {P : Site → Prop} (hm : m.Stands P addresses scopes)
    {depth : Nat} {name : String} (h : scopes.ReadyAt depth name) :
    (m.heap.getAt? m.current depth name).isSome = true := by
  obtain ⟨target, htarget, hholds⟩ := hm.mirrors.ancestor h
  rw [Heap.getAt?, htarget]
  exact hholds

/-- Wherever a depth is recorded for a receiver, the scopes that the machine stands in hold it. -/
theorem silent_ensure_reaches (alarm : Halt) :
    Run.Silent (Site.Located addresses next known) addresses
      fun e ↦ Run.ensure (·.Reaches e) alarm := by
  intro e scopes m hm hsites
  refine Run.ensure_of_property ?_ alarm
  cases e with
  | this id keyword =>
    intro depth hdepth
    obtain ⟨-, hready, hfound⟩ :=
      (hsites _ List.mem_cons_self).recorded depth (hm.addresses ▸ hdepth)
    exact (hready depth hfound).isSome_getAt? hm
  | super id keyword method =>
    intro depth hdepth
    obtain ⟨-, hready, hfound⟩ :=
      (hsites _ List.mem_cons_self).recorded depth (hm.addresses ▸ hdepth)
    obtain ⟨hsuper, inner, rfl, hthis⟩ := hready depth hfound
    exact ⟨inner, rfl, hsuper.isSome_getAt? hm, hthis.isSome_getAt? hm⟩
  | _ => trivial

end Silent

/-- Run a program, with checks before every expression and every statement. -/
def Session.runOverseen (oversight : Oversight) (fuel : Nat) (s : Session) (source : String) :
    Option Step :=
  s.runWith (Run.programOverseen oversight fuel) source

section Runs

variable {s : Session} {known : List Site} {source : String}

/-- An accepted program with demands and without. -/
theorem Session.Reachable.receiving (hs : s.Reachable known) (h : Accepted source) (fuel : Nat)
    (alarm objection : Halt) (strict : Prop) :
    (Conduct.receiving (s.resolved source).machine.addresses alarm objection strict).Upholds
      (Run.programOverseen (.demanding (fun e m ↦ m.HasReceiver e)
        (fun s m ↦ strict → m.ExtendsClass s) alarm objection) fuel
          (readProgram s.nextId (tokens source)).result)
      (Run.program fuel (readProgram s.nextId (tokens source)).result) (s.resolved source).machine
      fun _ _ ↦ True := by
  obtain ⟨herrors, hquiet⟩ := h.at_id s.nextId
  have hobeys := located_readProgram herrors hquiet s.machine
  have hkept := (hs.lasting Machine.Receptive.lasting).record
    (resolve (readProgram s.nextId (tokens source)).result)
  have hplain := (hs.sound.agree_of_silent fuel source (silent_ensure_reaches alarm) herrors
    hquiet).1
  have hupheld := Conduct.program_upheld (m := (s.resolved source).machine)
    (Conduct.receiving_lawful _ alarm objection strict) fuel hobeys ⟨⟨hkept, rfl⟩, trivial⟩
  refine .of_eq rfl ?_ hupheld
  rw [hplain, Run.programWatched, ← Oversight.demanding_watch _ alarm objection]
  rfl

/-- The demand for receivers is never noticed. -/
theorem Session.Reachable.runWatched_demandReceiver (hs : s.Reachable known) (h : Accepted source)
    (fuel : Nat) (alarm : Halt) :
    s.runWatched (Run.demandReceiver alarm) fuel source = s.run fuel source := by
  have heq := (hs.receiving h fuel alarm alarm False).eq_of_not_excused fun _ ↦ And.left
  have hnothing : (fun (s : Stmt) (m : Machine) ↦ False → m.ExtendsClass s) = fun _ _ ↦ True := by
    funext s m
    exact propext (iff_true_intro False.elim)
  rw [hnothing, Oversight.demanding_watch, ← Run.programWatched] at heq
  rw [Session.runWatched, Session.run, Session.runWith_of_accepted h, Session.runWith_of_accepted h,
    Run.demandReceiver_eq]
  exact Session.perform_congr heq

/-- A report of a run tells how the program halted. -/
theorem Session.error_of_reported (h : Accepted source) {fuel : Nat} {step : Step} {line : Nat}
    {cause : RuntimeFault} (hstep : s.run fuel source = some step)
    (hreported : .runtime line cause ∈ step.reported) :
    ∃ m', Run.program fuel (readProgram s.nextId (tokens source)).result
      (s.resolved source).machine = .error (.fault line cause) m' := by
  rw [Session.run, Session.runWith_of_accepted h] at hstep
  rcases Session.perform_cases hstep with ⟨m', -, rfl⟩ | ⟨halt, m', d, herror, hd, rfl⟩
  · cases hreported
  · cases List.mem_singleton.1 hreported
    cases halt with
    | fault line' cause' =>
      cases hd
      exact ⟨m', herror⟩
    | output text => cases hd
    | exhausted => cases hd

theorem Session.Reachable.not_impossible (hs : s.Reachable known) (h : Accepted source)
    {fuel : Nat} {step : Step} {line : Nat} {cause : RuntimeFault}
    (hstep : s.run fuel source = some step) (hreported : .runtime line cause ∈ step.reported) :
    ¬cause.Impossible := by
  obtain ⟨m', herror⟩ := Session.error_of_reported h hstep hreported
  have hupholds := hs.receiving h fuel .exhausted .exhausted False
  rw [← hupholds.eq_of_not_excused fun _ ↦ And.left] at herror
  rcases (hupholds.of_error herror).2 with heq | heq | htenable
  · cases heq
  · cases heq
  · exact htenable.1

/-- A superclass is reported to be no class only where the demand for superclasses objects. -/
theorem Session.Reachable.objection_of_superclassNotClass (hs : s.Reachable known)
    (h : Accepted source) {fuel : Nat} {step : Step} {line : Nat}
    (hstep : s.run fuel source = some step)
    (hreported : .runtime line .superclassNotClass ∈ step.reported) (text : String) :
    (s.runOverseen (Run.demandSuperclasses (.output text)) fuel source).map Step.reported =
      some [.output text] := by
  obtain ⟨m', herror⟩ := Session.error_of_reported h hstep hreported
  have hupholds := hs.receiving h fuel .exhausted (.output text) True
  -- The strict view would not let this fault pass, so it has objected.
  obtain ⟨t, hobjects⟩ : ∃ t, Run.programOverseen (.demanding (fun e m ↦ m.HasReceiver e)
      (fun s m ↦ True → m.ExtendsClass s) .exhausted (.output text)) fuel
      (readProgram s.nextId (tokens source)).result (s.resolved source).machine =
        .error (.output text) t := by
    rcases hupholds.alike with heq | ⟨halt, t, hhalt, -, rfl⟩
    · rw [← heq] at herror
      rcases (hupholds.of_error herror).2 with heq | heq | htenable
      · cases heq
      · cases heq
      · exact absurd rfl (htenable.2 trivial)
    · exact ⟨t, hhalt⟩
  have hdrop : Run.programOverseen (Run.demandSuperclasses (.output text)) fuel
      (readProgram s.nextId (tokens source)).result (s.resolved source).machine =
        .error (.output text) t := by
    rw [Run.demandSuperclasses_eq .exhausted]
    rcases Run.programOverseen_demanding (fun e m ↦ m.HasReceiver e)
      (fun s m ↦ True → m.ExtendsClass s) .exhausted (.output text) fuel
      (readProgram s.nextId (tokens source)).result (s.resolved source).machine with
      heq | ⟨t', halarm⟩
    · rw [← heq, hobjects]
    · rw [hobjects] at halarm
      cases halarm
  rw [Session.runOverseen, Session.runWith_of_accepted h, Session.perform, hdrop]
  rfl

/-- Every receiver is there.  A program that is accepted runs alike if at each `this` and `super` an
instance and, for `super`, a class are demanded where resolution has located them.  It never runs
into an operator that is none, nor into an undefined `this` or `super`.  And it is told that a
superclass must be a class only where a class is declared whose superclass is no class: the demand
that there be none objects, whatever its objection is. -/
theorem Session.Reachable.receivers_present (hs : s.Reachable known) (h : Accepted source)
    (fuel : Nat) :
    (∀ alarm, s.runWatched (Run.demandReceiver alarm) fuel source = s.run fuel source) ∧
      ∀ step line cause, s.run fuel source = some step →
        .runtime line cause ∈ step.reported →
        ¬cause.Impossible ∧ (cause = .superclassNotClass → ∀ text,
          (s.runOverseen (Run.demandSuperclasses (.output text)) fuel source).map Step.reported =
            some [.output text]) := by
  refine ⟨hs.runWatched_demandReceiver h fuel, fun step line cause hstep hreported ↦ ?_⟩
  refine ⟨hs.not_impossible h hstep hreported, ?_⟩
  rintro rfl
  exact hs.objection_of_superclassNotClass h hstep hreported

/-- A method that reaches its superclass from a function inside it, and then a superclass that is no
class. -/
theorem Session.receivers_present_subclass : ∃ first later known source,
    source = "class B < A { m() { fun f() { return super.m(); } return f(); } }" ++
      "B().m(); class C < none {}" ∧
    (Session.start {}).serve 40 (.run "class A { m() { return this; } } var none;") = some first ∧
    first.session.Reachable known ∧ Accepted source ∧
    first.session.run 40 source = some later ∧
    first.session.runWatched (Run.demandReceiver .exhausted) 40 source = some later ∧
    later.reported = [.runtime 1 .superclassNotClass] ∧
    (first.session.runOverseen (Run.demandSuperclasses (.output "no class")) 40 source).map
      Step.reported = some [.output "no class"] := by
  generalize hsource : "class B < A { m() { fun f() { return super.m(); } return f(); } }" ++
    "B().m(); class C < none {}" = source
  have haccepted : Accepted source := by
    rw [← hsource]
    decide +kernel
  have hreports : (((Session.start {}).serve 40
      (.run "class A { m() { return this; } } var none;")).bind fun first ↦
        first.session.run 40 source).map Step.reported = some [.runtime 1 .superclassNotClass] := by
    rw [← hsource]
    decide +kernel
  obtain ⟨later, hlater, hreported⟩ := Option.map_eq_some_iff.1 hreports
  obtain ⟨first, hfirst, hrun⟩ := Option.bind_eq_some_iff.1 hlater
  have hreachable := (Session.Reachable.start {}).serve 40 _ hfirst
  obtain ⟨hwatched, hfaults⟩ := hreachable.receivers_present haccepted 40
  have hmem : .runtime 1 .superclassNotClass ∈ later.reported :=
    hreported ▸ List.mem_singleton_self _
  exact ⟨first, later, _, source, rfl, hfirst, hreachable, haccepted, hrun,
    (hwatched .exhausted).trans hrun, hreported, (hfaults later 1 _ hrun hmem).2 rfl "no class"⟩

end Runs

end Lox
