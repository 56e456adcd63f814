import Lox.Proofs.Machine.Frame
import Lox.Proofs.Session.Splitting

/-!
# Assignments and the variables they find

An assignment for which a depth is recorded finds its variable in the scope at that depth, and goes
through once its right side has a value.  There is one exception, which breaks no static rule: in
`{ var a = a = 1; }` the assignment stands in the initializer of its own variable, and that variable
is bound only behind the initializer.

Scopes never lose a name.  So it is enough that the name is there before the right side is
evaluated, which is what a watch can see.
-/

namespace Lox

/-- A node in the initializer of the local variable that it refers to. -/
def Site.InOwnInitializer (site : Site) : Prop :=
  site.scopes.isPending site.name.lexeme = true

/-- The variable of an assignment is found at a depth, and still is once the right side has been
evaluated: then the assignment gives it the value of the right side. -/
structure Machine.AssignsAt (known : List Site) (m : Machine) (id : NodeId) (name : Token)
    (value : Expr) (depth : Nat) : Prop where
  found : m.FindsAt known id name depth
  succeeds : ∀ fuel v m', Run.evaluate fuel value m = .ok v m' →
    ∃ scope, m'.heap.ancestor? m'.current depth = some scope ∧
      m'.heap.holds scope name.lexeme = true ∧
      Run.evaluate (fuel + 1) (.assign id name value) m =
        .ok v { m' with heap := m'.heap.define scope name.lexeme v }

/-- An assignment with a recorded depth, outside the initializer of its variable, finds that
variable. -/
def Machine.Assigns (known : List Site) (m : Machine) : Expr → Prop
  | .assign id name value => ∀ depth, m.addresses[id]? = some depth →
    (∀ site ∈ known, site.id = id → ¬site.InOwnInitializer) → m.AssignsAt known id name value depth
  | _ => True

section Assigns

variable {m m' : Machine} {addresses : Std.TreeMap NodeId Nat} {next : NodeId} {known : List Site}
  {scopes : Scopes}

theorem Run.assignIn_of_holds {scope : ScopeRef} {name : Token}
    (hholds : m.heap.holds scope name.lexeme = true) (v : Value) :
    Run.assignIn (some scope) name v m =
      .ok () { m with heap := m.heap.define scope name.lexeme v } := by
  have hfilter : (some scope).filter (m.heap.holds · name.lexeme) = some scope := by
    simp [Option.filter, hholds]
  rw [Run.assignIn_eq, Computation.get_bind, hfilter]
  rfl

/-- Behind its right side an assignment goes through if the scope it is meant for holds the name. -/
theorem evaluate_assign_of_holds {fuel : Nat} {id : NodeId} {name : Token} {value : Expr}
    {v : Value} {scope : ScopeRef} (hvalue : Run.evaluate fuel value m = .ok v m')
    (hscope : m'.scopeOf? id = some scope) (hholds : m'.heap.holds scope name.lexeme = true) :
    Run.evaluate (fuel + 1) (.assign id name value) m =
      .ok v { m' with heap := m'.heap.define scope name.lexeme v } := by
  rw [Run.evaluate]
  change (Run.evaluate fuel value >>= _) m = _
  rw [Computation.bind_of_ok hvalue]
  refine Computation.bind_of_ok (a := ()) ?_
  change Run.assign id name v m' = _
  rw [Run.assign_eq, Computation.get_bind, hscope]
  exact Run.assignIn_of_holds hholds v

theorem assignsAt_of_located {id : NodeId} {name : Token} {value : Expr} {depth : Nat}
    (hm : m.Stands (Site.Located addresses next known) addresses scopes)
    (hsite : Site.Located addresses next known ⟨id, name, .assign, scopes⟩)
    (hdepth : m.addresses[id]? = some depth) (houtside : scopes.isPending name.lexeme = false) :
    m.AssignsAt known id name value depth := by
  obtain ⟨hknown, hready, hfound⟩ := hsite.recorded depth (hm.addresses ▸ hdepth)
  have hreadyAt : scopes.ReadyAt depth name.lexeme := hready depth hfound houtside
  constructor
  · obtain ⟨target, htarget, hholds⟩ := hm.mirrors.ancestor hreadyAt
    exact ⟨_, hknown, rfl, rfl, hm.mirrors, hfound, target, htarget, hholds⟩
  · intro fuel v m' hvalue
    have hfollows : m.Follows m' :=
      (((Run.Sparing.evaluate_and_execute fuel).1 value).of_ok hvalue).follows
    have hmirrors : m'.heap.Mirrors m'.current scopes :=
      hfollows.current ▸ hm.mirrors.mono hfollows.heap
    obtain ⟨target, htarget, hholds⟩ := hmirrors.ancestor hreadyAt
    refine ⟨target, htarget, hholds, evaluate_assign_of_holds hvalue ?_ hholds⟩
    rw [Machine.scopeOf?, hfollows.addresses, hdepth]
    exact htarget

/-- The watch for assignments never objects. -/
theorem silent_ensure_assigns (alarm : Halt) :
    Run.Silent (Site.Located addresses next known) addresses
      fun e ↦ Run.ensure (·.Assigns known e) alarm := by
  intro e scopes m hm hsites
  apply Run.ensure_of_property
  cases e with
  | assign id name value =>
    intro depth hdepth houtside
    have hsite := hsites ⟨id, name, .assign, scopes⟩ (List.mem_append_right _ List.mem_cons_self)
    have hmem := (hsite.recorded depth (hm.addresses ▸ hdepth)).1
    have hpending := houtside _ hmem rfl
    exact assignsAt_of_located hm hsite hdepth (Bool.eq_false_iff.2 hpending)
  | _ => trivial

end Assigns

/-- Halt with an alarm where an assignment is about to miss its variable. -/
noncomputable def Run.demandAssignment (known : List Site) (alarm : Halt) (e : Expr) : Run Unit :=
  Run.ensure (·.Assigns known e) alarm

/-- A resolved assignment finds its variable, in every session and wherever one is evaluated, unless
it stands in the initializer of that variable.  The watch halts with any chosen alarm where one does
not, and yet is never noticed. -/
theorem Session.Reachable.assignments_found {s : Session} {known : List Site}
    (hs : s.Reachable known) (alarm : Halt) (fuel : Nat) (source : String) :
    s.runWatched (Run.demandAssignment (known ++ s.sitesOf source) alarm) fuel source =
        s.run fuel source ∧
      s.evaluateWatched (Run.demandAssignment known alarm) fuel source =
        s.evaluate fuel source := by
  constructor
  · exact (hs.sound.run_of_silent fuel source (silent_ensure_assigns alarm)).1
  · exact (hs.sound.evaluate_of_silent fuel source (silent_ensure_assigns alarm)).1

/-- A counter that one program makes and the next one counts up. -/
theorem Session.assignments_found_counter : ∃ step known,
    (Session.start {}).serve 40 (.run
    "fun make() { var n = nil; fun next() { n = true; return n; } return next; } var f = make();") =
        some step ∧ step.session.Reachable known ∧
      step.session.runWatched (Run.demandAssignment (known ++ step.session.sitesOf "print f();")
          (.output "lost")) 40 "print f();" =
        step.session.run 40 "print f();" := by
  have hsome : ((Session.start {}).serve 40 (.run
      "fun make() { var n = nil; fun next() { n = true; return n; } return next; } var f = make();")
        ).isSome = true := by
    decide +kernel
  obtain ⟨step, hstep⟩ := Option.isSome_iff_exists.1 hsome
  have hreachable := (Session.Reachable.start {}).serve 40 _ hstep
  have hfound := hreachable.assignments_found (.output "lost") 40 "print f();"
  exact ⟨step, _, hstep, hreachable, hfound.1⟩

/-- An assignment in the initializer of its own variable is accepted, and a depth is recorded for
it; but there is nothing yet to assign to. -/
theorem Session.assignment_lost_in_own_initializer :
    Accepted "{ var a = a = true; print a; }" ∧
      Finding.use 1 ⟨.identifier, "a", 1, 11⟩ (some 0) ∈
        resolve (readProgram 0 (tokens "{ var a = a = true; print a; }")).result ∧
      ((Session.start {}).run 20 "{ var a = a = true; print a; }").map
          (fun step ↦ (step.outcome, step.reported)) =
        some (.runtimeError, [.runtime 1 (.undefinedVariable "a")]) := by
  decide +kernel

end Lox
