import Lox.Proofs.Grammar.Orderly
import Lox.Proofs.Machine.Agreement
import Lox.Proofs.Parser.Soundness
import Lox.Proofs.Session.Growth
import Lox.Proofs.Session.Steps

/-!
# Resolution and execution agree on scopes

Whenever a machine of a session evaluates a node for which a depth is recorded, it stands in scopes
that mirror those that resolution saw around the node, and the scope at the recorded depth holds the
name of the node.  The statement is about watched execution: a watch that halts the machine at a
node where this fails can be set on every step of a session without changing what the step does.
-/

namespace Lox

open Lox.Computation (EndsIn)

-- No source is read to know where its sites are.
attribute [local irreducible] readProgram readExpression

/-- The site of a node is known, the machine stands in scopes that mirror those of the site, and the
scope at a depth is there and holds the name of the node. -/
def Machine.FindsAt (known : List Site) (m : Machine) (id : NodeId) (name : Token) (depth : Nat) :
    Prop :=
  ∃ site ∈ known, site.id = id ∧ site.name = name ∧ m.heap.Mirrors m.current site.scopes ∧
    site.scopes.depth? name.lexeme = some depth ∧
    ∃ scope, m.heap.ancestor? m.current depth = some scope ∧
      m.heap.holds scope name.lexeme = true

/-- A variable with a recorded depth is found there, and reading it finds a value.  One without is
read in the global scope. -/
def Machine.ReadsVariable (known : List Site) (m : Machine) (id : NodeId) (name : Token) : Prop :=
  match m.addresses[id]? with
  | some depth => m.FindsAt known id name depth ∧ ∃ value, Run.lookUp id name m = .ok value m
  | none => Run.lookUp id name m = Run.valueIn (some globals) name.lexeme name.line m

/-- A superclass with a recorded depth is found there, and neither it nor the instance is undefined.
Without a recorded depth nothing is looked up. -/
def Machine.ReadsSuper (known : List Site) (m : Machine) (id : NodeId) (keyword method : Token) :
    Prop :=
  match m.addresses[id]? with
  | some depth => m.FindsAt known id keyword depth ∧ ∀ line name m',
    Run.superMethod id keyword method m ≠ .error (.fault line (.undefinedVariable name)) m'
  | none => Run.superMethod id keyword method m =
    .error (.fault keyword.line (.undefinedVariable "super")) m

/-- The machine agrees with resolution about the node that it is about to evaluate. -/
def Machine.Agrees (known : List Site) (m : Machine) : Expr → Prop
  | .var id name => m.ReadsVariable known id name
  | .this id keyword => m.ReadsVariable known id keyword
  | .super id keyword method => m.ReadsSuper known id keyword method
  | _ => True

section Agrees

variable {m : Machine} {addresses : Std.TreeMap NodeId Nat} {next : NodeId} {known : List Site}
  {scopes : Scopes}

theorem valueIn_of_holds {scope : ScopeRef} {name : String}
    (h : m.heap.holds scope name = true) (line : Nat) :
    ∃ value, Run.valueIn (some scope) name line m = .ok value m := by
  obtain ⟨value, hvalue⟩ := Heap.holds_iff.1 h
  refine ⟨value, ?_⟩
  unfold Run.valueIn
  rw [Computation.get_bind, Option.bind_some, hvalue]
  rfl

theorem readsVariable_of_located {id : NodeId} {name : Token}
    (hm : m.Stands (Site.Located addresses next known) addresses scopes)
    (hsite : Site.Located addresses next known ⟨id, name, .read, scopes⟩) :
    m.ReadsVariable known id name := by
  have hlook : Run.lookUp id name m = Run.valueIn (m.scopeOf? id) name.lexeme name.line m := rfl
  unfold Machine.ReadsVariable
  split
  · rename_i depth hdepth
    obtain ⟨hknown, hready, hfound⟩ := hsite.recorded depth (hm.addresses ▸ hdepth)
    obtain ⟨target, htarget, hholds⟩ := hm.mirrors.ancestor (hready depth hfound)
    refine ⟨⟨_, hknown, rfl, rfl, hm.mirrors, hfound, target, htarget, hholds⟩, ?_⟩
    rw [hlook, Machine.scopeOf?, hdepth]
    dsimp only
    rw [htarget]
    exact valueIn_of_holds hholds _
  · rename_i hnone
    rw [hlook, Machine.scopeOf?, hnone]

/-- Once the superclass and the instance are there, nothing is undefined any more. -/
theorem superMethod_ne_undefined {id : NodeId} {keyword method : Token} {depth : Nat}
    {superclass object : Value} (hdepth : m.addresses[id]? = some depth)
    (hsuperclass : Run.valueIn (m.heap.ancestor? m.current depth) keyword.lexeme keyword.line m =
      .ok superclass m)
    (hobject : Run.valueIn (m.heap.ancestor? m.current (depth - 1)) "this" keyword.line m =
      .ok object m) (line : Nat) (name : String) (m' : Machine) :
    Run.superMethod id keyword method m ≠ .error (.fault line (.undefinedVariable name)) m' := by
  intro h
  unfold Run.superMethod at h
  rw [Computation.get_bind, hdepth] at h
  dsimp only at h
  rw [Computation.bind_of_ok hsuperclass, Computation.bind_of_ok hobject] at h
  cases superclass with
  | cls c =>
    cases object with
    | «instance» i =>
      dsimp only at h
      cases hfound : c.findMethod? method.lexeme with
      | some found =>
        rw [hfound] at h
        cases h
      | none =>
        rw [hfound] at h
        cases h
    | _ => cases h
  | _ => cases h

theorem readsSuper_of_located {id : NodeId} {keyword method : Token}
    (hm : m.Stands (Site.Located addresses next known) addresses scopes)
    (hsite : Site.Located addresses next known ⟨id, keyword, .super, scopes⟩) :
    m.ReadsSuper known id keyword method := by
  unfold Machine.ReadsSuper
  split
  · rename_i depth hdepth
    obtain ⟨hknown, hready, hfound⟩ := hsite.recorded depth (hm.addresses ▸ hdepth)
    obtain ⟨hsuper, depth', rfl, hthis⟩ := hready depth hfound
    obtain ⟨target, htarget, hholds⟩ := hm.mirrors.ancestor hsuper
    obtain ⟨inner, hinner, hholds'⟩ := hm.mirrors.ancestor hthis
    refine ⟨⟨_, hknown, rfl, rfl, hm.mirrors, hfound, target, htarget, hholds⟩, ?_⟩
    obtain ⟨superclass, hsuperclass⟩ := valueIn_of_holds hholds keyword.line
    obtain ⟨object, hobject⟩ := valueIn_of_holds hholds' keyword.line
    rw [← htarget] at hsuperclass
    rw [← hinner] at hobject
    exact superMethod_ne_undefined hdepth hsuperclass hobject
  · rename_i hnone
    unfold Run.superMethod
    rw [Computation.get_bind, hnone]
    rfl

/-- The watch for agreement never objects. -/
theorem silent_ensure_agrees (alarm : Halt) :
    Run.Silent (Site.Located addresses next known) addresses
      fun e ↦ Run.ensure (·.Agrees known e) alarm := by
  intro e scopes m hm hsites
  refine Run.ensure_of_property ?_ alarm
  cases e with
  | var id name => exact readsVariable_of_located hm (hsites _ List.mem_cons_self)
  | this id keyword => exact readsVariable_of_located hm (hsites _ List.mem_cons_self)
  | super id keyword method => exact readsSuper_of_located hm (hsites _ List.mem_cons_self)
  | _ => trivial

end Agrees

/-- The identifiers of the sites of a source are new and differ from each other. -/
theorem Session.issued_sitesOf (s : Session) (source : String) :
    s.nextId ≤ (readProgram s.nextId (tokens source)).nextId ∧
      Issued s.nextId (readProgram s.nextId (tokens source)).nextId
        ((s.sitesOf source).map Site.id) := by
  rw [Session.sitesOf, Stmt.map_id_sitesAll]
  exact issued_readProgram s.nextId (tokens source)

/-- The machine stands in the global scope and is sound for the sites known so far.  Depths are
recorded and sites are known for identifiers that have been given out only, and each identifier
names one site. -/
structure Session.Sound (s : Session) (known : List Site) : Prop where
  heap : s.machine.heap.Sound (Site.Located s.machine.addresses s.nextId known)
  home : s.machine.heap.Mirrors s.machine.current []
  recorded : ∀ id depth, s.machine.addresses[id]? = some depth → id < s.nextId
  distinct : (known.map Site.id).Nodup
  given : ∀ site ∈ known, site.id < s.nextId

namespace Session.Sound

variable {s s' : Session} {known : List Site}

/-- Soundness is a matter of the heap, the depths and the identifiers alone. -/
theorem congr (h : s.Sound known) (hheap : s'.machine.heap = s.machine.heap)
    (hcurrent : s'.machine.current = s.machine.current)
    (haddresses : s'.machine.addresses = s.machine.addresses) (hnext : s'.nextId = s.nextId) :
    s'.Sound known where
  heap := by rw [hheap, haddresses, hnext]; exact h.heap
  home := by rw [hheap, hcurrent]; exact h.home
  recorded := by rw [haddresses, hnext]; exact h.recorded
  distinct := h.distinct
  given := by rw [hnext]; exact h.given

theorem persistent (known : List Site) : Persistent (·.Sound known) :=
  .of_host fun hmachine hnext h ↦
    h.congr (by rw [hmachine]) (by rw [hmachine]) (by rw [hmachine]) hnext

/-- Nothing has run since, and the identifiers of some more sites have been given out. -/
theorem grow (h : s.Sound known) (hgrows : s.Grows s') {sites : List Site}
    (hissued : Issued s.nextId s'.nextId (sites.map Site.id)) : s'.Sound (known ++ sites) where
  heap := by
    rw [hgrows.heap]
    exact h.heap.imp fun site hsite ↦
      hsite.mono hgrows.next (List.subset_append_left ..) hgrows.kept
  home := by rw [hgrows.heap, hgrows.current]; exact h.home
  recorded := hgrows.recorded
  distinct := by
    rw [List.map_append]
    refine h.distinct.append hissued.nodup fun id hid hid' ↦ ?_
    obtain ⟨site, hsite, rfl⟩ := List.mem_map.1 hid
    exact absurd (h.given site hsite) (Nat.not_lt_of_le (hissued.bounds hid').1)
  given site hsite := by
    rcases List.mem_append.1 hsite with hsite | hsite
    · exact Nat.lt_of_lt_of_le (h.given site hsite) hgrows.next
    · exact (hissued.bounds (List.mem_map_of_mem hsite)).2

theorem start (host : Host) : (Session.start host).Sound [] where
  heap := by
    refine ⟨fun scope name value hvalue ↦ ?_, fun i name value hvalue ↦ ?_⟩
    · obtain ⟨b, -, rfl⟩ := Heap.exists_builtin_of_get?_start hvalue
      trivial
    · cases hvalue
  home := ⟨rfl, Nat.zero_lt_one, rfl⟩
  recorded id depth hdepth := by
    rw [show (Session.start host).machine.addresses = ∅ from rfl, Std.TreeMap.getElem?_emptyc]
      at hdepth
    cases hdepth
  distinct := .nil
  given := nofun

theorem follow (h : s.Sound known) {m : Machine} (hfollows : s.machine.Follows m)
    (hsound : m.heap.Sound (Site.Located s.machine.addresses s.nextId known)) :
    Session.Sound { s with machine := m } known where
  heap := by rw [hfollows.addresses]; exact hsound
  home := by rw [hfollows.current]; exact h.home.mono hfollows.heap
  recorded := by rw [hfollows.addresses]; exact h.recorded
  distinct := h.distinct
  given := h.given

/-- A computation that agrees with another one leaves the session sound. -/
theorem endsIn (h : s.Sound known) {α : Type} {x y : Run α} {Q : α → Heap → Prop}
    (hagree : Run.Agree (Site.Located s.machine.addresses s.nextId known) x y s.machine Q) :
    EndsIn (fun m ↦ Session.Sound { s with machine := m } known) x s.machine :=
  hagree.endsIn.mono fun _ hpost ↦ h.follow hpost.1 hpost.2

end Session.Sound

/-! ### Steps under watch -/

/-- Halt with an alarm where the machine disagrees with resolution about a node. -/
noncomputable def Run.demandAgreement (known : List Site) (alarm : Halt) (e : Expr) : Run Unit :=
  Run.ensure (·.Agrees known e) alarm

/-- Run a program, with a watch on every expression that is evaluated. -/
def Session.runWatched (watch : Expr → Run Unit) (fuel : Nat) (s : Session) (source : String) :
    Option Step :=
  s.runWith (Run.programWatched watch fuel) source

/-- Print the value of an expression, with a watch on every expression that is evaluated. -/
def Session.evaluateWatched (watch : Expr → Run Unit) (fuel : Nat) (s : Session)
    (source : String) : Option Step :=
  s.withExpression source fun e ↦ do
    let value ← Run.evaluateWatched watch fuel e
    Run.printLine value.display

/-- With a watch for nothing these are the steps of a session. -/
theorem Session.watched_pure (fuel : Nat) (s : Session) (source : String) :
    s.runWatched (fun _ ↦ pure ()) fuel source = s.run fuel source ∧
      s.evaluateWatched (fun _ ↦ pure ()) fuel source = s.evaluate fuel source := by
  have hprogram : Run.programWatched (fun _ ↦ pure ()) fuel = Run.program fuel :=
    funext (Run.programOverseen_blind fuel)
  have hevaluate : Run.evaluateWatched (fun _ ↦ pure ()) fuel = Run.evaluate fuel :=
    (Run.overseen_blind fuel).1
  refine ⟨?_, ?_⟩
  · rw [Session.runWatched, Session.run, hprogram]
  · rw [Session.evaluateWatched, Session.evaluate, hevaluate]

namespace Session.Sound

variable {s : Session} {known : List Site}

theorem read (h : s.Sound known) (source : String) :
    Session.Sound { s with nextId := (readProgram s.nextId (tokens source)).nextId }
      (known ++ s.sitesOf source) := by
  obtain ⟨hnext, hissued⟩ := s.issued_sitesOf source
  exact h.grow (.next_id h.recorded hnext) hissued

theorem resolved (h : s.Sound known) (source : String) :
    (s.resolved source).Sound (known ++ s.sitesOf source) :=
  h.grow (.resolved h.recorded source) (s.issued_sitesOf source).2

/-- The sites of a program that is accepted are located once it is resolved. -/
theorem located (h : s.Sound known) {source : String}
    (herrors : (readProgram s.nextId (tokens source)).errors = [])
    (hquiet : Quiet (resolve (readProgram s.nextId (tokens source)).result)) :
    Stmt.OrderlyAll (readProgram s.nextId (tokens source)).result ∧
      ∀ site ∈ s.sitesOf source, site.Located (s.resolved source).machine.addresses
        (s.resolved source).nextId (known ++ s.sitesOf source) := by
  have horderly : Stmt.OrderlyAll (readProgram s.nextId (tokens source)).result :=
    (program_of_errors_eq_nil herrors).orderly fun t ht ↦
      spelt_of_mem_tokens (List.takeWhile_subset _ ht)
  have hresolved := Session.hasResolved h.recorded hquiet
  have hlt : ∀ site ∈ s.sitesOf source, site.id < (s.resolved source).nextId := fun site hsite ↦
    hresolved.given _ (Stmt.map_id_sitesAll [] _ ▸ List.mem_map_of_mem hsite)
  exact ⟨horderly, Site.Located.of_addressed hresolved.addressed hlt
    (Stmt.readyAll_of_quiet Scopes.settled_nil horderly hquiet) (List.subset_append_right ..)⟩

theorem agree_of_silent (h : s.Sound known) {watch : Expr → Run Unit} (fuel : Nat)
    (source : String)
    (hwatch : Run.Silent (Site.Located (s.resolved source).machine.addresses
      (s.resolved source).nextId (known ++ s.sitesOf source))
      (s.resolved source).machine.addresses watch)
    (herrors : (readProgram s.nextId (tokens source)).errors = [])
    (hquiet : Quiet (resolve (readProgram s.nextId (tokens source)).result)) :
    Run.Agree
      (Site.Located (s.resolved source).machine.addresses (s.resolved source).nextId
        (known ++ s.sitesOf source))
      (Run.program fuel (readProgram s.nextId (tokens source)).result)
      (Run.programWatched watch fuel (readProgram s.nextId (tokens source)).result)
      (s.resolved source).machine fun _ _ ↦ True := by
  have hresolved := h.resolved source
  obtain ⟨horderly, hsites⟩ := h.located herrors hquiet
  exact Run.agree_program hwatch fuel _ _ ⟨rfl, hresolved.heap, hresolved.home⟩ hsites horderly

theorem agree (h : s.Sound known) (alarm : Halt) (fuel : Nat) (source : String)
    (herrors : (readProgram s.nextId (tokens source)).errors = [])
    (hquiet : Quiet (resolve (readProgram s.nextId (tokens source)).result)) :
    Run.Agree
      (Site.Located (s.resolved source).machine.addresses (s.resolved source).nextId
        (known ++ s.sitesOf source))
      (Run.program fuel (readProgram s.nextId (tokens source)).result)
      (Run.programWatched (Run.demandAgreement (known ++ s.sitesOf source) alarm) fuel
        (readProgram s.nextId (tokens source)).result)
      (s.resolved source).machine fun _ _ ↦ True :=
  h.agree_of_silent fuel source (silent_ensure_agrees alarm) herrors hquiet

/-- A program runs alike with and without a silent watch and leaves the session sound. -/
theorem run_of_silent (h : s.Sound known) {watch : Expr → Run Unit} (fuel : Nat) (source : String)
    (hwatch : Run.Silent (Site.Located (s.resolved source).machine.addresses
      (s.resolved source).nextId (known ++ s.sitesOf source))
      (s.resolved source).machine.addresses watch) :
    s.runWatched watch fuel source = s.run fuel source ∧
      ∀ step, s.run fuel source = some step →
        step.session.Sound (known ++ s.sitesOf source) := by
  have hagree := h.agree_of_silent fuel source hwatch
  constructor
  · apply runWith_congr
    intro herrors hquiet
    exact (hagree herrors hquiet).1.symm
  · intro step hstep
    exact (persistent _).runWith (h.read source) (h.resolved source)
      (fun herrors hquiet ↦ (h.resolved source).endsIn (hagree herrors hquiet)) hstep

theorem run (h : s.Sound known) (alarm : Halt) (fuel : Nat) (source : String) :
    s.runWatched (Run.demandAgreement (known ++ s.sitesOf source) alarm) fuel source =
        s.run fuel source ∧
      ∀ step, s.run fuel source = some step →
        step.session.Sound (known ++ s.sitesOf source) :=
  h.run_of_silent fuel source (silent_ensure_agrees alarm)

theorem readExpression (h : s.Sound known) (source : String) :
    Session.Sound { s with nextId := (Lox.readExpression s.nextId (tokens source)).nextId }
      known := by
  have hnext := (issued_readExpression s.nextId (tokens source)).1
  have hsites : Issued s.nextId (Lox.readExpression s.nextId (tokens source)).nextId
      (([] : List Site).map Site.id) := .nil
  have hsound := h.grow (.next_id h.recorded hnext) hsites
  rwa [List.append_nil] at hsound

/-- No depth is recorded for the nodes of an expression that is read by itself. -/
theorem located_expression (h : s.Sound known) {source : String} {e : Expr}
    (he : (Lox.readExpression s.nextId (tokens source)).result = some e) :
    ∀ site ∈ e.sites [], site.Located s.machine.addresses
      (Lox.readExpression s.nextId (tokens source)).nextId known := by
  obtain ⟨-, hissued⟩ := issued_readExpression s.nextId (tokens source)
  rw [he] at hissued
  intro site hsite
  have hid : site.id ∈ e.ids := e.map_id_sites [] ▸ List.mem_map_of_mem hsite
  obtain ⟨hlow, hhigh⟩ := hissued.bounds hid
  refine .of_getElem?_eq_none hhigh ?_
  cases hdepth : s.machine.addresses[site.id]? with
  | none => rfl
  | some depth => exact absurd (h.recorded _ _ hdepth) (Nat.not_lt_of_le hlow)

/-- An expression is evaluated alike with and without a silent watch and leaves the session
sound. -/
theorem evaluate_of_silent (h : s.Sound known) {watch : Expr → Run Unit} (fuel : Nat)
    (source : String)
    (hwatch : Run.Silent (Site.Located s.machine.addresses
      (Lox.readExpression s.nextId (tokens source)).nextId known) s.machine.addresses watch) :
    s.evaluateWatched watch fuel source = s.evaluate fuel source ∧
      ∀ step, s.evaluate fuel source = some step → step.session.Sound known := by
  have hread := h.readExpression source
  have hagree : ∀ e, (Lox.readExpression s.nextId (tokens source)).result = some e →
      Run.Agree (Site.Located s.machine.addresses
        (Lox.readExpression s.nextId (tokens source)).nextId known)
        (Run.evaluate fuel e) (Run.evaluateWatched watch fuel e) s.machine
        fun v h ↦ v.Sound (Site.Located s.machine.addresses
          (Lox.readExpression s.nextId (tokens source)).nextId known) h := by
    intro e he
    exact (Run.evaluate_and_execute_alike hwatch fuel).1 e [] s.machine
      ⟨rfl, hread.heap, hread.home⟩ (h.located_expression he)
  constructor
  · apply withExpression_congr
    intro e he _
    exact (Computation.bind_eq_bind (hagree e he).1).symm
  · intro step hstep
    exact (persistent _).printing hread (fun e he _ ↦ hread.endsIn (hagree e he)) hstep

theorem evaluate (h : s.Sound known) (alarm : Halt) (fuel : Nat) (source : String) :
    s.evaluateWatched (Run.demandAgreement known alarm) fuel source = s.evaluate fuel source ∧
      ∀ step, s.evaluate fuel source = some step → step.session.Sound known :=
  h.evaluate_of_silent fuel source (silent_ensure_agrees alarm)

/-- Every request leaves a session sound. -/
theorem serve (h : s.Sound known) {fuel : Nat} {request : Request} {step : Step}
    (hstep : s.serve fuel request = some step) :
    step.session.Sound (known ++ s.newSites request) := by
  cases request with
  | run source => exact (h.run .exhausted fuel source).2 step hstep
  | evaluate source =>
    rw [show s.newSites _ = [] from rfl, List.append_nil]
    exact (h.evaluate .exhausted fuel source).2 step hstep
  | parse source =>
    rw [show s.newSites _ = [] from rfl, List.append_nil]
    exact (persistent _).parse (h.readExpression source) hstep
  | tokenize json source =>
    rw [show s.newSites _ = [] from rfl, List.append_nil]
    cases hstep
    exact (persistent _).listItems h ..
  | reset =>
    rw [show s.newSites _ = [] from rfl, List.append_nil]
    cases hstep
    exact h.congr rfl rfl rfl rfl

end Session.Sound

/-- By induction on the requests: reachable sessions are sound. -/
theorem Session.Reachable.sound {s : Session} {known : List Site} (hs : s.Reachable known) :
    s.Sound known := by
  induction hs with
  | start host => exact .start host
  | serve _ fuel request hstep ih => exact ih.serve hstep
  | host _ host ih => exact ih.congr rfl rfl rfl rfl

/-- Resolution and execution agree on scopes, in every session and at every node that is evaluated.
The watch halts with any chosen alarm where they do not, and yet is never noticed.  Resolution tells
about the sites of a program, and each identifier names one site. -/
theorem Session.Reachable.agreement {s : Session} {known : List Site} (hs : s.Reachable known)
    (alarm : Halt) (fuel : Nat) (source : String) :
    s.runWatched (Run.demandAgreement (known ++ s.sitesOf source) alarm) fuel source =
        s.run fuel source ∧
      s.evaluateWatched (Run.demandAgreement known alarm) fuel source = s.evaluate fuel source ∧
      Tallies (resolve (readProgram s.nextId (tokens source)).result) (s.sitesOf source) ∧
      ((known ++ s.sitesOf source).map Site.id).Nodup :=
  ⟨(hs.sound.run alarm fuel source).1, (hs.sound.evaluate alarm fuel source).1,
    Stmt.talliesAll .., (hs.sound.read source).distinct⟩

/-- A closure over a parameter, made by one program and called by the next. -/
theorem Session.agreement_closure : ∃ step known,
    (Session.start {}).serve 40 (.run
        "fun make(n) { fun next() { return n; } return next; } var f = make(true);") = some step ∧
      step.session.Reachable known ∧
      step.session.runWatched (Run.demandAgreement (known ++ step.session.sitesOf "print f();")
          .exhausted) 40 "print f();" =
        step.session.run 40 "print f();" := by
  have hsome : ((Session.start {}).serve 40 (.run
      "fun make(n) { fun next() { return n; } return next; } var f = make(true);")).isSome =
        true := by
    decide +kernel
  obtain ⟨step, hstep⟩ := Option.isSome_iff_exists.1 hsome
  have hreachable := (Session.Reachable.start {}).serve 40 _ hstep
  exact ⟨step, _, hstep, hreachable, (hreachable.agreement .exhausted 40 "print f();").1⟩

end Lox
