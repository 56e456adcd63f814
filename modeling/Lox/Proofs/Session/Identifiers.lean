import Lox.Proofs.Machine.Frame
import Lox.Proofs.Resolution.Recordings
import Lox.Proofs.Session.Scoping
import Lox.Proofs.Session.Steps

/-!
# Identifiers for the life of a session

The counter of identifiers outlives every request, and goes on where errors have stopped a reading.
So each identifier names one node of all that was ever read, a depth is recorded for it at most
once, and the functions that earlier programs have left behind keep the depths of their nodes
(`Session.Past.ids_unique`).
-/

namespace Lox

open Lox.Computation (EndsIn)

-- No source is read to know which identifiers it has been given.
attribute [local irreducible] readProgram readExpression

/-- A function is a method of a class or of one that this extends. -/
def Class.Provides (c : Class) (f : Function) : Prop :=
  ∃ layer ∈ c.lineage, ∃ name, layer.methods.get? name = some f

/-- A value is a function, or brings it along as a method. -/
def Value.Brings (v : Value) (f : Function) : Prop :=
  match v with
  | .function g => g = f
  | .cls c => c.Provides f
  | .instance i => i.cls.Provides f
  | _ => False

/-- The function that a value is, without methods. -/
def Value.function? : Value → Option Function
  | .function f => some f
  | _ => none

theorem Value.brings_of_function? {v : Value} {f : Function} (h : v.function? = some f) :
    v.Brings f := by
  cases v with
  | function g => exact Option.some.inj h
  | _ => cases h

/-- Scopes or fields hold a function. -/
def Heap.HasFunction (h : Heap) (f : Function) : Prop :=
  (∃ scope name v, h.get? scope name = some v ∧ v.Brings f) ∨
    ∃ i name v, (h.fieldsOf i).get? name = some v ∧ v.Brings f

section Sound

variable {P : Site → Prop} {h : Heap} {f : Function}

theorem Class.Sound.placed {c : Class} (hc : c.Sound P h) (hf : c.Provides f) :
    ∃ scopes, f.routine.Placed P scopes := by
  obtain ⟨layer, hlayer, name, hmethod⟩ := hf
  obtain ⟨scopes, -, hplaced⟩ := hc layer hlayer name f hmethod
  exact ⟨_, hplaced⟩

theorem Value.Sound.placed {v : Value} (hv : v.Sound P h) (hf : v.Brings f) :
    ∃ scopes, f.routine.Placed P scopes := by
  cases v with
  | function g =>
    cases hf
    obtain ⟨scopes, -, hplaced⟩ := hv
    exact ⟨scopes, hplaced⟩
  | cls c => exact Class.Sound.placed hv hf
  | «instance» i => exact Class.Sound.placed hv hf
  | _ => exact hf.elim

theorem Heap.Sound.placed (hs : h.Sound P) (hf : h.HasFunction f) :
    ∃ scopes, f.routine.Placed P scopes := by
  rcases hf with ⟨scope, name, v, hv, hbrings⟩ | ⟨i, name, v, hv, hbrings⟩
  · exact (hs.bound scope name v hv).placed hbrings
  · exact (hs.fields i name v hv).placed hbrings

end Sound

/-- The nodes of the functions of a session have got their identifiers already. -/
theorem Session.Sound.lt_nextId {s : Session} {known : List Site} (h : s.Sound known)
    {f : Function} (hf : s.machine.heap.HasFunction f) :
    ∀ id ∈ Stmt.idsRoutine f.routine, id < s.nextId := by
  intro id hid
  obtain ⟨scopes, hplaced⟩ := h.heap.placed hf
  rw [← Stmt.map_id_sitesRoutine scopes] at hid
  obtain ⟨site, hsite, rfl⟩ := List.mem_map.1 hid
  exact (hplaced.1 site hsite).lt

/-- What a request reads. -/
def Request.inputs : Request → List Input
  | .run source => [.program (tokens source)]
  | .evaluate source => [.expression (tokens source)]
  | .parse source => [.expression (tokens source)]
  | _ => []

namespace Session

/-- The programs that a request resolves: only what is to be run is resolved, and only if it was
read without errors. -/
def resolves (s : Session) : Request → List (List Stmt)
  | .run source =>
    let reading := readProgram s.nextId (tokens source)
    if lexicalErrors (scan source) = [] ∧ reading.errors = [] then [reading.result] else []
  | _ => []

theorem resolves_sublist (s : Session) (request : Request) :
    (s.resolves request).Sublist
      ((Input.readAll s.nextId request.inputs).result.filterMap Tree.program?) := by
  cases request with
  | run source =>
    unfold resolves
    dsimp only
    split
    · exact .refl _
    · exact List.nil_sublist _
  | _ => exact List.nil_sublist _

/-- What a request resolves has identifiers that no node had before. -/
theorem nextId_le_of_mem_resolves (s : Session) (request : Request) {id : NodeId} {depth : Nat}
    (h : (id, depth) ∈ (s.resolves request).flatMap recordings) : s.nextId ≤ id := by
  have hresolved := (recordings_sublist _).subset (List.mem_map_of_mem h)
  have hread := ((s.resolves_sublist request).flatMap Stmt.idsAll).subset hresolved
  have htrees := (Tree.flatMap_programs_sublist _).subset hread
  exact ((Input.issued_readAll s.nextId request.inputs).2.bounds htrees).1

/-- Sessions that keep the same depths and give out the same identifiers from now on. -/
structure SameNodes (s s' : Session) : Prop where
  addresses : s.machine.addresses = s'.machine.addresses
  nextId : s.nextId = s'.nextId

/-- A session that has read what a request reads, and has resolved what it resolves. -/
def taking (s : Session) (request : Request) : Session :=
  { s with
    machine := s.machine.recordAll (s.resolves request)
    nextId := (Input.readAll s.nextId request.inputs).nextId }

theorem taking_of_clean {s : Session} {source : String}
    (h : lexicalErrors (scan source) = [] ∧ (readProgram s.nextId (tokens source)).errors = []) :
    s.taking (.run source) = s.resolved source := by
  have hresolves : s.resolves (.run source) = [(readProgram s.nextId (tokens source)).result] :=
    if_pos h
  rw [taking, hresolves]
  rfl

theorem taking_of_not_clean {s : Session} {source : String}
    (h : ¬(lexicalErrors (scan source) = [] ∧ (readProgram s.nextId (tokens source)).errors = [])) :
    s.taking (.run source) =
      { s with nextId := (readProgram s.nextId (tokens source)).nextId } := by
  have hresolves : s.resolves (.run source) = [] := if_neg h
  rw [taking, hresolves]
  rfl

namespace SameNodes

variable {s s' : Session} {step : Step}

theorem refl (s : Session) : s.SameNodes s :=
  ⟨rfl, rfl⟩

/-- To report and to print reads and resolves nothing. -/
theorem persistent (s' : Session) : Persistent (·.SameNodes s') :=
  .of_host fun hmachine hnext h ↦ ⟨by rw [hmachine]; exact h.addresses, hnext.trans h.nextId⟩

theorem endsIn (h : s.SameNodes s') {α : Type} {x : Run α} (hx : Run.Sparing x) :
    EndsIn (fun m ↦ SameNodes { s with machine := m } s') x s.machine :=
  (EndsIn.of_moves hx s.machine).mono fun _ hm ↦
    ⟨hm.follows.addresses.trans h.addresses, h.nextId⟩

end SameNodes

section Serve

variable {s : Session} {fuel : Nat} {step : Step}

theorem sameNodes_run {source : String} (hstep : s.run fuel source = some step) :
    step.session.SameNodes (s.taking (.run source)) := by
  cases s.programFate source with
  | misread hsome hfails =>
    rw [taking_of_not_clean fun h ↦ hsome (programErrors_eq_nil_iff.2 h)]
    rw [Session.run, hfails] at hstep
    cases hstep
    exact (SameNodes.persistent _).reportAll (.refl _) _
  | violating hlexical herrors _ hfails =>
    rw [taking_of_clean ⟨hlexical, herrors⟩]
    rw [Session.run, hfails] at hstep
    cases hstep
    exact (SameNodes.persistent _).reportAll (.refl _) _
  | executed hlexical herrors _ hruns =>
    rw [taking_of_clean ⟨hlexical, herrors⟩]
    exact (SameNodes.persistent _).perform ((SameNodes.refl _).endsIn (.program fuel _))
      ((hruns _).symm.trans hstep)

theorem sameNodes_read (s : Session) (source : String) :
    SameNodes { s with nextId := (readExpression s.nextId (tokens source)).nextId }
      (s.taking (.evaluate source)) :=
  ⟨rfl, rfl⟩

/-- A request gives out the identifiers of what it reads, and records the depths of what it
resolves. It does nothing else to either. -/
theorem sameNodes_serve {request : Request} (hstep : s.serve fuel request = some step) :
    step.session.SameNodes (s.taking request) := by
  cases request with
  | run source => exact sameNodes_run hstep
  | evaluate source =>
    exact (SameNodes.persistent _).printing (s.sameNodes_read source) (fun e _ _ ↦
      (s.sameNodes_read source).endsIn ((Run.Sparing.evaluate_and_execute fuel).1 e)) hstep
  | parse source => exact (SameNodes.persistent _).parse (s.sameNodes_read source) hstep
  | tokenize json source =>
    cases hstep
    exact (SameNodes.persistent _).listItems (SameNodes.refl s) ..
  | reset =>
    cases hstep
    exact ⟨rfl, rfl⟩

end Serve

/-! ### Sessions and their past -/

/-- The sessions that requests lead to, each with all that was read on the way and the programs that
were resolved.  Between two requests the world may change, and something else may be read with
identifiers from the same counter. -/
inductive Past : Session → List Input → List (List Stmt) → Prop
  | start (host : Host) : Past (.start host) [] []
  | serve {s : Session} {read : List Input} {resolved : List (List Stmt)}
      (hs : Past s read resolved) (fuel : Nat) (request : Request) {step : Step}
      (hstep : s.serve fuel request = some step) :
      Past step.session (read ++ request.inputs) (resolved ++ s.resolves request)
  | elsewhere {s : Session} {read : List Input} {resolved : List (List Stmt)}
      (hs : Past s read resolved) (input : Input) :
      Past { s with nextId := (input.read s.nextId).nextId } (read ++ [input]) resolved
  | host {s : Session} {read : List Input} {resolved : List (List Stmt)}
      (hs : Past s read resolved) (host : Host) :
      Past { s with machine := { s.machine with host } } read resolved

namespace Past

variable {s : Session} {read : List Input} {resolved : List (List Stmt)}

theorem sound (hs : s.Past read resolved) : ∃ known, s.Sound known := by
  induction hs with
  | start host => exact ⟨[], .start host⟩
  | serve _ fuel request hstep ih =>
    obtain ⟨known, hsound⟩ := ih
    exact ⟨_, hsound.serve hstep⟩
  | @elsewhere s _ _ _ input ih =>
    obtain ⟨known, hsound⟩ := ih
    have hgrows := Session.Grows.next_id hsound.recorded (input.issued_read s.nextId).1
    have hnone : Issued s.nextId (input.read s.nextId).nextId (([] : List Site).map Site.id) := .nil
    exact ⟨_, hsound.grow hgrows hnone⟩
  | host _ host ih =>
    obtain ⟨known, hsound⟩ := ih
    exact ⟨known, hsound.congr rfl rfl rfl rfl⟩

/-- The counter stands behind all that was read. -/
theorem nextId_eq (hs : s.Past read resolved) : s.nextId = (Input.readAll 0 read).nextId := by
  induction hs with
  | start host => rfl
  | serve _ fuel request hstep ih =>
    rw [(sameNodes_serve hstep).nextId, Input.readAll_append, ← ih]
    rfl
  | elsewhere _ input ih =>
    rw [Input.readAll_append, ← ih]
    rfl
  | host _ host ih => exact ih

/-- The programs that were read so far, and those among what is read next. -/
theorem programs_append (hs : s.Past read resolved) (inputs : List Input) :
    (Input.readAll 0 (read ++ inputs)).result.filterMap Tree.program? =
      (Input.readAll 0 read).result.filterMap Tree.program? ++
        (Input.readAll s.nextId inputs).result.filterMap Tree.program? := by
  rw [Input.readAll_append, ← hs.nextId_eq]
  exact List.filterMap_append

/-- What was resolved was read before, and each of it was resolved once. -/
theorem resolved_sublist (hs : s.Past read resolved) :
    resolved.Sublist ((Input.readAll 0 read).result.filterMap Tree.program?) := by
  induction hs with
  | start host => exact .refl _
  | serve hs fuel request hstep ih =>
    rw [hs.programs_append]
    exact ih.append (resolves_sublist _ request)
  | elsewhere hs input ih =>
    rw [hs.programs_append]
    exact ih.trans (List.sublist_append_left ..)
  | host _ host ih => exact ih

/-- The depths that are kept are those that were recorded. -/
theorem addresses_eq (hs : s.Past read resolved) :
    s.machine.addresses =
      (resolved.flatMap recordings).foldl (fun t (p : NodeId × Nat) ↦ t.insert p.1 p.2) ∅ := by
  induction hs with
  | start host => rfl
  | serve _ fuel request hstep ih =>
    rw [(sameNodes_serve hstep).addresses, List.flatMap_append, List.foldl_append, ← ih]
    exact Machine.addresses_recordAll _ _
  | elsewhere _ input ih => exact ih
  | host _ host ih => exact ih

end Past

/-- Identifiers name one node each.  Whatever token lists are read one after another, with errors or
without, the nodes of all trees have different identifiers, and whichever of the programs are
resolved, each of them once, no depth is recorded twice for an identifier.  A session reads and
resolves in this way: every program that it has resolved it has read, and the depths that it keeps
are all that were ever recorded.  What one more request resolves records nothing for the nodes of a
function that exists, so these keep their depths. -/
theorem Past.ids_unique {s : Session} {read : List Input} {resolved : List (List Stmt)}
    (hs : s.Past read resolved) (request : Request) :
    (∀ (nextId : NodeId) (inputs : List Input),
      ((Input.readAll nextId inputs).result.flatMap Tree.ids).Nodup ∧
        ∀ programs : List (List Stmt),
          programs.Subperm ((Input.readAll nextId inputs).result.filterMap Tree.program?) →
          ((programs.flatMap recordings).map Prod.fst).Nodup) ∧
    (resolved ++ s.resolves request).Sublist
      ((Input.readAll 0 (read ++ request.inputs)).result.filterMap Tree.program?) ∧
    (((resolved ++ s.resolves request).flatMap recordings).map Prod.fst).Nodup ∧
    (∀ id depth, s.machine.addresses[id]? = some depth ↔
      (id, depth) ∈ resolved.flatMap recordings) ∧
    ∀ f, s.machine.heap.HasFunction f → ∀ id ∈ Stmt.idsRoutine f.routine,
      (∀ depth, (id, depth) ∉ (s.resolves request).flatMap recordings) ∧
        ∀ fuel step, s.serve fuel request = some step →
          step.session.machine.addresses[id]? = s.machine.addresses[id]? := by
  have hsublist : (resolved ++ s.resolves request).Sublist
      ((Input.readAll 0 (read ++ request.inputs)).result.filterMap Tree.program?) := by
    rw [hs.programs_append]
    exact hs.resolved_sublist.append (s.resolves_sublist request)
  obtain ⟨known, hsound⟩ := hs.sound
  refine ⟨fun nextId inputs ↦ ⟨(Input.issued_readAll nextId inputs).2.nodup,
    fun programs ↦ nodup_recordings⟩, hsublist, nodup_recordings hsublist.subperm,
    fun id depth ↦ ?_, fun f hf id hid ↦ ?_⟩
  · rw [hs.addresses_eq]
    exact Machine.getElem?_foldl_insert_iff (nodup_recordings hs.resolved_sublist.subperm) id depth
  · -- The nodes of the function have been read already, those of the program are read only now.
    have hnew : ∀ depth, (id, depth) ∉ (s.resolves request).flatMap recordings :=
      fun depth hmem ↦
        Nat.not_lt_of_le (nextId_le_of_mem_resolves s request hmem) (hsound.lt_nextId hf id hid)
    refine ⟨hnew, fun fuel step hstep ↦ ?_⟩
    rw [(sameNodes_serve hstep).addresses]
    refine (congrArg (·[id]?) (Machine.addresses_recordAll s.machine _)).trans ?_
    refine Machine.getElem?_foldl_insert_of_ne fun p hp hid ↦ hnew p.2 ?_
    rw [← hid]
    exact hp

/-- A closure keeps the depth of a parameter, node 0, over an input with an error and over a program
that has the depth of its own node recorded.  The programs that were read could also be resolved in
reverse. -/
theorem ids_unique_closure :
    let wrong : Input := .program [⟨.identifier, "a", 1, 1⟩, ⟨.equal, "=", 1, 3⟩]
    ∃ (first later : Step) (s : Session) (read : List Input) (resolved : List (List Stmt))
      (f : Function),
      (Session.start {}).serve 40 (.run
        "fun make(n) { fun next() { return n; } return next; } var f = make(true);") = some first ∧
      s = { first.session with nextId := (wrong.read first.session.nextId).nextId } ∧
      s.Past read resolved ∧ s.machine.heap.HasFunction f ∧ 0 ∈ Stmt.idsRoutine f.routine ∧
      s.machine.addresses[0]? = some 1 ∧
      s.serve 40 (.run "{ var b = true; print b; }") = some later ∧
      later.session.machine.addresses[4]? = some 0 ∧
      later.session.machine.addresses[0]? = some 1 ∧
      ((((Input.readAll 0 read).result.filterMap Tree.program?).reverse.flatMap recordings).map
        Prod.fst).Nodup := by
  intro wrong
  have hruns : ((Session.start {}).serve 40 (.run
      "fun make(n) { fun next() { return n; } return next; } var f = make(true);")).any
      (fun first ↦
        ((first.session.machine.heap.get? 0 "f").bind Value.function?).any
          (fun f ↦ 0 ∈ Stmt.idsRoutine f.routine) &&
        first.session.machine.addresses[0]? = some 1 &&
        (serve 40 { first.session with nextId := (wrong.read first.session.nextId).nextId }
          (.run "{ var b = true; print b; }")).any
            (fun later ↦ later.session.machine.addresses[4]? = some 0)) = true := by
    decide +kernel
  simp only [Option.any_eq_true, Bool.and_eq_true, decide_eq_true_eq] at hruns
  obtain ⟨first, hfirst, ⟨⟨f, hfunction, hnode⟩, hdepth⟩, later, hlater, hnew⟩ := hruns
  obtain ⟨v, hv, hfunction⟩ := Option.bind_eq_some_iff.1 hfunction
  have hf : first.session.machine.heap.HasFunction f :=
    .inl ⟨0, "f", v, hv, Value.brings_of_function? hfunction⟩
  have hpast := ((Past.start {}).serve 40 _ hfirst).elsewhere wrong
  obtain ⟨hread, -, -, -, hkeeps⟩ := hpast.ids_unique (.run "{ var b = true; print b; }")
  have hkept := (hkeeps f hf 0 hnode).2 40 later hlater
  exact ⟨first, later, _, _, _, f, hfirst, rfl, hpast, hf, hnode, hdepth, hlater, hnew,
    hkept.trans hdepth, (hread 0 _).2 _ (List.reverse_perm _).subperm⟩

end Session

end Lox
