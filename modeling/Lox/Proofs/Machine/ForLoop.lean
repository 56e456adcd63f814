import Lox.Proofs.Grammar.Contained
import Lox.Proofs.Grammar.Orderly
import Lox.Proofs.Machine.Rounds
import Lox.Proofs.Parser.Soundness
import Lox.Proofs.Session.Grounding

/-!
# `for` loops

A `for` statement has no node of its own: it is read as a `while` loop and blocks around and inside
it.  Here it is a loop in its own right, said in terms of its clauses, and what is read for a `for`
statement is executed as that loop (`forStatement_performed`).
-/

namespace Lox

/-- The machine in a new scope inside its current one. -/
def Machine.enter (m : Machine) : Machine :=
  { m with heap := (m.heap.openScope (some m.current) {}).2, current := m.heap.scopes.size }

/-- The clauses of a `for` statement, each of which may be missing, and its body. -/
structure ForClauses where
  initializer : Option Stmt
  condition : Option Expr
  increment : Option Expr
  body : Stmt

/-- `"for" "(" ( varDecl | exprStmt | ";" ) expression? ";" expression? ")" statement` -/
inductive Grammar.ForStatement : Phrase ForClauses
  | mk {dangling : Bool} {keyword left semicolon right : Token} {ts us vs ws : List Token}
      {clauses : ForClauses} (hkeyword : keyword.kind = .forWord) (hleft : left.kind = .leftParen)
      (hinitializer : ForStart ts clauses.initializer)
      (hcondition : Maybe Expression us clauses.condition)
      (hsemicolon : semicolon.kind = .semicolon)
      (hincrement : Maybe Expression vs clauses.increment) (hright : right.kind = .rightParen)
      (hbody : Statement true true dangling ws clauses.body) :
      ForStatement (keyword :: left :: (ts ++ us ++ semicolon :: (vs ++ right :: ws))) clauses

namespace ForClauses

/-- The tree that is read for the clauses. -/
def tree (clauses : ForClauses) : Stmt :=
  .forLoop clauses.initializer clauses.condition clauses.increment clauses.body

/-- The scopes in which the condition is resolved: those of the loop. -/
def around (clauses : ForClauses) (scopes : Scopes) : Scopes :=
  match clauses.initializer with
  | none => scopes
  | some first => first.scopesAfter ({} :: scopes)

/-- The scopes in which the body and the increment are resolved: one more if there is an
increment. -/
def inside (clauses : ForClauses) (scopes : Scopes) : Scopes :=
  match clauses.increment with
  | none => clauses.around scopes
  | some _ => {} :: clauses.around scopes

/-- What is found in the clauses. -/
def findings (clauses : ForClauses) (context : Context) (scopes : Scopes) : List Finding :=
  Stmt.findingsOption context ({} :: scopes) clauses.initializer ++
    Expr.findingsOption context (clauses.around scopes) clauses.condition ++
    clauses.body.findings context (clauses.inside scopes) ++
    Expr.findingsOption context (clauses.inside scopes) clauses.increment

end ForClauses

namespace Grammar

/-- A statement that begins with `for` is a `for` statement. -/
theorem Statement.forStatement {inLoop dangling : Bool} {keyword : Token} {ts : List Token}
    {s : Stmt} (h : Statement true inLoop dangling (keyword :: ts) s)
    (hkeyword : keyword.kind = .forWord) :
    ∃ clauses, ForStatement (keyword :: ts) clauses ∧ s = clauses.tree := by
  cases h with
  | forLoop hkeyword hleft hinitializer hcondition hsemicolon hincrement hright hbody =>
    exact ⟨⟨_, _, _, _⟩, .mk hkeyword hleft hinitializer hcondition hsemicolon hincrement hright
      hbody, rfl⟩
  | expression h =>
    have hbegins := h.begins
    rw [begins_cons, hkeyword] at hbegins
    cases hbegins
  | block h =>
    obtain ⟨hleft, -, -⟩ := h
    rw [hkeyword] at hleft
    cases hleft
  | ifThen h => rw [hkeyword] at h; cases h
  | ifElse h => rw [hkeyword] at h; cases h
  | print h => rw [hkeyword] at h; cases h
  | «return» h => rw [hkeyword] at h; cases h
  | «while» h => rw [hkeyword] at h; cases h
  | «break» h => rw [hkeyword] at h; cases h
  | «continue» h => rw [hkeyword] at h; cases h

theorem findings_forStep {body : Stmt} (hbody : body.DeclaresNothing) (increment : Option Expr)
    (context : Context) (scopes : Scopes) :
    (forStep increment body).findings context scopes =
      match increment with
      | none => body.findings context scopes
      | some e => body.findings context ({} :: scopes) ++ e.findings context ({} :: scopes) := by
  cases increment with
  | none => rfl
  | some e => simp [forStep, Stmt.findings, Stmt.findingsAll, hbody ({} :: scopes)]

theorem findings_while (condition : Option Expr) (body : Stmt) (context : Context)
    (scopes : Scopes) :
    (Stmt.while (condition.getD (.literal (.bool true))) body).findings context scopes =
      Expr.findingsOption context scopes condition ++ body.findings context scopes := by
  rw [Stmt.findings]
  cases condition with
  | none => rfl
  | some e => rfl

/-- Resolution walks over the tree as over the clauses. -/
theorem ForStatement.findings_tree {ts : List Token} {clauses : ForClauses}
    (h : ForStatement ts clauses) (context : Context) (scopes : Scopes) :
    clauses.tree.findings context scopes = clauses.findings context scopes := by
  obtain ⟨-, -, -, -, -, -, -, hbody⟩ := h
  have hstep := findings_forStep hbody.declaresNothing clauses.increment context
  unfold ForClauses.tree ForClauses.findings ForClauses.inside ForClauses.around
  cases clauses.initializer with
  | none =>
    rw [forLoop_none, findings_while, hstep]
    cases clauses.increment with
    | none => simp [Stmt.findingsOption, Expr.findingsOption]
    | some e => simp [Stmt.findingsOption, Expr.findingsOption]
  | some first =>
    rw [forLoop_some, Stmt.findings, Stmt.findingsAll, Stmt.findingsAll, Stmt.findingsAll,
      findings_while, hstep]
    cases clauses.increment with
    | none => simp [Stmt.findingsOption, Expr.findingsOption]
    | some e => simp [Stmt.findingsOption, Expr.findingsOption]

end Grammar

/-! ### Executing -/

namespace Run

/-- A turn of a `for` loop.  Where there is an increment, it stands behind the body in a new scope
inside that of the loop, and a body that jumps skips it. -/
inductive Turns (body : Stmt) : Option Expr → Machine → Ending Flow → Prop
  | bare {m : Machine} {ending : Ending Flow} (h : Executes body m ending) :
      Turns body none m ending
  | halted {e : Expr} {m m' : Machine} {halt : Halt} (h : Executes body m.enter (.error halt m')) :
      Turns body (some e) m (.error halt { m' with current := m.current })
  | skipped {e : Expr} {m m' : Machine} {flow : Flow} (h : Executes body m.enter (.ok flow m'))
      (hjump : flow ≠ .normal) : Turns body (some e) m (.ok flow { m' with current := m.current })
  | incremented {e : Expr} {m m' m'' : Machine} {value : Value}
      (h : Executes body m.enter (.ok .normal m')) (hvalue : Evaluates e m' (.ok value m'')) :
      Turns body (some e) m (.ok .normal { m'' with current := m.current })
  | failed {e : Expr} {m m' m'' : Machine} {halt : Halt}
      (h : Executes body m.enter (.ok .normal m')) (hhalt : Evaluates e m' (.error halt m'')) :
      Turns body (some e) m (.error halt { m'' with current := m.current })

/-- A round of a `for` loop, behind which it goes on. -/
abbrev Round (clauses : ForClauses) : Machine → Machine → Prop :=
  GoesOn (Tests clauses.condition) (Turns clauses.body clauses.increment)

/-- The rounds of a `for` loop, up to the one in which it stops. -/
abbrev Loops (clauses : ForClauses) : Machine → Ending Flow → Prop :=
  Repeats (Tests clauses.condition) (Turns clauses.body clauses.increment)

/-- A `for` loop.  An initializer is executed once, in a scope that is opened for the loop. -/
inductive Performs (clauses : ForClauses) (m : Machine) : Ending Flow → Prop
  | bare {ending : Ending Flow} (hnone : clauses.initializer = none) (h : Loops clauses m ending) :
      Performs clauses m ending
  | halted {first : Stmt} {halt : Halt} {m' : Machine} (hsome : clauses.initializer = some first)
      (h : Executes first m.enter (.error halt m')) :
      Performs clauses m (.error halt { m' with current := m.current })
  | initialized {first : Stmt} {m' : Machine} {ending : Ending Flow}
      (hsome : clauses.initializer = some first) (h : Executes first m.enter (.ok .normal m'))
      (hloops : Loops clauses m' ending) : Performs clauses m (ending.leave m.current)

variable {m : Machine} {ending : Ending Flow}

theorem executes_block {body : List Stmt} :
    Executes (.block body) m ending ↔
      ∃ inner, Comes (fun fuel ↦ sequence (execute fuel) body) m.enter inner ∧
        ending = inner.leave m.current := by
  rw [← executes_succ]
  exact comes_inScope (m := { m with heap := (m.heap.openScope (some m.current) {}).2 })

theorem comes_pure {α : Type} {a : α} {ending : Ending α} :
    Comes (fun _ ↦ (pure a : Run α)) m ending ↔ ending = .ok a m := by
  rw [comes_const]
  constructor
  · rintro ⟨rfl, -⟩
    rfl
  · rintro rfl
    exact ⟨rfl, trivial⟩

theorem executes_expression {e : Expr} :
    Executes (.expression e) m ending ↔
      (∃ halt m', Evaluates e m (.error halt m') ∧ ending = .error halt m') ∨
        ∃ value m', Evaluates e m (.ok value m') ∧ ending = .ok .normal m' := by
  have hbind : Comes (fun fuel ↦ evaluate fuel e >>= fun _ ↦ pure Flow.normal) m ending ↔ _ :=
    comes_bind (growing_evaluate e) fun _ ↦ .const _
  simp only [comes_pure] at hbind
  rw [← executes_succ]
  exact hbind

/-- What is executed behind a statement, unless that jumps. -/
def unlessJump (next : Run Flow) : Flow → Run Flow
  | .normal => next
  | jump => return jump

theorem sequence_cons (execute : Stmt → Run Flow) (s : Stmt) (rest : List Stmt) :
    sequence execute (s :: rest) = execute s >>= unlessJump (sequence execute rest) := by
  rw [sequence]
  rfl

theorem sequence_singleton (execute : Stmt → Run Flow) (s : Stmt) :
    sequence execute [s] = execute s := by
  have hpure : unlessJump (sequence execute []) = pure := by
    funext flow
    cases flow with
    | _ => rfl
  rw [sequence_cons, hpure, bind_pure]

theorem comes_unlessJump {p : Nat → Run Flow} {flow : Flow} :
    Comes (fun fuel ↦ unlessJump (p fuel) flow) m ending ↔
      flow = .normal ∧ Comes p m ending ∨ flow ≠ .normal ∧ ending = .ok flow m := by
  cases flow with
  | normal => simp [unlessJump]
  | _ => simp [unlessJump, comes_pure]

/-- A sequence of two statements: the second one is executed if the first one ends normally. -/
theorem comes_pair {first second : Stmt} :
    Comes (fun fuel ↦ sequence (execute fuel) [first, second]) m ending ↔
      (∃ halt m', Executes first m (.error halt m') ∧ ending = .error halt m') ∨
      (∃ flow m', Executes first m (.ok flow m') ∧ flow ≠ .normal ∧ ending = .ok flow m') ∨
      ∃ m', Executes first m (.ok .normal m') ∧ Executes second m' ending := by
  have hnext : ∀ flow, Growing fun fuel ↦ unlessJump (execute fuel second) flow := by
    intro flow
    cases flow with
    | normal => exact growing_execute second
    | _ => exact .const _
  have hpair : ∀ fuel, sequence (execute fuel) [first, second] =
      execute fuel first >>= unlessJump (execute fuel second) := by
    intro fuel
    rw [sequence_cons, sequence_singleton]
  simp only [hpair]
  rw [comes_bind (growing_execute first) hnext]
  simp only [comes_unlessJump]
  constructor
  · rintro (hhalts | ⟨flow, m', hfirst, ⟨rfl, hsecond⟩ | ⟨hjump, rfl⟩⟩)
    · exact .inl hhalts
    · exact .inr (.inr ⟨m', hfirst, hsecond⟩)
    · exact .inr (.inl ⟨flow, m', hfirst, hjump, rfl⟩)
  · rintro (hhalts | ⟨flow, m', hfirst, hjump, rfl⟩ | ⟨m', hfirst, hsecond⟩)
    · exact .inl hhalts
    · exact .inr ⟨flow, m', hfirst, .inr ⟨hjump, rfl⟩⟩
    · exact .inr ⟨.normal, m', hfirst, .inl ⟨rfl, hsecond⟩⟩

/-- A turn is an execution of what the `while` loop repeats. -/
theorem executes_forStep (increment : Option Expr) (body : Stmt) :
    Executes (Grammar.forStep increment body) = Turns body increment := by
  funext m ending
  apply propext
  cases increment with
  | none =>
    constructor
    · exact .bare
    · intro h
      cases h with
      | bare h => exact h
  | some e =>
    rw [Grammar.forStep, executes_block]
    simp only [comes_pair, executes_expression]
    constructor
    · rintro ⟨inner, ⟨halt, m', h, rfl⟩ | ⟨flow, m', h, hjump, rfl⟩ |
        ⟨m', h, ⟨halt, m'', he, rfl⟩ | ⟨value, m'', he, rfl⟩⟩, rfl⟩
      · exact .halted h
      · exact .skipped h hjump
      · exact .failed h he
      · exact .incremented h he
    · intro h
      cases h with
      | @halted _ _ m' halt h => exact ⟨.error halt m', .inl ⟨_, _, h, rfl⟩, rfl⟩
      | @skipped _ _ m' flow h hjump => exact ⟨.ok flow m', .inr (.inl ⟨_, _, h, hjump, rfl⟩), rfl⟩
      | @incremented _ _ m' m'' value h he =>
        exact ⟨.ok .normal m'', .inr (.inr ⟨_, h, .inr ⟨_, _, he, rfl⟩⟩), rfl⟩
      | @failed _ _ m' m'' halt h he =>
        exact ⟨.error halt m'', .inr (.inr ⟨_, h, .inl ⟨_, _, he, rfl⟩⟩), rfl⟩

/-- Nothing that a loop can begin with jumps. -/
theorem normal_of_forStart {ts : List Token} {first : Stmt}
    (hfirst : Grammar.ForStart ts (some first)) {flow : Flow} {m' : Machine}
    (h : Executes first m (.ok flow m')) : flow = .normal := by
  obtain ⟨fuel, hends, -⟩ := (executes_succ first).2 h
  cases hfirst with
  | varDecl h =>
    obtain ⟨-, -, -, -⟩ := h
    obtain ⟨value, m'', -, hrest⟩ := Computation.bind_eq_ok_iff.1 hends
    obtain ⟨_, _, -, hflow⟩ := Computation.bind_eq_ok_iff.1 hrest
    exact (EStateM.Result.ok.inj hflow).1.symm
  | exprStmt h =>
    obtain ⟨-, -⟩ := h
    obtain ⟨value, m'', -, hflow⟩ := Computation.bind_eq_ok_iff.1 hends
    exact (EStateM.Result.ok.inj hflow).1.symm

/-- What is read for the clauses is executed as the loop that they say. -/
theorem executes_tree {ts : List Token} {clauses : ForClauses}
    (h : Grammar.ForStatement ts clauses) :
    Executes clauses.tree m ending ↔ Performs clauses m ending := by
  obtain ⟨-, -, hinitializer, -, -, -, -, -⟩ := h
  obtain ⟨initializer, condition, increment, body⟩ := clauses
  have hloops : ∀ m ending, Executes (.while (condition.getD (.literal (.bool true)))
      (Grammar.forStep increment body)) m ending ↔
        Loops ⟨initializer, condition, increment, body⟩ m ending := by
    intro m ending
    rw [executes_while, tests_getD, executes_forStep]
  unfold ForClauses.tree
  cases initializer with
  | none =>
    rw [Grammar.forLoop_none, hloops]
    constructor
    · exact .bare rfl
    · intro h
      cases h with
      | bare _ h => exact h
      | halted hsome => cases hsome
      | initialized hsome => cases hsome
  | some first =>
    rw [Grammar.forLoop_some, executes_block]
    simp only [comes_pair, hloops]
    constructor
    · rintro ⟨inner, ⟨halt, m', h, rfl⟩ | ⟨flow, m', h, hjump, rfl⟩ | ⟨m', h, hrounds⟩, rfl⟩
      · exact .halted rfl h
      · exact absurd (normal_of_forStart hinitializer h) hjump
      · exact .initialized rfl h hrounds
    · intro h
      cases h with
      | bare hnone => cases hnone
      | @halted _ halt m' hsome h =>
        cases hsome
        exact ⟨.error halt m', .inl ⟨_, _, h, rfl⟩, rfl⟩
      | @initialized _ m' inner hsome h hrounds =>
        cases hsome
        exact ⟨inner, .inr (.inr ⟨m', h, hrounds⟩), rfl⟩

end Run

/-! ### The loop variable -/

/-- The machine that a computation leaves. -/
def Run.Ending.machine {α : Type} : Ending α → Machine
  | .ok _ m => m
  | .error _ m => m

/-- From where the machine stands, it sees the scopes and in them the names that it saw before. -/
structure Machine.SeesSame (m m' : Machine) : Prop where
  ancestor? : ∀ distance,
    m'.heap.ancestor? m'.current distance = m.heap.ancestor? m.current distance
  holds : ∀ distance scope, m'.heap.ancestor? m'.current distance = some scope →
    scope < m.heap.scopes.size ∧ ∀ name, m'.heap.holds scope name = m.heap.holds scope name

theorem Machine.enter_follows {m m' : Machine} (h : m.enter.Follows m') :
    m.Follows { m' with current := m.current } where
  heap := (Heap.extends_openScope ..).trans h.heap
  current := rfl
  addresses := h.addresses
  host := h.host

namespace Run

variable {m m' : Machine}

theorem Evaluates.follows {e : Expr} {value : Value} (h : Evaluates e m (.ok value m')) :
    m.Follows m' := by
  obtain ⟨fuel, hends, -⟩ := h
  exact (((Sparing.evaluate_and_execute fuel).1 e).of_ok hends).follows

theorem Executes.follows {s : Stmt} {flow : Flow} (h : Executes s m (.ok flow m')) :
    m.Follows m' := by
  obtain ⟨fuel, hends, -⟩ := h
  exact (((Sparing.evaluate_and_execute fuel).2 s).of_ok hends).follows

theorem Tests.follows {condition : Option Expr} {truth : Bool}
    (h : Tests condition m (.ok truth m')) : m.Follows m' := by
  cases condition with
  | none =>
    cases h
    exact .refl m
  | some e =>
    obtain ⟨given, hgiven, htruth⟩ := h
    cases given with
    | ok value m'' =>
      cases htruth
      exact hgiven.follows
    | error halt m'' => cases htruth

theorem Turns.follows {body : Stmt} {increment : Option Expr} {flow : Flow}
    (h : Turns body increment m (.ok flow m')) : m.Follows m' := by
  cases h with
  | bare h => exact h.follows
  | skipped h _ => exact Machine.enter_follows h.follows
  | incremented h he => exact Machine.enter_follows (h.follows.trans he.follows)

theorem Round.follows {clauses : ForClauses} (h : Round clauses m m') : m.Follows m' := by
  cases h with
  | normal htest hturn => exact htest.follows.trans hturn.follows
  | «continue» htest hturn => exact htest.follows.trans hturn.follows

/-- By induction on the rounds: they are all made in one scope, and it keeps its names. -/
theorem follows_of_rounds {clauses : ForClauses}
    (h : Relation.ReflTransGen (Round clauses) m m') : m.Follows m' := by
  induction h with
  | refl => exact .refl m
  | tail _ hround ih => exact ih.trans (Round.follows hround)

/-- A declaration leaves its name in the current scope. -/
theorem holds_of_executes_var {name : Token} {value : Option Expr}
    (hcurrent : m.current < m.heap.scopes.size)
    (h : Executes (.var name value) m (.ok .normal m')) :
    m'.heap.holds m.current name.lexeme = true := by
  obtain ⟨fuel, hends, -⟩ := (executes_succ _).2 h
  obtain ⟨given, m'', hgiven, hrest⟩ := Computation.bind_eq_ok_iff.1 hends
  obtain ⟨_, m₃, hdefine, hflow⟩ := Computation.bind_eq_ok_iff.1 hrest
  obtain ⟨-, rfl⟩ := EStateM.Result.ok.inj hflow
  obtain ⟨-, rfl⟩ := EStateM.Result.ok.inj hdefine
  have hfollows : m.Follows m'' :=
    ((Sparing.valueOrNil (Sparing.evaluate_and_execute fuel).1 value).of_ok hgiven).follows
  change (m''.heap.define m''.current name.lexeme given).holds m.current name.lexeme = true
  rw [hfollows.current, Heap.holds,
    Heap.get?_define _ (Nat.lt_of_lt_of_le hcurrent hfollows.heap.size_le), if_pos rfl]
  rfl

/-- All rounds begin in the one scope that is opened for the loop, and it holds the variable. -/
theorem holds_of_rounds {clauses : ForClauses} {name : Token} {value : Option Expr}
    {m₁ m₂ : Machine} (hfirst : Executes (.var name value) m.enter (.ok .normal m₁))
    (hrounds : Relation.ReflTransGen (Round clauses) m₁ m₂) :
    m₂.current = m.heap.scopes.size ∧ m₂.heap.parent? m₂.current = some m.current ∧
      m₂.heap.holds m₂.current name.lexeme = true := by
  have hopened : m.enter.current < m.enter.heap.scopes.size := by
    simp [Machine.enter, Heap.openScope]
  have hafter := follows_of_rounds hrounds
  have hcurrent : m₂.current = m.enter.current := by
    calc m₂.current
      _ = m₁.current := hafter.current
      _ = m.enter.current := hfirst.follows.current
  have hparent := (hfirst.follows.trans hafter).heap.parent? m.enter.current hopened
  have hname := hafter.heap.holds _ _ (holds_of_executes_var hopened hfirst)
  rw [hcurrent]
  refine ⟨rfl, hparent.trans ?_, hname⟩
  exact Heap.parent?_openScope_self m.heap (some m.current) {}

/-- Behind a block, a grounded machine sees what it saw in front of it. -/
theorem sees_of_block (hm : m.Grounded) {body : List Stmt} {ending : Ending Flow}
    (h : Executes (.block body) m ending) : m.SeesSame ending.machine := by
  obtain ⟨fuel, hends, -⟩ := (executes_succ _).2 h
  have hends : block (execute fuel) body m = ending := hends
  have hframes := (hm.block .exhausted fuel body).2
  have hspares := Sparing.block (Sparing.evaluate_and_execute fuel).2 body m
  have hleft : m.Framed ending.machine ∧ ending.machine.current = m.current := by
    unfold Frames Computation.EndsIn at hframes
    rw [hends] at hframes hspares
    cases ending with
    | ok flow m' => exact ⟨hframes, hspares.follows.current⟩
    | error halt m' => exact ⟨hframes, hspares.follows.current⟩
  obtain ⟨hframed, hcurrent⟩ := hleft
  have hancestor := hframed.frames.ancestor? hm.kept.shape.2 hm.current
  constructor
  · intro distance
    rw [hcurrent]
    exact (hancestor distance).1
  · intro distance scope hscope
    rw [hcurrent, (hancestor distance).1] at hscope
    have hlt := (hancestor distance).2 scope hscope
    exact ⟨hlt, hframed.frames.holds scope hlt⟩

end Run

/-- What is read for a `for` statement without errors is executed as the loop that its clauses say,
and is resolved as they are.  With an initializer that declares a variable, all rounds share the one
scope that holds it, and behind the loop nothing is seen that was not seen before. -/
theorem Parser.forStatement_performed {bound : Nat} {inLoop : Bool} {start final : Parser.State}
    {s : Stmt} (hread : Parser.statement bound inLoop start = .ok s final)
    (herrors : final.errors = #[]) {keyword : Token} {rest : List Token}
    (hstart : start.rest = keyword :: rest) (hkeyword : keyword.kind = .forWord) :
    ∃ clauses taken, start.rest = taken ++ final.rest ∧ Grammar.ForStatement taken clauses ∧
      s = clauses.tree ∧ (∀ m ending, Run.Executes s m ending ↔ Run.Performs clauses m ending) ∧
      (∀ m ending ending', Run.Performs clauses m ending → Run.Performs clauses m ending' →
        ending = ending') ∧
      (∀ context scopes, s.findings context scopes = clauses.findings context scopes ∧
        s.scopesAfter scopes = scopes) ∧
      ∀ name value, clauses.initializer = some (.var name value) →
        (∀ m m₁ m₂ : Machine, Run.Executes (.var name value) m.enter (.ok .normal m₁) →
          Relation.ReflTransGen (Run.Round clauses) m₁ m₂ →
          m₂.current = m.heap.scopes.size ∧ m₂.heap.parent? m₂.current = some m.current ∧
            m₂.heap.holds m₂.current name.lexeme = true) ∧
        ∀ (m : Machine) (ending : Run.Ending Flow), m.Grounded → Run.Executes s m ending →
          m.SeesSame ending.machine := by
  obtain ⟨-, taken, htaken, dangling, hstatement, -⟩ :=
    (Sound.declaration_and_statement bound).2 inLoop start s final hread herrors
  have hfor : ∃ clauses, Grammar.ForStatement taken clauses ∧ s = clauses.tree := by
    cases taken with
    | nil => cases hstatement.begins
    | cons t ts =>
      rw [hstart, List.cons_append] at htaken
      obtain ⟨rfl, -⟩ := List.cons.inj htaken
      exact hstatement.forStatement hkeyword
  obtain ⟨clauses, hclauses, rfl⟩ := hfor
  refine ⟨clauses, taken, htaken, hclauses, rfl, fun m ending ↦ Run.executes_tree hclauses, ?_, ?_,
    ?_⟩
  · intro m ending ending' h h'
    rw [← Run.executes_tree hclauses] at h h'
    exact (Run.growing_execute clauses.tree).unique h h'
  · intro context scopes
    exact ⟨hclauses.findings_tree context scopes, hstatement.declaresNothing scopes⟩
  · intro name value hinitializer
    refine ⟨fun m m₁ m₂ ↦ Run.holds_of_rounds, fun m ending hm h ↦ ?_⟩
    rw [ForClauses.tree, hinitializer, Grammar.forLoop_some] at h
    exact Run.sees_of_block hm h

/-- Read a statement, and give the state behind it as well. -/
def Parser.statementThenState (fuel : Nat) : Parser (Stmt × Parser.State) := do
  let s ← Parser.statement fuel false
  return (s, ← get)

/-- Execute a statement, and give the machine behind it. -/
def Run.machineBehind (fuel : Nat) (s : Stmt) : Run Machine := do
  let _ ← Run.execute fuel s
  get

/-- A loop that makes one round. -/
theorem Parser.forStatement_performed_once : ∃ s final clauses m ending,
    Parser.statement 40 false (.start 0 (tokens "for (var go = true; go; go = false) print go;")) =
      .ok s final ∧ final.rest = [] ∧ m = (Machine.start {}).record (clauses.findings {} []) ∧
      Run.Performs clauses m ending ∧ ending.machine.host.written .out = "true\n" := by
  let start := Parser.State.start 0 (tokens "for (var go = true; go; go = false) print go;")
  have hsummary : (do
      let p ← (Parser.statementThenState 40).run' start
      let m' ← (Run.machineBehind 20 p.1).run' ((Machine.start {}).record (p.1.findings {} []))
      return decide (p.2.errors = #[] ∧ p.2.rest = [] ∧ m'.host.written .out = "true\n")) =
        some true := by
    decide +kernel
  have hhead : start.rest.head?.map Token.kind = some .forWord := by
    decide +kernel
  obtain ⟨p, hreading, hrest⟩ := Option.bind_eq_some_iff.1 hsummary
  obtain ⟨m', hrunning, hfacts⟩ := Option.bind_eq_some_iff.1 hrest
  obtain ⟨herrors, hfinal, hwritten⟩ := of_decide_eq_true (Option.some.inj hfacts)
  obtain ⟨final, hok⟩ := Computation.run'_eq_some_iff.1 hreading
  obtain ⟨s, _, hread, hget⟩ := Computation.bind_eq_ok_iff.1 hok
  cases hget
  obtain ⟨_, hok'⟩ := Computation.run'_eq_some_iff.1 hrunning
  obtain ⟨flow, _, hends, hget'⟩ := Computation.bind_eq_ok_iff.1 hok'
  cases hget'
  obtain ⟨keyword, hkeyword, hkind⟩ := Option.map_eq_some_iff.1 hhead
  obtain ⟨rest, hstart⟩ := List.head?_eq_some_iff.1 hkeyword
  obtain ⟨clauses, taken, -, -, rfl, hperforms, -, hfindings, -⟩ :=
    forStatement_performed hread herrors hstart hkind
  rw [(hfindings {} []).1] at hends
  refine ⟨clauses.tree, final, clauses, _, .ok flow m', hread, hfinal, rfl, ?_, hwritten⟩
  exact (hperforms _ _).1 ⟨20, hends, trivial⟩

end Lox
