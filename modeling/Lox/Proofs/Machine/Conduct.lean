import Lox.Proofs.Machine.Builtins
import Lox.Proofs.Machine.Discipline
import Lox.Proofs.Machine.Oversight

/-!
# Conduct

Two overseen interpreters side by side, in a machine whose heap keeps a discipline.  Both do the
same, unless the first one halts for an excused reason; the discipline is kept however they end; and
the first one halts only as it may.  `Upholds` says so of two computations from one machine.
-/

namespace Lox

namespace Run

variable {id : NodeId} {keyword : Token} {m : Machine}

/-- What a method of the superclass is looked up with. -/
theorem superMethod_of_found (method : Token) {depth : Nat} {c : Class} {i : Instance}
    (hdepth : m.addresses[id]? = some depth)
    (hc : (m.heap.ancestor? m.current depth).bind (m.heap.get? · keyword.lexeme) = some (.cls c))
    (hi : (m.heap.ancestor? m.current (depth - 1)).bind (m.heap.get? · "this") =
      some (.instance i)) :
    superMethod id keyword method m =
      match c.findMethod? method.lexeme with
      | some found => (do return .function (← bindMethod found i) : Run Value) m
      | none => .error (.fault method.line (.undefinedProperty method.lexeme)) m := by
  have hclass : valueIn (m.heap.ancestor? m.current depth) keyword.lexeme keyword.line m =
      .ok (.cls c) m := by
    rw [valueIn, Computation.get_bind, hc]
    rfl
  have hthis : valueIn (m.heap.ancestor? m.current (depth - 1)) "this" keyword.line m =
      .ok (.instance i) m := by
    rw [valueIn, Computation.get_bind, hi]
    rfl
  rw [superMethod, Computation.get_bind, hdepth]
  dsimp only
  rw [Computation.bind_of_ok hclass, Computation.bind_of_ok hthis]
  dsimp only
  cases c.findMethod? method.lexeme <;> rfl

/-- The search for a method of the superclass finds a class and an instance, or else it halts at
once. -/
theorem superMethod_cases (id : NodeId) (keyword method : Token) (m : Machine) :
    (∃ halt, superMethod id keyword method m = .error halt m) ∨
      ∃ depth c i, m.addresses[id]? = some depth ∧
        (m.heap.ancestor? m.current depth).bind (m.heap.get? · keyword.lexeme) = some (.cls c) ∧
        (m.heap.ancestor? m.current (depth - 1)).bind (m.heap.get? · "this") =
          some (.instance i) := by
  have hvalueIn : ∀ scope name line, (∃ halt, valueIn scope name line m = .error halt m) ∨
      ∃ v, scope.bind (m.heap.get? · name) = some v ∧ valueIn scope name line m = .ok v m := by
    intro scope name line
    rw [valueIn, Computation.get_bind]
    cases hv : scope.bind (m.heap.get? · name) with
    | none => exact .inl ⟨_, rfl⟩
    | some v => exact .inr ⟨v, rfl, rfl⟩
  rw [superMethod, Computation.get_bind]
  cases hdepth : m.addresses[id]? with
  | none => exact .inl ⟨_, rfl⟩
  | some depth =>
    dsimp only
    rcases hvalueIn (m.heap.ancestor? m.current depth) keyword.lexeme keyword.line with
      ⟨halt, herror⟩ | ⟨superclass, hsuperclass, hok⟩
    · exact .inl ⟨halt, Computation.bind_of_error herror⟩
    rw [Computation.bind_of_ok hok]
    rcases hvalueIn (m.heap.ancestor? m.current (depth - 1)) "this" keyword.line with
      ⟨halt, herror⟩ | ⟨object, hobject, hok'⟩
    · exact .inl ⟨halt, Computation.bind_of_error herror⟩
    rw [Computation.bind_of_ok hok']
    split
    · exact .inr ⟨depth, _, _, rfl, hsuperclass, hobject⟩
    · exact .inl ⟨_, rfl⟩

end Run

/-- A discipline with the depths that are known, the expressions that may be evaluated, the checks
of two interpreters, what the checks find out, and how the first one may halt. -/
structure Conduct extends Discipline where
  addresses : Std.TreeMap NodeId Nat
  expression : Expr → Prop
  first : Oversight
  second : Oversight
  passes : Expr → Machine → Prop
  passesStmt : Stmt → Machine → Prop
  halts : Halt → Prop
  excused : Halt → Prop

namespace Conduct

structure Sane (C : Conduct) (m : Machine) : Prop where
  kept : C.Kept m.heap
  addresses : m.addresses = C.addresses

/-- A machine that may evaluate expressions. -/
structure Stands (C : Conduct) (m : Machine) : Prop extends C.Sane m where
  site : C.site m.heap m.current

/-- A machine that may execute statements. -/
structure Inside (C : Conduct) (m : Machine) : Prop extends C.Sane m where
  inside : C.inside m.heap m.current

structure Leads (C : Conduct) (m m' : Machine) : Prop where
  advances : C.Advances m.heap m'.heap
  current : m'.current = m.current
  addresses : m'.addresses = m.addresses

/-- Two computations do the same from a machine, unless the first one is excused; the first one
keeps the discipline, gives what it should, and halts as it may. -/
structure Upholds {α : Type} (C : Conduct) (x y : Run α) (m : Machine) (Q : α → Machine → Prop) :
    Prop where
  alike : x m = y m ∨ ∃ halt m', x m = .error halt m' ∧ C.excused halt
  ends : match x m with
    | .ok a m' => C.Leads m m' ∧ Q a m'
    | .error halt m' => C.Leads m m' ∧ C.halts halt

/-- Two checks leave the machine alone and find the same, unless the first one objects and is
excused. -/
def ChecksAlike (excused : Halt → Prop) (x y : Run Unit) (m : Machine) : Prop :=
  x m = .ok () m ∧ y m = .ok () m ∨
    ∃ halt, x m = .error halt m ∧ (y m = .error halt m ∨ excused halt)

/-- What makes a conduct possible. -/
structure Lawful (C : Conduct) : Prop extends C.toDiscipline.Lawful where
  governs : C.rules.Governs C.expression
  first_expression : ∀ {e m}, C.expression e → C.Stands m →
    C.Upholds (C.first.expression e) (C.second.expression e) m fun _ m' ↦ m' = m ∧ C.passes e m
  first_statement : ∀ {s m}, s.Obeys C.rules → C.Inside m →
    C.Upholds (C.first.statement s) (C.second.statement s) m fun _ m' ↦ m' = m ∧ C.passesStmt s m
  halts_output : ∀ text, C.halts (.output text)
  halts_exhausted : C.halts .exhausted
  halts_ordinary : ∀ line {cause}, cause.Ordinary → C.halts (.fault line cause)
  halts_name : ∀ line {name}, C.rules.name name → C.halts (.fault line (.undefinedVariable name))
  halts_unary : ∀ line {op operand value cause}, C.expression (.unary op operand) →
    Value.unary op.kind value = .error cause → C.halts (.fault line cause)
  halts_binary : ∀ line {op left right a b cause}, C.expression (.binary op left right) →
    Value.binary op.kind a b = .error cause → C.halts (.fault line cause)
  halts_this : ∀ {id keyword m}, C.expression (.this id keyword) → C.Sane m →
    C.passes (.this id keyword) m →
    (m.scopeOf? id).bind (m.heap.get? · keyword.lexeme) = none →
    C.halts (.fault keyword.line (.undefinedVariable keyword.lexeme))
  halts_super : ∀ {id keyword method m halt m'}, C.expression (.super id keyword method) →
    C.Sane m → C.passes (.super id keyword method) m →
    Run.superMethod id keyword method m = .error halt m' → C.halts halt
  halts_initializer : ∀ line {h f}, C.Kept h → C.function h f → f.isInitializer = true →
    h.get? f.closure "this" = none → C.halts (.fault line (.undefinedVariable "this"))
  halts_superclass : ∀ line {fuel name e methods m v m'},
    C.passesStmt (.classDecl name (some e) methods) m →
    Run.evaluateOverseen C.second fuel e
      { m with heap := m.heap.define m.current name.lexeme .nil } = .ok v m' →
    (∀ c, v ≠ .cls c) → C.halts (.fault line .superclassNotClass)

variable {C : Conduct} {m m' m'' : Machine}

theorem Leads.refl (L : C.Lawful) (hm : C.Sane m) : C.Leads m m :=
  ⟨.refl L.toLawful hm.kept, rfl, rfl⟩

theorem Leads.trans (L : C.Lawful) (first : C.Leads m m') (second : C.Leads m' m'') :
    C.Leads m m'' where
  advances := first.advances.trans L.toLawful second.advances
  current := second.current.trans first.current
  addresses := second.addresses.trans first.addresses

theorem Sane.follow (hm : C.Sane m) (hleads : C.Leads m m') : C.Sane m' :=
  ⟨hleads.advances.kept, hleads.addresses.trans hm.addresses⟩

theorem Sane.enter (hm : C.Sane m) {scope : ScopeRef} (hscope : C.inside m.heap scope) :
    C.Inside { m with current := scope } :=
  ⟨⟨hm.kept, hm.addresses⟩, hscope⟩

theorem Stands.follow (L : C.Lawful) (hm : C.Stands m) (hleads : C.Leads m m') : C.Stands m' where
  toSane := hm.toSane.follow hleads
  site := by
    rw [hleads.current]
    exact L.site_mono hleads.advances.step hm.site

theorem Inside.follow (L : C.Lawful) (hm : C.Inside m) (hleads : C.Leads m m') : C.Inside m' where
  toSane := hm.toSane.follow hleads
  inside := by
    rw [hleads.current]
    exact L.inside_mono hleads.advances.step hm.inside

theorem Inside.stands (L : C.Lawful) (hm : C.Inside m) : C.Stands m :=
  ⟨hm.toSane, L.site_of_inside hm.inside⟩

def AdmitsFlow (C : Conduct) (h : Heap) (flow : Flow) : Prop :=
  ∀ value, flow = .return value → C.Admits h value

def AdmitsCallee (C : Conduct) (h : Heap) : Callee → Prop
  | .builtin _ => True
  | .function f => C.AdmitsFunction h f
  | .cls c => C.AdmitsClass h c

def UpholdsExprs (C : Conduct) (evaluate evaluate' : Expr → Run Value) : Prop :=
  ∀ e m, C.expression e → C.Stands m →
    C.Upholds (evaluate e) (evaluate' e) m fun v m' ↦ C.Admits m'.heap v

def UpholdsStmts (C : Conduct) (execute execute' : Stmt → Run Flow) : Prop :=
  ∀ s m, s.Obeys C.rules → C.Inside m →
    C.Upholds (execute s) (execute' s) m fun flow m' ↦ C.AdmitsFlow m'.heap flow

theorem admitsCallee_of_callee? {h : Heap} {v : Value} {callee : Callee} (hv : C.Admits h v)
    (hcallee : v.callee? = some callee) : C.AdmitsCallee h callee := by
  cases v <;> cases hcallee <;> exact hv

/-! ### Sequences -/

namespace Upholds

variable {α β : Type} {x y : Run α} {f g : α → Run β} {Q : α → Machine → Prop}
  {R : β → Machine → Prop}

theorem mono {Q' : α → Machine → Prop} (h : C.Upholds x y m Q)
    (himp : ∀ a m', C.Leads m m' → Q a m' → Q' a m') : C.Upholds x y m Q' := by
  obtain ⟨halike, hends⟩ := h
  refine ⟨halike, ?_⟩
  split at hends
  · exact ⟨hends.1, himp _ _ hends.1 hends.2⟩
  · exact hends

theorem of_ok {a : α} (h : C.Upholds x y m Q) (hx : x m = .ok a m') :
    y m = .ok a m' ∧ C.Leads m m' ∧ Q a m' := by
  obtain ⟨halike, hends⟩ := h
  rw [hx] at halike hends
  refine ⟨?_, hends⟩
  rcases halike with heq | ⟨_, _, herror, -⟩
  · exact heq.symm
  · cases herror

theorem of_error {halt : Halt} (h : C.Upholds x y m Q) (hx : x m = .error halt m') :
    C.Leads m m' ∧ C.halts halt := by
  have hends := h.ends
  rw [hx] at hends
  exact hends

theorem endsIn (h : C.Upholds x y m Q) : Computation.EndsIn (C.Leads m) x m := by
  have hends := h.ends
  unfold Computation.EndsIn
  generalize x m = r at hends ⊢
  cases r with
  | ok a m' => exact hends.1
  | error halt m' => exact hends.1

theorem eq_of_not_excused (h : C.Upholds x y m Q) (hnone : ∀ halt, ¬C.excused halt) :
    x m = y m := by
  rcases h.alike with heq | ⟨halt, _, _, hexcused⟩
  · exact heq
  · exact absurd hexcused (hnone halt)

theorem of_eq {x' y' : Run α} (hx : x m = x' m) (hy : y m = y' m) (h : C.Upholds x' y' m Q) :
    C.Upholds x y m Q := by
  obtain ⟨halike, hends⟩ := h
  rw [← hx, ← hy] at halike
  rw [← hx] at hends
  exact ⟨halike, hends⟩

/-- A halt without a step. -/
theorem halted {halt : Halt} (L : C.Lawful) (hm : C.Sane m) (hx : x m = .error halt m)
    (hhalt : C.halts halt) : C.Upholds x x m Q := by
  refine ⟨.inl rfl, ?_⟩
  rw [hx]
  exact ⟨.refl L hm, hhalt⟩

theorem pure (L : C.Lawful) (hm : C.Sane m) {a : α} (hQ : Q a m) :
    C.Upholds (Pure.pure a : Run α) (Pure.pure a) m Q :=
  ⟨.inl rfl, .refl L hm, hQ⟩

theorem throw (L : C.Lawful) (hm : C.Sane m) {halt : Halt} (hhalt : C.halts halt) :
    C.Upholds (MonadExcept.throw halt : Run α) (MonadExcept.throw halt) m Q :=
  halted L hm rfl hhalt

theorem fault (L : C.Lawful) (hm : C.Sane m) {line : Nat} {cause : RuntimeFault}
    (hhalt : C.halts (.fault line cause)) :
    C.Upholds (Run.fault line cause : Run α) (Run.fault line cause) m Q :=
  throw L hm hhalt

theorem check {C : Conduct} (L : C.toDiscipline.Lawful) (hm : C.Sane m) {x y : Run Unit}
    (h : ChecksAlike C.excused x y m) {passes : Prop} (hpasses : x m = .ok () m → passes)
    (hhalts : ∀ halt, x m = .error halt m → C.halts halt) :
    C.Upholds x y m fun _ m' ↦ m' = m ∧ passes := by
  have hleads : C.Leads m m := ⟨.refl L hm.kept, rfl, rfl⟩
  rcases h with ⟨hx, hy⟩ | ⟨halt, hx, hy⟩
  · refine ⟨.inl ?_, ?_⟩
    · rw [hx, hy]
    · rw [hx]
      exact ⟨hleads, rfl, hpasses hx⟩
  · constructor
    · rcases hy with hy | hexcused
      · left
        rw [hx, hy]
      · exact .inr ⟨halt, m, hx, hexcused⟩
    · rw [hx]
      exact ⟨hleads, hhalts halt hx⟩

/-- What follows may be told how the second computation has ended. -/
theorem bind_of_ok (L : C.Lawful) (hx : C.Upholds x y m Q)
    (hf : ∀ a m', y m = .ok a m' → C.Leads m m' → Q a m' → C.Upholds (f a) (g a) m' R) :
    C.Upholds (x >>= f) (y >>= g) m R := by
  cases h : x m with
  | ok a m' =>
    obtain ⟨hy, hleads, hQ⟩ := hx.of_ok h
    have hnext := hf a m' hy hleads hQ
    constructor
    · rw [Computation.bind_of_ok h, Computation.bind_of_ok hy]
      exact hnext.alike
    · rw [Computation.bind_of_ok h]
      have hends := hnext.ends
      generalize f a m' = r at hends ⊢
      cases r with
      | ok b t => exact ⟨hleads.trans L hends.1, hends.2⟩
      | error halt t => exact ⟨hleads.trans L hends.1, hends.2⟩
  | error halt m' =>
    have hends := hx.of_error h
    constructor
    · rcases hx.alike with heq | ⟨other, t, hother, hexcused⟩
      · rw [h] at heq
        rw [Computation.bind_of_error h, Computation.bind_of_error heq.symm]
        exact .inl rfl
      · exact .inr ⟨other, t, Computation.bind_of_error hother, hexcused⟩
    · rw [Computation.bind_of_error h]
      exact hends

theorem bind (L : C.Lawful) (hx : C.Upholds x y m Q)
    (hf : ∀ a m', C.Leads m m' → Q a m' → C.Upholds (f a) (g a) m' R) :
    C.Upholds (x >>= f) (y >>= g) m R :=
  bind_of_ok L hx fun a m' _ ↦ hf a m'

theorem get {f g : Machine → Run β} (h : C.Upholds (f m) (g m) m R) :
    C.Upholds (MonadState.get >>= f) (MonadState.get >>= g) m R :=
  ⟨h.alike, h.ends⟩

theorem onHeap {change : Heap → α × Heap} (hadvances : C.Advances m.heap (change m.heap).2)
    (hQ : Q (change m.heap).1 { m with heap := (change m.heap).2 }) :
    C.Upholds (Run.onHeap change) (Run.onHeap change) m Q :=
  ⟨.inl rfl, ⟨hadvances, rfl, rfl⟩, hQ⟩

theorem modifyHeap {change : Machine → Heap} {Q : Unit → Machine → Prop}
    (hadvances : C.Advances m.heap (change m)) (hQ : Q () { m with heap := change m }) :
    C.Upholds (modify fun m ↦ { m with heap := change m } : Run Unit)
      (modify fun m ↦ { m with heap := change m }) m Q :=
  ⟨.inl rfl, ⟨hadvances, rfl, rfl⟩, hQ⟩

theorem onHost (L : C.Lawful) (hm : C.Sane m) (change : Host → α × Host) :
    C.Upholds (Run.onHost change) (Run.onHost change) m fun _ m' ↦ m'.heap = m.heap :=
  ⟨.inl rfl, ⟨.refl L.toLawful hm.kept, rfl, rfl⟩, rfl⟩

theorem inScope {scope : ScopeRef} (h : C.Upholds x y { m with current := scope } fun a m' ↦
      Q a { m' with current := m.current }) :
    C.Upholds (Run.inScope scope x) (Run.inScope scope y) m Q := by
  obtain ⟨halike, hends⟩ := h
  constructor
  · rcases halike with heq | ⟨halt, m', herror, hexcused⟩
    · left
      simp only [Run.inScope, heq]
    · right
      refine ⟨halt, { m' with current := m.current }, ?_, hexcused⟩
      simp only [Run.inScope, herror]
  · unfold Run.inScope
    dsimp only
    generalize x { m with current := scope } = r at hends ⊢
    cases r with
    | ok a m' =>
      obtain ⟨⟨hadvances, -, haddresses⟩, hQ⟩ := hends
      exact ⟨⟨hadvances, rfl, haddresses⟩, hQ⟩
    | error halt m' =>
      obtain ⟨⟨hadvances, -, haddresses⟩, hhalt⟩ := hends
      exact ⟨⟨hadvances, rfl, haddresses⟩, hhalt⟩

theorem ite {c : Prop} [Decidable c] {x' y' : Run α} (hx : c → C.Upholds x y m Q)
    (hy : ¬c → C.Upholds x' y' m Q) :
    C.Upholds (if c then x else x') (if c then y else y') m Q := by
  by_cases hc : c
  · rw [if_pos hc, if_pos hc]
    exact hx hc
  · rw [if_neg hc, if_neg hc]
    exact hy hc

/-! ### Operations -/

section Operations

variable (L : C.Lawful) (hm : C.Sane m)
include L hm

theorem valueIn (scope : Option ScopeRef) {name : String} {line : Nat}
    (hmissing : scope.bind (m.heap.get? · name) = none →
      C.halts (.fault line (.undefinedVariable name))) :
    C.Upholds (Run.valueIn scope name line) (Run.valueIn scope name line) m fun v m' ↦
      C.Admits m'.heap v := by
  apply get
  cases hvalue : scope.bind (m.heap.get? · name) with
  | none => exact fault L hm (hmissing hvalue)
  | some value =>
    obtain ⟨target, -, hget⟩ := Option.bind_eq_some_iff.1 hvalue
    exact pure L hm (hm.kept.bound target name value hget)

theorem lookUp (id : NodeId) {name : Token}
    (hmissing : (m.scopeOf? id).bind (m.heap.get? · name.lexeme) = none →
      C.halts (.fault name.line (.undefinedVariable name.lexeme))) :
    C.Upholds (Run.lookUp id name) (Run.lookUp id name) m fun v m' ↦ C.Admits m'.heap v :=
  get (valueIn L hm _ hmissing)

theorem assignIn (scope : Option ScopeRef) {name : Token} {value : Value}
    (hname : C.rules.name name.lexeme) (hvalue : C.Admits m.heap value) :
    C.Upholds (Run.assignIn scope name value) (Run.assignIn scope name value) m fun _ _ ↦ True := by
  rw [Run.assignIn_eq]
  apply get
  cases hscope : scope.filter (m.heap.holds · name.lexeme) with
  | none => exact fault L hm (L.halts_name _ hname)
  | some target =>
    have hholds := (Option.filter_eq_some_iff.1 hscope).2
    exact modifyHeap (hm.kept.define L.toLawful (.inr hholds) hname hvalue) trivial

theorem assign (id : NodeId) {name : Token} {value : Value} (hname : C.rules.name name.lexeme)
    (hvalue : C.Admits m.heap value) :
    C.Upholds (Run.assign id name value) (Run.assign id name value) m fun _ _ ↦ True := by
  rw [Run.assign_eq]
  exact get (assignIn L hm _ hname hvalue)

theorem openScope {parent : ScopeRef} {bindings : Bindings Value}
    (hparent : C.site m.heap parent)
    (hbindings : ∀ name value, bindings.get? name = some value →
      C.binding name value ∧ C.Admits m.heap value) :
    C.Upholds (Run.openScope parent bindings) (Run.openScope parent bindings) m fun scope m' ↦
      C.inside m'.heap scope ∧ ∀ name, m'.heap.get? scope name = bindings.get? name := by
  apply onHeap (hm.kept.openScope L.toLawful hparent hbindings)
  exact ⟨(L.openScope bindings hm.kept.shape hparent).2.2, fun _ ↦ Heap.get?_openScope_self ..⟩

theorem newFunction (routine : Routine Stmt) (closure : ScopeRef) (isInitializer : Bool) :
    C.Upholds (Run.newFunction routine closure isInitializer)
      (Run.newFunction routine closure isInitializer) m fun f m' ↦
        f.routine = routine ∧ f.closure = closure ∧ f.isInitializer = isInitializer ∧
          m'.heap.scopes = m.heap.scopes := by
  refine bind L (onHeap (Q := fun _ m' ↦ m'.heap.scopes = m.heap.scopes)
    (hm.kept.freshIdentity L.toLawful) rfl) fun identity m' hleads hscopes ↦ ?_
  exact pure L (hm.follow hleads) ⟨rfl, rfl, rfl, hscopes⟩

theorem bindMethod {name : String} {method : Function} {i : Instance}
    (hmethod : C.AdmitsMethod m.heap name method)
    (hi : C.AdmitsInstance m.heap i) :
    C.Upholds (Run.bindMethod method i) (Run.bindMethod method i) m fun f m' ↦
      C.AdmitsFunction m'.heap f ∧ f.isInitializer = method.isInitializer ∧
        m'.heap.get? f.closure "this" = some (.instance i) := by
  refine bind L (openScope L hm (L.site_of_method hmethod.method) fun key value hvalue ↦ ?_)
    fun scope m' hleads hscope ↦ ?_
  · obtain ⟨rfl, rfl⟩ := Bindings.eq_of_get?_single hvalue
    exact ⟨L.binding_this i, hi⟩
  · obtain ⟨hinside, hnames⟩ := hscope
    refine (newFunction L (hm.follow hleads) method.routine scope method.isInitializer).mono
      fun f m'' hleads' hf ↦ ?_
    obtain ⟨hroutine, hclosure, hinitializer, hscopes⟩ := hf
    have hthis : m''.heap.get? f.closure "this" = some (.instance i) := by
      rw [hclosure, Heap.get?, hscopes]
      exact hnames "this"
    have hsite : C.site m''.heap f.closure := by
      rw [hclosure]
      exact L.site_of_inside (L.inside_mono hleads'.advances.step hinside)
    refine ⟨⟨?_, L.function_of_this hsite hthis⟩, hinitializer, hthis⟩
    rw [hroutine]
    exact hmethod.obeys

theorem printLine (text : String) :
    C.Upholds (Run.printLine text) (Run.printLine text) m fun _ _ ↦ True := by
  refine bind L (onHost L hm _) fun result m' hleads _ ↦ ?_
  cases result with
  | ok _ => exact pure L (hm.follow hleads) trivial
  | error failure => exact throw L (hm.follow hleads) (L.halts_output failure)

theorem flush : C.Upholds Run.flush Run.flush m fun _ _ ↦ True := by
  refine bind L (onHost L hm _) fun result m' hleads _ ↦ ?_
  cases result with
  | ok _ => exact pure L (hm.follow hleads) trivial
  | error failure => exact throw L (hm.follow hleads) (L.halts_output failure)

theorem callBuiltin (b : Builtin) (line : Nat) (arguments : List Value) :
    C.Upholds (Run.callBuiltin b line arguments) (Run.callBuiltin b line arguments) m fun v m' ↦
      C.Admits m'.heap v := by
  refine ⟨.inl rfl, ?_⟩
  have hends := Builtin.answers line arguments m b
  generalize Run.callBuiltin b line arguments m = r at hends ⊢
  cases hends with
  | ok hvalue hhost =>
    exact ⟨⟨.refl L.toLawful hm.kept, rfl, rfl⟩, Discipline.admits_of_isData hvalue⟩
  | fault hcause hhost =>
    exact ⟨⟨.refl L.toLawful hm.kept, rfl, rfl⟩, L.halts_ordinary line hcause⟩

theorem property {i : Instance} (hi : C.AdmitsInstance m.heap i) (name : Token) :
    C.Upholds (Run.property i name) (Run.property i name) m fun v m' ↦ C.Admits m'.heap v := by
  apply get
  split
  · rename_i value hvalue
    exact pure L hm (hm.kept.fields i _ value hvalue)
  · split
    · rename_i method hmethod
      refine bind L (bindMethod L hm (hi.cls.findMethod? hmethod) hi) fun f m' hleads hf ↦ ?_
      exact pure L (hm.follow hleads) hf.1
    · exact fault L hm (L.halts_ordinary name.line trivial)

theorem superMethod {id : NodeId} {keyword method : Token}
    (hhalts : ∀ halt m', Run.superMethod id keyword method m = .error halt m' → C.halts halt) :
    C.Upholds (Run.superMethod id keyword method) (Run.superMethod id keyword method) m fun v m' ↦
      C.Admits m'.heap v := by
  rcases Run.superMethod_cases id keyword method m with
    ⟨halt, herror⟩ | ⟨depth, c, i, hdepth, hc, hi⟩
  · exact halted L hm herror (hhalts _ _ herror)
  · have heq := Run.superMethod_of_found method hdepth hc hi
    obtain ⟨scope, -, hcls⟩ := Option.bind_eq_some_iff.1 hc
    obtain ⟨inner, -, hthis⟩ := Option.bind_eq_some_iff.1 hi
    cases hfound : c.findMethod? method.lexeme with
    | none =>
      rw [hfound] at heq
      exact halted L hm heq (hhalts _ _ heq)
    | some found =>
      rw [hfound] at heq
      have hmethod : C.AdmitsMethod m.heap method.lexeme found :=
        Discipline.AdmitsClass.findMethod? (hm.kept.bound _ _ _ hcls) hfound
      refine of_eq heq heq (bind L (bindMethod L hm hmethod (hm.kept.bound _ _ _ hthis))
        fun f m' hleads hf ↦ ?_)
      exact pure L (hm.follow hleads) hf.1

end Operations

end Upholds

end Conduct

end Lox
