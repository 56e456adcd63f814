import Lox.Proofs.Machine.Demands
import Lox.Proofs.Machine.Recording
import Lox.Proofs.Tree.Proper

/-!
# Receivers

Nothing but an instance is ever bound to `this` and nothing but a class to `super`, and what `this`
is bound to in a scope stays.  So a method that is called finds its receiver, wherever in it the
receiver is asked for.
-/

namespace Lox

/-- What happens to a heap never binds `this` again, and instances stay. -/
structure Heap.KeepsReceivers (h h' : Heap) : Prop where
  this : ∀ scope value, h.get? scope "this" = some value → h'.get? scope "this" = some value
  size_le : h.fields.size ≤ h'.fields.size

namespace Heap.KeepsReceivers

variable {h h' h'' : Heap}

theorem refl (h : Heap) : h.KeepsReceivers h :=
  ⟨fun _ _ ↦ id, Nat.le_refl _⟩

theorem trans (first : h.KeepsReceivers h') (second : h'.KeepsReceivers h'') :
    h.KeepsReceivers h'' where
  this scope value hvalue := second.this scope value (first.this scope value hvalue)
  size_le := Nat.le_trans first.size_le second.size_le

theorem openScope (h : Heap) (parent : Option ScopeRef) (bindings : Bindings Value) :
    h.KeepsReceivers (h.openScope parent bindings).2 where
  this scope value hvalue := by
    rw [Heap.get?, Heap.getElem?_openScope _ _ _ (Heap.lt_size_of_get? hvalue)]
    exact hvalue
  size_le := Nat.le_refl _

theorem define (h : Heap) (scope : ScopeRef) {name : String} (hname : ¬Reserved name)
    (value : Value) : h.KeepsReceivers (h.define scope name value) where
  this other found hfound := by
    by_cases heq : other = scope
    · subst heq
      rw [Heap.get?_define h (Heap.lt_size_of_get? hfound), if_neg fun heq ↦ hname (.inl heq.symm)]
      exact hfound
    · rw [Heap.get?_define_of_ne h heq]
      exact hfound
  size_le := Nat.le_refl _

theorem instantiate (h : Heap) (c : Class) : h.KeepsReceivers (h.instantiate c).2 where
  this _ _ := id
  size_le := by simp [Heap.instantiate]

theorem setField (h : Heap) (i : Instance) (name : String) (value : Value) :
    h.KeepsReceivers (h.setField i name value) where
  this _ _ := id
  size_le := by simp [Heap.setField]

end Heap.KeepsReceivers

/-- What classes keep for themselves. -/
structure Value.SuitsName (name : String) (value : Value) : Prop where
  this : name = "this" → ∃ i, value = .instance i
  super : name = "super" → ∃ c, value = .cls c

theorem Value.SuitsName.of_not_reserved {name : String} (h : ¬Reserved name) (value : Value) :
    value.SuitsName name :=
  ⟨fun heq ↦ absurd (.inl heq) h, fun heq ↦ absurd (.inr heq) h⟩

/-- An initializer finds the instance that it gives back right in its closure, a method is one if
its name says so, and an instance has its fields. -/
def Discipline.receivers (rules : Rules) : Discipline where
  rules := rules
  shape _ := True
  step := Heap.KeepsReceivers
  binding := Value.SuitsName
  function h f := f.isInitializer = true → ∃ i, h.get? f.closure "this" = some (.instance i)
  method _ name f := f.isInitializer = decide (name = Class.initializerName)
  inst h i := i.ref < h.fields.size
  site _ _ := True
  inside _ _ := True

namespace Discipline

theorem receivers_lawful {rules : Rules} (hrules : ∀ name, rules.name name → ¬Reserved name) :
    (receivers rules).Lawful where
  step_refl := .refl
  step_trans := .trans
  function_mono hstep hf hinitializer := by
    obtain ⟨i, hi⟩ := hf hinitializer
    exact ⟨i, hstep.this _ _ hi⟩
  method_mono _ := id
  inst_mono hstep hi := Nat.lt_of_lt_of_le hi hstep.size_le
  site_mono _ _ := trivial
  inside_mono _ _ := trivial
  site_of_inside _ := trivial
  site_of_function _ := trivial
  site_of_method _ := trivial
  binding_of_name {name} hname := .of_not_reserved (hrules name hname)
  binding_this i := ⟨fun _ ↦ ⟨i, rfl⟩, nofun⟩
  binding_super c := ⟨nofun, fun _ ↦ ⟨c, rfl⟩⟩
  function_of_inside _ hnot hinitializer := by
    rw [hnot] at hinitializer
    cases hinitializer
  function_of_this _ hthis _ := ⟨_, hthis⟩
  method_of_inside _ := id
  openScope {h parent} bindings _ _ := ⟨trivial, .openScope h (some parent) bindings, trivial⟩
  define {h scope name} value _ _ hname := ⟨trivial, .define h scope (hrules name hname) value⟩
  instantiate {h} c _ := ⟨trivial, .instantiate h c, by simp [receivers, Heap.instantiate]⟩
  setField {h} i name value _ := ⟨trivial, .setField h i name value⟩
  freshIdentity _ := ⟨trivial, fun _ _ ↦ id, Nat.le_refl _⟩

theorem receivers_within {rules rules' : Rules} (h : rules.Within rules') (heap : Heap) :
    (receivers rules).Within (receivers rules') heap :=
  ⟨h, fun _ _ ↦ id, fun _ ↦ id, fun _ _ ↦ id, fun _ ↦ id⟩

end Discipline

/-! ### What is to hold at a node -/

namespace Machine

/-- Where a depth is recorded for a receiver, there is a scope that holds it; and `this` stands just
inside `super`. -/
def Reaches (m : Machine) : Expr → Prop
  | .this id keyword => ∀ depth, m.addresses[id]? = some depth →
    (m.heap.getAt? m.current depth keyword.lexeme).isSome = true
  | .super id keyword _ => ∀ depth, m.addresses[id]? = some depth → ∃ inner, depth = inner + 1 ∧
    (m.heap.getAt? m.current (inner + 1) keyword.lexeme).isSome = true ∧
    (m.heap.getAt? m.current inner "this").isSome = true
  | _ => True

/-- `this` is an instance.  At `super` a depth is recorded, the scope there holds a class under
`super`, and the one just inside it an instance under `this`. -/
def HasReceiver (m : Machine) : Expr → Prop
  | .this id keyword => keyword.lexeme = "this" ∧ ∃ depth i, m.addresses[id]? = some depth ∧
    m.heap.getAt? m.current depth "this" = some (.instance i)
  | .super id keyword _ => keyword.lexeme = "super" ∧ ∃ inner c i,
    m.addresses[id]? = some (inner + 1) ∧
    m.heap.getAt? m.current (inner + 1) "super" = some (.cls c) ∧
    m.heap.getAt? m.current inner "this" = some (.instance i)
  | _ => True

/-- The search for a method of the superclass does not end for want of a class. -/
def FindsClass (m : Machine) : Expr → Prop
  | .super id keyword method => ∀ line m',
    Run.superMethod id keyword method m ≠ .error (.fault line .superclassNotClass) m'
  | _ => True

/-- The superclass of a class that is declared is a class, if evaluation ends. -/
def ExtendsClass (m : Machine) : Stmt → Prop
  | .classDecl name (some e) _ => ∀ fuel v m',
    Run.evaluate fuel e { m with heap := m.heap.define m.current name.lexeme .nil } = .ok v m' →
    ∃ c, v = .cls c
  | _ => True

variable {m : Machine}

theorem HasReceiver.reaches {e : Expr} (h : m.HasReceiver e) : m.Reaches e := by
  cases e with
  | this id keyword =>
    obtain ⟨hkeyword, depth, i, hdepth, hi⟩ := h
    intro other hother
    rw [hdepth] at hother
    cases hother
    rw [hkeyword, hi]
    rfl
  | super id keyword method =>
    obtain ⟨hkeyword, inner, c, i, hdepth, hc, hi⟩ := h
    intro other hother
    rw [hdepth] at hother
    cases hother
    refine ⟨inner, rfl, ?_, ?_⟩
    · rw [hkeyword, hc]
      rfl
    · rw [hi]
      rfl
  | _ => trivial

/-- The depths that are known. -/
abbrev Locates (addresses : Std.TreeMap NodeId Nat) (id : NodeId) : Prop :=
  addresses[id]?.isSome = true

theorem exists_of_getAt? {rules : Rules} (hkept : (Discipline.receivers rules).Kept m.heap)
    {scope : ScopeRef} {depth : Nat} {name : String}
    (h : (m.heap.getAt? scope depth name).isSome = true) :
    ∃ value, m.heap.getAt? scope depth name = some value ∧ value.SuitsName name := by
  obtain ⟨value, hvalue⟩ := Option.isSome_iff_exists.1 h
  obtain ⟨target, -, hget⟩ := Option.bind_eq_some_iff.1 hvalue
  exact ⟨value, hvalue, hkept.binding target name value hget⟩

theorem Reaches.hasReceiver {e : Expr} {rules : Rules} (h : m.Reaches e)
    (hkept : (Discipline.receivers rules).Kept m.heap) (he : e.Proper (Locates m.addresses)) :
    m.HasReceiver e := by
  cases e with
  | this id keyword =>
    obtain ⟨hkeyword, hlocated⟩ := he
    obtain ⟨depth, hdepth⟩ := Option.isSome_iff_exists.1 hlocated
    obtain ⟨value, hvalue, hsuits⟩ := exists_of_getAt? hkept (h depth hdepth)
    obtain ⟨i, rfl⟩ := hsuits.this hkeyword
    exact ⟨hkeyword, depth, i, hdepth, hkeyword ▸ hvalue⟩
  | super id keyword method =>
    obtain ⟨hkeyword, hlocated⟩ := he
    obtain ⟨depth, hdepth⟩ := Option.isSome_iff_exists.1 hlocated
    obtain ⟨inner, rfl, hsuper, hthis⟩ := h depth hdepth
    obtain ⟨superclass, hsuperclass, hsuits⟩ := exists_of_getAt? hkept hsuper
    obtain ⟨object, hobject, hsuits'⟩ := exists_of_getAt? hkept hthis
    obtain ⟨c, rfl⟩ := hsuits.super hkeyword
    obtain ⟨i, rfl⟩ := hsuits'.this rfl
    exact ⟨hkeyword, inner, c, i, hdepth, hkeyword ▸ hsuperclass, hobject⟩
  | _ => trivial

/-- With a receiver the search for a method of the superclass fails only if there is none. -/
theorem HasReceiver.superMethod_error {id : NodeId} {keyword method : Token} {halt : Halt}
    {m' : Machine} (h : m.HasReceiver (.super id keyword method))
    (herror : Run.superMethod id keyword method m = .error halt m') :
    halt = .fault method.line (.undefinedProperty method.lexeme) := by
  obtain ⟨hkeyword, inner, c, i, hdepth, hc, hi⟩ := h
  have heq := Run.superMethod_of_found method hdepth (hkeyword ▸ hc) hi
  rw [heq] at herror
  cases hfound : c.findMethod? method.lexeme with
  | none =>
    rw [hfound] at herror
    cases herror
    rfl
  | some found =>
    rw [hfound] at herror
    cases herror

theorem HasReceiver.findsClass {e : Expr} (h : m.HasReceiver e) : m.FindsClass e := by
  cases e with
  | super id keyword method =>
    intro line m' herror
    cases h.superMethod_error herror
  | _ => trivial

end Machine

namespace Run

/-- Halt with an alarm where `this` or `super` is evaluated without a receiver. -/
noncomputable def demandReceiver (alarm : Halt) (e : Expr) : Run Unit :=
  ensure (fun m ↦ m.HasReceiver e ∧ m.FindsClass e) alarm

theorem demandReceiver_eq (alarm : Halt) :
    demandReceiver alarm = fun e ↦ ensure (·.HasReceiver e) alarm := by
  funext e
  have hiff : (fun m : Machine ↦ m.HasReceiver e ∧ m.FindsClass e) = (·.HasReceiver e) :=
    funext fun _ ↦ propext (and_iff_left_of_imp Machine.HasReceiver.findsClass)
  rw [demandReceiver, hiff]

/-- Halt with an objection before the declaration of a class whose superclass is no class. -/
noncomputable def demandSuperclasses (objection : Halt) : Oversight :=
  ⟨fun _ ↦ pure (), fun s ↦ ensure (·.ExtendsClass s) objection⟩

theorem demandSuperclasses_eq (alarm objection : Halt) :
    demandSuperclasses objection = .demanding (fun _ _ ↦ True)
      (fun s m ↦ True → m.ExtendsClass s) alarm objection := by
  rw [Oversight.demanding, ensure_true, demandSuperclasses]
  simp only [true_imp_iff]

end Run

/-- Faults that no program runs into. -/
def RuntimeFault.Impossible : RuntimeFault → Prop
  | invalidUnary => True
  | invalidBinary => True
  | undefinedVariable name => Reserved name
  | _ => False

example : RuntimeFault.invalidUnary.message = "Invalid unary operator." ∧
    RuntimeFault.invalidBinary.message = "Invalid binary operator." ∧
    (RuntimeFault.undefinedVariable "super").message = "Undefined variable 'super'." ∧
    (RuntimeFault.undefinedVariable "this").message = "Undefined variable 'this'." := by
  decide

theorem Value.ordinary_of_unary {op : Kind} {a : Value} {cause : RuntimeFault}
    (hop : op = .bang ∨ op = .minus) (h : a.unary op = .error cause) : cause.Ordinary := by
  rcases hop with rfl | rfl
  · cases h
  · unfold Value.unary at h
    dsimp only at h
    split at h
    · cases h
    · cases h
      trivial

theorem Value.divisionByZero_of_arithmetic {op : Kind} {a b : Number} {cause : RuntimeFault}
    (hop : 4 ≤ op.precedence) (hplus : op ≠ .plus) (h : Value.arithmetic op a b = .error cause) :
    cause = .divisionByZero := by
  unfold Value.arithmetic at h
  split at h
  case h_3 =>
    split at h
    · cases h
      rfl
    · cases h
  -- No other operator binds as tightly as these.
  case h_8 hminus hstar hslash hgreater hgreaterEqual hless hlessEqual =>
    unfold Kind.precedence at hop
    split at hop <;> simp_all
  all_goals cases h

theorem Value.ordinary_of_binary {op : Kind} {a b : Value} {cause : RuntimeFault}
    (hop : 3 ≤ op.precedence) (h : a.binary op b = .error cause) : cause.Ordinary := by
  unfold Value.binary at h
  split at h
  · split at h
    · cases h
    · cases h
    · cases h
      trivial
  · cases h
  · cases h
  · rename_i hplus hequal hunequal
    split at h
    · have hstrong : 4 ≤ op.precedence := by
        unfold Kind.precedence at hop ⊢
        split <;> simp_all
      rw [Value.divisionByZero_of_arithmetic hstrong hplus h]
      trivial
    · cases h
      trivial

/-- A halt that a program may come to.  A strict view does not let a superclass be no class. -/
def Halt.Tenable (strict : Prop) : Halt → Prop
  | .fault _ cause => ¬cause.Impossible ∧ (strict → cause ≠ .superclassNotClass)
  | _ => True

theorem Halt.tenable_of_ordinary (strict : Prop) (line : Nat) {cause : RuntimeFault}
    (h : cause.Ordinary) : (Halt.fault line cause).Tenable strict := by
  cases cause with
  | invalidUnary => exact h.elim
  | invalidBinary => exact h.elim
  | undefinedVariable name => exact h.elim
  | superclassNotClass => exact h.elim
  | _ => exact ⟨id, fun _ ↦ nofun⟩

/-! ### The conduct -/

namespace Conduct

/-- Receivers are demanded where scopes are known to hold them.  A strict view also objects before
the declaration of a class whose superclass is no class. -/
noncomputable def receiving (addresses : Std.TreeMap NodeId Nat) (alarm objection : Halt)
    (strict : Prop) : Conduct where
  toDiscipline := .receivers (.proper (Machine.Locates addresses))
  addresses := addresses
  expression := Expr.Proper (Machine.Locates addresses)
  first := .demanding (fun e m ↦ m.HasReceiver e) (fun s m ↦ strict → m.ExtendsClass s) alarm
    objection
  second := .demanding (fun e m ↦ m.Reaches e) (fun _ _ ↦ True) alarm objection
  passes e m := m.HasReceiver e
  passesStmt s m := strict → m.ExtendsClass s
  halts halt := halt = alarm ∨ halt = objection ∨ halt.Tenable strict
  excused halt := strict ∧ halt = objection

theorem receiving_lawful (addresses : Std.TreeMap NodeId Nat) (alarm objection : Halt)
    (strict : Prop) : (receiving addresses alarm objection strict).Lawful where
  toLawful := Discipline.receivers_lawful fun _ ↦ id
  governs := Rules.proper_governs fun _ ↦ id
  first_expression {e m} he hm := by
    have hproper : e.Proper (Machine.Locates m.addresses) := hm.addresses ▸ he
    change Upholds _ (Run.ensure (·.HasReceiver e) alarm) (Run.ensure (·.Reaches e) alarm) m _
    apply Upholds.check (Discipline.receivers_lawful fun _ ↦ id) hm.toSane
    · exact .ensure Machine.HasReceiver.reaches fun h ↦ .inl (h.hasReceiver hm.kept hproper)
    · exact fun hok ↦ Run.property_of_ensure hok
    · exact fun _ herror ↦ .inl (Run.eq_alarm_of_ensure herror)
  first_statement {s m} _ hm := by
    change Upholds _ (Run.ensure (strict → ·.ExtendsClass s) objection)
      (Run.ensure (fun _ ↦ True) objection) m _
    apply Upholds.check (Discipline.receivers_lawful fun _ ↦ id) hm.toSane
    · refine .ensure (fun _ ↦ trivial) fun _ ↦ ?_
      by_cases hstrict : strict
      · exact .inr ⟨hstrict, rfl⟩
      · exact .inl fun h ↦ absurd h hstrict
    · exact fun hok ↦ Run.property_of_ensure hok
    · exact fun _ herror ↦ .inr (.inl (Run.eq_alarm_of_ensure herror))
  halts_output _ := .inr (.inr trivial)
  halts_exhausted := .inr (.inr trivial)
  halts_ordinary line _ h := .inr (.inr (Halt.tenable_of_ordinary strict line h))
  halts_name _ _ hname := .inr (.inr ⟨hname, fun _ ↦ nofun⟩)
  halts_unary line _ _ _ _ he h :=
    .inr (.inr (Halt.tenable_of_ordinary strict line (Value.ordinary_of_unary he.1 h)))
  halts_binary line _ _ _ _ _ _ he h :=
    .inr (.inr (Halt.tenable_of_ordinary strict line (Value.ordinary_of_binary he.1 h)))
  halts_this {id keyword m} _ _ hpasses hmissing := by
    obtain ⟨hkeyword, depth, i, hdepth, hi⟩ := hpasses
    rw [hkeyword, Machine.scopeOf?, hdepth] at hmissing
    rw [Heap.getAt?] at hi
    rw [hi] at hmissing
    cases hmissing
  halts_super {id keyword method m halt m'} _ _ hpasses herror := by
    rw [Machine.HasReceiver.superMethod_error hpasses herror]
    exact .inr (.inr (Halt.tenable_of_ordinary strict _ trivial))
  -- An initializer looks for `this` in its closure, where it has been since it was bound.
  halts_initializer line {h f} _ hf hinitializer hmissing := by
    obtain ⟨i, hi⟩ := hf hinitializer
    rw [hi] at hmissing
    cases hmissing
  halts_superclass line {fuel name e methods m v m'} hpasses heval hnot := by
    refine .inr (.inr ⟨id, fun hstrict ↦ ?_⟩)
    obtain ⟨c, rfl⟩ := hpasses hstrict fuel v m' (Run.evaluate_of_demanding heval)
    exact absurd rfl (hnot c)

end Conduct

/-- What the machines of sessions keep. -/
def Machine.Receptive (m : Machine) : Prop :=
  (Discipline.receivers (.proper (Machine.Locates m.addresses))).Kept m.heap

/-- Checks that never object, in a machine that keeps the discipline.  An expression may ask for a
receiver that is not located. -/
abbrev Conduct.keeping (m : Machine) (oversight : Oversight) : Conduct :=
  .tolerant (.receivers (.proper (Machine.Locates m.addresses))) m.addresses
    (Expr.Proper fun _ ↦ True) oversight .blind fun _ ↦ False

theorem Conduct.keeping_lawful {m : Machine} {oversight : Oversight}
    (hexpression : ∀ e m', e.Proper (fun _ ↦ True) → (Conduct.keeping m oversight).Stands m' →
      oversight.expression e m' = .ok () m')
    (hstatement : ∀ s m', s.Obeys (.proper (Machine.Locates m.addresses)) →
      (Conduct.keeping m oversight).Inside m' → oversight.statement s m' = .ok () m') :
    (Conduct.keeping m oversight).Lawful := by
  apply Conduct.tolerant_lawful (Discipline.receivers_lawful fun _ ↦ id)
    (Rules.proper_governs fun _ _ ↦ trivial)
  · exact fun e m' he hm' ↦ .inl ⟨hexpression e m' he hm', rfl⟩
  · exact fun s m' hs hm' ↦ .inl ⟨hstatement s m' hs hm', rfl⟩

theorem Conduct.keeping_blind_lawful (m : Machine) : (Conduct.keeping m .blind).Lawful :=
  Conduct.keeping_lawful (fun _ _ _ _ ↦ rfl) fun _ _ _ _ ↦ rfl

theorem Conduct.keeping_upheld (m : Machine) (fuel : Nat) :
    (Conduct.keeping m .blind).UpholdsExprs (Run.evaluate fuel) (Run.evaluate fuel) ∧
      (Conduct.keeping m .blind).UpholdsStmts (Run.execute fuel) (Run.execute fuel) := by
  obtain ⟨hevaluate, hexecute⟩ := Run.overseen_blind fuel
  rw [← hevaluate, ← hexecute]
  exact Conduct.evaluate_and_execute_upheld (Conduct.keeping_blind_lawful m) fuel

theorem Conduct.Sane.receptive {m m' : Machine} {oversight : Oversight}
    (h : (Conduct.keeping m oversight).Sane m') : m'.Receptive := by
  unfold Machine.Receptive
  rw [h.addresses]
  exact h.kept

theorem Conduct.Leads.receptive {m m' : Machine} {oversight : Oversight}
    (h : (Conduct.keeping m oversight).Leads m m') : m'.Receptive :=
  Conduct.Sane.receptive ⟨h.advances.kept, h.addresses⟩

namespace Machine.Receptive

variable {m : Machine} (hm : m.Receptive)
include hm

theorem record (findings : List Finding) : (m.record findings).Receptive := by
  refine Discipline.Kept.imp (Discipline.receivers_within (Rules.proper_within fun id hid ↦ ?_) _)
    hm trivial
  exact Machine.isSome_getElem?_foldl_insert (.inr hid)

theorem stands : (Conduct.keeping m .blind).Stands m :=
  ⟨⟨hm, rfl⟩, trivial⟩

theorem evaluate (fuel : Nat) {e : Expr} (he : e.Proper fun _ ↦ True) :
    (Conduct.keeping m .blind).Upholds (Run.evaluate fuel e) (Run.evaluate fuel e) m fun v m' ↦
      (Conduct.keeping m .blind).Admits m'.heap v :=
  (Conduct.keeping_upheld m fuel).1 e m he hm.stands

theorem execute (fuel : Nat) {s : Stmt} (hs : s.Obeys (.proper (Machine.Locates m.addresses))) :
    (Conduct.keeping m .blind).Upholds (Run.execute fuel s) (Run.execute fuel s) m fun flow m' ↦
      (Conduct.keeping m .blind).AdmitsFlow m'.heap flow :=
  (Conduct.keeping_upheld m fuel).2 s m hs ⟨hm.stands.toSane, trivial⟩

theorem program (fuel : Nat) {statements : List Stmt}
    (hstatements : Stmt.ObeysAll (.proper (Machine.Locates m.addresses)) statements) :
    (Conduct.keeping m .blind).Upholds (Run.program fuel statements) (Run.program fuel statements)
      m fun _ _ ↦ True := by
  rw [← Run.programOverseen_blind]
  exact Conduct.program_upheld (Conduct.keeping_blind_lawful m) fuel hstatements
    ⟨⟨hm, rfl⟩, trivial⟩

end Machine.Receptive

end Lox
