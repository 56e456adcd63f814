import Lox.Proofs.Machine.Demands
import Lox.Proofs.Machine.Housing
import Lox.Proofs.Machine.Pedigree

/-!
# The superclass of the enclosing class

Wherever an expression `super.m` is evaluated, the method is looked up in the class that the class
declaration around it extends, and it is bound to the instance of the method around it.  This is
known of every `super` that a housed machine evaluates (`Ledger.Holds.lexical`), and interpreters
keep machines housed (`Ledger.evaluate_and_execute_carry`).
-/

namespace Lox

/-- An execution of the declaration of a subclass ends well.  The superclass is what the expression
for it was evaluated to. -/
def Machine.Declares (m : Machine) (own : Layer) (superclass : Class) : Stmt → Prop
  | .classDecl name (some e) methods => ∃ fuel m₁ m₂,
    Run.evaluate fuel e { m with heap := m.heap.define m.current name.lexeme .nil } =
      .ok (.cls superclass) m₁ ∧
    Run.execute (fuel + 1) (.classDecl name (some e) methods) m = .ok .normal m₂ ∧
    m₂.heap.get? m.current name.lexeme = some (.cls (.derived own superclass)) ∧
    ∀ key f, own.methods.get? key = some f → f.routine ∈ methods
  | _ => False

/-- The subclasses that are made by executions of declarations. -/
def Machine.Declared (own : Layer) (superclass : Class) : Prop :=
  ∃ (m : Machine) (s : Stmt), m.Declares own superclass s

/-- Whatever subclass an execution makes is among those that are known. -/
def Machine.Registers (made : Layer → Class → Prop) (s : Stmt) (m : Machine) : Prop :=
  ∀ own superclass, m.Declares own superclass s → made own superclass

/-- A `super` is looked up in the superclass of the class that holds the method around it, which is
a known one, and is bound to the instance that this method is bound to. -/
def Machine.LooksUp (made : Layer → Class → Prop) (m : Machine) (id : NodeId)
    (keyword method : Token) : Prop :=
  ∃ n home i own superclass enclosing,
    m.addresses[id]? = some (n + 1) ∧ m.heap.ancestor? m.current n = some home ∧
    m.heap.Binds home i own superclass enclosing ∧ (id, n) ∈ enclosing.routine.supers ∧
    made own superclass ∧ superclass ≠ i.cls ∧
    ∀ fuel, Run.evaluate (fuel + 1) (.super id keyword method) m =
      match superclass.findMethod? method.lexeme with
      | some found => (do return .function (← Run.bindMethod found i) : Run Value) m
      | none => .error (.fault method.line (.undefinedProperty method.lexeme)) m

/-- So it is whenever a `super` is evaluated.  Only expressions that have not been resolved may have
one that is nowhere looked up. -/
def Machine.Lexical (strict : Prop) (made : Layer → Class → Prop) (m : Machine) : Expr → Prop
  | .super id keyword method =>
    m.LooksUp made id keyword method ∨ ¬strict ∧ m.addresses[id]? = none
  | _ => True

namespace Run

variable {evaluate : Expr → Run Value} {name : Token} {e : Expr} {methods : List (Routine Stmt)}
  {m : Machine} {own : Layer} {superclass : Class}

/-- A declaration of a subclass gets as far as to make the class: the superclass has been evaluated,
the methods have been made in a scope that holds `super`, and the name takes a value. -/
def Prepares (evaluate : Expr → Run Value) (name : Token) (e : Expr) (methods : List (Routine Stmt))
    (m : Machine) (own : Layer) (superclass : Class) : Prop :=
  ∃ m₁ fs m₂,
    evaluate e { m with heap := m.heap.define m.current name.lexeme .nil } =
      .ok (.cls superclass) m₁ ∧
    methodsOf m₁.heap.scopes.size methods { m₁ with
      heap := (m₁.heap.openScope (some m₁.current) (.ofList [("super", .cls superclass)])).2 } =
        .ok fs m₂ ∧
    m₂.current = m.current ∧ m₂.heap.holds m₂.current name.lexeme = true ∧
    (∀ p ∈ fs, p.2.routine ∈ methods) ∧
    own = ⟨m₂.heap.nextIdentity, name.lexeme, .ofList fs⟩

theorem Prepares.declareClass (h : Prepares evaluate name e methods m own superclass) :
    ∃ m', Run.declareClass evaluate name (some e) methods m = .ok () m' ∧
      m'.heap.get? m.current name.lexeme = some (.cls (.derived own superclass)) := by
  obtain ⟨m₁, fs, m₂, hevaluate, hmethods, hcurrent, hholds, -, rfl⟩ := h
  have hfinish := finishClass_of_holds (.derived · superclass) fs hholds
  have hget := Machine.get?_bindClass hholds
    (.derived ⟨m₂.heap.nextIdentity, name.lexeme, .ofList fs⟩ superclass)
  have hdefine : define name.lexeme .nil m =
      .ok () { m with heap := m.heap.define m.current name.lexeme .nil } := rfl
  have hopen : openScope m₁.current (.ofList [("super", .cls superclass)]) m₁ =
      .ok m₁.heap.scopes.size { m₁ with
        heap := (m₁.heap.openScope (some m₁.current) (.ofList [("super", .cls superclass)])).2 } :=
    rfl
  refine ⟨_, ?_, hcurrent ▸ hget⟩
  rw [declareClass_eq_methodsOf]
  simp only [liftM_self]
  rw [Computation.bind_of_ok hdefine, Computation.bind_of_ok hevaluate]
  dsimp only
  rw [Computation.get_bind, Computation.bind_of_ok hopen, Computation.bind_of_ok hmethods]
  exact hfinish

/-- An execution that gets so far is one that declares the class. -/
theorem Prepares.declares {fuel : Nat}
    (h : Prepares (Run.evaluate fuel) name e methods m own superclass) :
    m.Declares own superclass (.classDecl name (some e) methods) := by
  obtain ⟨m', hdeclare, hget⟩ := h.declareClass
  obtain ⟨m₁, fs, m₂, hevaluate, -, -, -, hroutines, rfl⟩ := h
  refine ⟨fuel, m₁, m', hevaluate, ?_, hget, fun key f hf ↦ ?_⟩
  · rw [execute, executeWith, Computation.bind_of_ok hdeclare]
    rfl
  · exact hroutines _ (Bindings.mem_of_get?_ofList hf)

end Run

namespace Heap

theorem ancestor?_succ {h : Heap} {scope home outer : ScopeRef} {n : Nat}
    (hhome : h.ancestor? scope n = some home) (houter : h.parent? home = some outer) :
    h.ancestor? scope (n + 1) = some outer := by
  induction n generalizing scope with
  | zero =>
    cases hhome
    rw [ancestor?, houter]
    rfl
  | succ n ih =>
    rw [ancestor?] at hhome ⊢
    cases hparent : h.parent? scope with
    | none =>
      rw [hparent] at hhome
      cases hhome
    | some next =>
      rw [hparent] at hhome
      exact ih hhome

end Heap

namespace Ledger

variable {L : Ledger} {m : Machine}

theorem Holds.looksUp (hm : L.Holds m) {id : NodeId} {keyword method : Token} {n : Nat}
    (hkeyword : keyword.lexeme = "super") (haddress : L.addresses[id]? = some (n + 1))
    (hhomes : m.heap.Homes m.current n (id, n)) : m.LooksUp L.made id keyword method := by
  obtain ⟨home, i, own, superclass, enclosing, hhome, hbinds, hid⟩ := hhomes
  rw [← hm.addresses] at haddress
  have hi : i.cls.Housed L m.heap := hm.housed.bound _ _ _ hbinds.this
  refine ⟨n, home, i, own, superclass, enclosing, haddress, hhome, hbinds, hid,
    (hi _ hbinds.ancestor).made superclass rfl,
    Class.ne_of_derived_mem_ancestry hbinds.ancestor, fun fuel ↦ ?_⟩
  apply Run.superMethod_of_found method haddress
  · rw [Heap.ancestor?_succ hhome hbinds.closure, hkeyword]
    exact hbinds.super
  · rw [Nat.add_sub_cancel, hhome]
    exact hbinds.this

theorem Holds.lexical (hm : L.Holds m) {strict : Prop} {e : Expr}
    (he : e.Housed L m.heap strict m.current) : m.Lexical strict L.made e := by
  cases e with
  | super id keyword method =>
    rcases he.nodes id List.mem_cons_self with ⟨n, haddress, hhomes⟩ | ⟨hstrict, hnone⟩
    · exact .inl (hm.looksUp he.proper.1 haddress hhomes)
    · exact .inr ⟨hstrict, hm.addresses ▸ hnone⟩
  | _ => trivial

namespace Carries

theorem superMethod (hm : L.Holds m) {id : NodeId} {keyword method : Token} {strict : Prop}
    (he : (Expr.super id keyword method).Housed L m.heap strict m.current) :
    L.Carries (Run.superMethod id keyword method) (Run.superMethod id keyword method) m
      fun v m' ↦ v.Housed L m'.heap := by
  rcases hm.lexical he with hlooks | ⟨-, hnone⟩
  · obtain ⟨n, home, i, own, superclass, enclosing, -, -, hbinds, -, -, -, heq⟩ := hlooks
    have hsuper : Run.superMethod id keyword method m = _ := heq 0
    cases hfound : superclass.findMethod? method.lexeme with
    | none =>
      rw [hfound] at hsuper
      exact of_eq hsuper hsuper (throw hm _)
    | some found =>
      rw [hfound] at hsuper
      obtain ⟨d, hd, hlisted⟩ := Class.exists_of_findMethod? hfound
      have hancestor := Class.superclass_mem_ancestry hbinds.ancestor
      refine of_eq hsuper hsuper (bind (bindMethod hm (hm.housed.bound _ _ _ hbinds.this)
        (Class.ancestry_subset hancestor hd) hlisted) fun f m' hleads hf ↦ ?_)
      exact pure (hm.follow hleads) hf
  · have hsuper : Run.superMethod id keyword method m =
        .error (.fault keyword.line (.undefinedVariable "super")) m := by
      rw [Run.superMethod, Computation.get_bind, hnone]
      rfl
    exact of_eq hsuper hsuper (throw hm _)

end Carries

/-! ### Interpreters and runs -/

def CarriesExprs (L : Ledger) (strict : Prop) (evaluate evaluate' : Expr → Run Value) : Prop :=
  ∀ e m, L.Holds m → e.Housed L m.heap strict m.current →
    L.Carries (evaluate e) (evaluate' e) m fun v m' ↦ v.Housed L m'.heap

def HousedFlow (L : Ledger) (h : Heap) (flow : Flow) : Prop :=
  ∀ value, flow = .return value → value.Housed L h

def CarriesStmts (L : Ledger) (execute execute' : Stmt → Run Flow) : Prop :=
  ∀ s m, L.Holds m → s.Housed L m.heap m.current →
    L.Carries (execute s) (execute' s) m fun flow m' ↦ L.HousedFlow m'.heap flow

def HousedCallee (L : Ledger) (h : Heap) : Callee → Prop
  | .builtin _ => True
  | .function f => f.Housed L h
  | .cls c => c.Housed L h

theorem housedCallee_of_callee? {h : Heap} {v : Value} {callee : Callee} (hv : v.Housed L h)
    (hcallee : v.callee? = some callee) : L.HousedCallee h callee := by
  cases v <;> cases hcallee <;> exact hv

/-- What stood in the scope where a machine is stands there still. -/
theorem Leads.expr {m' : Machine} (hleads : L.Leads m m') {strict : Prop} {e : Expr}
    (he : e.Housed L m.heap strict m.current) : e.Housed L m'.heap strict m'.current := by
  rw [hleads.current]
  exact he.mono hleads.keeps

theorem Leads.stmt {m' : Machine} (hleads : L.Leads m m') {s : Stmt}
    (hs : s.Housed L m.heap m.current) : s.Housed L m'.heap m'.current := by
  rw [hleads.current]
  exact hs.mono hleads.keeps

namespace Carries

variable {strict : Prop} {evaluate evaluate' : Expr → Run Value}
  {execute execute' : Stmt → Run Flow}

theorem sequence (hexecute : L.CarriesStmts execute execute') {ss : List Stmt} {m : Machine}
    (hm : L.Holds m) (hss : Stmt.HousedAll L m.heap m.current ss) :
    L.Carries (Run.sequence execute ss) (Run.sequence execute' ss) m fun flow m' ↦
      L.HousedFlow m'.heap flow := by
  induction ss generalizing m with
  | nil => exact pure hm nofun
  | cons s rest ih =>
    obtain ⟨hs, hrest⟩ := hss.cons
    refine bind (hexecute s m hm hs) fun flow m' hleads hflow ↦ ?_
    have hm' := hm.follow hleads
    cases flow with
    | normal =>
      apply ih hm'
      rw [hleads.current]
      exact hrest.mono hleads.keeps
    | «return» value => exact pure hm' hflow
    | «break» => exact pure hm' hflow
    | «continue» => exact pure hm' hflow

theorem valuesOf (hevaluate : L.CarriesExprs strict evaluate evaluate') {es : List Expr}
    {m : Machine} (hm : L.Holds m) (hes : ∀ e ∈ es, e.Housed L m.heap strict m.current) :
    L.Carries (Run.valuesOf evaluate es) (Run.valuesOf evaluate' es) m fun vs m' ↦
      ∀ v ∈ vs, v.Housed L m'.heap := by
  induction es generalizing m with
  | nil => exact pure hm fun v hv ↦ absurd hv List.not_mem_nil
  | cons e rest ih =>
    obtain ⟨he, hrest⟩ := List.forall_mem_cons.1 hes
    refine bind (hevaluate e m hm he) fun v m' hleads hv ↦ ?_
    have hm' := hm.follow hleads
    refine bind (ih hm' fun e he ↦ hleads.expr (hrest e he)) fun vs m'' hleads' hvs ↦ ?_
    exact pure (hm'.follow hleads') (List.forall_mem_cons.2 ⟨hv.mono hleads'.keeps, hvs⟩)

theorem valueOrNil (hevaluate : L.CarriesExprs strict evaluate evaluate') {o : Option Expr}
    (hm : L.Holds m) (ho : ∀ e, o = some e → e.Housed L m.heap strict m.current) :
    L.Carries (Run.valueOrNil evaluate o) (Run.valueOrNil evaluate' o) m fun v m' ↦
      v.Housed L m'.heap := by
  cases o with
  | none => exact pure hm trivial
  | some e => exact hevaluate e m hm (ho e rfl)

theorem loop (hevaluate : L.CarriesExprs strict evaluate evaluate')
    (hexecute : L.CarriesStmts execute execute') {condition : Expr} {body : Stmt} (rounds : Nat)
    {m : Machine} (hm : L.Holds m) (hcondition : condition.Housed L m.heap strict m.current)
    (hbody : body.Housed L m.heap m.current) :
    L.Carries (Run.loop (evaluate condition) (execute body) rounds)
      (Run.loop (evaluate' condition) (execute' body) rounds) m fun flow m' ↦
        L.HousedFlow m'.heap flow := by
  induction rounds generalizing m with
  | zero => exact throw hm _
  | succ rounds ih =>
    refine bind (hevaluate condition m hm hcondition) fun v m' hleads _ ↦ ?_
    have hm' := hm.follow hleads
    apply ite
    · intro _
      refine bind (hexecute body m' hm' (hleads.stmt hbody)) fun flow m'' hleads' hflow ↦ ?_
      have hm'' := hm'.follow hleads'
      have hagain := ih hm'' (hleads'.expr (hleads.expr hcondition))
        (hleads'.stmt (hleads.stmt hbody))
      cases flow with
      | normal => exact hagain
      | «return» value => exact pure hm'' hflow
      | «break» => exact pure hm'' nofun
      | «continue» => exact hagain
    · intro _
      exact pure hm' nofun

theorem block (hexecute : L.CarriesStmts execute execute') (hm : L.Holds m) {body : List Stmt}
    (hs : (Stmt.block body).Housed L m.heap m.current) :
    L.Carries (Run.block execute body) (Run.block execute' body) m fun flow m' ↦
      L.HousedFlow m'.heap flow := by
  refine get (bind (openScope hm m.current fun name value hvalue ↦ ?_)
    fun scope m' hleads hscope ↦ inScope ?_)
  · cases hvalue
  · exact sequence hexecute ((hm.follow hleads).enter scope)
      ((hs.mono hleads.keeps).block hscope.2.1)

theorem callFunction (hexecute : L.CarriesStmts execute execute') (hm : L.Holds m) {f : Function}
    (hf : f.Housed L m.heap) {arguments : List Value}
    (harguments : ∀ v ∈ arguments, v.Housed L m.heap) :
    L.Carries (Run.callFunction execute f arguments) (Run.callFunction execute' f arguments) m
      fun v m' ↦ v.Housed L m'.heap := by
  refine bind (openScope hm f.closure fun name value hvalue ↦ ?_) fun scope m' hleads hscope ↦ ?_
  · exact harguments value (Bindings.mem_of_get?_zip hvalue).2
  · have hm' := hm.follow hleads
    have hbody := (hf.mono hleads.keeps).body hscope.2.1
    refine bind (inScope (Q := fun flow m'' ↦ L.HousedFlow m''.heap flow)
      (sequence hexecute (hm'.enter scope) hbody)) fun flow m'' hleads' hflow ↦ ?_
    have hm'' := hm'.follow hleads'
    apply ite
    · intro _
      exact valueIn hm'' _ _ _
    · intro _
      cases flow with
      | «return» value => exact pure hm'' (hflow value rfl)
      | _ => exact pure hm'' trivial

theorem construct (hexecute : L.CarriesStmts execute execute') (hm : L.Holds m) {c : Class}
    (hc : c.Housed L m.heap) {arguments : List Value}
    (harguments : ∀ v ∈ arguments, v.Housed L m.heap) :
    L.Carries (Run.construct execute c arguments) (Run.construct execute' c arguments) m
      fun v m' ↦ v.Housed L m'.heap := by
  refine bind (onHeap (Q := fun i _ ↦ i.cls = c) (.instantiate _ c) (hm.housed.instantiate c) rfl)
    fun i m₁ hleads₁ hi ↦ ?_
  subst hi
  have hm₁ := hm.follow hleads₁
  have hc₁ := hc.mono hleads₁.keeps
  cases hinit : i.cls.findMethod? Class.initializerName with
  | none => exact pure hm₁ hc₁
  | some init =>
    obtain ⟨d, hd, hlisted⟩ := Class.exists_of_findMethod? hinit
    refine bind (bindMethod hm₁ hc₁ hd hlisted) fun f m₂ hleads₂ hf ↦ ?_
    have hm₂ := hm₁.follow hleads₂
    have hvs : ∀ v ∈ arguments, v.Housed L m₂.heap := fun v hv ↦
      (harguments v hv).mono (hleads₁.keeps.trans hleads₂.keeps)
    refine bind (callFunction hexecute hm₂ hf hvs) fun _ m₃ hleads₃ _ ↦ ?_
    exact pure (hm₂.follow hleads₃) (hc₁.mono (hleads₂.keeps.trans hleads₃.keeps))

theorem call (hexecute : L.CarriesStmts execute execute') (hm : L.Holds m) {callee : Callee}
    (hcallee : L.HousedCallee m.heap callee) (line : Nat) {arguments : List Value}
    (harguments : ∀ v ∈ arguments, v.Housed L m.heap) :
    L.Carries (Run.call execute callee line arguments) (Run.call execute' callee line arguments) m
      fun v m' ↦ v.Housed L m'.heap := by
  cases callee with
  | builtin b =>
    exact (of_hostOnly hm (.callBuiltin b line arguments)
      (Run.yields_callBuiltin b line arguments)).mono fun _ _ _ ↦ Value.housed_of_isData
  | function f => exact callFunction hexecute hm hcallee harguments
  | cls c => exact construct hexecute hm hcallee harguments

theorem methodsOf {closure : ScopeRef} {methods : List (Routine Stmt)} {m : Machine}
    (hm : L.Holds m) :
    L.Carries (Run.methodsOf closure methods) (Run.methodsOf closure methods) m fun fs _ ↦
      ∀ p ∈ fs, p.2.routine ∈ methods ∧ p.2.closure = closure := by
  induction methods generalizing m with
  | nil => exact pure hm fun p hp ↦ absurd hp List.not_mem_nil
  | cons method rest ih =>
    refine bind (newFunction hm method closure _) fun f m' hleads hf ↦ ?_
    refine bind (ih (hm.follow hleads)) fun fs m'' hleads' hfs ↦ ?_
    refine pure ((hm.follow hleads).follow hleads') (List.forall_mem_cons.2 ⟨?_, fun p hp ↦ ?_⟩)
    · exact ⟨hf.1 ▸ List.mem_cons_self, hf.2.1⟩
    · exact ⟨List.mem_cons_of_mem _ (hfs p hp).1, (hfs p hp).2⟩

theorem finishClass {name : Token} (hname : ¬Reserved name.lexeme) (hm : L.Holds m)
    {make : Layer → Class} {fs : List (String × Function)}
    (hmake : m.heap.holds m.current name.lexeme = true →
      (make ⟨m.heap.nextIdentity, name.lexeme, .ofList fs⟩).Housed L m.heap) :
    L.Carries (Run.finishClass name make fs) (Run.finishClass name make fs) m fun _ _ ↦ True := by
  refine bind (onHeap (Q := fun identity m' ↦ identity = m.heap.nextIdentity ∧
    m' = { m with heap := m.heap.freshIdentity.2 }) (.freshIdentity _) hm.housed.freshIdentity
    ⟨rfl, rfl⟩) fun identity m' hleads hidentity ↦ get ?_
  obtain ⟨rfl, rfl⟩ := hidentity
  exact assignIn (hm.follow hleads) _ hname fun hholds ↦
    Class.Housed.mono (hmake hholds) hleads.keeps

theorem declareClass (hevaluate : L.CarriesExprs strict evaluate evaluate') (hm : L.Holds m)
    {name : Token} {superclass : Option Expr} {methods : List (Routine Stmt)}
    (hs : (Stmt.classDecl name superclass methods).Housed L m.heap m.current)
    (hmade : ∀ e own c, superclass = some e → Run.Prepares evaluate' name e methods m own c →
      L.made own c) :
    L.Carries (Run.declareClass evaluate name superclass methods)
      (Run.declareClass evaluate' name superclass methods) m fun _ _ ↦ True := by
  have hobeys := hs.obeys
  rw [Stmt.Obeys] at hobeys
  obtain ⟨hname, hproper, -⟩ := hobeys
  refine bind (define hm hname trivial) fun _ m₁ hleads₁ heq ↦ ?_
  have hm₁ := hm.follow hleads₁
  cases superclass with
  | none =>
    refine get (bind (methodsOf hm₁) fun fs m₂ hleads₂ hfs ↦ ?_)
    refine finishClass hname (hm₁.follow hleads₂) fun _ ↦ List.forall_mem_singleton.2 ⟨nofun, ?_⟩
    intro key method hmethod
    exact hs.houses rfl (hfs _ (Bindings.mem_of_get?_ofList hmethod)).1 nofun
  | some e =>
    have he : e.Housed L m₁.heap strict m₁.current := by
      apply hleads₁.expr
      obtain ⟨-, -, n, hnodes⟩ := hs
      rw [Stmt.supers] at hnodes
      have he : e.Proper fun _ ↦ True :=
        (Rules.proper_governs fun _ ↦ id).of_superclass (hproper e rfl)
      exact hnodes.expression he strict
    refine bind_of_ok (hevaluate e m₁ hm₁ he) fun v m₂ hok hleads₂ hv ↦ ?_
    have hm₂ := hm₁.follow hleads₂
    split
    · rename_i c
      have hc : c.Housed L m₂.heap := hv
      -- The methods close over a scope of their own, which holds nothing but `super`.
      refine get (bind_of_ok (openScope hm₂ m₂.current fun key value hvalue ↦ ?_)
        fun closure m₃ hopen hleads₃ hclosure ↦ ?_)
      · obtain ⟨rfl, rfl⟩ := Bindings.eq_of_get?_single hvalue
        exact hc
      · have hm₃ := hm₂.follow hleads₃
        rw [Run.inScope_methodsOf]
        refine bind_of_ok (methodsOf hm₃) fun fs m₄ hmethods hleads₄ hfs ↦ ?_
        refine finishClass hname (hm₃.follow hleads₄) fun hholds ↦ ?_
        have hcurrent : m₄.current = m.current := by
          rw [hleads₄.current, hleads₃.current, hleads₂.current, hleads₁.current]
        refine Class.Housed.superclass ⟨?_, fun key method hmethod ↦ ?_⟩
          (hc.mono (hleads₃.keeps.trans hleads₄.keeps))
        · rintro _ ⟨⟩
          subst heq
          cases hopen
          exact hmade e _ c rfl ⟨m₂, fs, m₄, hok, hmethods, hcurrent, hholds,
            fun p hp ↦ (hfs p hp).1, rfl⟩
        · obtain ⟨hmem, hplace⟩ := hfs _ (Bindings.mem_of_get?_ofList hmethod)
          refine hs.houses rfl hmem ?_
          rintro _ ⟨⟩
          apply hleads₄.keeps.reserved _ _ _ (.inr rfl)
          rw [hplace]
          exact hclosure.2.2 "super"
    · exact fault hm₂ _ _

theorem ofExcept (hm : L.Holds m) {line : Nat} {result : Except RuntimeFault Value}
    (hok : ∀ v, result = .ok v → v.IsData) :
    L.Carries (Run.ofExcept line result) (Run.ofExcept line result) m fun v m' ↦
      v.Housed L m'.heap := by
  cases result with
  | ok v => exact pure hm (Value.housed_of_isData (hok v rfl))
  | error cause => exact fault hm _ _

theorem evaluateWith (hevaluate : L.CarriesExprs strict evaluate evaluate')
    (hexecute : L.CarriesStmts execute execute') (hm : L.Holds m) {e : Expr}
    (he : e.Housed L m.heap strict m.current) :
    L.Carries (Run.evaluateWith evaluate execute e) (Run.evaluateWith evaluate' execute' e) m
      fun v m' ↦ v.Housed L m'.heap := by
  have hchild : ∀ inner ∈ e.children, inner.Housed L m.heap strict m.current := fun _ ↦ he.child
  have hproper := he.proper
  cases e with
  | literal value => exact pure hm (Value.housed_of_isData (Value.isData_ofLiteral value))
  | grouping inner => exact hevaluate inner m hm (hchild inner List.mem_cons_self)
  | unary op operand =>
    refine bind (hevaluate operand m hm (hchild operand List.mem_cons_self))
      fun v m' hleads _ ↦ ?_
    exact ofExcept (hm.follow hleads) fun _ ↦ Value.isData_of_unary
  | binary op left right =>
    obtain ⟨hleft, hright⟩ := List.forall_mem_cons.1 hchild
    refine bind (hevaluate left m hm hleft) fun a m' hleads _ ↦ ?_
    have hm' := hm.follow hleads
    refine bind (hevaluate right m' hm' (hleads.expr (hright right List.mem_cons_self)))
      fun b m'' hleads' _ ↦ ?_
    exact ofExcept (hm'.follow hleads') fun _ ↦ Value.isData_of_binary
  | logical op left right =>
    obtain ⟨hleft, hright⟩ := List.forall_mem_cons.1 hchild
    refine bind (hevaluate left m hm hleft) fun a m' hleads ha ↦ ?_
    have hm' := hm.follow hleads
    apply ite
    · intro _
      exact pure hm' ha
    · intro _
      exact hevaluate right m' hm' (hleads.expr (hright right List.mem_cons_self))
  | var id name => exact lookUp hm id name
  | assign id name value =>
    refine bind (hevaluate value m hm (hchild value List.mem_cons_self))
      fun v m' hleads hv ↦ ?_
    have hm' := hm.follow hleads
    refine bind (assign hm' id hproper.1 hv) fun _ m'' hleads' _ ↦ ?_
    exact pure (hm'.follow hleads') (hv.mono hleads'.keeps)
  | call callee paren arguments =>
    obtain ⟨hcallee, harguments⟩ := List.forall_mem_cons.1 hchild
    refine bind (hevaluate callee m hm hcallee) fun v m' hleads hv ↦ ?_
    have hm' := hm.follow hleads
    cases htarget : v.callee? with
    | none => exact fault hm' _ _
    | some target =>
      refine bind (valuesOf hevaluate hm' fun e he ↦ hleads.expr (harguments e he))
        fun vs m'' hleads' hvs ↦ ?_
      have hm'' := hm'.follow hleads'
      apply ite
      · intro _
        exact bind (Q := fun _ _ ↦ False) (fault hm'' _ _) fun _ _ _ hfalse ↦ hfalse.elim
      · intro _
        exact call hexecute hm'' (housedCallee_of_callee? (hv.mono hleads'.keeps) htarget)
          paren.line hvs
  | get object name =>
    refine bind (hevaluate object m hm (hchild object List.mem_cons_self))
      fun v m' hleads hv ↦ ?_
    have hm' := hm.follow hleads
    split
    · exact property hm' hv name
    · exact fault hm' _ _
  | set object name value =>
    obtain ⟨hobject, hvalue⟩ := List.forall_mem_cons.1 hchild
    refine bind (hevaluate object m hm hobject) fun v m₁ hleads₁ _ ↦ ?_
    have hm₁ := hm.follow hleads₁
    split
    · rename_i i _
      refine bind (hevaluate value m₁ hm₁ (hleads₁.expr (hvalue value List.mem_cons_self)))
        fun w m₂ hleads₂ hw ↦ ?_
      have hm₂ := hm₁.follow hleads₂
      refine bind (modifyHeap (Q := fun _ _ ↦ True) (.setField _ i name.lexeme w)
        (hm₂.housed.setField hw i name.lexeme) trivial) fun _ m₃ hleads₃ _ ↦ ?_
      exact pure (hm₂.follow hleads₃) (hw.mono hleads₃.keeps)
    · exact fault hm₁ _ _
  | this id keyword => exact lookUp hm id keyword
  | super id keyword method => exact superMethod hm he

theorem executeWith (hevaluate : L.CarriesExprs strict evaluate evaluate')
    (hexecute : L.CarriesStmts execute execute') (rounds : Nat) (hm : L.Holds m) {s : Stmt}
    (hs : s.Housed L m.heap m.current)
    (hmade : ∀ name e methods own c, s = .classDecl name (some e) methods →
      Run.Prepares evaluate' name e methods m own c → L.made own c) :
    L.Carries (Run.executeWith evaluate execute rounds s)
      (Run.executeWith evaluate' execute' rounds s) m fun flow m' ↦ L.HousedFlow m'.heap flow := by
  obtain ⟨hobeys, hsettled, n, hnodes⟩ := id hs
  cases s with
  | block body => exact block hexecute hm hs
  | classDecl name superclass methods =>
    refine bind (declareClass hevaluate hm hs fun e own c heq ↦ ?_) fun _ m' hleads _ ↦ ?_
    · subst heq
      exact hmade name e methods own c rfl
    · exact pure (hm.follow hleads) nofun
  | expression e =>
    rw [Stmt.Obeys] at hobeys
    rw [Stmt.supers] at hnodes
    refine bind (hevaluate e m hm (hnodes.expression hobeys strict)) fun _ m' hleads _ ↦ ?_
    exact pure (hm.follow hleads) nofun
  | function routine =>
    rw [Stmt.Obeys] at hobeys
    refine get (bind (newFunction hm routine m.current false) fun f m' hleads hf ↦ ?_)
    have hm' := hm.follow hleads
    have hfunction : (Value.function f).Housed L m'.heap :=
      (hleads.stmt hs).function hf.1 (hf.2.1.trans hleads.current.symm)
    refine bind (define hm' hobeys.1 hfunction) fun _ m'' hleads' _ ↦ ?_
    exact pure (hm'.follow hleads') nofun
  | ifElse condition thenBranch elseBranch =>
    rw [Stmt.Obeys] at hobeys
    rw [Stmt.Settled] at hsettled
    rw [Stmt.supers] at hnodes
    obtain ⟨hhead, hother⟩ := NodesHoused.append_iff.1 hnodes
    obtain ⟨htest, hbranch⟩ := NodesHoused.append_iff.1 hhead
    refine bind (hevaluate condition m hm (htest.expression hobeys.1 strict))
      fun v m' hleads _ ↦ ?_
    have hm' := hm.follow hleads
    apply ite
    · intro _
      exact hexecute thenBranch m' hm' (hleads.stmt ⟨hobeys.2.1, hsettled.1, n, hbranch⟩)
    · intro _
      cases elseBranch with
      | none => exact pure hm' nofun
      | some other =>
        rw [Stmt.ObeysOption] at hobeys
        rw [Stmt.SettledOption] at hsettled
        rw [Stmt.supersOption] at hother
        exact hexecute other m' hm' (hleads.stmt ⟨hobeys.2.2, hsettled.2, n, hother⟩)
  | print e =>
    rw [Stmt.Obeys] at hobeys
    rw [Stmt.supers] at hnodes
    refine bind (hevaluate e m hm (hnodes.expression hobeys strict)) fun v m' hleads _ ↦ ?_
    have hm' := hm.follow hleads
    refine bind (of_hostOnly hm' (.printLine v.display) (.any _)) fun _ m'' hleads' _ ↦ ?_
    exact pure (hm'.follow hleads') nofun
  | «return» keyword value =>
    rw [Stmt.Obeys] at hobeys
    rw [Stmt.supers] at hnodes
    refine bind (valueOrNil hevaluate hm (hnodes.expressionOption hobeys strict))
      fun v m' hleads hv ↦ ?_
    refine pure (hm.follow hleads) ?_
    rintro w ⟨⟩
    exact hv
  | var name initializer =>
    rw [Stmt.Obeys] at hobeys
    rw [Stmt.supers] at hnodes
    refine bind (valueOrNil hevaluate hm (hnodes.expressionOption hobeys.2 strict))
      fun v m' hleads hv ↦ ?_
    have hm' := hm.follow hleads
    refine bind (define hm' hobeys.1 hv) fun _ m'' hleads' _ ↦ ?_
    exact pure (hm'.follow hleads') nofun
  | «while» condition body =>
    rw [Stmt.Obeys] at hobeys
    rw [Stmt.Settled] at hsettled
    rw [Stmt.supers] at hnodes
    obtain ⟨htest, hbody⟩ := NodesHoused.append_iff.1 hnodes
    exact loop hevaluate hexecute rounds hm (htest.expression hobeys.1 strict)
      ⟨hobeys.2, hsettled, n, hbody⟩
  | «break» keyword => exact pure hm nofun
  | «continue» keyword => exact pure hm nofun

theorem ensure (hm : L.Holds m) {onFirst onSecond : Machine → Prop} (h : onFirst m ↔ onSecond m)
    (alarm : Halt) : L.Carries (Run.ensure onFirst alarm) (Run.ensure onSecond alarm) m
      fun _ m' ↦ m' = m ∧ onFirst m := by
  by_cases hfirst : onFirst m
  · have hx := Run.ensure_of_property hfirst alarm
    have hy := Run.ensure_of_property (h.1 hfirst) alarm
    exact of_eq hx hy (pure hm ⟨rfl, hfirst⟩)
  · have hx := Run.ensure_of_not hfirst alarm
    have hy := Run.ensure_of_not (fun hsecond ↦ hfirst (h.2 hsecond)) alarm
    exact of_eq hx hy (throw hm alarm)

end Carries

section Runs

variable (L) (onExpr : Expr → Machine → Prop) (alarm objection : Halt)

/-- A check before expressions, and one before statements that the subclasses they make are
known. -/
noncomputable def oversight : Oversight :=
  .demanding onExpr (Machine.Registers L.made) alarm objection

variable {onExpr} {strict : Prop} (hmeets : ∀ {e m}, L.Holds m →
  e.Housed L m.heap strict m.current → onExpr e m)
include hmeets

/-- By induction on the fuel: what housed machines meet may be demanded before every expression, and
machines stay housed. -/
theorem evaluate_and_execute_carry (fuel : Nat) :
    L.CarriesExprs strict (Run.evaluateOverseen (L.oversight onExpr alarm objection) fuel)
        (Run.evaluateOverseen (L.oversight (fun _ _ ↦ True) alarm objection) fuel) ∧
      L.CarriesStmts (Run.executeOverseen (L.oversight onExpr alarm objection) fuel)
        (Run.executeOverseen (L.oversight (fun _ _ ↦ True) alarm objection) fuel) := by
  induction fuel with
  | zero =>
    constructor
    · intro e m hm _
      exact .throw hm _
    · intro s m hm _
      exact .throw hm _
  | succ fuel ih =>
    obtain ⟨hevaluate, hexecute⟩ := ih
    constructor
    · intro e m hm he
      rw [Run.evaluateOverseen, Run.evaluateOverseen]
      refine .bind (.ensure hm (iff_of_true (hmeets hm he) trivial) alarm) fun _ m' _ heq ↦ ?_
      rw [heq.1]
      exact .evaluateWith hevaluate hexecute hm he
    · intro s m hm hs
      rw [Run.executeOverseen, Run.executeOverseen]
      refine .bind (.ensure hm Iff.rfl objection) fun _ m' _ hpassed ↦ ?_
      obtain ⟨rfl, hregisters⟩ := hpassed
      refine .executeWith hevaluate hexecute fuel hm hs ?_
      rintro name e methods own c rfl ⟨m₁, fs, m₂, hok, hrest⟩
      -- What the check has found out is about the interpreter without checks.
      have hplain := Run.evaluate_of_demanding hok
      exact hregisters own c (Run.Prepares.declares ⟨m₁, fs, m₂, hplain, hrest⟩)

theorem program_carries (fuel : Nat) {statements : List Stmt} {m : Machine} (hm : L.Holds m)
    (hstatements : Stmt.HousedAll L m.heap m.current statements) :
    L.Carries (Run.programOverseen (L.oversight onExpr alarm objection) fuel statements)
      (Run.programOverseen (L.oversight (fun _ _ ↦ True) alarm objection) fuel statements) m
      fun _ _ ↦ True := by
  induction statements generalizing m with
  | nil => exact .of_hostOnly hm .flush (.any _)
  | cons s rest ih =>
    obtain ⟨hs, hrest⟩ := hstatements.cons
    have hexecute := (L.evaluate_and_execute_carry alarm objection hmeets fuel).2 s m hm hs
    refine .bind hexecute fun _ m' hleads _ ↦ ih (hm.follow hleads) ?_
    rw [hleads.current]
    exact hrest.mono hleads.keeps

end Runs

end Ledger

end Lox
