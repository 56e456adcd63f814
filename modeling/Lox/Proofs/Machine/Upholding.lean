import Lox.Proofs.Machine.Conduct

/-!
# Interpreters uphold their conduct

The two interpreters of a lawful conduct do the same, and the first one keeps the discipline and
halts only as it may.  This is proved once, by induction on the fuel
(`evaluate_and_execute_upheld`), for whatever discipline, checks and halts are lawful.
-/

namespace Lox.Conduct

variable {C : Conduct} {m : Machine}

namespace Upholds

section Steps

variable (L : C.Lawful) {evaluate evaluate' : Expr → Run Value} {execute execute' : Stmt → Run Flow}
include L

theorem sequence (hexecute : C.UpholdsStmts execute execute') {ss : List Stmt}
    (hss : Stmt.ObeysAll C.rules ss) {m : Machine} (hm : C.Inside m) :
    C.Upholds (Run.sequence execute ss) (Run.sequence execute' ss) m fun flow m' ↦
      C.AdmitsFlow m'.heap flow := by
  induction ss generalizing m with
  | nil => exact pure L hm.toSane nofun
  | cons s rest ih =>
    rw [Stmt.ObeysAll] at hss
    refine bind L (hexecute s m hss.1 hm) fun flow m' hleads hflow ↦ ?_
    have hm' := hm.follow L hleads
    cases flow with
    | normal => exact ih hss.2 hm'
    | «return» value => exact pure L hm'.toSane hflow
    | «break» => exact pure L hm'.toSane hflow
    | «continue» => exact pure L hm'.toSane hflow

theorem valuesOf (hevaluate : C.UpholdsExprs evaluate evaluate') {es : List Expr}
    (hes : ∀ e ∈ es, C.expression e) {m : Machine} (hm : C.Stands m) :
    C.Upholds (Run.valuesOf evaluate es) (Run.valuesOf evaluate' es) m fun vs m' ↦
      ∀ v ∈ vs, C.Admits m'.heap v := by
  induction es generalizing m with
  | nil => exact pure L hm.toSane fun v hv ↦ absurd hv List.not_mem_nil
  | cons e rest ih =>
    obtain ⟨he, hrest⟩ := List.forall_mem_cons.1 hes
    refine bind L (hevaluate e m he hm) fun v m' hleads hv ↦ ?_
    have hm' := hm.follow L hleads
    refine bind L (ih hrest hm') fun vs m'' hleads' hvs ↦ ?_
    have hv' := hv.mono L.toLawful hleads'.advances.step
    exact pure L (hm'.follow L hleads').toSane (List.forall_mem_cons.2 ⟨hv', hvs⟩)

theorem valueOrNil (hevaluate : C.UpholdsExprs evaluate evaluate') {o : Option Expr}
    (ho : ∀ e, o = some e → C.expression e) (hm : C.Stands m) :
    C.Upholds (Run.valueOrNil evaluate o) (Run.valueOrNil evaluate' o) m fun v m' ↦
      C.Admits m'.heap v := by
  cases o with
  | none => exact pure L hm.toSane trivial
  | some e => exact hevaluate e m (ho e rfl) hm

theorem loop {condition condition' : Run Value} {body body' : Run Flow}
    (hcondition : ∀ m, C.Inside m → C.Upholds condition condition' m fun v m' ↦ C.Admits m'.heap v)
    (hbody : ∀ m, C.Inside m → C.Upholds body body' m fun flow m' ↦ C.AdmitsFlow m'.heap flow)
    (rounds : Nat) {m : Machine} (hm : C.Inside m) :
    C.Upholds (Run.loop condition body rounds) (Run.loop condition' body' rounds) m fun flow m' ↦
      C.AdmitsFlow m'.heap flow := by
  induction rounds generalizing m with
  | zero => exact throw L hm.toSane L.halts_exhausted
  | succ rounds ih =>
    refine bind L (hcondition m hm) fun v m' hleads _ ↦ ?_
    have hm' := hm.follow L hleads
    apply ite
    · intro _
      refine bind L (hbody m' hm') fun flow m'' hleads' hflow ↦ ?_
      have hm'' := hm'.follow L hleads'
      cases flow with
      | normal => exact ih hm''
      | «return» value => exact pure L hm''.toSane hflow
      | «break» => exact pure L hm''.toSane nofun
      | «continue» => exact ih hm''
    · intro _
      exact pure L hm'.toSane nofun

/-- The statements of a block are executed in a scope of their own. -/
theorem block (hexecute : C.UpholdsStmts execute execute') {body : List Stmt}
    (hbody : Stmt.ObeysAll C.rules body) (hm : C.Stands m) :
    C.Upholds (Run.block execute body) (Run.block execute' body) m fun flow m' ↦
      C.AdmitsFlow m'.heap flow := by
  refine get (bind L (openScope L hm.toSane hm.site fun name value hvalue ↦ ?_)
    fun scope m' hleads hscope ↦ inScope (sequence L hexecute hbody ?_))
  · cases hvalue
  · exact (hm.toSane.follow hleads).enter hscope.1

theorem callFunction (hexecute : C.UpholdsStmts execute execute') (hm : C.Sane m) {f : Function}
    (hf : C.AdmitsFunction m.heap f) {arguments : List Value}
    (harguments : ∀ v ∈ arguments, C.Admits m.heap v) :
    C.Upholds (Run.callFunction execute f arguments) (Run.callFunction execute' f arguments) m
      fun v m' ↦ C.Admits m'.heap v := by
  obtain ⟨hparams, hbody⟩ := Stmt.obeysRoutine_iff.1 hf.obeys
  refine bind L (openScope L hm (L.site_of_function hf.function) fun name value hvalue ↦ ?_)
    fun scope m' hleads hscope ↦ ?_
  · obtain ⟨hname, hmem⟩ := Bindings.mem_of_get?_zip hvalue
    obtain ⟨param, hparam, rfl⟩ := List.mem_map.1 hname
    exact ⟨L.binding_of_name (hparams param hparam) value, harguments value hmem⟩
  · have hm' := hm.follow hleads
    refine bind L (inScope (Q := fun flow m'' ↦ C.AdmitsFlow m''.heap flow)
      (sequence L hexecute hbody (hm'.enter hscope.1))) fun flow m'' hleads' hflow ↦ ?_
    have hm'' := hm'.follow hleads'
    have hfunction := L.function_mono (L.step_trans hleads.advances.step hleads'.advances.step)
      hf.function
    apply ite
    · intro hinitializer
      exact valueIn L hm'' _ fun hmissing ↦
        L.halts_initializer _ hm''.kept hfunction hinitializer hmissing
    · intro _
      cases flow with
      | «return» value => exact pure L hm'' (hflow value rfl)
      | _ => exact pure L hm'' trivial

theorem construct (hexecute : C.UpholdsStmts execute execute') (hm : C.Sane m) {c : Class}
    (hc : C.AdmitsClass m.heap c) {arguments : List Value}
    (harguments : ∀ v ∈ arguments, C.Admits m.heap v) :
    C.Upholds (Run.construct execute c arguments) (Run.construct execute' c arguments) m
      fun v m' ↦ C.Admits m'.heap v := by
  refine bind L (onHeap (Q := fun i m' ↦ C.AdmitsInstance m'.heap i)
    (hm.kept.instantiate L.toLawful c) ?_) fun i m₁ hleads₁ hi ↦ ?_
  · obtain ⟨-, hstep, hinst⟩ := L.instantiate c hm.kept.shape
    exact ⟨hinst, hc.mono L.toLawful hstep⟩
  · have hm₁ := hm.follow hleads₁
    cases hinit : c.findMethod? Class.initializerName with
    | none => exact pure L hm₁ hi
    | some init =>
      have hmethod := (hc.findMethod? hinit).mono L.toLawful hleads₁.advances.step
      refine bind L (bindMethod L hm₁ hmethod hi) fun f m₂ hleads₂ hf ↦ ?_
      have hm₂ := hm₁.follow hleads₂
      have hvs : ∀ v ∈ arguments, C.Admits m₂.heap v := fun v hv ↦ (harguments v hv).mono
        L.toLawful (L.step_trans hleads₁.advances.step hleads₂.advances.step)
      refine bind L (callFunction L hexecute hm₂ hf.1 hvs) fun _ m₃ hleads₃ _ ↦ ?_
      exact pure L (hm₂.follow hleads₃) (hi.mono L.toLawful
        (L.step_trans hleads₂.advances.step hleads₃.advances.step))

theorem call (hexecute : C.UpholdsStmts execute execute') (hm : C.Sane m) {callee : Callee}
    (hcallee : C.AdmitsCallee m.heap callee) (line : Nat) {arguments : List Value}
    (harguments : ∀ v ∈ arguments, C.Admits m.heap v) :
    C.Upholds (Run.call execute callee line arguments) (Run.call execute' callee line arguments) m
      fun v m' ↦ C.Admits m'.heap v := by
  cases callee with
  | builtin b => exact callBuiltin L hm b line arguments
  | function f => exact callFunction L hexecute hm hcallee harguments
  | cls c => exact construct L hexecute hm hcallee harguments

theorem methodsOf {closure : ScopeRef} {methods : List (Routine Stmt)}
    (hmethods : Stmt.ObeysMethods C.rules methods) {m : Machine} (hm : C.Sane m)
    (hclosure : C.inside m.heap closure) :
    C.Upholds (Run.methodsOf closure methods) (Run.methodsOf closure methods) m fun fs m' ↦
      ∀ p ∈ fs, C.AdmitsMethod m'.heap p.1 p.2 := by
  induction methods generalizing m with
  | nil => exact pure L hm fun p hp ↦ absurd hp List.not_mem_nil
  | cons method rest ih =>
    rw [Stmt.ObeysMethods] at hmethods
    refine bind L (newFunction L hm method closure _) fun f m' hleads hf ↦ ?_
    obtain ⟨hroutine, hplace, hinitializer, -⟩ := hf
    have hm' := hm.follow hleads
    have hclosure' := L.inside_mono hleads.advances.step hclosure
    have hmethod : C.AdmitsMethod m'.heap method.name.lexeme f := by
      constructor
      · rw [hroutine]
        exact hmethods.1
      · refine L.method_of_inside ?_ hinitializer
        rw [hplace]
        exact hclosure'
    refine bind L (ih hmethods.2 hm' hclosure') fun fs m'' hleads' hfs ↦ ?_
    exact pure L (hm'.follow hleads') (List.forall_mem_cons.2
      ⟨hmethod.mono L.toLawful hleads'.advances.step, hfs⟩)

theorem finishClass {name : Token} {make : Layer → Class} {methods : List (String × Function)}
    (hname : C.rules.name name.lexeme) (hm : C.Sane m)
    (hmake : ∀ own : Layer, own.methods = .ofList methods → C.AdmitsClass m.heap (make own)) :
    C.Upholds (Run.finishClass name make methods) (Run.finishClass name make methods) m
      fun _ _ ↦ True := by
  refine bind L (onHeap (Q := fun _ _ ↦ True) (hm.kept.freshIdentity L.toLawful) trivial)
    fun identity m' hleads _ ↦ get ?_
  have hc := hmake ⟨identity, name.lexeme, .ofList methods⟩ rfl
  exact assignIn L (hm.follow hleads) _ hname (hc.mono L.toLawful hleads.advances.step)

theorem declareClass (hevaluate : C.UpholdsExprs evaluate evaluate') {name : Token}
    {superclass : Option Expr} {methods : List (Routine Stmt)} (hm : C.Inside m)
    (hobeys : (Stmt.classDecl name superclass methods).Obeys C.rules)
    (hsuperclass : ∀ line e v m', superclass = some e →
      evaluate' e { m with heap := m.heap.define m.current name.lexeme .nil } = .ok v m' →
      (∀ c, v ≠ .cls c) → C.halts (.fault line .superclassNotClass)) :
    C.Upholds (Run.declareClass evaluate name superclass methods)
      (Run.declareClass evaluate' name superclass methods) m fun _ _ ↦ True := by
  rw [Stmt.Obeys] at hobeys
  obtain ⟨hname, hrule, hmethods⟩ := hobeys
  have hdefine : C.Upholds (Run.define name.lexeme .nil) (Run.define name.lexeme .nil) m
      fun _ m' ↦ m' = { m with heap := m.heap.define m.current name.lexeme .nil } :=
    modifyHeap (hm.kept.define L.toLawful (.inl hm.inside) hname trivial) rfl
  have hlayer : ∀ {fs : List (String × Function)} {h : Heap} {own : Layer},
      (∀ p ∈ fs, C.AdmitsMethod h p.1 p.2) → own.methods = .ofList fs →
        ∀ name f, own.methods.get? name = some f → C.AdmitsMethod h name f := by
    intro fs h own hfs hown name f hf
    rw [hown] at hf
    exact hfs _ (Bindings.mem_of_get?_ofList hf)
  refine bind L hdefine fun _ m₁ hleads₁ hm₁ ↦ ?_
  have hinside₁ := hm.follow L hleads₁
  cases superclass with
  | none =>
    refine get (bind L (methodsOf L hmethods hinside₁.toSane hinside₁.inside)
      fun fs m₂ hleads₂ hfs ↦ ?_)
    refine finishClass L hname (hinside₁.toSane.follow hleads₂) fun own hown layer hmem ↦ ?_
    cases List.mem_singleton.1 hmem
    exact hlayer hfs hown
  | some e =>
    refine bind_of_ok L (hevaluate e m₁ (L.governs.of_superclass (hrule e rfl))
      (hinside₁.stands L)) fun v m₂ hok hleads₂ hv ↦ ?_
    have hinside₂ := hinside₁.follow L hleads₂
    split
    · rename_i c
      have hc : C.AdmitsClass m₂.heap c := hv
      -- The methods close over a scope of their own, which holds nothing but `super`.
      refine get (bind L (openScope L hinside₂.toSane (hinside₂.stands L).site
        fun key value hvalue ↦ ?_) fun closure m₃ hleads₃ hclosure ↦ ?_)
      · obtain ⟨rfl, rfl⟩ := Bindings.eq_of_get?_single hvalue
        exact ⟨L.binding_super c, hc⟩
      · have hsane₃ := hinside₂.toSane.follow hleads₃
        rw [Run.inScope_methodsOf]
        refine bind L (methodsOf L hmethods hsane₃ hclosure.1) fun fs m₄ hleads₄ hfs ↦ ?_
        refine finishClass L hname (hsane₃.follow hleads₄) fun own hown layer hmem ↦ ?_
        rcases List.mem_cons.1 hmem with rfl | hmem
        · exact hlayer hfs hown
        · exact hc.mono L.toLawful (L.step_trans hleads₃.advances.step hleads₄.advances.step)
            layer hmem
    · rename_i hnot
      rw [hm₁] at hok
      exact fault L hinside₂.toSane (hsuperclass _ e v m₂ rfl hok hnot)

theorem ofExcept (hm : C.Sane m) {line : Nat} {result : Except RuntimeFault Value}
    (hok : ∀ v, result = .ok v → v.IsData)
    (herror : ∀ cause, result = .error cause → C.halts (.fault line cause)) :
    C.Upholds (Run.ofExcept line result) (Run.ofExcept line result) m fun v m' ↦
      C.Admits m'.heap v := by
  cases result with
  | ok v => exact pure L hm (Discipline.admits_of_isData (hok v rfl))
  | error cause => exact fault L hm (herror cause rfl)

theorem evaluateWith (hevaluate : C.UpholdsExprs evaluate evaluate')
    (hexecute : C.UpholdsStmts execute execute') {e : Expr} (he : C.expression e) (hm : C.Stands m)
    (hpasses : C.passes e m) :
    C.Upholds (Run.evaluateWith evaluate execute e) (Run.evaluateWith evaluate' execute' e) m
      fun v m' ↦ C.Admits m'.heap v := by
  have hchild : ∀ inner ∈ e.children, C.expression inner := fun _ ↦ L.governs.of_child he
  cases e with
  | literal value =>
    exact pure L hm.toSane (Discipline.admits_of_isData (Value.isData_ofLiteral value))
  | grouping inner => exact hevaluate inner m (hchild inner List.mem_cons_self) hm
  | unary op operand =>
    have hoperand := hchild operand List.mem_cons_self
    refine bind L (hevaluate operand m hoperand hm) fun v m' hleads _ ↦ ?_
    exact ofExcept L (hm.follow L hleads).toSane (fun _ ↦ Value.isData_of_unary)
      fun _ ↦ L.halts_unary op.line he
  | binary op left right =>
    obtain ⟨hleft, hright⟩ := List.forall_mem_cons.1 hchild
    refine bind L (hevaluate left m hleft hm) fun a m' hleads _ ↦ ?_
    have hm' := hm.follow L hleads
    refine bind L (hevaluate right m' (hright right List.mem_cons_self) hm')
      fun b m'' hleads' _ ↦ ?_
    exact ofExcept L (hm'.follow L hleads').toSane (fun _ ↦ Value.isData_of_binary)
      fun _ ↦ L.halts_binary op.line he
  | logical op left right =>
    obtain ⟨hleft, hright⟩ := List.forall_mem_cons.1 hchild
    refine bind L (hevaluate left m hleft hm) fun a m' hleads ha ↦ ?_
    have hm' := hm.follow L hleads
    apply ite
    · intro _
      exact pure L hm'.toSane ha
    · intro _
      exact hevaluate right m' (hright right List.mem_cons_self) hm'
  | var id name =>
    exact lookUp L hm.toSane id fun _ ↦ L.halts_name _ (L.governs.name_of_var he)
  | assign id name value =>
    refine bind L (hevaluate value m (hchild value List.mem_cons_self) hm)
      fun v m' hleads hv ↦ ?_
    have hm' := hm.follow L hleads
    have hname := L.governs.name_of_assign he
    refine bind L (assign L hm'.toSane id hname hv) fun _ m'' hleads' _ ↦ ?_
    exact pure L (hm'.follow L hleads').toSane (hv.mono L.toLawful hleads'.advances.step)
  | call callee paren arguments =>
    obtain ⟨hcallee, harguments⟩ := List.forall_mem_cons.1 hchild
    refine bind L (hevaluate callee m hcallee hm) fun v m' hleads hv ↦ ?_
    have hm' := hm.follow L hleads
    cases htarget : v.callee? with
    | none => exact fault L hm'.toSane (L.halts_ordinary _ trivial)
    | some target =>
      refine bind L (valuesOf L hevaluate harguments hm') fun vs m'' hleads' hvs ↦ ?_
      have hm'' := (hm'.follow L hleads').toSane
      apply ite
      · intro _
        exact bind L (Q := fun _ _ ↦ False) (fault L hm'' (L.halts_ordinary _ trivial))
          fun _ _ _ hfalse ↦ hfalse.elim
      · intro _
        -- The arguments may have changed the heap since the callee was found.
        have hcallee' := admitsCallee_of_callee? (hv.mono L.toLawful hleads'.advances.step) htarget
        exact call L hexecute hm'' hcallee' paren.line hvs
  | get object name =>
    refine bind L (hevaluate object m (hchild object List.mem_cons_self) hm)
      fun v m' hleads hv ↦ ?_
    have hm' := (hm.follow L hleads).toSane
    split
    · exact property L hm' hv name
    · exact fault L hm' (L.halts_ordinary _ trivial)
  | set object name value =>
    obtain ⟨hobject, hvalue⟩ := List.forall_mem_cons.1 hchild
    refine bind L (hevaluate object m hobject hm) fun v m₁ hleads₁ _ ↦ ?_
    have hm₁ := hm.follow L hleads₁
    split
    · rename_i i _
      refine bind L (hevaluate value m₁ (hvalue value List.mem_cons_self) hm₁)
        fun w m₂ hleads₂ hw ↦ ?_
      have hm₂ := hm₁.follow L hleads₂
      have hset := hm₂.kept.setField L.toLawful hw i name.lexeme
      refine bind L (modifyHeap (Q := fun _ _ ↦ True) hset trivial) fun _ m₃ hleads₃ _ ↦ ?_
      exact pure L (hm₂.follow L hleads₃).toSane (hw.mono L.toLawful hleads₃.advances.step)
    · exact fault L hm₁.toSane (L.halts_ordinary _ trivial)
  | this id keyword =>
    exact lookUp L hm.toSane id fun hmissing ↦ L.halts_this he hm.toSane hpasses hmissing
  | super id keyword method =>
    exact superMethod L hm.toSane fun _ _ ↦ L.halts_super he hm.toSane hpasses

theorem executeWith (hevaluate : C.UpholdsExprs evaluate evaluate')
    (hexecute : C.UpholdsStmts execute execute') (rounds : Nat) {s : Stmt} (hs : s.Obeys C.rules)
    (hm : C.Inside m)
    (hsuperclass : ∀ line name e methods v m', s = .classDecl name (some e) methods →
      evaluate' e { m with heap := m.heap.define m.current name.lexeme .nil } = .ok v m' →
      (∀ c, v ≠ .cls c) → C.halts (.fault line .superclassNotClass)) :
    C.Upholds (Run.executeWith evaluate execute rounds s)
      (Run.executeWith evaluate' execute' rounds s) m fun flow m' ↦ C.AdmitsFlow m'.heap flow := by
  have hrule : ∀ e m, C.rules.expression e → C.Inside m →
      C.Upholds (evaluate e) (evaluate' e) m fun v m' ↦ C.Admits m'.heap v :=
    fun e m he hm ↦ hevaluate e m (L.governs.of_rule he) (hm.stands L)
  cases s with
  | block body =>
    rw [Stmt.Obeys] at hs
    exact block L hexecute hs (hm.stands L)
  | classDecl name superclass methods =>
    refine bind L (declareClass L hevaluate hm hs fun line e v m' heq ↦ ?_) fun _ m' hleads _ ↦ ?_
    · subst heq
      exact hsuperclass line name e methods v m' rfl
    · exact pure L (hm.toSane.follow hleads) nofun
  | expression e =>
    rw [Stmt.Obeys] at hs
    exact bind L (hrule e m hs hm) fun _ m' hleads _ ↦ pure L (hm.toSane.follow hleads) nofun
  | function routine =>
    rw [Stmt.Obeys] at hs
    refine get (bind L (newFunction L hm.toSane routine m.current false) fun f m' hleads hf ↦ ?_)
    obtain ⟨hroutine, hclosure, hinitializer, -⟩ := hf
    have hm' := hm.follow L hleads
    -- A function that is declared is no initializer, so nothing is asked of `this`.
    have hadmits : C.AdmitsFunction m'.heap f := by
      constructor
      · rw [hroutine]
        exact hs.2
      · refine L.function_of_inside ?_ hinitializer
        rw [hclosure, ← hleads.current]
        exact hm'.inside
    have hdefine := hm'.kept.define L.toLawful (.inl hm'.inside) hs.1
      (show C.Admits m'.heap (.function f) from hadmits)
    refine bind L (modifyHeap (Q := fun _ _ ↦ True) hdefine trivial) fun _ m'' hleads' _ ↦ ?_
    exact pure L (hm'.toSane.follow hleads') nofun
  | ifElse condition thenBranch elseBranch =>
    rw [Stmt.Obeys] at hs
    obtain ⟨hcondition, hthen, helse⟩ := hs
    refine bind L (hrule condition m hcondition hm) fun v m' hleads _ ↦ ?_
    have hm' := hm.follow L hleads
    apply ite
    · intro _
      exact hexecute thenBranch m' hthen hm'
    · intro _
      cases elseBranch with
      | none => exact pure L hm'.toSane nofun
      | some other =>
        rw [Stmt.ObeysOption] at helse
        exact hexecute other m' helse hm'
  | print e =>
    rw [Stmt.Obeys] at hs
    refine bind L (hrule e m hs hm) fun v m' hleads _ ↦ ?_
    have hm' := hm.toSane.follow hleads
    exact bind L (printLine L hm' _) fun _ m'' hleads' _ ↦ pure L (hm'.follow hleads') nofun
  | «return» keyword value =>
    rw [Stmt.Obeys] at hs
    have hvalue := fun e he ↦ L.governs.of_rule (hs e he)
    refine bind L (valueOrNil L hevaluate hvalue (hm.stands L)) fun v m' hleads hv ↦ ?_
    refine pure L (hm.toSane.follow hleads) ?_
    rintro w ⟨⟩
    exact hv
  | var name initializer =>
    rw [Stmt.Obeys] at hs
    have hvalue := fun e he ↦ L.governs.of_rule (hs.2 e he)
    refine bind L (valueOrNil L hevaluate hvalue (hm.stands L)) fun v m' hleads hv ↦ ?_
    have hm' := hm.follow L hleads
    have hdefine := hm'.kept.define L.toLawful (.inl hm'.inside) hs.1 hv
    refine bind L (modifyHeap (Q := fun _ _ ↦ True) hdefine trivial) fun _ m'' hleads' _ ↦ ?_
    exact pure L (hm'.toSane.follow hleads') nofun
  | «while» condition body =>
    rw [Stmt.Obeys] at hs
    exact loop L (fun m ↦ hrule condition m hs.1) (fun m ↦ hexecute body m hs.2) rounds hm
  | «break» keyword => exact pure L hm.toSane nofun
  | «continue» keyword => exact pure L hm.toSane nofun

end Steps

end Upholds

/-- By induction on the fuel: both interpreters do the same, and the first one upholds the
conduct. -/
theorem evaluate_and_execute_upheld (L : C.Lawful) (fuel : Nat) :
    C.UpholdsExprs (Run.evaluateOverseen C.first fuel) (Run.evaluateOverseen C.second fuel) ∧
      C.UpholdsStmts (Run.executeOverseen C.first fuel) (Run.executeOverseen C.second fuel) := by
  induction fuel with
  | zero =>
    refine ⟨fun e m _ hm ↦ ?_, fun s m _ hm ↦ ?_⟩
    · rw [Run.evaluateOverseen, Run.evaluateOverseen]
      exact .throw L hm.toSane L.halts_exhausted
    · rw [Run.executeOverseen, Run.executeOverseen]
      exact .throw L hm.toSane L.halts_exhausted
  | succ fuel ih =>
    obtain ⟨hevaluate, hexecute⟩ := ih
    refine ⟨fun e m he hm ↦ ?_, fun s m hs hm ↦ ?_⟩
    · rw [Run.evaluateOverseen, Run.evaluateOverseen]
      refine .bind L (L.first_expression he hm) fun _ m' _ hchecked ↦ ?_
      obtain ⟨heq, hpasses⟩ := hchecked
      subst heq
      exact .evaluateWith L hevaluate hexecute he hm hpasses
    · rw [Run.executeOverseen, Run.executeOverseen]
      refine .bind L (L.first_statement hs hm) fun _ m' _ hchecked ↦ ?_
      obtain ⟨heq, hpasses⟩ := hchecked
      subst heq
      -- What the check has found out rules out a superclass that is no class.
      refine .executeWith L hevaluate hexecute fuel hs hm fun line name e methods v m'' heq ↦ ?_
      subst heq
      exact L.halts_superclass line hpasses

theorem program_upheld (L : C.Lawful) (fuel : Nat) {statements : List Stmt}
    (hstatements : Stmt.ObeysAll C.rules statements) {m : Machine} (hm : C.Inside m) :
    C.Upholds (Run.programOverseen C.first fuel statements)
      (Run.programOverseen C.second fuel statements) m fun _ _ ↦ True := by
  induction statements generalizing m with
  | nil => exact .flush L hm.toSane
  | cons s rest ih =>
    rw [Stmt.ObeysAll] at hstatements
    have hexecute := (evaluate_and_execute_upheld L fuel).2 s m hstatements.1 hm
    exact .bind L hexecute fun _ m' hleads _ ↦ ih hstatements.2 (hm.follow L hleads)

/-- Where nothing is asked of halts. -/
def tolerant (D : Discipline) (addresses : Std.TreeMap NodeId Nat) (expression : Expr → Prop)
    (first second : Oversight) (excused : Halt → Prop) : Conduct where
  toDiscipline := D
  addresses := addresses
  expression := expression
  first := first
  second := second
  passes _ _ := True
  passesStmt _ _ := True
  halts _ := True
  excused := excused

section Tolerant

variable {D : Discipline} {addresses : Std.TreeMap NodeId Nat} {expression : Expr → Prop}
  {first second : Oversight} {excused : Halt → Prop}

theorem tolerant_lawful (L : D.Lawful) (hgoverns : D.rules.Governs expression)
    (hexpression : ∀ e m, expression e →
      (tolerant D addresses expression first second excused).Stands m →
      ChecksAlike excused (first.expression e) (second.expression e) m)
    (hstatement : ∀ s m, s.Obeys D.rules →
      (tolerant D addresses expression first second excused).Inside m →
      ChecksAlike excused (first.statement s) (second.statement s) m) :
    (tolerant D addresses expression first second excused).Lawful where
  toLawful := L
  governs := hgoverns
  first_expression {e m} he hm :=
    .check L hm.toSane (hexpression e m he hm) (fun _ ↦ trivial) fun _ _ ↦ trivial
  first_statement {s m} hs hm :=
    .check L hm.toSane (hstatement s m hs hm) (fun _ ↦ trivial) fun _ _ ↦ trivial
  halts_output _ := trivial
  halts_exhausted := trivial
  halts_ordinary _ _ _ := trivial
  halts_name _ _ _ := trivial
  halts_unary _ _ _ _ _ _ _ := trivial
  halts_binary _ _ _ _ _ _ _ _ _ := trivial
  halts_this _ _ _ _ := trivial
  halts_super _ _ _ _ := trivial
  halts_initializer _ _ _ _ _ _ _ := trivial
  halts_superclass _ _ _ _ _ _ _ _ _ _ _ := trivial

end Tolerant

end Lox.Conduct
