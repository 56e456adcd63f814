import Lox.Proofs.Machine.Demands
import Lox.Proofs.Machine.Housing
import Lox.Proofs.Machine.Steady

/-!
# Global variables that nothing assigns

Inside a block or a call everything is declared in a scope of its own.  So only a statement at the
top of a program declares a global variable, and inside of it only an assignment changes one.  As
long as none is evaluated that does, the variable is what it was (`Run.unassigned_keeps`).
-/

namespace Lox

open Lox.Computation (Moves EndsIn)

/-- An expression gives a global variable a value: it assigns to that name, its right side has a
value, and the variable of its node is the global one. -/
def Machine.Reassigns (m : Machine) (name : String) (e : Expr) : Prop :=
  ∃ id target value, e = .assign id target value ∧ target.lexeme = name ∧ ∃ fuel v m',
    Run.evaluate fuel value m = .ok v m' ∧ m'.scopeOf? id = some globals

/-- Halt with an alarm where a global variable is about to be assigned. -/
noncomputable def Run.demandUnassigned (name : String) (alarm : Halt) : Oversight :=
  .demanding (fun e m ↦ ¬m.Reassigns name e) (fun _ _ ↦ True) alarm alarm

/-- A machine stands where it stood, and a global variable is what it was. -/
def Machine.KeepsGlobal (name : String) (m m' : Machine) : Prop :=
  0 < m.heap.scopes.size → m'.current = m.current ∧ 0 < m'.heap.scopes.size ∧
    m'.heap.get? globals name = m.heap.get? globals name

/-- So it is if the machine does not stand in the global scope. -/
def Machine.KeepsInside (name : String) (m m' : Machine) : Prop :=
  m.current ≠ globals → m.KeepsGlobal name m'

namespace Machine

variable {name : String} {m m' m'' : Machine}

theorem KeepsGlobal.trans (first : m.KeepsGlobal name m') (second : m'.KeepsGlobal name m'') :
    m.KeepsGlobal name m'' := by
  intro hsize
  obtain ⟨hcurrent, hsize', hvalue⟩ := first hsize
  obtain ⟨hcurrent', hsize'', hvalue'⟩ := second hsize'
  exact ⟨hcurrent'.trans hcurrent, hsize'', hvalue'.trans hvalue⟩

theorem KeepsInside.trans (first : m.KeepsInside name m') (second : m'.KeepsInside name m'') :
    m.KeepsInside name m'' := by
  intro hinside hsize
  obtain ⟨hcurrent, -, -⟩ := first hinside hsize
  exact (first hinside).trans (second (hcurrent ▸ hinside)) hsize

theorem keepsGlobal_steady (name : String) : Steady (KeepsGlobal name) where
  refl _ hsize := ⟨rfl, hsize, rfl⟩
  trans := KeepsGlobal.trans
  heap := by
    intro m heap hprefix hsize
    have hlength := hprefix.length_le
    rw [Array.length_toList, Array.length_toList] at hlength
    have hglobals : heap.scopes[globals]? = m.heap.scopes[globals]? := by
      obtain ⟨added, hadded⟩ := hprefix
      rw [← Array.getElem?_toList, ← Array.getElem?_toList, ← hadded]
      exact List.getElem?_append_left (Array.length_toList.symm ▸ hsize)
    refine ⟨rfl, Nat.lt_of_lt_of_le hsize hlength, ?_⟩
    rw [Heap.get?, Heap.get?, hglobals]
  host _ hsize := ⟨rfl, hsize, rfl⟩

/-- To bind another name, or a name in another scope. -/
theorem keepsGlobal_define {scope : ScopeRef} {key : String} (h : scope ≠ globals ∨ key ≠ name)
    (value : Value) : m.KeepsGlobal name { m with heap := m.heap.define scope key value } := by
  intro hsize
  refine ⟨rfl, ?_, ?_⟩
  · rw [Heap.define, Array.size_modify]
    exact hsize
  · by_cases hscope : scope = globals
    · subst hscope
      have hkey := h.resolve_left (not_not.2 rfl)
      calc (m.heap.define globals key value).get? globals name
        _ = if name = key then some value else m.heap.get? globals name :=
          m.heap.get?_define hsize key value name
        _ = m.heap.get? globals name := if_neg (Ne.symm hkey)
    · exact m.heap.get?_define_of_ne (Ne.symm hscope) key value name

end Machine

namespace Run

variable {α β : Type} {name : String}

/-- However a computation ends, a global variable is what it was. -/
abbrev KeepsGlobal (name : String) (x : Run α) : Prop :=
  Moves (Machine.KeepsGlobal name) x

/-- So it is if the computation starts outside the global scope. -/
abbrev KeepsInside (name : String) (x : Run α) : Prop :=
  Moves (Machine.KeepsInside name) x

theorem KeepsGlobal.inside {x : Run α} (h : KeepsGlobal name x) : KeepsInside name x :=
  fun m ↦ (EndsIn.of_moves h m).mono fun _ ht _ ↦ ht

theorem KeepsGlobal.bind {x : Run α} {f : α → Run β} (hx : KeepsGlobal name x)
    (hf : ∀ a, KeepsGlobal name (f a)) : KeepsGlobal name (x >>= f) :=
  (Machine.keepsGlobal_steady name).bind hx hf

theorem KeepsInside.bind {x : Run α} {f : α → Run β} (hx : KeepsInside name x)
    (hf : ∀ a, KeepsInside name (f a)) : KeepsInside name (x >>= f) :=
  Moves.bind Machine.KeepsInside.trans hx hf

theorem KeepsInside.pure (a : α) : KeepsInside name (Pure.pure a : Run α) :=
  KeepsGlobal.inside ((Machine.keepsGlobal_steady name).pure a)

/-- The scope that a computation starts in is left again. -/
theorem endsIn_inScope {P Q : Machine → Prop} {scope : ScopeRef} {x : Run α} {m : Machine}
    (h : EndsIn P x { m with current := scope })
    (hleave : ∀ m', P m' → Q { m' with current := m.current }) : EndsIn Q (inScope scope x) m := by
  unfold EndsIn inScope at *
  dsimp only
  generalize x { m with current := scope } = r at h ⊢
  cases r with
  | ok a m' => exact hleave m' h
  | error halt m' => exact hleave m' h

/-- What starts in another scope than the global one comes back from there. -/
theorem keepsGlobal_inScope {scope : ScopeRef} (hscope : scope ≠ Machine.globals) {x : Run α}
    (hx : KeepsInside name x) : KeepsGlobal name (inScope scope x) := by
  intro m
  have hinside : EndsIn (Machine.KeepsInside name { m with current := scope }) x _ := .of_moves hx _
  apply endsIn_inScope hinside
  intro m' hkept hsize
  obtain ⟨-, hkept⟩ := hkept hscope hsize
  exact ⟨rfl, hkept⟩

theorem keepsGlobal_newScope (parent : ScopeRef) (bindings : Bindings Value) {x : Run α}
    (hx : KeepsInside name x) :
    KeepsGlobal name (openScope parent bindings >>= fun scope ↦ inScope scope x) := by
  intro m
  let opened : Machine := { m with heap := (m.heap.openScope (some parent) bindings).2 }
  have hopen : openScope parent bindings m = .ok m.heap.scopes.size opened := rfl
  have hopened : m.KeepsGlobal name opened :=
    ((Machine.keepsGlobal_steady name).openScope parent bindings).of_ok hopen
  apply EndsIn.bind_of_ok hopen
  by_cases hsize : 0 < m.heap.scopes.size
  · have hinside : EndsIn (opened.KeepsGlobal name) (inScope m.heap.scopes.size x) opened :=
      .of_moves (keepsGlobal_inScope (Nat.ne_of_gt hsize) hx) opened
    exact hinside.mono fun _ ht ↦ hopened.trans ht
  · exact .any fun _ hsome ↦ absurd hsome hsize

/-! ### Steps -/

section Steps

variable {evaluate : Expr → Run Value} {execute : Stmt → Run Flow}

theorem keepsInside_sequence (hexecute : ∀ s, KeepsInside name (execute s)) (ss : List Stmt) :
    KeepsInside name (sequence execute ss) := by
  induction ss with
  | nil => exact .pure _
  | cons s rest ih =>
    refine KeepsInside.bind (hexecute s) fun flow ↦ ?_
    cases flow with
    | normal => exact ih
    | _ => exact .pure _

theorem keepsGlobal_valuesOf (hevaluate : ∀ e, KeepsGlobal name (evaluate e)) (es : List Expr) :
    KeepsGlobal name (valuesOf evaluate es) := by
  induction es with
  | nil => exact (Machine.keepsGlobal_steady name).pure _
  | cons e rest ih =>
    exact KeepsGlobal.bind (hevaluate e) fun v ↦ KeepsGlobal.bind ih fun vs ↦
      (Machine.keepsGlobal_steady name).pure _

theorem keepsGlobal_valueOrNil (hevaluate : ∀ e, KeepsGlobal name (evaluate e))
    (o : Option Expr) : KeepsGlobal name (valueOrNil evaluate o) := by
  cases o with
  | none => exact (Machine.keepsGlobal_steady name).pure _
  | some e => exact hevaluate e

theorem keepsInside_loop {condition : Run Value} {body : Run Flow}
    (hcondition : KeepsGlobal name condition) (hbody : KeepsInside name body) (rounds : Nat) :
    KeepsInside name (loop condition body rounds) := by
  induction rounds with
  | zero => exact KeepsGlobal.inside (Moves.throw (Machine.keepsGlobal_steady name).refl _)
  | succ rounds ih =>
    refine KeepsInside.bind (KeepsGlobal.inside hcondition) fun v ↦ ?_
    split
    · refine KeepsInside.bind hbody fun flow ↦ ?_
      cases flow with
      | normal => exact ih
      | «return» value => exact .pure _
      | «break» => exact .pure _
      | «continue» => exact ih
    · exact .pure _

theorem keepsGlobal_block (hexecute : ∀ s, KeepsInside name (execute s)) (body : List Stmt) :
    KeepsGlobal name (block execute body) :=
  Moves.get fun m ↦ keepsGlobal_newScope m.current {} (keepsInside_sequence hexecute body)

theorem keepsGlobal_callFunction (hexecute : ∀ s, KeepsInside name (execute s)) (f : Function)
    (arguments : List Value) : KeepsGlobal name (callFunction execute f arguments) := by
  unfold callFunction
  dsimp only
  rw [← bind_assoc]
  refine KeepsGlobal.bind
    (keepsGlobal_newScope _ _ (keepsInside_sequence hexecute f.routine.body)) fun flow ↦ ?_
  split
  · exact (Machine.keepsGlobal_steady name).valueIn _ _ _
  · cases flow with
    | «return» value => exact (Machine.keepsGlobal_steady name).pure _
    | _ => exact (Machine.keepsGlobal_steady name).pure _

theorem keepsGlobal_callBuiltin (b : Builtin) (line : Nat) (arguments : List Value) :
    KeepsGlobal name (callBuiltin b line arguments) := by
  intro m
  apply (EndsIn.of_moves (HostOnly.callBuiltin b line arguments) m).mono
  rintro _ ⟨host, rfl⟩ hsize
  exact ⟨rfl, hsize, rfl⟩

theorem keepsGlobal_call (hexecute : ∀ s, KeepsInside name (execute s)) (callee : Callee)
    (line : Nat) (arguments : List Value) :
    KeepsGlobal name (call execute callee line arguments) := by
  have hK := Machine.keepsGlobal_steady name
  cases callee with
  | builtin b => exact keepsGlobal_callBuiltin b line arguments
  | function f => exact keepsGlobal_callFunction hexecute f arguments
  | cls c =>
    refine KeepsGlobal.bind (hK.instantiate c) fun i ↦ ?_
    cases c.findMethod? Class.initializerName with
    | none => exact hK.pure _
    | some init =>
      exact KeepsGlobal.bind (hK.bindMethod init i) fun f ↦
        KeepsGlobal.bind (keepsGlobal_callFunction hexecute f arguments) fun _ ↦ hK.pure _

/-- An assignment keeps the variable unless it finds it. -/
theorem endsIn_assignIn {m : Machine} {scope : Option ScopeRef} {key : Token}
    (h : scope ≠ some Machine.globals ∨ key.lexeme ≠ name) (value : Value) :
    EndsIn (m.KeepsGlobal name) (assignIn scope key value) m := by
  rw [assignIn_eq]
  refine EndsIn.get ?_
  split
  · rename_i target htarget
    obtain ⟨hscope, -⟩ := Option.filter_eq_some_iff.1 htarget
    refine Machine.keepsGlobal_define (h.imp_left fun hne heq ↦ hne ?_) value
    rw [hscope, heq]
  · exact (Machine.keepsGlobal_steady name).refl m

theorem keepsInside_define (key : String) (value : Value) : KeepsInside name (define key value) :=
  fun _ hinside ↦ Machine.keepsGlobal_define (.inl hinside) value

theorem keepsInside_finishClass (key : Token) (make : Layer → Class)
    (methods : List (String × Function)) : KeepsInside name (finishClass key make methods) := by
  have hfresh : KeepsGlobal name (onHeap (·.freshIdentity)) :=
    (Machine.keepsGlobal_steady name).onHeap fun _ ↦ List.prefix_rfl
  refine KeepsInside.bind (KeepsGlobal.inside hfresh) fun identity m ↦ ?_
  let c := make ⟨identity, key.lexeme, .ofList methods⟩
  have hassign : EndsIn (m.KeepsInside name) (assignIn (some m.current) key (.cls c)) m := by
    by_cases hinside : m.current = Machine.globals
    · exact .any fun _ hne ↦ absurd hinside hne
    · have helsewhere : some m.current ≠ some Machine.globals := hinside ∘ Option.some_inj.1
      have hkept : EndsIn (m.KeepsGlobal name) (assignIn (some m.current) key (.cls c)) m :=
        endsIn_assignIn (.inl helsewhere) _
      exact hkept.mono fun _ ht _ ↦ ht
  exact hassign.get

theorem keepsInside_declareClass (hevaluate : ∀ e, KeepsGlobal name (evaluate e)) (key : Token)
    (superclass : Option Expr) (methods : List (Routine Stmt)) :
    KeepsInside name (declareClass evaluate key superclass methods) := by
  have hK := Machine.keepsGlobal_steady name
  refine KeepsInside.bind (keepsInside_define _ _) fun _ ↦ ?_
  cases superclass with
  | none =>
    exact Moves.get fun m ↦ KeepsInside.bind (KeepsGlobal.inside (hK.methodsOf m.current methods))
      fun fs ↦ keepsInside_finishClass key .root fs
  | some e =>
    refine KeepsInside.bind (KeepsGlobal.inside (hevaluate e)) fun v ↦ ?_
    cases v with
    | cls c =>
      refine Moves.get fun m ↦ KeepsInside.bind (KeepsGlobal.inside (hK.openScope m.current _))
        fun closure ↦ ?_
      rw [inScope_methodsOf]
      exact KeepsInside.bind (KeepsGlobal.inside (hK.methodsOf closure methods)) fun fs ↦
        keepsInside_finishClass key (.derived · c) fs
    | _ => exact KeepsGlobal.inside (hK.fault _ _)

/-- An expression that does not assign to the variable keeps it if those inside it do. -/
theorem endsIn_evaluateWith (hevaluate : ∀ e, KeepsGlobal name (evaluate e))
    (hexecute : ∀ s, KeepsInside name (execute s))
    (hplain : ∀ e m v m', evaluate e m = .ok v m' → ∃ fuel, Run.evaluate fuel e m = .ok v m')
    {m : Machine} {e : Expr} (hm : ¬m.Reassigns name e) :
    EndsIn (m.KeepsGlobal name) (evaluateWith evaluate execute e) m := by
  have hK := Machine.keepsGlobal_steady name
  cases e with
  | literal value => exact hK.pure (Value.ofLiteral value) m
  | grouping inner => exact hevaluate inner m
  | unary op operand =>
    exact KeepsGlobal.bind (hevaluate operand) (fun v ↦ hK.ofExcept _ _) m
  | binary op left right =>
    exact KeepsGlobal.bind (hevaluate left) (fun a ↦ KeepsGlobal.bind (hevaluate right) fun b ↦
      hK.ofExcept _ _) m
  | logical op left right =>
    refine KeepsGlobal.bind (hevaluate left) (fun a ↦ ?_) m
    split
    · exact hK.pure _
    · exact hevaluate right
  | var id name => exact hK.lookUp id name m
  | assign id target value =>
    cases hvalue : evaluate value m with
    | error halt m' => exact .bind_of_error hvalue ((hevaluate value).of_error hvalue)
    | ok v m' =>
      have hmisses : m'.scopeOf? id ≠ some Machine.globals ∨ target.lexeme ≠ name := by
        by_contra hboth
        rw [not_or, not_not, not_not] at hboth
        obtain ⟨fuel, hrun⟩ := hplain value m v m' hvalue
        exact hm ⟨id, target, value, rfl, hboth.2, fuel, v, m', hrun, hboth.1⟩
      have hassign : EndsIn (m'.KeepsGlobal name) (assign id target v) m' := by
        rw [assign_eq]
        exact .get (endsIn_assignIn hmisses v)
      have hassigned : EndsIn (m'.KeepsGlobal name) _ m' := hassign.bind fun _ t ht ↦
        (Computation.EndsIn.of_moves (hK.pure v) t).mono fun _ ht' ↦ ht.trans ht'
      exact .bind_of_ok hvalue (hassigned.mono fun _ ht ↦ ((hevaluate value).of_ok hvalue).trans ht)
  | call callee paren arguments =>
    refine KeepsGlobal.bind (hevaluate callee) (fun v ↦ ?_) m
    cases v.callee? with
    | none => exact hK.fault _ _
    | some target =>
      refine KeepsGlobal.bind (keepsGlobal_valuesOf hevaluate arguments) fun vs ↦ ?_
      dsimp only
      split
      · exact KeepsGlobal.bind (hK.fault _ _) fun _ ↦ keepsGlobal_call hexecute _ _ _
      · exact keepsGlobal_call hexecute _ _ _
  | get object name =>
    refine KeepsGlobal.bind (hevaluate object) (fun v ↦ ?_) m
    cases v with
    | «instance» i => exact hK.property i name
    | _ => exact hK.fault _ _
  | set object name value =>
    refine KeepsGlobal.bind (hevaluate object) (fun v ↦ ?_) m
    cases v with
    | «instance» i =>
      exact KeepsGlobal.bind (hevaluate value) fun w ↦
        KeepsGlobal.bind (hK.setField i name.lexeme w) fun _ ↦ hK.pure _
    | _ => exact hK.fault _ _
  | this id keyword => exact hK.lookUp id keyword m
  | super id keyword method => exact hK.superMethod id keyword method m

theorem keepsInside_executeWith (hevaluate : ∀ e, KeepsGlobal name (evaluate e))
    (hexecute : ∀ s, KeepsInside name (execute s)) (rounds : Nat) (s : Stmt) :
    KeepsInside name (executeWith evaluate execute rounds s) := by
  have hK := Machine.keepsGlobal_steady name
  cases s with
  | block body => exact KeepsGlobal.inside (keepsGlobal_block hexecute body)
  | classDecl key superclass methods =>
    exact KeepsInside.bind (keepsInside_declareClass hevaluate key superclass methods) fun _ ↦
      .pure _
  | expression e => exact KeepsInside.bind (KeepsGlobal.inside (hevaluate e)) fun _ ↦ .pure _
  | function routine =>
    exact Moves.get fun m ↦
      KeepsInside.bind (KeepsGlobal.inside (hK.newFunction routine m.current false)) fun f ↦
        KeepsInside.bind (keepsInside_define _ _) fun _ ↦ .pure _
  | ifElse condition thenBranch elseBranch =>
    refine KeepsInside.bind (KeepsGlobal.inside (hevaluate condition)) fun v ↦ ?_
    split
    · exact hexecute thenBranch
    · cases elseBranch with
      | none => exact .pure _
      | some s => exact hexecute s
  | print e =>
    exact KeepsInside.bind (KeepsGlobal.inside (hevaluate e)) fun v ↦
      KeepsInside.bind (KeepsGlobal.inside (hK.printLine _)) fun _ ↦ .pure _
  | «return» keyword value =>
    exact KeepsInside.bind (KeepsGlobal.inside (keepsGlobal_valueOrNil hevaluate value)) fun _ ↦
      .pure _
  | var key initializer =>
    exact KeepsInside.bind (KeepsGlobal.inside (keepsGlobal_valueOrNil hevaluate initializer))
      fun v ↦ KeepsInside.bind (keepsInside_define _ _) fun _ ↦ .pure _
  | «while» condition body => exact keepsInside_loop (hevaluate condition) (hexecute body) rounds
  | «break» keyword => exact .pure _
  | «continue» keyword => exact .pure _

end Steps

/-- Until an expression is evaluated that assigns to it, a global variable is what it was, whatever
a machine evaluates, and whatever it executes outside the global scope. -/
theorem unassigned_keeps (name : String) (alarm : Halt) (fuel : Nat) :
    (∀ e, KeepsGlobal name (evaluateOverseen (demandUnassigned name alarm) fuel e)) ∧
      ∀ s, KeepsInside name (executeOverseen (demandUnassigned name alarm) fuel s) := by
  have hK := Machine.keepsGlobal_steady name
  induction fuel with
  | zero =>
    refine ⟨fun e ↦ ?_, fun s ↦ ?_⟩
    · rw [evaluateOverseen]
      exact Moves.throw hK.refl _
    · rw [executeOverseen]
      exact KeepsGlobal.inside (Moves.throw hK.refl _)
  | succ fuel ih =>
    obtain ⟨hevaluate, hexecute⟩ := ih
    refine ⟨fun e m ↦ ?_, fun s ↦ ?_⟩
    · rw [evaluateOverseen]
      let demand (m : Machine) : Prop := ¬m.Reassigns name e
      by_cases hm : demand m
      · have hpass : (demandUnassigned name alarm).expression e m = .ok () m :=
          ensure_of_property hm alarm
        exact EndsIn.bind_of_ok hpass (endsIn_evaluateWith hevaluate hexecute
          (fun e m v m' hv ↦ ⟨fuel, evaluate_of_demanding hv⟩) hm)
      · have hstop : (demandUnassigned name alarm).expression e m = .error alarm m :=
          ensure_of_not hm alarm
        exact EndsIn.bind_of_error hstop (hK.refl m)
    · rw [executeOverseen]
      refine KeepsInside.bind ?_ fun _ ↦ keepsInside_executeWith hevaluate hexecute fuel s
      have hpass : (demandUnassigned name alarm).statement s = pure () := ensure_true alarm
      rw [hpass]
      exact .pure ()

end Run

end Lox
