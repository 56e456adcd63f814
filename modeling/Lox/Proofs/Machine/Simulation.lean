import Lox.Machine.Evaluation
import Lox.Proofs.Machine.Likeness

/-!
# Programs that correspond run alike

From machines that are alike, computations of trees that correspond end alike: with the same result
up to trees, or with the same halt up to lines, in machines that are alike.
-/

namespace Lox

namespace Run

/-- Execute statements, whatever their flow. -/
def each (fuel : Nat) : List Stmt → Run Unit
  | [] => pure ()
  | s :: rest => do
    let _ ← execute fuel s
    each fuel rest

section Each

variable {fuel : Nat} {p : List Stmt} {m m' : Machine}

theorem program_append_of_ok (h : each fuel p m = .ok () m') (q : List Stmt) :
    program fuel (p ++ q) m = program fuel q m' := by
  induction p generalizing m with
  | nil =>
    cases h
    rfl
  | cons s rest ih =>
    obtain ⟨flow, m₁, hs, hrest⟩ := Computation.bind_eq_ok_iff.1 h
    rw [List.cons_append, Run.program, Computation.bind_of_ok hs]
    exact ih hrest

theorem program_append_of_error {halt : Halt} (h : each fuel p m = .error halt m')
    (q : List Stmt) : program fuel (p ++ q) m = .error halt m' := by
  induction p generalizing m with
  | nil => cases h
  | cons s rest ih =>
    rw [each] at h
    rw [List.cons_append, Run.program]
    cases hs : execute fuel s m with
    | ok flow m₁ =>
      rw [Computation.bind_of_ok hs] at h ⊢
      exact ih h
    | error halt₁ m₁ =>
      rw [Computation.bind_of_error hs] at h ⊢
      exact h

end Each

variable {α β γ δ : Type}

/-- From machines that are alike two computations end alike. -/
abbrev Likewise (T : Token → Token → Prop) {I : NodeId → NodeId → Prop} (tables : Tables I)
    (V : α → β → Prop) (x : Run α) (y : Run β) : Prop :=
  Computation.Related (Machine.Alike T tables) (Halt.Alike T) V x y

namespace Likewise

variable {T : Token → Token → Prop} {I : NodeId → NodeId → Prop} {tables : Tables I}
  {V : α → β → Prop}

theorem get {f : Machine → Run α} {g : Machine → Run β}
    (h : ∀ m m', m.Alike T tables m' → Likewise T tables V (f m) (g m')) :
    Likewise T tables V (MonadState.get >>= f) (MonadState.get >>= g) :=
  fun m m' hm ↦ h m m' hm m m' hm

theorem fault {line line' : Nat} (hline : Token.Lines T line line') (cause : RuntimeFault) :
    Likewise T tables V (Run.fault line cause) (Run.fault line' cause) :=
  .throw (.fault hline cause)

theorem exhausted : Likewise T tables V (MonadExcept.throw Halt.exhausted : Run α)
    (MonadExcept.throw Halt.exhausted : Run β) :=
  .throw .exhausted

theorem onHeap {change : Heap → α × Heap} {change' : Heap → β × Heap}
    (h : ∀ heap heap' : Heap, heap.Alike T I heap' →
      V (change heap).1 (change' heap').1 ∧ (change heap).2.Alike T I (change' heap').2) :
    Likewise T tables V (Run.onHeap change) (Run.onHeap change') := by
  intro m m' hm
  obtain ⟨hresult, hheap⟩ := h _ _ hm.heap
  exact .ok hresult ⟨hheap, hm.current, hm.addresses, hm.host⟩

theorem modifyHeap {change change' : Machine → Heap}
    (h : ∀ m m' : Machine, m.Alike T tables m' → (change m).Alike T I (change' m')) :
    Likewise T tables Eq (modify fun m ↦ { m with heap := change m } : Run Unit)
      (modify fun m ↦ { m with heap := change' m }) :=
  fun m m' hm ↦ .ok rfl ⟨h m m' hm, hm.current, hm.addresses, hm.host⟩

theorem onHost {change : Host → α × Host} {change' : Host → β × Host}
    (h : ∀ host host' : Host, host.Alike host' →
      V (change host).1 (change' host').1 ∧ (change host).2.Alike (change' host').2) :
    Likewise T tables V (Run.onHost change) (Run.onHost change') := by
  intro m m' hm
  obtain ⟨hresult, hhost⟩ := h _ _ hm.host
  exact .ok hresult ⟨hm.heap, hm.current, hm.addresses, hhost⟩

/-- A computation and the way back to the scope it came from. -/
theorem inScope {x : Run α} {y : Run β} (h : Likewise T tables V x y) (scope : ScopeRef) :
    Likewise T tables V (Run.inScope scope x) (Run.inScope scope y) := by
  intro m m' hm
  have hinside : Machine.Alike T tables { m with current := scope } { m' with current := scope } :=
    ⟨hm.heap, rfl, hm.addresses, hm.host⟩
  have hends := h _ _ hinside
  unfold Run.inScope
  dsimp only
  generalize x { m with current := scope } = r at hends ⊢
  generalize y { m' with current := scope } = r' at hends ⊢
  cases hends with
  | ok ha hn => exact .ok ha ⟨hn.heap, hm.current, hn.addresses, hn.host⟩
  | error he hn => exact .error he ⟨hn.heap, hm.current, hn.addresses, hn.host⟩

theorem printLine (text : String) :
    Likewise T tables Eq (Run.printLine text) (Run.printLine text) := by
  refine .bind (onHost fun _ _ hhost ↦ hhost.write _) fun r r' hr ↦ ?_
  subst hr
  cases r with
  | ok _ => exact .pure rfl
  | error failure => exact .throw (.output failure)

theorem flush : Likewise T tables Eq Run.flush Run.flush := by
  refine .bind (onHost fun _ _ hhost ↦ hhost.flush) fun r r' hr ↦ ?_
  subst hr
  cases r with
  | ok _ => exact .pure rfl
  | error failure => exact .throw (.output failure)

theorem valueIn (scope : Option ScopeRef) (name : String) {line line' : Nat}
    (hline : Token.Lines T line line') :
    Likewise T tables (Value.Alike T I) (Run.valueIn scope name line)
      (Run.valueIn scope name line') := by
  refine get fun m m' hm ↦ ?_
  have hvalue : Option.Rel (Value.Alike T I) (scope.bind (m.heap.get? · name))
      (scope.bind (m'.heap.get? · name)) := by
    cases scope with
    | none => exact .none
    | some scope => exact hm.heap.get? scope name
  generalize scope.bind (m.heap.get? · name) = o at hvalue
  generalize scope.bind (m'.heap.get? · name) = o' at hvalue
  cases hvalue with
  | none => exact fault hline _
  | some hv => exact .pure hv

theorem lookUp {id id' : NodeId} (hid : I id id') (hT : Token.Faithful T) {name name' : Token}
    (hname : T name name') :
    Likewise T tables (Value.Alike T I) (Run.lookUp id name) (Run.lookUp id' name') := by
  refine get fun m m' hm ↦ ?_
  rw [hm.scopeOf? hid, hT.lexeme hname]
  exact valueIn _ _ (.intro hname)

theorem assignIn (hT : Token.Faithful T) (scope : Option ScopeRef) {name name' : Token}
    (hname : T name name') {v v' : Value} (hv : v.Alike T I v') :
    Likewise T tables Eq (Run.assignIn scope name v) (Run.assignIn scope name' v') := by
  rw [Run.assignIn_eq, Run.assignIn_eq]
  refine get fun m m' hm ↦ ?_
  have hholds : scope.filter (m.heap.holds · name.lexeme) =
      scope.filter (m'.heap.holds · name'.lexeme) := by
    rw [hT.lexeme hname]
    congr 1
    funext scope
    exact hm.heap.holds scope _
  rw [hholds]
  cases scope.filter (m'.heap.holds · name'.lexeme) with
  | none =>
    dsimp only
    rw [hT.lexeme hname]
    exact fault (.intro hname) _
  | some scope =>
    dsimp only
    rw [hT.lexeme hname]
    exact modifyHeap fun m m' hm ↦ hm.heap.define scope _ hv

theorem assign {id id' : NodeId} (hid : I id id') (hT : Token.Faithful T) {name name' : Token}
    (hname : T name name') {v v' : Value} (hv : v.Alike T I v') :
    Likewise T tables Eq (Run.assign id name v) (Run.assign id' name' v') := by
  rw [Run.assign_eq, Run.assign_eq]
  refine get fun m m' hm ↦ ?_
  rw [hm.scopeOf? hid]
  exact assignIn hT _ hname hv

theorem define (name : String) {v v' : Value} (hv : v.Alike T I v') :
    Likewise T tables Eq (Run.define name v) (Run.define name v') :=
  modifyHeap fun m m' hm ↦ by
    rw [hm.current]
    exact hm.heap.define _ name hv

theorem openScope (parent : ScopeRef) {b b' : Bindings Value}
    (hb : b.Alike (Value.Alike T I) b') :
    Likewise T tables Eq (Run.openScope parent b) (Run.openScope parent b') :=
  onHeap fun _ _ hheap ↦ hheap.openScope _ hb

theorem newFunction {routine routine' : Routine Stmt}
    (hroutine : Routine.Alike T (Stmt.Alike T I) routine routine') (closure : ScopeRef)
    (isInitializer : Bool) :
    Likewise T tables (Function.Alike T I) (Run.newFunction routine closure isInitializer)
      (Run.newFunction routine' closure isInitializer) :=
  .bind (onHeap fun _ _ hheap ↦ hheap.freshIdentity) fun _ _ hidentity ↦
    .pure ⟨hidentity, hroutine, rfl, rfl⟩

theorem bindMethod {f f' : Function} (hf : f.Alike T I f') {i i' : Instance}
    (hi : i.Alike T I i') :
    Likewise T tables (Function.Alike T I) (Run.bindMethod f i) (Run.bindMethod f' i') := by
  unfold Run.bindMethod
  rw [hf.closure, hf.isInitializer]
  refine .bind (openScope _ (.ofList (.cons ⟨rfl, .instance hi⟩ .nil))) fun scope scope' hscope ↦ ?_
  subst hscope
  exact newFunction hf.routine _ _

theorem readLine {line line' : Nat} (hline : Token.Lines T line line') :
    Likewise T tables (Value.Alike T I) (Run.readLine line) (Run.readLine line') := by
  refine .bind (onHost fun _ _ hhost ↦ hhost.readLine) fun o o' ho ↦ ?_
  subst ho
  cases o with
  | none => exact .pure .nil
  | some bytes =>
    dsimp only
    split
    · exact .pure (.string _)
    · exact fault hline _

theorem readFile {line line' : Nat} (hline : Token.Lines T line line') {vs vs' : List Value}
    (hvs : List.Forall₂ (Value.Alike T I) vs vs') :
    Likewise T tables (Value.Alike T I) (Run.readFile line vs) (Run.readFile line' vs') := by
  cases hvs with
  | nil => exact fault hline _
  | cons hv _ =>
    cases hv with
    | string path =>
      refine get fun m m' hm ↦ ?_
      rw [hm.host.files]
      split
      · exact .pure (.string _)
      · exact fault hline _
    | _ => exact fault hline _

theorem changeFile {line line' : Nat} (hline : Token.Lines T line line') (b : Builtin)
    (change : List UInt8 → List UInt8 → List UInt8) {vs vs' : List Value}
    (hvs : List.Forall₂ (Value.Alike T I) vs vs') :
    Likewise T tables (Value.Alike T I) (Run.changeFile line b change vs)
      (Run.changeFile line' b change vs') := by
  cases hvs with
  | nil => exact fault hline _
  | cons hv hrest =>
    cases hv with
    | string path =>
      cases hrest with
      | nil => exact fault hline _
      | cons hw _ =>
        cases hw with
        | string content =>
          refine get fun m m' hm ↦ ?_
          rw [hm.host.files]
          split
          · rename_i files _
            have hset : Machine.Alike T tables { m with host := { m.host with files } }
                { m' with host := { m'.host with files } } :=
              ⟨hm.heap, hm.current, hm.addresses, hm.host.out, hm.host.printed, hm.host.input,
                hm.host.clock, rfl⟩
            exact fun _ _ _ ↦ .ok .nil hset
          · exact fault hline _
        | _ => exact fault hline _
    | _ => exact fault hline _

theorem callBuiltin (b : Builtin) {line line' : Nat} (hline : Token.Lines T line line')
    {vs vs' : List Value} (hvs : List.Forall₂ (Value.Alike T I) vs vs') :
    Likewise T tables (Value.Alike T I) (Run.callBuiltin b line vs)
      (Run.callBuiltin b line' vs') := by
  cases b with
  | clock =>
    refine .bind (onHost fun _ _ hhost ↦ hhost.readClock) fun t t' ht ↦ ?_
    subst ht
    exact .pure (.number _)
  | readline => exact readLine hline
  | read => exact readFile hline hvs
  | write => exact changeFile hline .write (fun new _ ↦ new) hvs
  | append => exact changeFile hline .append (fun new old ↦ old ++ new) hvs

section Steps

/-- Expressions that correspond are evaluated alike. -/
def Evaluates (T : Token → Token → Prop) {I : NodeId → NodeId → Prop} (tables : Tables I)
    (evaluate evaluate' : Expr → Run Value) : Prop :=
  ∀ e e', e.Alike T I e' → Likewise T tables (Value.Alike T I) (evaluate e) (evaluate' e')

/-- Statements that correspond are executed alike. -/
def Executes (T : Token → Token → Prop) {I : NodeId → NodeId → Prop} (tables : Tables I)
    (execute execute' : Stmt → Run Flow) : Prop :=
  ∀ s s', s.Alike T I s' → Likewise T tables (Flow.Alike T I) (execute s) (execute' s')

variable {evaluate evaluate' : Expr → Run Value} {execute execute' : Stmt → Run Flow}

theorem sequence (hexecute : Executes T tables execute execute') {ss ss' : List Stmt}
    (hss : List.Forall₂ (Stmt.Alike T I) ss ss') :
    Likewise T tables (Flow.Alike T I) (Run.sequence execute ss) (Run.sequence execute' ss') := by
  induction hss with
  | nil => exact .pure .normal
  | cons hs _ ih =>
    refine .bind (hexecute _ _ hs) fun flow flow' hflow ↦ ?_
    cases hflow with
    | normal => exact ih
    | «return» hv => exact .pure (.return hv)
    | «break» => exact .pure .break
    | «continue» => exact .pure .continue

theorem valuesOf (hevaluate : Evaluates T tables evaluate evaluate') {es es' : List Expr}
    (hes : List.Forall₂ (Expr.Alike T I) es es') :
    Likewise T tables (List.Forall₂ (Value.Alike T I)) (Run.valuesOf evaluate es)
      (Run.valuesOf evaluate' es') := by
  induction hes with
  | nil => exact .pure .nil
  | cons he _ ih =>
    exact .bind (hevaluate _ _ he) fun _ _ hv ↦ .bind ih fun _ _ hvs ↦ .pure (.cons hv hvs)

theorem valueOrNil (hevaluate : Evaluates T tables evaluate evaluate') {o o' : Option Expr}
    (ho : Option.Rel (Expr.Alike T I) o o') :
    Likewise T tables (Value.Alike T I) (Run.valueOrNil evaluate o)
      (Run.valueOrNil evaluate' o') := by
  cases ho with
  | none => exact .pure .nil
  | some he => exact hevaluate _ _ he

theorem loop {condition condition' : Run Value} {body body' : Run Flow}
    (hcondition : Likewise T tables (Value.Alike T I) condition condition')
    (hbody : Likewise T tables (Flow.Alike T I) body body') (rounds : Nat) :
    Likewise T tables (Flow.Alike T I) (Run.loop condition body rounds)
      (Run.loop condition' body' rounds) := by
  induction rounds with
  | zero => exact exhausted
  | succ rounds ih =>
    refine .bind hcondition fun v v' hv ↦ ?_
    rw [hv.isTruthy]
    split
    · refine .bind hbody fun flow flow' hflow ↦ ?_
      cases hflow with
      | normal => exact ih
      | «return» hv => exact .pure (.return hv)
      | «break» => exact .pure .normal
      | «continue» => exact ih
    · exact .pure .normal

theorem block (hexecute : Executes T tables execute execute') {body body' : List Stmt}
    (hbody : List.Forall₂ (Stmt.Alike T I) body body') :
    Likewise T tables (Flow.Alike T I) (Run.block execute body) (Run.block execute' body') := by
  refine get fun m m' hm ↦ ?_
  rw [hm.current]
  refine .bind (openScope _ .empty) fun scope scope' hscope ↦ ?_
  subst hscope
  exact inScope (sequence hexecute hbody) scope

theorem zip_lexemes (hT : Token.Faithful T) {params params' : List Token}
    (hparams : List.Forall₂ T params params') :
    ∀ {vs vs' : List Value}, List.Forall₂ (Value.Alike T I) vs vs' →
      List.Forall₂ (fun p p' ↦ p.1 = p'.1 ∧ Value.Alike T I p.2 p'.2)
        ((params.map Token.lexeme).zip vs) ((params'.map Token.lexeme).zip vs') := by
  induction hparams with
  | nil => exact fun _ ↦ .nil
  | cons hparam _ ih =>
    intro vs vs' hvs
    cases hvs with
    | nil => exact .nil
    | cons hv hvs => exact .cons ⟨hT.lexeme hparam, hv⟩ (ih hvs)

theorem callFunction (hT : Token.Faithful T) (hexecute : Executes T tables execute execute')
    {f f' : Function} (hf : f.Alike T I f') {vs vs' : List Value}
    (hvs : List.Forall₂ (Value.Alike T I) vs vs') :
    Likewise T tables (Value.Alike T I) (Run.callFunction execute f vs)
      (Run.callFunction execute' f' vs') := by
  unfold Run.callFunction
  dsimp only
  rw [hf.closure, hf.isInitializer]
  refine .bind (openScope _ (.ofList (zip_lexemes hT hf.params hvs))) fun scope scope' hscope ↦ ?_
  subst hscope
  refine .bind (inScope (sequence hexecute hf.body) scope) fun flow flow' hflow ↦ ?_
  split
  · exact valueIn _ _ (.intro hf.nameToken)
  · cases hflow with
    | «return» hv => exact .pure hv
    | _ => exact .pure .nil

theorem construct (hT : Token.Faithful T) (hexecute : Executes T tables execute execute')
    {c c' : Class} (hc : c.Alike T I c') {vs vs' : List Value}
    (hvs : List.Forall₂ (Value.Alike T I) vs vs') :
    Likewise T tables (Value.Alike T I) (Run.construct execute c vs)
      (Run.construct execute' c' vs') := by
  have hinit := hc.findMethod? Class.initializerName
  unfold Run.construct
  refine .bind (onHeap fun _ _ hheap ↦ hheap.instantiate hc) fun i i' hi ↦ ?_
  generalize c.findMethod? Class.initializerName = o at hinit ⊢
  generalize c'.findMethod? Class.initializerName = o' at hinit ⊢
  cases hinit with
  | none => exact .pure (.instance hi)
  | some hf =>
    refine .bind (bindMethod hf hi) fun _ _ hbound ↦ ?_
    refine .bind (callFunction hT hexecute hbound hvs) fun _ _ _ ↦ ?_
    exact .pure (.instance hi)

theorem call (hT : Token.Faithful T) (hexecute : Executes T tables execute execute')
    {callee callee' : Callee} (hcallee : callee.Alike T I callee') {line line' : Nat}
    (hline : Token.Lines T line line') {vs vs' : List Value}
    (hvs : List.Forall₂ (Value.Alike T I) vs vs') :
    Likewise T tables (Value.Alike T I) (Run.call execute callee line vs)
      (Run.call execute' callee' line' vs') := by
  cases hcallee with
  | builtin b => exact callBuiltin b hline hvs
  | function hf => exact callFunction hT hexecute hf hvs
  | cls hc => exact construct hT hexecute hc hvs

/-! ### Properties, classes and operators -/

theorem property (hT : Token.Faithful T) {i i' : Instance} (hi : i.Alike T I i')
    {name name' : Token} (hname : T name name') :
    Likewise T tables (Value.Alike T I) (Run.property i name) (Run.property i' name') := by
  refine get fun m m' hm ↦ ?_
  have hfield := (hm.heap.fieldsOf hi).get? name.lexeme
  have hmethod := hi.cls.findMethod? name.lexeme
  rw [← hT.lexeme hname]
  generalize (m.heap.fieldsOf i).get? name.lexeme = o at hfield ⊢
  generalize (m'.heap.fieldsOf i').get? name.lexeme = o' at hfield ⊢
  cases hfield with
  | some hv => exact .pure hv
  | none =>
    dsimp only
    generalize i.cls.findMethod? name.lexeme = o at hmethod ⊢
    generalize i'.cls.findMethod? name.lexeme = o' at hmethod ⊢
    cases hmethod with
    | none => exact fault (.intro hname) _
    | some hf => exact .bind (bindMethod hf hi) fun _ _ hbound ↦ .pure (.function hbound)

theorem superMethod (hT : Token.Faithful T) {id id' : NodeId} (hid : I id id')
    {keyword keyword' method method' : Token} (hkeyword : T keyword keyword')
    (hmethod : T method method') :
    Likewise T tables (Value.Alike T I) (Run.superMethod id keyword method)
      (Run.superMethod id' keyword' method') := by
  refine get fun m m' hm ↦ ?_
  rw [hm.getElem? hid]
  split
  · exact fault (.intro hkeyword) _
  · rename_i depth _
    rw [hm.current, hm.heap.ancestor? depth, hm.heap.ancestor? (depth - 1), hT.lexeme hkeyword,
      hT.lexeme hmethod]
    refine .bind (valueIn _ _ (.intro hkeyword)) fun superclass superclass' hsuperclass ↦ ?_
    refine .bind (valueIn _ _ (.intro hkeyword)) fun object object' hobject ↦ ?_
    cases hsuperclass with
    | cls hc =>
      cases hobject with
      | «instance» hi =>
        have hfound := hc.findMethod? method'.lexeme
        dsimp only
        revert hfound
        generalize Class.findMethod? _ method'.lexeme = o
        generalize Class.findMethod? _ method'.lexeme = o'
        intro hfound
        cases hfound with
        | none => exact fault (.intro hmethod) _
        | some hf => exact .bind (bindMethod hf hi) fun _ _ hbound ↦ .pure (.function hbound)
      | _ => exact fault (.intro hkeyword) _
    | _ => exact fault (.intro hkeyword) _

theorem methodsOf (hT : Token.Faithful T) (closure : ScopeRef)
    {methods methods' : List (Routine Stmt)}
    (hmethods : List.Forall₂ (Routine.Alike T (Stmt.Alike T I)) methods methods') :
    Likewise T tables (List.Forall₂ fun p p' ↦ p.1 = p'.1 ∧ Function.Alike T I p.2 p'.2)
      (Run.methodsOf closure methods) (Run.methodsOf closure methods') := by
  induction hmethods with
  | nil => exact .pure .nil
  | @cons method method' _ _ hmethod _ ih =>
    have hname : method.name.lexeme = method'.name.lexeme := by
      cases hmethod with
      | mk hname _ _ => exact hT.lexeme hname
    unfold Run.methodsOf
    dsimp only
    rw [hname]
    refine .bind (newFunction hmethod _ _) fun _ _ hf ↦ ?_
    refine .bind ih fun _ _ hrest ↦ ?_
    exact .pure (.cons ⟨rfl, hf⟩ hrest)

theorem finishClass (hT : Token.Faithful T) {name name' : Token} (hname : T name name')
    {make make' : Layer → Class}
    (hmake : ∀ own own' : Layer, own.Alike T I own' → (make own).Alike T I (make' own'))
    {methods methods' : List (String × Function)}
    (hmethods : List.Forall₂ (fun p p' ↦ p.1 = p'.1 ∧ Function.Alike T I p.2 p'.2) methods
      methods') :
    Likewise T tables Eq (Run.finishClass name make methods)
      (Run.finishClass name' make' methods') := by
  refine .bind (onHeap fun _ _ hheap ↦ hheap.freshIdentity) fun identity identity' hidentity ↦
    get fun m m' hm ↦ ?_
  have hown : Layer.Alike T I ⟨identity, name.lexeme, .ofList methods⟩
      ⟨identity', name'.lexeme, .ofList methods'⟩ :=
    ⟨hidentity, hT.lexeme hname, .ofList hmethods⟩
  rw [hm.current]
  exact assignIn hT _ hname (.cls (hmake _ _ hown))

theorem superclassToken {name name' : Token} (hname : T name name') {e e' : Expr}
    (he : e.Alike T I e') : T (Run.superclassToken name e) (Run.superclassToken name' e') := by
  cases he with
  | var _ hsuper => exact hsuper
  | _ => exact hname

theorem declareClass (hT : Token.Faithful T) (hevaluate : Evaluates T tables evaluate evaluate')
    {name name' : Token} (hname : T name name') {superclass superclass' : Option Expr}
    (hsuperclass : Option.Rel (Expr.Alike T I) superclass superclass')
    {methods methods' : List (Routine Stmt)}
    (hmethods : List.Forall₂ (Routine.Alike T (Stmt.Alike T I)) methods methods') :
    Likewise T tables Eq (Run.declareClass evaluate name superclass methods)
      (Run.declareClass evaluate' name' superclass' methods') := by
  unfold Run.declareClass
  rw [hT.lexeme hname]
  refine .bind (define _ .nil) fun _ _ _ ↦ ?_
  cases hsuperclass with
  | none =>
    refine get fun m m' hm ↦ ?_
    rw [hm.current]
    exact .bind (methodsOf hT _ hmethods) fun _ _ hfs ↦
      finishClass hT hname (fun _ _ hown ↦ .root hown) hfs
  | some he =>
    refine .bind (hevaluate _ _ he) fun v v' hv ↦ ?_
    cases hv with
    | cls hc =>
      refine get fun m m' hm ↦ ?_
      rw [hm.current]
      refine .bind (openScope _ (.ofList (.cons ⟨rfl, .cls hc⟩ .nil))) fun scope scope' hscope ↦ ?_
      subst hscope
      rw [Run.inScope_methodsOf, Run.inScope_methodsOf]
      exact .bind (methodsOf hT _ hmethods) fun _ _ hfs ↦
        finishClass hT hname (fun _ _ hown ↦ .derived hown hc) hfs
    | _ => exact fault (.intro (superclassToken hname he)) _

/-- Results of operators: corresponding values, or the same fault. -/
inductive Computed (T : Token → Token → Prop) (I : NodeId → NodeId → Prop) :
    Except RuntimeFault Value → Except RuntimeFault Value → Prop
  | ok {v v' : Value} (hv : v.Alike T I v') : Computed T I (.ok v) (.ok v')
  | error (cause : RuntimeFault) : Computed T I (.error cause) (.error cause)

theorem unary (op : Kind) {v v' : Value} (hv : v.Alike T I v') :
    Computed T I (v.unary op) (v'.unary op) := by
  unfold Value.unary
  split
  · cases hv with
    | number n => exact .ok (.number _)
    | _ => exact .error _
  · rw [hv.isTruthy]
    exact .ok (.bool _)
  · exact .error _

theorem arithmetic (op : Kind) (a b : Number) :
    Computed T I (Value.arithmetic op a b) (Value.arithmetic op a b) := by
  unfold Value.arithmetic
  split
  · exact .ok (.number _)
  · exact .ok (.number _)
  · split
    · exact .error _
    · exact .ok (.number _)
  · exact .ok (.bool _)
  · exact .ok (.bool _)
  · exact .ok (.bool _)
  · exact .ok (.bool _)
  · exact .error _

theorem binary (op : Kind) {v v' w w' : Value} (hv : v.Alike T I v') (hw : w.Alike T I w') :
    Computed T I (v.binary op w) (v'.binary op w') := by
  unfold Value.binary
  split
  · cases hv with
    | number a =>
      cases hw with
      | number b => exact .ok (.number _)
      | _ => exact .error _
    | string a =>
      cases hw with
      | string b => exact .ok (.string _)
      | _ => exact .error _
    | _ => exact .error _
  · rw [hv.equal hw]
    exact .ok (.bool _)
  · rw [hv.equal hw]
    exact .ok (.bool _)
  · cases hv with
    | number a =>
      cases hw with
      | number b => exact arithmetic op a b
      | _ => exact .error _
    | _ => exact .error _

theorem decides (op : Kind) {v v' : Value} (hv : v.Alike T I v') :
    v.decides op = v'.decides op := by
  unfold Value.decides
  rw [hv.isTruthy]

theorem ofExcept {line line' : Nat} (hline : Token.Lines T line line')
    {r r' : Except RuntimeFault Value} (hr : Computed T I r r') :
    Likewise T tables (Value.Alike T I) (Run.ofExcept line r) (Run.ofExcept line' r') := by
  cases hr with
  | ok hv => exact .pure hv
  | error cause => exact fault hline cause

/-! ### Expressions, statements and runs -/

/-- One step of evaluation: the expression is taken apart once. -/
theorem evaluateWith (hT : Token.Faithful T) (hevaluate : Evaluates T tables evaluate evaluate')
    (hexecute : Executes T tables execute execute')
    {e e' : Expr} (he : e.Alike T I e') :
    Likewise T tables (Value.Alike T I) (Run.evaluateWith evaluate execute e)
      (Run.evaluateWith evaluate' execute' e') := by
  cases he with
  | literal value => exact .pure (.ofLiteral value)
  | grouping h => exact hevaluate _ _ h
  | unary hop h =>
    refine .bind (hevaluate _ _ h) fun v v' hv ↦ ?_
    rw [hT.kind hop]
    exact ofExcept (.intro hop) (unary _ hv)
  | binary hop hleft hright =>
    refine .bind (hevaluate _ _ hleft) fun v v' hv ↦ .bind (hevaluate _ _ hright) fun w w' hw ↦ ?_
    rw [hT.kind hop]
    exact ofExcept (.intro hop) (binary _ hv hw)
  | logical hop hleft hright =>
    refine .bind (hevaluate _ _ hleft) fun v v' hv ↦ ?_
    rw [hT.kind hop, decides _ hv]
    split
    · exact .pure hv
    · exact hevaluate _ _ hright
  | var hid hname => exact lookUp hid hT hname
  | assign hid hname hvalue =>
    refine .bind (hevaluate _ _ hvalue) fun v v' hv ↦ ?_
    refine .bind (assign hid hT hname hv) fun _ _ _ ↦ ?_
    exact .pure hv
  | call hcallee hparen harguments =>
    refine .bind (hevaluate _ _ hcallee) fun v v' hv ↦ ?_
    have hcallee? := hv.callee?
    generalize v.callee? = o at hcallee?
    generalize v'.callee? = o' at hcallee?
    cases hcallee? with
    | none => exact fault (.intro hparen) _
    | some hcallee =>
      refine .bind (valuesOf hevaluate harguments) fun vs vs' hvs ↦ ?_
      rw [hvs.length_eq, hcallee.arity]
      split
      · exact .bind (fault (.intro hparen) _) fun _ _ (_ : True) ↦
          call hT hexecute hcallee (.intro hparen) hvs
      · exact call hT hexecute hcallee (.intro hparen) hvs
  | get hobject hname =>
    refine .bind (hevaluate _ _ hobject) fun v v' hv ↦ ?_
    cases hv with
    | «instance» hi => exact property hT hi hname
    | _ => exact fault (.intro hname) _
  | set hobject hname hvalue =>
    refine .bind (hevaluate _ _ hobject) fun v v' hv ↦ ?_
    cases hv with
    | «instance» hi =>
      refine .bind (hevaluate _ _ hvalue) fun w w' hw ↦ ?_
      rw [hT.lexeme hname]
      exact .bind (modifyHeap fun m m' hm ↦ hm.heap.setField hi _ hw) fun _ _ _ ↦ .pure hw
    | _ => exact fault (.intro hname) _
  | this hid hkeyword => exact lookUp hid hT hkeyword
  | super hid hkeyword hmethod => exact superMethod hT hid hkeyword hmethod

/-- One step of execution: the statement is taken apart once. -/
theorem executeWith (hT : Token.Faithful T) (hevaluate : Evaluates T tables evaluate evaluate')
    (hexecute : Executes T tables execute execute')
    (rounds : Nat) {s s' : Stmt} (hs : s.Alike T I s') :
    Likewise T tables (Flow.Alike T I) (Run.executeWith evaluate execute rounds s)
      (Run.executeWith evaluate' execute' rounds s') := by
  cases hs with
  | block hbody => exact block hexecute hbody
  | classDecl hname hsuperclass hmethods =>
    exact .bind (declareClass hT hevaluate hname hsuperclass hmethods) fun _ _ _ ↦ .pure .normal
  | expression he => exact .bind (hevaluate _ _ he) fun _ _ _ ↦ .pure .normal
  | @function routine routine' hroutine =>
    have hname : routine.name.lexeme = routine'.name.lexeme := by
      cases hroutine with
      | mk hname _ _ => exact hT.lexeme hname
    refine get fun m m' hm ↦ ?_
    rw [hm.current, hname]
    refine .bind (newFunction hroutine _ _) fun _ _ hf ↦ ?_
    refine .bind (define _ (.function hf)) fun _ _ _ ↦ ?_
    exact .pure .normal
  | ifThen hcondition hthen =>
    refine .bind (hevaluate _ _ hcondition) fun v v' hv ↦ ?_
    rw [hv.isTruthy]
    split
    · exact hexecute _ _ hthen
    · exact .pure .normal
  | ifElse hcondition hthen helse =>
    refine .bind (hevaluate _ _ hcondition) fun v v' hv ↦ ?_
    rw [hv.isTruthy]
    split
    · exact hexecute _ _ hthen
    · exact hexecute _ _ helse
  | print he =>
    refine .bind (hevaluate _ _ he) fun v v' hv ↦ ?_
    rw [hv.display hT]
    exact .bind (printLine _) fun _ _ _ ↦ .pure .normal
  | «return» _ hvalue =>
    exact .bind (valueOrNil hevaluate hvalue) fun _ _ hv ↦ .pure (.return hv)
  | var hname hinitializer =>
    refine .bind (valueOrNil hevaluate hinitializer) fun v v' hv ↦ ?_
    rw [hT.lexeme hname]
    exact .bind (define _ hv) fun _ _ _ ↦ .pure .normal
  | «while» hcondition hbody => exact loop (hevaluate _ _ hcondition) (hexecute _ _ hbody) rounds
  | «break» _ => exact .pure .break
  | «continue» _ => exact .pure .continue

end Steps

/-- By induction on the fuel: trees that correspond are evaluated and executed alike. -/
theorem evaluate_and_execute (hT : Token.Faithful T) (fuel : Nat) :
    Evaluates T tables (Run.evaluate fuel) (Run.evaluate fuel) ∧
      Executes T tables (Run.execute fuel) (Run.execute fuel) := by
  induction fuel with
  | zero =>
    refine ⟨fun e e' _ ↦ ?_, fun s s' _ ↦ ?_⟩
    · rw [Run.evaluate, Run.evaluate]
      exact exhausted
    · rw [Run.execute, Run.execute]
      exact exhausted
  | succ fuel ih =>
    obtain ⟨hevaluate, hexecute⟩ := ih
    refine ⟨fun e e' he ↦ ?_, fun s s' hs ↦ ?_⟩
    · rw [Run.evaluate, Run.evaluate]
      exact evaluateWith hT hevaluate hexecute he
    · rw [Run.execute, Run.execute]
      exact executeWith hT hevaluate hexecute fuel hs

theorem each (hT : Token.Faithful T) (fuel : Nat) {p p' : List Stmt}
    (hp : List.Forall₂ (Stmt.Alike T I) p p') :
    Likewise T tables Eq (Run.each fuel p) (Run.each fuel p') := by
  induction hp with
  | nil => exact .pure rfl
  | cons hs _ ih => exact .bind ((evaluate_and_execute hT fuel).2 _ _ hs) fun _ _ _ ↦ ih

theorem program (hT : Token.Faithful T) (fuel : Nat) {p p' : List Stmt}
    (hp : List.Forall₂ (Stmt.Alike T I) p p') :
    Likewise T tables Eq (Run.program fuel p) (Run.program fuel p') := by
  induction hp with
  | nil => exact flush
  | cons hs _ ih => exact .bind ((evaluate_and_execute hT fuel).2 _ _ hs) fun _ _ _ ↦ ih

end Likewise

end Run

end Lox
