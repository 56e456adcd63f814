import Lox.Proofs.Machine.Builtins
import Lox.Proofs.Machine.Mirror
import Lox.Proofs.Machine.Watch

/-!
# Watched execution does not notice the watch

In a sound machine whose scopes mirror those around a node, the node is evaluated or executed alike
with and without a watch, if the watch never objects at a node in such a machine.  The machine is
sound afterwards, however the evaluation ends, and stands where it stood.
-/

namespace Lox

/-- When the stream of printed values fails is not for a program to decide. -/
structure Host.Keeps (h h' : Host) : Prop where
  writeFailure : h'.out.writeFailure = h.out.writeFailure
  flushFailure : h'.out.flushFailure = h.out.flushFailure

theorem Host.keeps_write (h : Host) (text : String) : h.Keeps (h.write .out text).2 := by
  unfold Host.write
  dsimp only
  split
  · exact ⟨rfl, rfl⟩
  · exact ⟨rfl, rfl⟩

theorem Host.keeps_flush (h : Host) : h.Keeps (h.flush .out).2 := by
  unfold Host.flush
  dsimp only
  split
  · exact ⟨rfl, rfl⟩
  · exact ⟨rfl, rfl⟩

theorem Host.Keeps.of_consults {b : Builtin} {h h' : Host} (hhost : b.Consults h h') :
    h.Keeps h' :=
  ⟨congrArg _ hhost.out, congrArg _ hhost.out⟩

/-- What a computation leaves alone: scopes and names, where the machine stands, the depths, and
when the output fails. -/
structure Machine.Follows (m m' : Machine) : Prop where
  heap : m.heap.Extends m'.heap
  current : m'.current = m.current
  addresses : m'.addresses = m.addresses
  host : m.host.Keeps m'.host

theorem Machine.Follows.refl (m : Machine) : m.Follows m :=
  ⟨.refl _, rfl, rfl, rfl, rfl⟩

theorem Machine.Follows.trans {m m' m'' : Machine} (first : m.Follows m')
    (second : m'.Follows m'') : m.Follows m'' where
  heap := first.heap.trans second.heap
  current := second.current.trans first.current
  addresses := second.addresses.trans first.addresses
  host := ⟨second.host.writeFailure.trans first.host.writeFailure,
    second.host.flushFailure.trans first.host.flushFailure⟩

/-- A sound machine with known depths that stands in scopes mirroring those around a node. -/
structure Machine.Stands (P : Site → Prop) (addresses : Std.TreeMap NodeId Nat) (m : Machine)
    (scopes : Scopes) : Prop where
  addresses : m.addresses = addresses
  sound : m.heap.Sound P
  mirrors : m.heap.Mirrors m.current scopes

theorem Machine.Stands.follow {P : Site → Prop} {addresses : Std.TreeMap NodeId Nat}
    {m m' : Machine} {scopes : Scopes} (h : m.Stands P addresses scopes) (hfollows : m.Follows m')
    (hs : m'.heap.Sound P) : m'.Stands P addresses scopes where
  addresses := hfollows.addresses.trans h.addresses
  sound := hs
  mirrors := hfollows.current ▸ h.mirrors.mono hfollows.heap

/-- A value that is returned is sound. -/
def Flow.Returns (P : Site → Prop) (h : Heap) (flow : Flow) : Prop :=
  ∀ value, flow = .return value → value.Sound P h

/-- Behind a statement that ends normally, the scopes hold the name it declares. -/
def Flow.Fits (P : Site → Prop) (h : Heap) (scope : ScopeRef) (scopes : Scopes) : Flow → Prop
  | .normal => h.Mirrors scope scopes
  | .return value => value.Sound P h
  | .break => True
  | .continue => True

theorem Flow.Returns.fits {P : Site → Prop} {h : Heap} {flow : Flow} {scope : ScopeRef}
    {scopes : Scopes} (hreturns : flow.Returns P h) (hmirrors : h.Mirrors scope scopes) :
    flow.Fits P h scope scopes := by
  cases flow with
  | normal => exact hmirrors
  | «return» value => exact hreturns value rfl
  | «break» => trivial
  | «continue» => trivial

theorem Flow.Fits.returns {P : Site → Prop} {h : Heap} {flow : Flow} {scope : ScopeRef}
    {scopes : Scopes} (hfits : flow.Fits P h scope scopes) : flow.Returns P h := by
  rintro value rfl
  exact hfits

namespace Run

variable {α β : Type} {P : Site → Prop}

/-- Two computations do the same from a machine, and what follows is sound. -/
def Agree (P : Site → Prop) (x y : Run α) (m : Machine) (Q : α → Heap → Prop) : Prop :=
  x m = y m ∧
    match x m with
    | .ok a m' => m.Follows m' ∧ m'.heap.Sound P ∧ Q a m'.heap
    | .error _ m' => m.Follows m' ∧ m'.heap.Sound P

namespace Agree

variable {x y : Run α} {f g : α → Run β} {m : Machine} {Q : α → Heap → Prop}
  {R : β → Heap → Prop}

theorem mono {Q' : α → Heap → Prop} (h : Agree P x y m Q)
    (himp : ∀ a m', m.Follows m' → Q a m'.heap → Q' a m'.heap) : Agree P x y m Q' := by
  obtain ⟨heq, hpost⟩ := h
  refine ⟨heq, ?_⟩
  split at hpost
  · obtain ⟨hfollows, hsound, hQ⟩ := hpost
    exact ⟨hfollows, hsound, himp _ _ hfollows hQ⟩
  · exact hpost

theorem endsIn (h : Agree P x y m Q) :
    Computation.EndsIn (fun m' ↦ m.Follows m' ∧ m'.heap.Sound P) x m := by
  obtain ⟨-, hpost⟩ := h
  unfold Computation.EndsIn
  cases hx : x m with
  | ok a m' =>
    rw [hx] at hpost
    exact ⟨hpost.1, hpost.2.1⟩
  | error halt m' =>
    rw [hx] at hpost
    exact hpost

theorem pure {a : α} (hs : m.heap.Sound P) (hQ : Q a m.heap) :
    Agree P (Pure.pure a : Run α) (Pure.pure a) m Q :=
  ⟨rfl, .refl m, hs, hQ⟩

theorem throw (hs : m.heap.Sound P) (halt : Halt) :
    Agree P (MonadExcept.throw halt : Run α) (MonadExcept.throw halt) m Q :=
  ⟨rfl, .refl m, hs⟩

theorem bind (hx : Agree P x y m Q)
    (hf : ∀ a m', m.Follows m' → m'.heap.Sound P → Q a m'.heap → Agree P (f a) (g a) m' R) :
    Agree P (x >>= f) (y >>= g) m R := by
  obtain ⟨heq, hpost⟩ := hx
  unfold Agree
  cases h : x m with
  | ok a m' =>
    rw [h] at hpost heq
    obtain ⟨hfollows, hsound, hQ⟩ := hpost
    obtain ⟨heq', hpost'⟩ := hf a m' hfollows hsound hQ
    rw [Computation.bind_of_ok h, Computation.bind_of_ok heq.symm]
    refine ⟨heq', ?_⟩
    split at hpost'
    · obtain ⟨hfollows', hsound', hR⟩ := hpost'
      exact ⟨hfollows.trans hfollows', hsound', hR⟩
    · exact ⟨hfollows.trans hpost'.1, hpost'.2⟩
  | error e m' =>
    rw [h] at hpost heq
    rw [Computation.bind_of_error h, Computation.bind_of_error heq.symm]
    exact ⟨rfl, hpost⟩

theorem get {f g : Machine → Run β} (h : Agree P (f m) (g m) m R) :
    Agree P (MonadState.get >>= f) (MonadState.get >>= g) m R :=
  h

theorem onHeap {change : Heap → α × Heap} (hext : m.heap.Extends (change m.heap).2)
    (hs : (change m.heap).2.Sound P) (hQ : Q (change m.heap).1 (change m.heap).2) :
    Agree P (Run.onHeap change) (Run.onHeap change) m Q :=
  ⟨rfl, ⟨hext, rfl, rfl, rfl, rfl⟩, hs, hQ⟩

theorem modifyHeap (change : Heap → Heap) {Q : Unit → Heap → Prop}
    (hext : m.heap.Extends (change m.heap)) (hs : (change m.heap).Sound P)
    (hQ : Q () (change m.heap)) :
    Agree P (modify fun m ↦ { m with heap := change m.heap } : Run Unit)
      (modify fun m ↦ { m with heap := change m.heap }) m Q :=
  ⟨rfl, ⟨hext, rfl, rfl, rfl, rfl⟩, hs, hQ⟩

theorem onHost {change : Host → α × Host} (hs : m.heap.Sound P)
    (hhost : m.host.Keeps (change m.host).2) (hQ : ∀ a, Q a m.heap) :
    Agree P (Run.onHost change) (Run.onHost change) m Q :=
  ⟨rfl, ⟨.refl _, rfl, rfl, hhost⟩, hs, hQ _⟩

/-- Whatever comes from the host, the heap is the same. -/
theorem bind_onHost {change : Host → α × Host} (hs : m.heap.Sound P)
    (hhost : m.host.Keeps (change m.host).2)
    (hf : ∀ a m', m'.heap.Sound P → Agree P (f a) (g a) m' R) :
    Agree P (Run.onHost change >>= f) (Run.onHost change >>= g) m R :=
  bind (onHost (Q := fun _ _ ↦ True) hs hhost fun _ ↦ trivial) fun a m' _ hs' _ ↦ hf a m' hs'

theorem inScope {scope : ScopeRef} (h : Agree P x y { m with current := scope } Q) :
    Agree P (Run.inScope scope x) (Run.inScope scope y) m Q := by
  obtain ⟨heq, hpost⟩ := h
  unfold Agree Run.inScope
  dsimp only
  rw [← heq]
  refine ⟨rfl, ?_⟩
  cases hx : x { m with current := scope } with
  | ok a m' =>
    rw [hx] at hpost
    obtain ⟨⟨hext, -, haddresses, hhost⟩, hsound, hQ⟩ := hpost
    exact ⟨⟨hext, rfl, haddresses, hhost⟩, hsound, hQ⟩
  | error e m' =>
    rw [hx] at hpost
    obtain ⟨⟨hext, -, haddresses, hhost⟩, hsound⟩ := hpost
    exact ⟨⟨hext, rfl, haddresses, hhost⟩, hsound⟩

theorem ite {c : Prop} [Decidable c] {x' y' : Run α} (hx : c → Agree P x y m Q)
    (hy : ¬c → Agree P x' y' m Q) :
    Agree P (if c then x else x') (if c then y else y') m Q := by
  split
  · exact hx ‹_›
  · exact hy ‹_›

end Agree

/-! ### Operations and calls -/

section Operations

variable {m : Machine}

theorem agree_fault {α : Type} {Q : α → Heap → Prop} (hs : m.heap.Sound P) (line : Nat)
    (cause : RuntimeFault) : Agree P (fault line cause : Run α) (fault line cause) m Q :=
  .throw hs _

theorem agree_valueIn (hs : m.heap.Sound P) (scope : Option ScopeRef) (name : String)
    (line : Nat) :
    Agree P (valueIn scope name line) (valueIn scope name line) m fun v h ↦ v.Sound P h := by
  refine .get ?_
  split
  · rename_i value hvalue
    obtain ⟨target, -, hget⟩ := Option.bind_eq_some_iff.1 hvalue
    exact .pure hs (hs.bound target name value hget)
  · exact agree_fault hs ..

theorem agree_assignIn (hs : m.heap.Sound P) {value : Value} (hvalue : value.Sound P m.heap)
    (scope : Option ScopeRef) (name : Token) :
    Agree P (assignIn scope name value) (assignIn scope name value) m fun _ _ ↦ True := by
  rw [assignIn_eq]
  refine .get ?_
  split
  · have hext := Heap.extends_define m.heap
    exact ⟨rfl, ⟨hext .., rfl, rfl, rfl, rfl⟩, hs.define (hvalue.mono (hext ..)), trivial⟩
  · exact agree_fault hs ..

theorem agree_assign (hs : m.heap.Sound P) {value : Value} (hvalue : value.Sound P m.heap)
    (id : NodeId) (name : Token) :
    Agree P (assign id name value) (assign id name value) m fun _ _ ↦ True := by
  rw [assign_eq]
  exact .get (agree_assignIn hs hvalue ..)

theorem agree_define (hs : m.heap.Sound P) {name : String} {value : Value}
    (hvalue : value.Sound P (m.heap.define m.current name value)) {scopes : Scopes}
    (hm : m.heap.Mirrors m.current scopes) :
    Agree P (define name value) (define name value) m fun _ h ↦
      h.Mirrors m.current (scopes.enter name true) :=
  ⟨rfl, ⟨Heap.extends_define .., rfl, rfl, rfl, rfl⟩, hs.define hvalue, hm.define name value⟩

theorem agree_openScope (hs : m.heap.Sound P) {scope : ScopeRef} {bindings : Bindings Value}
    (hbindings : ∀ name value, bindings.get? name = some value → value.Sound P m.heap)
    {scopes : Scopes}
    (hmirrors : (m.heap.openScope (some scope) bindings).2.Mirrors m.heap.scopes.size scopes) :
    Agree P (openScope scope bindings) (openScope scope bindings) m fun scope h ↦
      h.Mirrors scope scopes :=
  .onHeap (Heap.extends_openScope ..) (hs.openScope _ hbindings) hmirrors

/-- A scope for one name is opened where resolution opens one. -/
theorem agree_openWith (hs : m.heap.Sound P) {scope : ScopeRef} {scopes : Scopes}
    (hm : m.heap.Mirrors scope scopes) (name : String) (value : Value)
    (hvalue : value.Sound P m.heap) :
    Agree P (openScope scope (.ofList [(name, value)])) (openScope scope (.ofList [(name, value)]))
      m fun scope h ↦ h.Mirrors scope (scopes.openWith name) := by
  refine agree_openScope hs (fun other v hget ↦ ?_) (hm.openScope fun other hget ↦ ?_)
  · obtain ⟨rfl, rfl⟩ := Bindings.eq_of_get?_single hget
    exact hvalue
  · rw [Scopes.get?_single] at hget
    split at hget
    · rename_i heq
      rw [heq]
      exact Bindings.isSome_get?_ofList (List.mem_singleton.2 rfl)
    · cases hget

theorem agree_newFunction (hs : m.heap.Sound P) {routine : Routine Stmt} {closure : ScopeRef}
    {isInitializer : Bool} {Q : Function → Heap → Prop}
    (hQ : ∀ f h, m.heap.Extends h → f.routine = routine → f.closure = closure → Q f h) :
    Agree P (newFunction routine closure isInitializer) (newFunction routine closure isInitializer)
      m Q := by
  refine .bind (.onHeap (Q := fun _ _ ↦ True) (Heap.extends_freshIdentity _) hs.freshIdentity
    trivial) fun identity m' hfollows hs' _ ↦ ?_
  exact .pure hs' (hQ _ _ hfollows.heap rfl rfl)

theorem agree_bindMethod (hs : m.heap.Sound P) {method : Function}
    (hmethod : method.SoundMethod P m.heap) {i : Instance} (hi : i.cls.Sound P m.heap) :
    Agree P (bindMethod method i) (bindMethod method i) m fun f h ↦
      f.Sound P h ∧ f.routine = method.routine := by
  obtain ⟨scopes, hm, hplaced⟩ := hmethod
  have hopened := agree_openWith hs hm "this" (.instance i) hi
  refine hopened.bind fun scope m' hfollows hs' hm' ↦ ?_
  refine agree_newFunction hs' fun f h hext hroutine hclosure ↦ ?_
  refine ⟨⟨scopes.openWith "this", ?_, ?_⟩, hroutine⟩
  · rw [hclosure]
    exact hm'.mono hext
  · rw [hroutine]
    exact hplaced

theorem agree_printLine (hs : m.heap.Sound P) (text : String) :
    Agree P (printLine text) (printLine text) m fun _ _ ↦ True := by
  refine .bind_onHost hs (Host.keeps_write ..) fun result m' hs' ↦ ?_
  split
  · exact .pure hs' trivial
  · exact .throw hs' _

theorem agree_flush (hs : m.heap.Sound P) : Agree P flush flush m fun _ _ ↦ True := by
  refine .bind_onHost hs (Host.keeps_flush _) fun result m' hs' ↦ ?_
  split
  · exact .pure hs' trivial
  · exact .throw hs' _

theorem sound_of_isData {h : Heap} {v : Value} (hv : v.IsData) : v.Sound P h := by
  cases v with
  | nil => trivial
  | bool value => trivial
  | number value => trivial
  | string text => trivial
  | _ => exact hv.elim

theorem agree_callBuiltin (hs : m.heap.Sound P) (b : Builtin) (line : Nat)
    (arguments : List Value) :
    Agree P (callBuiltin b line arguments) (callBuiltin b line arguments) m fun v h ↦
      v.Sound P h := by
  refine ⟨rfl, ?_⟩
  have hends := Builtin.answers line arguments m b
  generalize callBuiltin b line arguments m = r at hends ⊢
  cases hends with
  | ok hvalue hhost =>
    exact ⟨⟨.refl _, rfl, rfl, .of_consults hhost⟩, hs, sound_of_isData hvalue⟩
  | fault hcause hhost => exact ⟨⟨.refl _, rfl, rfl, .of_consults hhost⟩, hs⟩

end Operations

section Steps

variable {addresses : Std.TreeMap NodeId Nat} {evaluate evaluate' : Expr → Run Value}
  {execute execute' : Stmt → Run Flow} {m : Machine} {scopes : Scopes}

/-- How expressions are evaluated with and without a watch. -/
def EvaluateAlike (P : Site → Prop) (addresses : Std.TreeMap NodeId Nat)
    (evaluate evaluate' : Expr → Run Value) : Prop :=
  ∀ e scopes m, m.Stands P addresses scopes → (∀ site ∈ e.sites scopes, P site) →
    Agree P (evaluate e) (evaluate' e) m fun v h ↦ v.Sound P h

/-- How statements are executed with and without a watch. -/
def ExecuteAlike (P : Site → Prop) (addresses : Std.TreeMap NodeId Nat)
    (execute execute' : Stmt → Run Flow) : Prop :=
  ∀ s scopes m, m.Stands P addresses scopes → (∀ site ∈ s.sites scopes, P site) → s.Orderly →
    Agree P (execute s) (execute' s) m fun flow h ↦ flow.Fits P h m.current (s.scopesAfter scopes)

theorem agree_sequence (hexecute : ExecuteAlike P addresses execute execute') (ss : List Stmt) :
    ∀ scopes m, m.Stands P addresses scopes → (∀ site ∈ Stmt.sitesAll scopes ss, P site) →
      Stmt.OrderlyAll ss →
      Agree P (sequence execute ss) (sequence execute' ss) m fun flow h ↦ flow.Returns P h := by
  induction ss with
  | nil => exact fun scopes m hm _ _ ↦ .pure hm.sound nofun
  | cons s rest ih =>
    intro scopes m hm hsites horderly
    rw [Stmt.sitesAll] at hsites
    rw [Stmt.OrderlyAll] at horderly
    obtain ⟨hs, hrest⟩ := List.forall_mem_append.1 hsites
    refine .bind (hexecute s scopes m hm hs horderly.1) fun flow m' hfollows hsound hfits ↦ ?_
    cases flow with
    | normal =>
      refine ih (s.scopesAfter scopes) m' ⟨hfollows.addresses.trans hm.addresses, hsound, ?_⟩ hrest
        horderly.2
      rw [hfollows.current]
      exact hfits
    | «return» value => exact .pure hsound fun v hv ↦ by cases hv; exact hfits
    | «break» => exact .pure hsound nofun
    | «continue» => exact .pure hsound nofun

theorem agree_valuesOf (hevaluate : EvaluateAlike P addresses evaluate evaluate')
    (es : List Expr) :
    ∀ m, m.Stands P addresses scopes → (∀ site ∈ Expr.sitesAll scopes es, P site) →
      Agree P (valuesOf evaluate es) (valuesOf evaluate' es) m fun vs h ↦
        ∀ v ∈ vs, v.Sound P h := by
  induction es with
  | nil => exact fun m hm _ ↦ .pure hm.sound fun v hv ↦ absurd hv List.not_mem_nil
  | cons e rest ih =>
    intro m hm hsites
    obtain ⟨he, hrest⟩ := List.forall_mem_append.1 hsites
    refine .bind (hevaluate e scopes m hm he) fun v m' hfollows hs hv ↦ ?_
    refine .bind (ih m' (hm.follow hfollows hs) hrest) fun vs m'' hfollows' hs' hvs ↦ ?_
    exact .pure hs' (List.forall_mem_cons.2 ⟨hv.mono hfollows'.heap, hvs⟩)

theorem agree_valueOrNil (hevaluate : EvaluateAlike P addresses evaluate evaluate')
    {o : Option Expr} (hm : m.Stands P addresses scopes)
    (hsites : ∀ site ∈ Expr.sitesOption scopes o, P site) :
    Agree P (valueOrNil evaluate o) (valueOrNil evaluate' o) m fun v h ↦ v.Sound P h := by
  cases o with
  | none => exact .pure hm.sound trivial
  | some e => exact hevaluate e scopes m hm hsites

theorem agree_loop {condition condition' : Run Value} {body body' : Run Flow}
    (hcondition : ∀ m, m.Stands P addresses scopes →
      Agree P condition condition' m fun v h ↦ v.Sound P h)
    (hbody : ∀ m, m.Stands P addresses scopes →
      Agree P body body' m fun flow h ↦ flow.Returns P h) (rounds : Nat) :
    ∀ m, m.Stands P addresses scopes →
      Agree P (loop condition body rounds) (loop condition' body' rounds) m fun flow h ↦
        flow.Returns P h := by
  induction rounds with
  | zero => exact fun m hm ↦ .throw hm.sound _
  | succ rounds ih =>
    intro m hm
    refine .bind (hcondition m hm) fun v m' hfollows hs _ ↦ .ite (fun _ ↦ ?_) fun _ ↦ ?_
    · have hm' := hm.follow hfollows hs
      refine .bind (hbody m' hm') fun flow m'' hfollows' hs' hreturns ↦ ?_
      cases flow with
      | normal => exact ih m'' (hm'.follow hfollows' hs')
      | «return» value => exact .pure hs' hreturns
      | «break» => exact .pure hs' nofun
      | «continue» => exact ih m'' (hm'.follow hfollows' hs')
    · exact .pure hs nofun

theorem agree_block (hexecute : ExecuteAlike P addresses execute execute') {body : List Stmt}
    (hm : m.Stands P addresses scopes)
    (hsites : ∀ site ∈ Stmt.sitesAll ({} :: scopes) body, P site)
    (horderly : Stmt.OrderlyAll body) :
    Agree P (block execute body) (block execute' body) m fun flow h ↦ flow.Returns P h := by
  have hempty : (m.heap.openScope (some m.current) {}).2.Mirrors m.heap.scopes.size
      ({} :: scopes) := by
    refine hm.mirrors.openScope fun name hname ↦ ?_
    cases hname
  have hnone : ∀ name value, ({} : Bindings Value).get? name = some value →
      value.Sound P m.heap := by
    intro name value hvalue
    cases hvalue
  have hopened := agree_openScope hm.sound hnone hempty
  refine .get (hopened.bind fun scope m' hfollows hs hmirrors ↦ .inScope ?_)
  exact agree_sequence hexecute body ({} :: scopes) _
    ⟨hfollows.addresses.trans hm.addresses, hs, hmirrors⟩ hsites horderly

theorem agree_callFunction (hexecute : ExecuteAlike P addresses execute execute') {f : Function}
    {arguments : List Value} (haddresses : m.addresses = addresses) (hs : m.heap.Sound P)
    (hf : f.Sound P m.heap) (harguments : ∀ v ∈ arguments, v.Sound P m.heap)
    (hlength : arguments.length = f.arity) :
    Agree P (callFunction execute f arguments) (callFunction execute' f arguments) m fun v h ↦
      v.Sound P h := by
  obtain ⟨scopes, hmirrors, hsites, horderly⟩ := hf
  rw [Stmt.sitesRoutine_eq] at hsites
  rw [Stmt.orderlyRoutine_iff] at horderly
  have hbindings : ∀ name value,
      (Bindings.ofList ((f.routine.params.map Token.lexeme).zip arguments)).get? name =
        some value → value.Sound P m.heap := fun name value hvalue ↦
    harguments value (Bindings.mem_of_get?_zip hvalue).2
  have hopened := agree_openScope hs hbindings (hmirrors.openScope_params hlength)
  refine hopened.bind fun scope m' hfollows hs' hmirrors' ↦ ?_
  have hbody := agree_sequence hexecute f.routine.body _ { m' with current := scope }
    ⟨hfollows.addresses.trans haddresses, hs', hmirrors'⟩ hsites horderly.2
  refine hbody.inScope.bind fun flow m'' hfollows' hs'' hreturns ↦ ?_
  refine .ite (fun _ ↦ agree_valueIn hs'' ..) fun _ ↦ ?_
  cases flow with
  | «return» value => exact .pure hs'' (hreturns value rfl)
  | _ => exact .pure hs'' trivial

theorem agree_construct (hexecute : ExecuteAlike P addresses execute execute') {c : Class}
    {arguments : List Value} (haddresses : m.addresses = addresses) (hs : m.heap.Sound P)
    (hc : c.Sound P m.heap) (harguments : ∀ v ∈ arguments, v.Sound P m.heap)
    (hlength : arguments.length = c.arity) :
    Agree P (construct execute c arguments) (construct execute' c arguments) m fun v h ↦
      v.Sound P h := by
  refine .bind (.onHeap (Q := fun i _ ↦ i.cls = c) (Heap.extends_instantiate ..)
    (hs.instantiate c) rfl) fun i m' hfollows hs' hi ↦ ?_
  have hc' := hc.mono hfollows.heap
  have hinstance : i.cls.Sound P m'.heap := by
    rw [hi]
    exact hc'
  cases hinit : c.findMethod? Class.initializerName with
  | none => exact .pure hs' hinstance
  | some init =>
    refine .bind (agree_bindMethod hs' (hc'.findMethod? hinit) hinstance)
      fun f m'' hfollows' hs'' hf ↦ ?_
    have harity : arguments.length = f.arity := by
      rw [hlength, Class.arity, hinit]
      simp only [Function.arity, hf.2]
    refine .bind (agree_callFunction hexecute (hfollows'.addresses.trans
      (hfollows.addresses.trans haddresses)) hs'' hf.1 (fun v hv ↦ ?_) harity)
      fun _ m''' hfollows'' hs''' _ ↦ ?_
    · exact ((harguments v hv).mono hfollows.heap).mono hfollows'.heap
    · exact .pure hs''' ((hinstance.mono hfollows'.heap).mono hfollows''.heap)

/-- What a callee refers to is sound. -/
def SoundCallee (P : Site → Prop) (h : Heap) : Callee → Prop
  | .builtin _ => True
  | .function f => f.Sound P h
  | .cls c => c.Sound P h

theorem soundCallee_of_callee? {h : Heap} {v : Value} (hv : v.Sound P h) {callee : Callee}
    (hcallee : v.callee? = some callee) : SoundCallee P h callee := by
  cases v <;> cases hcallee <;> exact hv

theorem SoundCallee.mono {h h' : Heap} {callee : Callee} (hc : SoundCallee P h callee)
    (hext : h.Extends h') : SoundCallee P h' callee := by
  cases callee with
  | builtin b => trivial
  | function f => exact Value.Sound.mono (v := .function f) hc hext
  | cls c => exact Class.Sound.mono hc hext

theorem agree_call (hexecute : ExecuteAlike P addresses execute execute') {callee : Callee}
    {line : Nat} {arguments : List Value} (haddresses : m.addresses = addresses)
    (hs : m.heap.Sound P) (hcallee : SoundCallee P m.heap callee)
    (harguments : ∀ v ∈ arguments, v.Sound P m.heap) (hlength : arguments.length = callee.arity) :
    Agree P (call execute callee line arguments) (call execute' callee line arguments) m fun v h ↦
      v.Sound P h := by
  cases callee with
  | builtin b => exact agree_callBuiltin hs b line arguments
  | function f => exact agree_callFunction hexecute haddresses hs hcallee harguments hlength
  | cls c => exact agree_construct hexecute haddresses hs hcallee harguments hlength

/-! ### Properties and classes -/

theorem agree_property (hs : m.heap.Sound P) {i : Instance} (hi : i.cls.Sound P m.heap)
    (name : Token) :
    Agree P (property i name) (property i name) m fun v h ↦ v.Sound P h := by
  refine .get ?_
  split
  · rename_i value hvalue
    exact .pure hs (hs.fields i _ value hvalue)
  · split
    · rename_i method hmethod
      refine .bind (agree_bindMethod hs (hi.findMethod? hmethod) hi) fun f m' _ hs' hf ↦ ?_
      exact .pure hs' hf.1
    · exact agree_fault hs ..

theorem agree_superMethod (hs : m.heap.Sound P) (id : NodeId) (keyword method : Token) :
    Agree P (superMethod id keyword method) (superMethod id keyword method) m fun v h ↦
      v.Sound P h := by
  refine .get ?_
  split
  · exact agree_fault hs ..
  · refine .bind (agree_valueIn hs ..) fun superclass m' hfollows hs' hsuperclass ↦ ?_
    refine .bind (agree_valueIn hs' ..) fun object m'' hfollows' hs'' hobject ↦ ?_
    split
    · rename_i c i
      split
      · rename_i found hfound
        have hc : c.Sound P m''.heap := Class.Sound.mono hsuperclass hfollows'.heap
        refine .bind (agree_bindMethod hs'' (hc.findMethod? hfound) hobject)
          fun f m''' _ hs''' hf ↦ ?_
        exact .pure hs''' hf.1
      · exact agree_fault hs'' ..
    · exact agree_fault hs'' ..

theorem agree_methodsOf {closure : ScopeRef} (methods : List (Routine Stmt)) :
    ∀ m : Machine, m.heap.Sound P → m.heap.Mirrors closure scopes →
      (∀ site ∈ Stmt.sitesMethods (scopes.openWith "this") methods, P site) →
      Stmt.OrderlyMethods methods →
      Agree P (methodsOf closure methods) (methodsOf closure methods) m fun fs h ↦
        ∀ p ∈ fs, p.2.SoundMethod P h := by
  induction methods with
  | nil => exact fun m hs _ _ _ ↦ .pure hs fun p hp ↦ absurd hp List.not_mem_nil
  | cons method rest ih =>
    intro m hs hmirrors hsites horderly
    rw [Stmt.sitesMethods] at hsites
    rw [Stmt.OrderlyMethods] at horderly
    obtain ⟨hmethod, hrest⟩ := List.forall_mem_append.1 hsites
    refine .bind (agree_newFunction (Q := fun f h ↦ f.SoundMethod P h) hs
      fun f h hext hroutine hclosure ↦ ?_) fun f m' hfollows hs' hf ↦ ?_
    · refine ⟨scopes, hclosure ▸ hmirrors.mono hext, ?_, ?_⟩
      · rw [hroutine]
        exact hmethod
      · rw [hroutine]
        exact horderly.1
    · refine .bind (ih m' hs' (hmirrors.mono hfollows.heap) hrest horderly.2)
        fun fs m'' hfollows' hs'' hfs ↦ ?_
      exact .pure hs'' (List.forall_mem_cons.2 ⟨hf.mono hfollows'.heap, hfs⟩)

theorem agree_finishClass (hs : m.heap.Sound P) {name : Token} {make : Layer → Class}
    {methods : List (String × Function)}
    (hmake : ∀ own h, m.heap.Extends h → own.methods = .ofList methods → (make own).Sound P h) :
    Agree P (finishClass name make methods) (finishClass name make methods) m fun _ _ ↦ True := by
  refine .bind (.onHeap (Q := fun _ _ ↦ True) (Heap.extends_freshIdentity _) hs.freshIdentity
    trivial) fun identity m' hfollows hs' _ ↦ .get ?_
  exact agree_assignIn hs' (show (Value.cls _).Sound P m'.heap from hmake _ _ hfollows.heap rfl) ..

theorem agree_declareClass (hevaluate : EvaluateAlike P addresses evaluate evaluate')
    {name : Token} {superclass : Option Expr} {methods : List (Routine Stmt)}
    (hm : m.Stands P addresses scopes)
    (hsites : ∀ site ∈ (Stmt.classDecl name superclass methods).sites scopes, P site)
    (horderly : Stmt.OrderlyMethods methods) :
    Agree P (declareClass evaluate name superclass methods)
      (declareClass evaluate' name superclass methods) m fun _ h ↦
        h.Mirrors m.current (scopes.enter name.lexeme true) := by
  rw [Stmt.sites] at hsites
  obtain ⟨hsuperclass, hmethods⟩ := List.forall_mem_append.1 hsites
  refine .bind (agree_define hm.sound (show Value.nil.Sound P _ from trivial) hm.mirrors)
    fun _ m₁ hfollows₁ hs₁ hmirrors₁ ↦ ?_
  have hm₁ : m₁.Stands P addresses (scopes.enter name.lexeme true) :=
    ⟨hfollows₁.addresses.trans hm.addresses, hs₁, hfollows₁.current ▸ hmirrors₁⟩
  have hroot : ∀ {fs : List (String × Function)} {h h' : Heap},
      (∀ p ∈ fs, p.2.SoundMethod P h) → h.Extends h' → ∀ name f,
        (Bindings.ofList fs).get? name = some f → f.SoundMethod P h' :=
    fun hfs hext _ f hf ↦ (hfs _ (Bindings.mem_of_get?_ofList hf)).mono hext
  cases superclass with
  | none =>
    refine .get (.bind (agree_methodsOf methods m₁ hs₁ hm₁.mirrors hmethods horderly)
      fun fs m₂ hfollows₂ hs₂ hfs ↦ ?_)
    refine (agree_finishClass hs₂ fun own h hext hown layer hlayer ↦ ?_).mono
      fun _ m₃ hfollows₃ _ ↦ ?_
    · cases List.mem_singleton.1 hlayer
      rw [hown]
      exact hroot hfs hext
    · exact (hmirrors₁.mono hfollows₂.heap).mono hfollows₃.heap
  | some e =>
    refine .bind (hevaluate e _ m₁ hm₁ hsuperclass) fun v m₂ hfollows₂ hs₂ hv ↦ ?_
    split
    · rename_i c
      have hc : c.Sound P m₂.heap := hv
      have hm₂ := hm₁.follow hfollows₂ hs₂
      have hopened := agree_openWith hs₂ hm₂.mirrors "super" (.cls c) hc
      refine .get (hopened.bind fun closure m₃ hfollows₃ hs₃ hmirrors₃ ↦ ?_)
      rw [inScope_methodsOf]
      refine .bind (agree_methodsOf methods m₃ hs₃ hmirrors₃ hmethods horderly)
        fun fs m₄ hfollows₄ hs₄ hfs ↦ ?_
      refine (agree_finishClass hs₄ fun own h hext hown layer hlayer ↦ ?_).mono
        fun _ m₅ hfollows₅ _ ↦ ?_
      · rcases List.mem_cons.1 hlayer with rfl | hlayer
        · rw [hown]
          exact hroot hfs hext
        · exact ((hc.mono hfollows₃.heap).mono hfollows₄.heap).mono hext layer hlayer
      · have hbefore := hfollows₂.trans hfollows₃
        have hmade := hfollows₄.trans hfollows₅
        exact hmirrors₁.mono (hbefore.trans hmade).heap
    · exact agree_fault hs₂ ..

/-! ### Expressions, statements and runs -/

theorem agree_ofExcept (hs : m.heap.Sound P) (line : Nat) {result : Except RuntimeFault Value}
    (hresult : ∀ v, result = .ok v → v.Sound P m.heap) :
    Agree P (ofExcept line result) (ofExcept line result) m fun v h ↦ v.Sound P h := by
  cases result with
  | ok v => exact .pure hs (hresult v rfl)
  | error cause => exact agree_fault hs ..

theorem EvaluateAlike.step (hevaluate : EvaluateAlike P addresses evaluate evaluate')
    (hexecute : ExecuteAlike P addresses execute execute') :
    EvaluateAlike P addresses (evaluateWith evaluate execute)
      (evaluateWith evaluate' execute') := by
  intro e scopes m hm hsites
  cases e with
  | literal value => exact .pure hm.sound (sound_of_isData (Value.isData_ofLiteral value))
  | grouping inner => exact hevaluate inner scopes m hm hsites
  | unary op operand =>
    refine .bind (hevaluate operand scopes m hm hsites) fun v m' _ hs _ ↦ ?_
    exact agree_ofExcept hs op.line fun _ hv ↦ sound_of_isData (Value.isData_of_unary hv)
  | binary op left right =>
    obtain ⟨hleft, hright⟩ := List.forall_mem_append.1 hsites
    refine .bind (hevaluate left scopes m hm hleft) fun a m' hfollows hs _ ↦ ?_
    refine .bind (hevaluate right scopes m' (hm.follow hfollows hs) hright) fun b m'' _ hs' _ ↦ ?_
    exact agree_ofExcept hs' op.line fun _ hv ↦ sound_of_isData (Value.isData_of_binary hv)
  | logical op left right =>
    obtain ⟨hleft, hright⟩ := List.forall_mem_append.1 hsites
    refine .bind (hevaluate left scopes m hm hleft) fun a m' hfollows hs ha ↦ ?_
    exact .ite (fun _ ↦ .pure hs ha) fun _ ↦
      hevaluate right scopes m' (hm.follow hfollows hs) hright
  | var id name => exact .get (agree_valueIn hm.sound ..)
  | assign id name value =>
    refine .bind (hevaluate value scopes m hm (List.forall_mem_append.1 hsites).1)
      fun v m' hfollows hs hv ↦ ?_
    refine .bind (agree_assign hs hv ..) fun _ m'' hfollows' hs' _ ↦ ?_
    exact .pure hs' (hv.mono hfollows'.heap)
  | call callee paren arguments =>
    obtain ⟨hcallee, harguments⟩ := List.forall_mem_append.1 hsites
    refine .bind (hevaluate callee scopes m hm hcallee) fun v m' hfollows hs hv ↦ ?_
    split
    · exact agree_fault hs ..
    · rename_i target htarget
      have hm' := hm.follow hfollows hs
      refine .bind (agree_valuesOf hevaluate arguments m' hm' harguments)
        fun vs m'' hfollows' hs' hvs ↦ ?_
      refine .ite (fun _ ↦ .bind (Q := fun _ _ ↦ False) (agree_fault hs' ..) fun _ _ _ _ h ↦ h.elim)
        fun harity ↦ ?_
      refine agree_call hexecute (hfollows'.addresses.trans hm'.addresses) hs' ?_ hvs
        (Decidable.not_not.1 harity)
      exact (soundCallee_of_callee? hv htarget).mono hfollows'.heap
  | get object name =>
    refine .bind (hevaluate object scopes m hm hsites) fun v m' _ hs hv ↦ ?_
    split
    · exact agree_property hs hv name
    · exact agree_fault hs ..
  | set object name value =>
    obtain ⟨hvalue, hobject⟩ := List.forall_mem_append.1 hsites
    refine .bind (hevaluate object scopes m hm hobject) fun v m' hfollows hs _ ↦ ?_
    split
    · rename_i i _
      refine .bind (hevaluate value scopes m' (hm.follow hfollows hs) hvalue)
        fun w m'' _ hs' hw ↦ ?_
      refine .bind (.modifyHeap (·.setField i name.lexeme w) (Q := fun _ _ ↦ True)
        (Heap.extends_setField ..) (hs'.setField hw ..) trivial) fun _ m''' hfollows'' hs'' _ ↦ ?_
      exact .pure hs'' (hw.mono hfollows''.heap)
    · exact agree_fault hs ..
  | this id keyword => exact .get (agree_valueIn hm.sound ..)
  | super id keyword method => exact agree_superMethod hm.sound id keyword method

theorem ExecuteAlike.step (hevaluate : EvaluateAlike P addresses evaluate evaluate')
    (hexecute : ExecuteAlike P addresses execute execute') (rounds : Nat) :
    ExecuteAlike P addresses (executeWith evaluate execute rounds)
      (executeWith evaluate' execute' rounds) := by
  intro s scopes m hm hsites horderly
  cases s with
  | block body =>
    simp only [Stmt.sites, Stmt.Orderly] at hsites horderly
    refine (agree_block hexecute hm hsites horderly).mono fun flow m' hfollows hreturns ↦ ?_
    simp only [Stmt.scopesAfter]
    exact hreturns.fits (hm.mirrors.mono hfollows.heap)
  | classDecl name superclass methods =>
    rw [Stmt.Orderly] at horderly
    refine .bind (agree_declareClass hevaluate hm hsites horderly.2.2) fun _ m' _ hs hmirrors ↦ ?_
    refine .pure hs ?_
    simp only [Stmt.scopesAfter]
    exact hmirrors
  | expression e =>
    rw [Stmt.sites] at hsites
    refine .bind (hevaluate e scopes m hm hsites) fun v m' hfollows hs _ ↦ .pure hs ?_
    simp only [Stmt.scopesAfter]
    exact hm.mirrors.mono hfollows.heap
  | function routine =>
    rw [Stmt.sites] at hsites
    rw [Stmt.Orderly] at horderly
    refine .get (.bind (agree_newFunction (Q := fun f _ ↦ f.routine = routine ∧
      f.closure = m.current) hm.sound fun f h _ hroutine hclosure ↦ ⟨hroutine, hclosure⟩)
      fun f m' hfollows hs hf ↦ ?_)
    have hm' := hm.follow hfollows hs
    -- The function may call itself, so it is sound only in the heap where its name is bound.
    have hsound : Value.Sound P (m'.heap.define m'.current routine.name.lexeme (.function f))
        (.function f) := by
      refine ⟨scopes.enter routine.name.lexeme true, ?_, ?_⟩
      · rw [hf.2, ← hfollows.current]
        exact hm'.mirrors.define ..
      · rw [hf.1]
        exact ⟨hsites, horderly.2⟩
    refine .bind (agree_define hs hsound hm'.mirrors) fun _ m'' hfollows' hs' hmirrors ↦ ?_
    refine .pure hs' ?_
    simp only [Stmt.scopesAfter]
    exact hfollows.current ▸ hmirrors
  | ifElse condition thenBranch elseBranch =>
    simp only [Stmt.sites, Stmt.Orderly] at hsites horderly
    obtain ⟨hhead, helse⟩ := List.forall_mem_append.1 hsites
    obtain ⟨hcondition, hthen⟩ := List.forall_mem_append.1 hhead
    obtain ⟨-, ⟨horderly₁, hnothing⟩, horderly₂⟩ := horderly
    have hafter : (Stmt.ifElse condition thenBranch elseBranch).scopesAfter scopes = scopes := by
      rw [Stmt.scopesAfter, hnothing]
      cases elseBranch with
      | none => rw [Stmt.scopesAfterOption]
      | some other =>
        rw [Stmt.OrderlyOption] at horderly₂
        rw [Stmt.scopesAfterOption, horderly₂.2]
    rw [hnothing] at helse
    rw [hafter]
    refine .bind (hevaluate condition scopes m hm hcondition) fun v m' hfollows hs _ ↦ ?_
    have hm' := hm.follow hfollows hs
    have hbranch : ∀ s : Stmt, s.Orderly → (∀ site ∈ s.sites scopes, P site) →
        Agree P (execute s) (execute' s) m' fun flow h ↦ flow.Fits P h m.current scopes :=
      fun s hs hsites ↦ (hexecute s scopes m' hm' hsites hs).mono fun flow m'' hfollows' hfits ↦
        hfits.returns.fits (hm.mirrors.mono (hfollows.trans hfollows').heap)
    refine .ite (fun _ ↦ hbranch thenBranch horderly₁ hthen) fun _ ↦ ?_
    cases elseBranch with
    | none => exact .pure hs (hm.mirrors.mono hfollows.heap)
    | some other =>
      rw [Stmt.OrderlyOption] at horderly₂
      rw [Stmt.sitesOption] at helse
      exact hbranch other horderly₂.1 helse
  | print e =>
    rw [Stmt.sites] at hsites
    refine .bind (hevaluate e scopes m hm hsites) fun v m' hfollows hs _ ↦ ?_
    refine .bind (agree_printLine hs _) fun _ m'' hfollows' hs' _ ↦ .pure hs' ?_
    simp only [Stmt.scopesAfter]
    exact (hm.mirrors.mono hfollows.heap).mono hfollows'.heap
  | «return» keyword value =>
    rw [Stmt.sites] at hsites
    exact .bind (agree_valueOrNil hevaluate hm hsites) fun v m' _ hs hv ↦ .pure hs hv
  | var name initializer =>
    rw [Stmt.sites] at hsites
    have hpending : m.Stands P addresses (scopes.enter name.lexeme false) :=
      ⟨hm.addresses, hm.sound, hm.mirrors.enter_pending _⟩
    refine .bind (agree_valueOrNil hevaluate hpending hsites) fun v m' hfollows hs hv ↦ ?_
    refine .bind (agree_define hs (hv.mono (Heap.extends_define ..))
      (hm.follow hfollows hs).mirrors) fun _ m'' hfollows' hs' hmirrors ↦ .pure hs' ?_
    simp only [Stmt.scopesAfter]
    exact hfollows.current ▸ hmirrors
  | «while» condition body =>
    simp only [Stmt.sites, Stmt.Orderly] at hsites horderly
    obtain ⟨hcondition, hbody⟩ := List.forall_mem_append.1 hsites
    obtain ⟨-, horderly, hnothing⟩ := horderly
    refine (agree_loop (fun m hm ↦ hevaluate condition scopes m hm hcondition)
      (fun m hm ↦ (hexecute body scopes m hm hbody horderly).mono fun _ _ _ hfits ↦ hfits.returns)
      rounds m hm).mono fun flow m' hfollows hreturns ↦ ?_
    rw [Stmt.scopesAfter, hnothing]
    exact hreturns.fits (hm.mirrors.mono hfollows.heap)
  | «break» => exact .pure hm.sound trivial
  | «continue» => exact .pure hm.sound trivial

variable {watch : Expr → Run Unit}

/-- A watch that never objects at a node whose sites are as they should be, in a machine that stands
in the scopes around the node. -/
def Silent (P : Site → Prop) (addresses : Std.TreeMap NodeId Nat) (watch : Expr → Run Unit) :
    Prop :=
  ∀ e scopes m, m.Stands P addresses scopes → (∀ site ∈ e.sites scopes, P site) →
    watch e m = .ok () m

/-- By induction on the fuel: no watch that is silent is noticed. -/
theorem evaluate_and_execute_alike (hwatch : Silent P addresses watch) (fuel : Nat) :
    EvaluateAlike P addresses (Run.evaluate fuel) (evaluateWatched watch fuel) ∧
      ExecuteAlike P addresses (Run.execute fuel) (executeWatched watch fuel) := by
  induction fuel with
  | zero =>
    refine ⟨fun e scopes m hm _ ↦ ?_, fun s scopes m hm _ _ ↦ ?_⟩
    · rw [Run.evaluate]
      exact .throw hm.sound _
    · rw [Run.execute]
      exact .throw hm.sound _
  | succ fuel ih =>
    obtain ⟨hevaluate, hexecute⟩ := ih
    refine ⟨fun e scopes m hm hsites ↦ ?_, fun s scopes m hm hsites horderly ↦ ?_⟩
    · have hstep := hevaluate.step hexecute e scopes m hm hsites
      have hwatched : evaluateWatched watch (fuel + 1) e m =
          evaluateWith (evaluateWatched watch fuel) (executeWatched watch fuel) e m := by
        rw [evaluateWatched_succ]
        exact Computation.bind_of_ok (hwatch e scopes m hm hsites)
      rw [Run.evaluate]
      refine ⟨?_, hstep.2⟩
      rw [hwatched]
      exact hstep.1
    · rw [Run.execute, executeWatched_succ]
      exact hexecute.step hevaluate fuel s scopes m hm hsites horderly

theorem agree_program (hwatch : Silent P addresses watch) (fuel : Nat) (program : List Stmt) :
    ∀ m, m.Stands P addresses [] → (∀ site ∈ Stmt.sitesAll [] program, P site) →
      Stmt.OrderlyAll program →
      Agree P (Run.program fuel program) (programWatched watch fuel program) m fun _ _ ↦ True := by
  induction program with
  | nil => exact fun m hm _ _ ↦ agree_flush hm.sound
  | cons s rest ih =>
    intro m hm hsites horderly
    rw [Stmt.sitesAll] at hsites
    rw [Stmt.OrderlyAll] at horderly
    obtain ⟨hs, hrest⟩ := List.forall_mem_append.1 hsites
    have hexecute := (evaluate_and_execute_alike hwatch fuel).2 s [] m hm hs horderly.1
    refine .bind hexecute fun flow m' hfollows hsound _ ↦ ih m' (hm.follow hfollows hsound) ?_
      horderly.2
    rwa [Stmt.scopesAfter_nil] at hrest

end Steps

end Run

end Lox
