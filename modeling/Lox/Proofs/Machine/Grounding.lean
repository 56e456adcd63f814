import Lox.Proofs.Machine.Frame
import Lox.Proofs.Machine.Upholding

/-!
# Scopes that exist are left as they are

A machine is grounded if every scope lies in an older one and whatever it holds refers to scopes
that exist.  From a grounded machine, an expression or a block gives values to names of scopes that
exist, but it adds no name to them: whatever it declares lies in scopes that it opens itself.
-/

namespace Lox

/-- What happens to scopes while nothing is declared in the oldest of them. -/
structure Heap.Frames (old : Nat) (h h' : Heap) : Prop where
  size_le : h.scopes.size ≤ h'.scopes.size
  parent? : ∀ scope < h.scopes.size, h'.parent? scope = h.parent? scope
  holds : ∀ scope < old, ∀ name, h'.holds scope name = h.holds scope name
  parent_new : ∀ scope, h.scopes.size ≤ scope → scope < h'.scopes.size →
    ∃ parent < scope, h'.parent? scope = some parent

namespace Heap.Frames

variable {old : Nat} {h h' h'' : Heap}

theorem of_scopes_eq (heq : h'.scopes = h.scopes) : h.Frames old h' where
  size_le := Nat.le_of_eq (congrArg Array.size heq.symm)
  parent? scope _ := by rw [Heap.parent?, heq, Heap.parent?]
  holds scope _ name := by rw [Heap.holds, Heap.get?, heq, Heap.holds, Heap.get?]
  parent_new scope hge hlt := absurd (heq ▸ hlt) (Nat.not_lt_of_le hge)

theorem refl (h : Heap) : h.Frames old h :=
  of_scopes_eq rfl

theorem trans (first : h.Frames old h') (second : h'.Frames old h'') : h.Frames old h'' where
  size_le := Nat.le_trans first.size_le second.size_le
  parent? scope hscope := by
    calc h''.parent? scope
      _ = h'.parent? scope := second.parent? scope (Nat.lt_of_lt_of_le hscope first.size_le)
      _ = h.parent? scope := first.parent? scope hscope
  holds scope hscope name := by
    calc h''.holds scope name
      _ = h'.holds scope name := second.holds scope hscope name
      _ = h.holds scope name := first.holds scope hscope name
  parent_new scope hge hlt := by
    rcases Nat.lt_or_ge scope h'.scopes.size with hscope | hscope
    · obtain ⟨parent, hparent, heq⟩ := first.parent_new scope hge hscope
      exact ⟨parent, hparent, (second.parent? scope hscope).trans heq⟩
    · exact second.parent_new scope hscope hlt

theorem openScope (hold : old ≤ h.scopes.size) {parent : ScopeRef}
    (hparent : parent < h.scopes.size) (bindings : Bindings Value) :
    h.Frames old (h.openScope (some parent) bindings).2 where
  size_le := (extends_openScope ..).size_le
  parent? := (extends_openScope ..).parent?
  holds scope hscope name := by
    rw [Heap.holds, Heap.get?, getElem?_openScope h _ _ (Nat.lt_of_lt_of_le hscope hold)]
    rfl
  parent_new scope hge hlt := by
    have heq : scope = h.scopes.size := by
      simp only [Heap.openScope, Array.size_push] at hlt
      exact Nat.le_antisymm (Nat.le_of_lt_succ hlt) hge
    subst heq
    exact ⟨parent, hparent, parent?_openScope_self ..⟩

theorem define {scope : ScopeRef} {name : String} (value : Value)
    (hplace : old ≤ scope ∨ h.holds scope name = true) :
    h.Frames old (h.define scope name value) where
  size_le := (extends_define ..).size_le
  parent? := (extends_define ..).parent?
  holds other hother key := by
    by_cases heq : other = scope
    · subst heq
      have hname := hplace.resolve_left (Nat.not_le_of_lt hother)
      rw [Heap.holds, get?_define h (lt_size_of_holds hname)]
      by_cases hkey : key = name
      · rw [if_pos hkey, hkey]
        exact hname.symm
      · rw [if_neg hkey]
        rfl
    · rw [Heap.holds, get?_define_of_ne h heq]
      rfl
  parent_new other hge hlt := by
    simp only [Heap.define, Array.size_modify] at hlt
    exact absurd hlt (Nat.not_lt_of_le hge)

/-- The scopes around one that exists are those that were around it. -/
theorem ancestor? (hframes : h.Frames old h')
    (holder : ∀ scope parent, h.parent? scope = some parent → parent < scope) {scope : ScopeRef}
    (hscope : scope < h.scopes.size) (distance : Nat) :
    h'.ancestor? scope distance = h.ancestor? scope distance ∧
      ∀ target, h.ancestor? scope distance = some target → target < h.scopes.size := by
  induction distance generalizing scope with
  | zero =>
    refine ⟨rfl, ?_⟩
    rintro target ⟨⟩
    exact hscope
  | succ distance ih =>
    rw [Heap.ancestor?, Heap.ancestor?, hframes.parent? scope hscope]
    cases hparent : h.parent? scope with
    | none =>
      refine ⟨rfl, ?_⟩
      rintro target ⟨⟩
    | some parent => exact ih (Nat.lt_trans (holder scope parent hparent) hscope)

/-- Every chain of scopes ends, and where it ends one has ended before. -/
theorem ends (hframes : h.Frames old h')
    (holder : ∀ scope parent, h'.parent? scope = some parent → parent < scope) {scope : ScopeRef}
    (hscope : scope < h'.scopes.size) :
    ∃ distance root, h'.ancestor? scope distance = some root ∧ h'.parent? root = none ∧
      root < h.scopes.size ∧ h.parent? root = none := by
  induction scope using Nat.strongRecOn with
  | _ scope ih =>
    cases hparent : h'.parent? scope with
    | none =>
      have hlt : scope < h.scopes.size := by
        refine Nat.lt_of_not_le fun hge ↦ ?_
        obtain ⟨parent, -, hsome⟩ := hframes.parent_new scope hge hscope
        rw [hparent] at hsome
        cases hsome
      exact ⟨0, scope, rfl, hparent, hlt, (hframes.parent? scope hlt).symm.trans hparent⟩
    | some parent =>
      have hlt := holder scope parent hparent
      obtain ⟨distance, root, hroot, hrest⟩ := ih parent hlt (Nat.lt_trans hlt hscope)
      refine ⟨distance + 1, root, ?_, hrest⟩
      rw [Heap.ancestor?, hparent]
      exact hroot

end Heap.Frames

/-! ### The discipline -/

/-- Parents are older, closures exist, and the oldest scopes keep their names.  Statements are
executed in younger ones. -/
def Discipline.grounding (old : Nat) : Discipline where
  rules := .none
  shape h := old ≤ h.scopes.size ∧ ∀ scope parent, h.parent? scope = some parent → parent < scope
  step := Heap.Frames old
  binding _ _ := True
  function h f := f.closure < h.scopes.size
  method h _ f := f.closure < h.scopes.size
  inst _ _ := True
  site h scope := scope < h.scopes.size
  inside h scope := old ≤ scope ∧ scope < h.scopes.size

namespace Discipline

variable {old : Nat}

theorem grounding_lawful (old : Nat) : (grounding old).Lawful where
  step_refl := .refl
  step_trans := .trans
  function_mono hstep hf := Nat.lt_of_lt_of_le hf hstep.size_le
  method_mono hstep hf := Nat.lt_of_lt_of_le hf hstep.size_le
  inst_mono _ _ := trivial
  site_mono hstep hscope := Nat.lt_of_lt_of_le hscope hstep.size_le
  inside_mono hstep hscope := ⟨hscope.1, Nat.lt_of_lt_of_le hscope.2 hstep.size_le⟩
  site_of_inside hscope := hscope.2
  site_of_function hf := hf
  site_of_method hf := hf
  binding_of_name _ _ := trivial
  binding_this _ := trivial
  binding_super _ := trivial
  function_of_inside hf _ := hf.2
  function_of_this hf _ := hf
  method_of_inside hf _ := hf.2
  openScope {h parent} bindings hshape hparent := by
    have hframes := Heap.Frames.openScope hshape.1 hparent bindings
    refine ⟨⟨Nat.le_trans hshape.1 hframes.size_le, fun scope outer houter ↦ ?_⟩, hframes,
      hshape.1, ?_⟩
    · rcases Nat.lt_or_ge scope h.scopes.size with hscope | hscope
      · rw [hframes.parent? scope hscope] at houter
        exact hshape.2 scope outer houter
      · obtain ⟨found, hfound, heq⟩ :=
          hframes.parent_new scope hscope (Heap.lt_size_of_parent? houter)
        rw [heq] at houter
        cases houter
        exact hfound
    · simp [Heap.openScope]
  define {h scope name} value hshape hplace _ := by
    have hframes : h.Frames old (h.define scope name value) := .define value (hplace.imp_left (·.1))
    refine ⟨⟨Nat.le_trans hshape.1 hframes.size_le, fun other outer houter ↦ ?_⟩, hframes⟩
    rw [Heap.parent?_define] at houter
    exact hshape.2 other outer houter
  instantiate c hshape := ⟨hshape, .of_scopes_eq rfl, trivial⟩
  setField i name value hshape := ⟨hshape, .of_scopes_eq rfl⟩
  freshIdentity hshape := ⟨hshape, .of_scopes_eq rfl⟩

theorem grounding_within (old old' : Nat) (h : Heap) :
    (grounding old).Within (grounding old') h where
  rules := ⟨fun _ ↦ id, fun _ ↦ id, fun _ ↦ id⟩
  binding _ _ := id
  function _ := id
  method _ _ := id
  inst _ := id

end Discipline

/-- The machine stands in a scope that exists, every scope lies in an older one, and whatever
scopes, fields and classes hold refers to scopes that exist. -/
structure Machine.Grounded (m : Machine) : Prop where
  kept : (Discipline.grounding 0).Kept m.heap
  current : m.current < m.heap.scopes.size

/-- What expressions and blocks do to scopes: names and parents stay, a new scope lies in an older
one, and every chain ends where one ended before. -/
structure Machine.Framed (m m' : Machine) : Prop where
  frames : m.heap.Frames m.heap.scopes.size m'.heap
  grounded : m'.Grounded
  ends : ∀ scope < m'.heap.scopes.size, ∃ distance root,
    m'.heap.ancestor? scope distance = some root ∧ m'.heap.parent? root = none ∧
      root < m.heap.scopes.size ∧ m.heap.parent? root = none

namespace Run

/-- However a computation ends, it has left the scopes that were there as they were. -/
def Frames {α : Type} (x : Run α) (m : Machine) : Prop :=
  Computation.EndsIn m.Framed x m

/-- Halt with an alarm before a statement that is executed in one of the oldest scopes, or by a
machine that is not grounded. -/
noncomputable def demandNew (old : Nat) (alarm : Halt) : Oversight :=
  ⟨fun _ ↦ pure (), fun _ ↦ ensure (fun m ↦ m.Grounded ∧ old ≤ m.current) alarm⟩

/-- A scope is opened and still there however the computation ends. -/
def Opens {α : Type} (x : Run α) (m : Machine) : Prop :=
  Computation.EndsIn (fun m' ↦ m.heap.scopes.size < m'.heap.scopes.size) x m

theorem opens_of_sparing {α : Type} {x y : Run α} {m : Machine} {parent : ScopeRef}
    {bindings : Bindings Value} (hy : Sparing y)
    (heq : x m = y { m with heap := (m.heap.openScope (some parent) bindings).2 }) : Opens x m := by
  have hspares := hy { m with heap := (m.heap.openScope (some parent) bindings).2 }
  have hlt : m.heap.scopes.size < (m.heap.openScope (some parent) bindings).2.scopes.size := by
    simp [Heap.openScope]
  unfold Opens Computation.EndsIn
  rw [heq]
  generalize y _ = r at hspares ⊢
  cases r with
  | ok a m' => exact Nat.lt_of_lt_of_le hlt hspares.follows.heap.size_le
  | error halt m' => exact Nat.lt_of_lt_of_le hlt hspares.follows.heap.size_le

theorem opens_block (fuel : Nat) (body : List Stmt) (m : Machine) :
    Opens (block (execute fuel) body) m :=
  opens_of_sparing ((Sparing.sequence (Sparing.evaluate_and_execute fuel).2 body).inScope _) rfl

theorem opens_callFunction (fuel : Nat) (f : Function) (arguments : List Value) (m : Machine) :
    Opens (callFunction (execute fuel) f arguments) m := by
  refine opens_of_sparing (((Sparing.sequence (Sparing.evaluate_and_execute fuel).2
    f.routine.body).inScope m.heap.scopes.size).bind fun flow ↦ ?_) rfl
  split
  · exact .valueIn _ _ _
  · cases flow with
    | «return» value => exact .pure _
    | _ => exact .pure _

end Run

/-! ### Runs -/

section Runs

/-- Everything that a grounded machine does in scopes of its own. -/
noncomputable abbrev Machine.newScopes (m : Machine) (alarm : Halt) : Conduct :=
  .tolerant (.grounding m.heap.scopes.size) m.addresses (fun _ ↦ True)
    (Run.demandNew m.heap.scopes.size alarm) .blind fun _ ↦ False

variable {m : Machine} {α : Type} {x y : Run α} {Q : α → Machine → Prop} {alarm : Halt}

theorem Machine.newScopes_lawful (m : Machine) (alarm : Halt) : (m.newScopes alarm).Lawful :=
  Conduct.tolerant_lawful (Discipline.grounding_lawful _) Rules.none_governs
    (fun _ _ _ _ ↦ .inl ⟨rfl, rfl⟩) fun _ t _ ht ↦ by
      have hgrounded : t.Grounded :=
        ⟨ht.kept.imp (Discipline.grounding_within ..) ⟨Nat.zero_le _, ht.kept.shape.2⟩, ht.inside.2⟩
      have hnew : t.Grounded ∧ m.heap.scopes.size ≤ t.current := ⟨hgrounded, ht.inside.1⟩
      exact .inl ⟨if_pos hnew, rfl⟩

theorem Machine.newScopes_upholdsStmts (m : Machine) (alarm : Halt) (fuel : Nat) :
    (m.newScopes alarm).UpholdsStmts
      (Run.executeOverseen (Run.demandNew m.heap.scopes.size alarm) fuel) (Run.execute fuel) := by
  rw [← (Run.overseen_blind fuel).2]
  exact (Conduct.evaluate_and_execute_upheld (m.newScopes_lawful alarm) fuel).2

namespace Machine.Grounded

variable (hm : m.Grounded)
include hm

theorem stands (alarm : Halt) : (m.newScopes alarm).Stands m where
  kept := hm.kept.imp (Discipline.grounding_within ..) ⟨Nat.le_refl _, hm.kept.shape.2⟩
  addresses := rfl
  site := hm.current

theorem framed {m' : Machine} (hleads : (m.newScopes alarm).Leads m m') : m.Framed m' where
  frames := hleads.advances.step
  grounded :=
    { kept := hleads.advances.kept.imp (Discipline.grounding_within ..)
        ⟨Nat.zero_le _, hleads.advances.kept.shape.2⟩
      current := by
        rw [hleads.current]
        exact Nat.lt_of_lt_of_le hm.current hleads.advances.step.size_le }
  ends _ hscope := hleads.advances.step.ends hleads.advances.kept.shape.2 hscope

/-- What is upheld is done alike without the check, and frames the scopes. -/
theorem of_upholds (h : (m.newScopes alarm).Upholds x y m Q) : x m = y m ∧ Run.Frames y m := by
  have heq := h.eq_of_not_excused fun _ ↦ id
  have hends := h.endsIn.mono fun _ ↦ hm.framed
  unfold Computation.EndsIn at hends
  rw [heq] at hends
  exact ⟨heq, hends⟩

theorem upholds_evaluate (alarm : Halt) (fuel : Nat) (e : Expr) :
    (m.newScopes alarm).Upholds
      (Run.evaluateOverseen (Run.demandNew m.heap.scopes.size alarm) fuel e) (Run.evaluate fuel e) m
      fun v m' ↦ (m.newScopes alarm).Admits m'.heap v := by
  have hupheld := (Conduct.evaluate_and_execute_upheld (m.newScopes_lawful alarm) fuel).1 e m
    trivial (hm.stands alarm)
  rw [← (Run.overseen_blind fuel).1]
  exact hupheld

theorem evaluate (alarm : Halt) (fuel : Nat) (e : Expr) :
    Run.evaluateOverseen (Run.demandNew m.heap.scopes.size alarm) fuel e m = Run.evaluate fuel e m ∧
      Run.Frames (Run.evaluate fuel e) m :=
  hm.of_upholds (hm.upholds_evaluate alarm fuel e)

theorem block (alarm : Halt) (fuel : Nat) (body : List Stmt) :
    Run.block (Run.executeOverseen (Run.demandNew m.heap.scopes.size alarm) fuel) body m =
        Run.block (Run.execute fuel) body m ∧
      Run.Frames (Run.block (Run.execute fuel) body) m :=
  hm.of_upholds (.block (m.newScopes_lawful alarm) (m.newScopes_upholdsStmts alarm fuel)
    (Stmt.obeysAll_none body) (hm.stands alarm))

theorem call (alarm : Halt) (fuel : Nat) {v : Value} {callee : Callee}
    (hcallee : v.callee? = some callee) (hv : (Discipline.grounding 0).Admits m.heap v) (line : Nat)
    {arguments : List Value}
    (harguments : ∀ v ∈ arguments, (Discipline.grounding 0).Admits m.heap v) :
    Run.call (Run.executeOverseen (Run.demandNew m.heap.scopes.size alarm) fuel) callee line
        arguments m = Run.call (Run.execute fuel) callee line arguments m ∧
      Run.Frames (Run.call (Run.execute fuel) callee line arguments) m :=
  hm.of_upholds (.call (m.newScopes_lawful alarm) (m.newScopes_upholdsStmts alarm fuel)
    (hm.stands alarm).toSane
    (Conduct.admitsCallee_of_callee? (hv.imp (Discipline.grounding_within ..)) hcallee) line
    fun v hv ↦ (harguments v hv).imp (Discipline.grounding_within ..))

/-- A name that its scope does not hold cannot be assigned to, whatever the right side does. -/
theorem assign {id : NodeId} {name : Token}
    (hunbound : ∀ scope, m.scopeOf? id = some scope → m.heap.holds scope name.lexeme = false)
    (fuel : Nat) (value : Expr) :
    match Run.evaluate fuel value m with
    | .ok _ m' => Run.evaluate (fuel + 1) (.assign id name value) m =
        .error (.fault name.line (.undefinedVariable name.lexeme)) m'
    | .error halt m' => Run.evaluate (fuel + 1) (.assign id name value) m = .error halt m' := by
  have hupholds := hm.upholds_evaluate .exhausted fuel value
  have hends := hupholds.ends
  rw [(hm.evaluate .exhausted fuel value).1] at hends
  rw [Run.evaluate, Run.evaluateWith]
  cases h : Run.evaluate fuel value m with
  | error halt m' =>
    dsimp only
    exact Computation.bind_of_error h
  | ok v m' =>
    rw [h] at hends
    obtain ⟨⟨⟨hframes, -⟩, hcurrent, haddresses⟩, -⟩ := hends
    -- The scope found behind the right side is the one in front of it, with the same names.
    have hscope : m'.scopeOf? id = m.scopeOf? id ∧
        ∀ scope, m.scopeOf? id = some scope → scope < m.heap.scopes.size := by
      unfold Machine.scopeOf?
      rw [haddresses, hcurrent]
      cases m.addresses[id]? with
      | none =>
        refine ⟨rfl, ?_⟩
        rintro scope ⟨⟩
        exact Nat.lt_of_le_of_lt (Nat.zero_le _) hm.current
      | some depth => exact hframes.ancestor? hm.kept.shape.2 hm.current depth
    have hmissing : (m'.scopeOf? id).filter (m'.heap.holds · name.lexeme) = none := by
      rw [hscope.1, Option.filter_eq_none_iff]
      intro scope hfound
      rw [hframes.holds scope (hscope.2 scope hfound), hunbound scope hfound]
      exact Bool.false_ne_true
    dsimp only
    rw [Computation.bind_of_ok h]
    refine Computation.bind_of_error ?_
    change Run.assign id name v m' = _
    rw [Run.assign_eq, Computation.get_bind, Run.assignIn_eq, Computation.get_bind]
    simp only [hmissing]
    rfl

end Machine.Grounded

/-- Programs, too, leave the machine grounded. -/
theorem Machine.Grounded.program (hm : m.Grounded) (fuel : Nat) (statements : List Stmt) :
    Computation.EndsIn Machine.Grounded (Run.program fuel statements) m := by
  let C : Conduct := .tolerant (.grounding 0) m.addresses (fun _ ↦ True) .blind .blind fun _ ↦ False
  have L : C.Lawful := Conduct.tolerant_lawful (Discipline.grounding_lawful 0) Rules.none_governs
    (fun _ _ _ _ ↦ .inl ⟨rfl, rfl⟩) fun _ _ _ _ ↦ .inl ⟨rfl, rfl⟩
  have hinside : C.Inside m := ⟨⟨hm.kept, rfl⟩, Nat.zero_le _, hm.current⟩
  have hends := (Conduct.program_upheld L fuel (Stmt.obeysAll_none statements) hinside).endsIn
  rw [show C.first = .blind from rfl, Run.programOverseen_blind] at hends
  refine hends.mono fun m' hleads ↦ ?_
  exact ⟨hleads.advances.kept, (hinside.follow L hleads).inside.2⟩

end Runs

end Lox
