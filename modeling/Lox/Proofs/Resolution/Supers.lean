import Lox.Proofs.Resolution.Walk
import Lox.Proofs.Tree.Alike
import Lox.Proofs.Tree.Proper
import Std.Data.TreeMap

/-!
# Where `super` stands

A `super` belongs to the innermost method around it, across functions and blocks in between, but not
across classes.  The depth that resolution finds for it leads out of all these scopes and of that of
`this`, and no further (`Stmt.settledAll_of_records`).
-/

namespace Lox

mutual

/-- The nodes of `super` in an expression. -/
def Expr.supers : Expr → List NodeId
  | literal _ => []
  | grouping inner => inner.supers
  | unary _ operand => operand.supers
  | binary _ left right => left.supers ++ right.supers
  | logical _ left right => left.supers ++ right.supers
  | var _ _ => []
  | assign _ _ value => value.supers
  | call callee _ arguments => callee.supers ++ Expr.supersAll arguments
  | get object _ => object.supers
  | set object _ value => object.supers ++ value.supers
  | this _ _ => []
  | super id _ _ => [id]

def Expr.supersAll : List Expr → List NodeId
  | [] => []
  | e :: rest => e.supers ++ Expr.supersAll rest

end

theorem Expr.mem_supersAll {es : List Expr} {id : NodeId} :
    id ∈ Expr.supersAll es ↔ ∃ e ∈ es, id ∈ e.supers := by
  induction es with
  | nil => simp [Expr.supersAll]
  | cons e rest ih => simp [Expr.supersAll, ih]

theorem Expr.mem_supers_of_child {e inner : Expr} (h : inner ∈ e.children) {id : NodeId}
    (hid : id ∈ inner.supers) : id ∈ e.supers := by
  cases e with
  | call callee paren arguments =>
    rw [Expr.supers, List.mem_append, Expr.mem_supersAll]
    rcases List.mem_cons.1 h with rfl | hargument
    · exact .inl hid
    · exact .inr ⟨inner, hargument, hid⟩
  | _ =>
    rw [Expr.children] at h
    rw [Expr.supers]
    grind

mutual

theorem Expr.mem_ids_of_mem_supers {id : NodeId} : ∀ e : Expr, id ∈ e.supers → id ∈ e.ids
  | .grouping inner, h => Expr.mem_ids_of_mem_supers inner h
  | .unary _ operand, h => Expr.mem_ids_of_mem_supers operand h
  | .binary _ left right, h => List.mem_append.2 ((List.mem_append.1 h).imp
    (Expr.mem_ids_of_mem_supers left) (Expr.mem_ids_of_mem_supers right))
  | .logical _ left right, h => List.mem_append.2 ((List.mem_append.1 h).imp
    (Expr.mem_ids_of_mem_supers left) (Expr.mem_ids_of_mem_supers right))
  | .assign _ _ value, h => List.mem_append_left _ (Expr.mem_ids_of_mem_supers value h)
  | .call callee _ arguments, h => List.mem_append.2 ((List.mem_append.1 h).imp
    (Expr.mem_ids_of_mem_supers callee) (Expr.mem_idsAll_of_mem_supersAll arguments))
  | .get object _, h => Expr.mem_ids_of_mem_supers object h
  -- The identifiers of the value come first.
  | .set object _ value, h => List.mem_append.2 ((List.mem_append.1 h).symm.imp
    (Expr.mem_ids_of_mem_supers value) (Expr.mem_ids_of_mem_supers object))
  | .super _ _ _, h => h

theorem Expr.mem_idsAll_of_mem_supersAll {id : NodeId} :
    ∀ es : List Expr, id ∈ Expr.supersAll es → id ∈ Expr.idsAll es
  | e :: rest, h => List.mem_append.2 ((List.mem_append.1 h).imp
    (Expr.mem_ids_of_mem_supers e) (Expr.mem_idsAll_of_mem_supersAll rest))

end

/-- The nodes of `super` in an expression that may be missing, each with a number. -/
def Expr.supersOption (n : Nat) : Option Expr → List (NodeId × Nat)
  | none => []
  | some e => e.supers.map (·, n)

mutual

/-- The nodes of `super` in a statement that belong to the method around it, each with the number of
scopes between it and the scope of `this`, if there are `n` of them around the statement. -/
def Stmt.supers (n : Nat) : Stmt → List (NodeId × Nat)
  | block body => Stmt.supersAll (n + 1) body
  | classDecl _ superclass _ => Expr.supersOption n superclass
  | expression e => e.supers.map (·, n)
  | function routine => Stmt.supersRoutine (n + 1) routine
  | ifElse condition thenBranch elseBranch =>
    condition.supers.map (·, n) ++ thenBranch.supers n ++ Stmt.supersOption n elseBranch
  | print e => e.supers.map (·, n)
  | .return _ value => Expr.supersOption n value
  | var _ initializer => Expr.supersOption n initializer
  | .while condition body => condition.supers.map (·, n) ++ body.supers n
  | .break _ => []
  | .continue _ => []

def Stmt.supersAll (n : Nat) : List Stmt → List (NodeId × Nat)
  | [] => []
  | s :: rest => s.supers n ++ Stmt.supersAll n rest

def Stmt.supersOption (n : Nat) : Option Stmt → List (NodeId × Nat)
  | none => []
  | some s => s.supers n

/-- The nodes of `super` in the body of a routine, with `n` scopes around its statements. -/
def Stmt.supersRoutine (n : Nat) : Routine Stmt → List (NodeId × Nat)
  | ⟨_, _, body⟩ => Stmt.supersAll n body

end

theorem Stmt.supersRoutine_eq (n : Nat) (routine : Routine Stmt) :
    Stmt.supersRoutine n routine = Stmt.supersAll n routine.body := by
  obtain ⟨_, _, _⟩ := routine
  rw [Stmt.supersRoutine]

/-- The nodes of `super` that belong to a method.  The scope of its body is the only one between its
statements and the scope of `this`. -/
def Routine.supers (method : Routine Stmt) : List (NodeId × Nat) :=
  Stmt.supersRoutine 1 method

/-! ### Methods with the depths of their nodes -/

/-- A node that stands in a subclass, and whose depth leads just out of the scope of `this`. -/
def SuperRecorded (addresses : Std.TreeMap NodeId Nat) (inherits : Bool) (p : NodeId × Nat) :
    Prop :=
  inherits = true ∧ addresses[p.1]? = some (p.2 + 1)

mutual

/-- In all classes that a statement declares, and in the classes inside them, the nodes of `super`
that belong to a method have their depths. -/
def Stmt.Settled (addresses : Std.TreeMap NodeId Nat) : Stmt → Prop
  | block body => Stmt.SettledAll addresses body
  | classDecl _ superclass methods => Stmt.SettledMethods addresses superclass.isSome methods
  | function routine => Stmt.SettledRoutine addresses routine
  | ifElse _ thenBranch elseBranch =>
    thenBranch.Settled addresses ∧ Stmt.SettledOption addresses elseBranch
  | .while _ body => body.Settled addresses
  | expression _ => True
  | print _ => True
  | .return _ _ => True
  | var _ _ => True
  | .break _ => True
  | .continue _ => True

def Stmt.SettledAll (addresses : Std.TreeMap NodeId Nat) : List Stmt → Prop
  | [] => True
  | s :: rest => s.Settled addresses ∧ Stmt.SettledAll addresses rest

def Stmt.SettledOption (addresses : Std.TreeMap NodeId Nat) : Option Stmt → Prop
  | none => True
  | some s => s.Settled addresses

def Stmt.SettledRoutine (addresses : Std.TreeMap NodeId Nat) : Routine Stmt → Prop
  | ⟨_, _, body⟩ => Stmt.SettledAll addresses body

def Stmt.SettledMethods (addresses : Std.TreeMap NodeId Nat) (inherits : Bool) :
    List (Routine Stmt) → Prop
  | [] => True
  | method :: rest =>
    (∀ p ∈ method.supers, SuperRecorded addresses inherits p) ∧
      Stmt.SettledRoutine addresses method ∧ Stmt.SettledMethods addresses inherits rest

end

theorem Stmt.settledRoutine_iff {addresses : Std.TreeMap NodeId Nat} {routine : Routine Stmt} :
    Stmt.SettledRoutine addresses routine ↔ Stmt.SettledAll addresses routine.body := by
  obtain ⟨_, _, _⟩ := routine
  rw [Stmt.SettledRoutine]

theorem Stmt.obeysMethods_iff {rules : Rules} {methods : List (Routine Stmt)} :
    Stmt.ObeysMethods rules methods ↔ ∀ method ∈ methods, Stmt.ObeysRoutine rules method := by
  induction methods with
  | nil => simp [Stmt.ObeysMethods]
  | cons method rest ih => rw [Stmt.ObeysMethods, ih, List.forall_mem_cons]

theorem Stmt.settledMethods_iff {addresses : Std.TreeMap NodeId Nat} {inherits : Bool}
    {methods : List (Routine Stmt)} :
    Stmt.SettledMethods addresses inherits methods ↔ ∀ method ∈ methods,
      (∀ p ∈ method.supers, SuperRecorded addresses inherits p) ∧
        Stmt.SettledRoutine addresses method := by
  induction methods with
  | nil => simp [Stmt.SettledMethods]
  | cons method rest ih => rw [Stmt.SettledMethods, ih, List.forall_mem_cons, and_assoc]

/-- Whatever depth is known stays known. -/
def DepthsKept (addresses addresses' : Std.TreeMap NodeId Nat) : Prop :=
  ∀ (id : NodeId) (depth : Nat), addresses[id]? = some depth → addresses'[id]? = some depth

section DepthsKept

variable {addresses addresses' : Std.TreeMap NodeId Nat}

theorem SuperRecorded.mono (h : DepthsKept addresses addresses') {inherits : Bool}
    {p : NodeId × Nat} (hp : SuperRecorded addresses inherits p) :
    SuperRecorded addresses' inherits p :=
  ⟨hp.1, h _ _ hp.2⟩

mutual

theorem Stmt.Settled.mono (h : DepthsKept addresses addresses') :
    ∀ s : Stmt, s.Settled addresses → s.Settled addresses'
  | .block body, hs => by
    rw [Stmt.Settled] at hs ⊢
    exact Stmt.SettledAll.mono h body hs
  | .classDecl _ _ methods, hs => by
    rw [Stmt.Settled] at hs ⊢
    exact Stmt.SettledMethods.mono h methods hs
  | .function routine, hs => by
    rw [Stmt.Settled] at hs ⊢
    exact Stmt.SettledRoutine.mono h routine hs
  | .ifElse _ thenBranch elseBranch, hs => by
    rw [Stmt.Settled] at hs ⊢
    exact ⟨Stmt.Settled.mono h thenBranch hs.1, Stmt.SettledOption.mono h elseBranch hs.2⟩
  | .while _ body, hs => by
    rw [Stmt.Settled] at hs ⊢
    exact Stmt.Settled.mono h body hs
  | .expression _, _ => by simp only [Stmt.Settled]
  | .print _, _ => by simp only [Stmt.Settled]
  | .return _ _, _ => by simp only [Stmt.Settled]
  | .var _ _, _ => by simp only [Stmt.Settled]
  | .break _, _ => by simp only [Stmt.Settled]
  | .continue _, _ => by simp only [Stmt.Settled]

theorem Stmt.SettledAll.mono (h : DepthsKept addresses addresses') :
    ∀ ss : List Stmt, Stmt.SettledAll addresses ss → Stmt.SettledAll addresses' ss
  | [], _ => by simp only [Stmt.SettledAll]
  | s :: rest, hss => by
    rw [Stmt.SettledAll] at hss ⊢
    exact ⟨Stmt.Settled.mono h s hss.1, Stmt.SettledAll.mono h rest hss.2⟩

theorem Stmt.SettledOption.mono (h : DepthsKept addresses addresses') :
    ∀ o : Option Stmt, Stmt.SettledOption addresses o → Stmt.SettledOption addresses' o
  | none, _ => by simp only [Stmt.SettledOption]
  | some s, ho => by
    rw [Stmt.SettledOption] at ho ⊢
    exact Stmt.Settled.mono h s ho

theorem Stmt.SettledRoutine.mono (h : DepthsKept addresses addresses') :
    ∀ routine : Routine Stmt, Stmt.SettledRoutine addresses routine →
      Stmt.SettledRoutine addresses' routine
  | ⟨_, _, body⟩, hr => by
    rw [Stmt.SettledRoutine] at hr ⊢
    exact Stmt.SettledAll.mono h body hr

theorem Stmt.SettledMethods.mono (h : DepthsKept addresses addresses') {inherits : Bool} :
    ∀ methods : List (Routine Stmt), Stmt.SettledMethods addresses inherits methods →
      Stmt.SettledMethods addresses' inherits methods
  | [], _ => by simp only [Stmt.SettledMethods]
  | method :: rest, hms => by
    rw [Stmt.SettledMethods] at hms ⊢
    exact ⟨fun p hp ↦ (hms.1 p hp).mono h, Stmt.SettledRoutine.mono h method hms.2.1,
      Stmt.SettledMethods.mono h rest hms.2.2⟩

end

end DepthsKept

/-! ### How far out `super` is -/

namespace Scopes

theorem depth?_cons_empty (scopes : Scopes) (name : String) :
    depth? ({} :: scopes) name = (scopes.depth? name).map (· + 1) := by
  rw [depth?, List.findIdx?_cons]
  rfl

theorem depth?_enter {name other : String} (hne : other ≠ name) (scopes : Scopes) (ready : Bool) :
    (scopes.enter name ready).depth? other = scopes.depth? other := by
  cases scopes with
  | nil => rfl
  | cons inner outer =>
    have hcontains : (inner.set name ready).contains other = inner.contains other := by
      rw [Bindings.contains, Bindings.contains, Bindings.get?_set, if_neg hne]
    rw [enter, depth?, depth?, List.findIdx?_cons, List.findIdx?_cons, hcontains]

theorem depth?_enterAll {names : List Token} {other : String}
    (hne : ∀ name ∈ names, other ≠ name.lexeme) (scopes : Scopes) :
    (scopes.enterAll names).depth? other = scopes.depth? other := by
  induction names generalizing scopes with
  | nil => rfl
  | cons name rest ih =>
    obtain ⟨hfirst, hrest⟩ := List.forall_mem_cons.1 hne
    calc (scopes.enterAll (name :: rest)).depth? other
      _ = (scopes.enter name.lexeme true).depth? other := ih hrest _
      _ = scopes.depth? other := depth?_enter hfirst scopes true

theorem enterAll_ofParameters (scopes : Scopes) (params : List Token) :
    (Finding.ofParameters scopes params).2 = scopes.enterAll params := by
  induction params generalizing scopes with
  | nil => rfl
  | cons param rest ih => exact ih _

theorem depth?_aroundMethods (scopes : Scopes) (superclass : Expr) :
    (scopes.aroundMethods (some superclass)).depth? "super" = some 1 := by
  rw [aroundMethods, openWith, openWith, depth?, List.findIdx?_cons, List.findIdx?_cons,
    contains_set, contains_set]
  rfl

/-- In a subclass `super` is found `n` scopes outside of the scope of `this`. -/
def Lead (scopes : Scopes) (cls : ClassContext) (n : Nat) : Prop :=
  cls = .subclass → scopes.depth? "super" = some (n + 1)

end Scopes

/-- Nothing is declared under a name that classes keep for themselves. -/
theorem ne_super_of_not_reserved {name : String} (h : ¬Reserved name) : "super" ≠ name :=
  fun heq ↦ h (.inr heq.symm)

mutual

theorem Stmt.not_reserved_of_declared :
    ∀ s : Stmt, s.Obeys (.proper fun _ ↦ True) → ∀ name ∈ s.declared, ¬Reserved name.lexeme
  | .classDecl name _ _, hs => by
    rw [Stmt.Obeys] at hs
    rw [Stmt.declared]
    exact List.forall_mem_singleton.2 hs.1
  | .function routine, hs => by
    rw [Stmt.Obeys] at hs
    rw [Stmt.declared]
    exact List.forall_mem_singleton.2 hs.1
  | .var name _, hs => by
    rw [Stmt.Obeys] at hs
    rw [Stmt.declared]
    exact List.forall_mem_singleton.2 hs.1
  | .ifElse _ thenBranch elseBranch, hs => by
    rw [Stmt.Obeys] at hs
    rw [Stmt.declared]
    exact List.forall_mem_append.2 ⟨thenBranch.not_reserved_of_declared hs.2.1,
      Stmt.not_reserved_of_declaredOption elseBranch hs.2.2⟩
  | .while _ body, hs => by
    rw [Stmt.Obeys] at hs
    rw [Stmt.declared]
    exact body.not_reserved_of_declared hs.2
  | .block _, _ => by simp [Stmt.declared]
  | .expression _, _ => by simp [Stmt.declared]
  | .print _, _ => by simp [Stmt.declared]
  | .return _ _, _ => by simp [Stmt.declared]
  | .break _, _ => by simp [Stmt.declared]
  | .continue _, _ => by simp [Stmt.declared]

theorem Stmt.not_reserved_of_declaredOption :
    ∀ o : Option Stmt, Stmt.ObeysOption (.proper fun _ ↦ True) o →
      ∀ name ∈ Stmt.declaredOption o, ¬Reserved name.lexeme
  | none, _ => by simp [Stmt.declaredOption]
  | some s, ho => by
    rw [Stmt.ObeysOption] at ho
    rw [Stmt.declaredOption]
    exact s.not_reserved_of_declared ho

end

namespace Scopes.Lead

variable {scopes : Scopes} {cls : ClassContext} {n : Nat}

theorem enter (h : scopes.Lead cls n) {name : String} (hname : ¬Reserved name) (ready : Bool) :
    (scopes.enter name ready).Lead cls n := by
  intro hcls
  rw [depth?_enter (ne_super_of_not_reserved hname)]
  exact h hcls

theorem cons_empty (h : scopes.Lead cls n) : Lead ({} :: scopes) cls (n + 1) := by
  intro hcls
  rw [depth?_cons_empty, h hcls]
  rfl

theorem enterAll (h : scopes.Lead cls n) {names : List Token}
    (hnames : ∀ name ∈ names, ¬Reserved name.lexeme) : (scopes.enterAll names).Lead cls n := by
  intro hcls
  rw [depth?_enterAll fun name hname ↦ ne_super_of_not_reserved (hnames name hname)]
  exact h hcls

theorem scopesAfter (h : scopes.Lead cls n) {s : Stmt} (hs : s.Obeys (.proper fun _ ↦ True)) :
    (s.scopesAfter scopes).Lead cls n := by
  rw [Stmt.scopesAfter_eq]
  exact h.enterAll (s.not_reserved_of_declared hs)

theorem aroundMethods (scopes : Scopes) (superclass : Option Expr) :
    (scopes.aroundMethods superclass).Lead (if superclass.isSome then .subclass else .plain) 0 := by
  intro hcls
  cases superclass with
  | none => cases hcls
  | some e => exact scopes.depth?_aroundMethods e

end Scopes.Lead

/-! ### What is found -/

/-- No rule is broken, and every depth that is found is recorded. -/
def Records (addresses : Std.TreeMap NodeId Nat) (findings : List Finding) : Prop :=
  ∀ f ∈ findings, f.violation? = none ∧
    ∀ id depth, f.address? = some (id, depth) → addresses[id]? = some depth

section Records

variable {addresses : Std.TreeMap NodeId Nat} {context : Context} {scopes : Scopes} {n : Nat}

theorem Records.append_iff {found more : List Finding} :
    Records addresses (found ++ more) ↔ Records addresses found ∧ Records addresses more :=
  List.forall_mem_append

/-- The node stands in a subclass. -/
abbrev Context.inherits (context : Context) : Bool :=
  context.cls = .subclass

theorem Expr.superRecorded {id : NodeId} {keyword method : Token}
    (hscopes : scopes.Lead context.cls n) (hkeyword : keyword.lexeme = "super")
    (h : Records addresses ((Expr.super id keyword method).findings context scopes)) :
    SuperRecorded addresses context.inherits (id, n) := by
  rw [Expr.findings, Records.append_iff] at h
  obtain ⟨hallowed, huse⟩ := h
  have hcls := Finding.subclass_of_ofSuper fun f hf ↦ (hallowed f hf).1
  refine ⟨decide_eq_true hcls, (huse _ List.mem_cons_self).2 id (n + 1) ?_⟩
  rw [Finding.ofUse, hkeyword, hscopes hcls]
  rfl

mutual

theorem Expr.supersRecorded (hscopes : scopes.Lead context.cls n) :
    ∀ e : Expr, e.Proper (fun _ ↦ True) → Records addresses (e.findings context scopes) →
      ∀ id ∈ e.supers, SuperRecorded addresses context.inherits (id, n)
  | .literal _, _, _ => List.forall_mem_nil _
  | .grouping inner, he, h => Expr.supersRecorded hscopes inner he h
  | .unary _ operand, he, h => Expr.supersRecorded hscopes operand he.2 h
  | .binary _ left right, he, h => by
    obtain ⟨hleft, hright⟩ := Records.append_iff.1 h
    exact List.forall_mem_append.2 ⟨Expr.supersRecorded hscopes left he.2.1 hleft,
      Expr.supersRecorded hscopes right he.2.2 hright⟩
  | .logical _ left right, he, h => by
    obtain ⟨hleft, hright⟩ := Records.append_iff.1 h
    exact List.forall_mem_append.2 ⟨Expr.supersRecorded hscopes left he.1 hleft,
      Expr.supersRecorded hscopes right he.2 hright⟩
  | .var _ _, _, _ => List.forall_mem_nil _
  | .assign _ _ value, he, h =>
    Expr.supersRecorded hscopes value he.2 (Records.append_iff.1 h).1
  | .call callee _ arguments, he, h => by
    obtain ⟨hcallee, harguments⟩ := Records.append_iff.1 h
    exact List.forall_mem_append.2 ⟨Expr.supersRecorded hscopes callee he.1 hcallee,
      Expr.supersRecordedAll hscopes arguments he.2 harguments⟩
  | .get object _, he, h => Expr.supersRecorded hscopes object he h
  | .set object _ value, he, h => by
    obtain ⟨hvalue, hobject⟩ := Records.append_iff.1 h
    exact List.forall_mem_append.2 ⟨Expr.supersRecorded hscopes object he.1 hobject,
      Expr.supersRecorded hscopes value he.2 hvalue⟩
  | .this _ _, _, _ => List.forall_mem_nil _
  | .super _ _ _, he, h => List.forall_mem_singleton.2 (Expr.superRecorded hscopes he.1 h)

theorem Expr.supersRecordedAll (hscopes : scopes.Lead context.cls n) :
    ∀ es : List Expr, Expr.ProperAll (fun _ ↦ True) es →
      Records addresses (Expr.findingsAll context scopes es) →
      ∀ id ∈ Expr.supersAll es, SuperRecorded addresses context.inherits (id, n)
  | [], _, _ => List.forall_mem_nil _
  | e :: rest, hes, h => by
    obtain ⟨hfirst, hlater⟩ := Records.append_iff.1 h
    exact List.forall_mem_append.2 ⟨Expr.supersRecorded hscopes e hes.1 hfirst,
      Expr.supersRecordedAll hscopes rest hes.2 hlater⟩

end

theorem Expr.supersRecorded_map (hscopes : scopes.Lead context.cls n) (e : Expr)
    (he : e.Proper fun _ ↦ True) (h : Records addresses (e.findings context scopes)) :
    ∀ p ∈ e.supers.map (·, n), SuperRecorded addresses context.inherits p := by
  rw [List.forall_mem_map]
  exact Expr.supersRecorded hscopes e he h

theorem Expr.supersRecordedOption (hscopes : scopes.Lead context.cls n) {o : Option Expr}
    (ho : ∀ e, o = some e → e.Proper fun _ ↦ True)
    (h : Records addresses (Expr.findingsOption context scopes o)) :
    ∀ p ∈ Expr.supersOption n o, SuperRecorded addresses context.inherits p := by
  cases o with
  | none => exact List.forall_mem_nil _
  | some e => exact Expr.supersRecorded_map hscopes e (ho e rfl) h

end Records

mutual

/-- By induction on the statement: the depths found for `super` lead out of the scope of `this`. -/
theorem Stmt.settled_of_records {addresses : Std.TreeMap NodeId Nat} :
    ∀ (s : Stmt) {context : Context} {scopes : Scopes} {n : Nat}, scopes.Lead context.cls n →
      s.Obeys (.proper fun _ ↦ True) → Records addresses (s.findings context scopes) →
      s.Settled addresses ∧ ∀ p ∈ s.supers n, SuperRecorded addresses context.inherits p
  | .block body, context, scopes, n, hscopes, hs, h => by
    rw [Stmt.Obeys] at hs
    rw [Stmt.findings] at h
    rw [Stmt.Settled, Stmt.supers]
    exact Stmt.settledAll_of_records body hscopes.cons_empty hs h
  | .classDecl name superclass methods, context, scopes, n, hscopes, hs, h => by
    rw [Stmt.Obeys] at hs
    simp only [Stmt.findings] at h
    rw [Stmt.Settled, Stmt.supers]
    obtain ⟨hname, hsuperclass, hmethods⟩ := hs
    have hsettled := Stmt.settledMethods_of_records methods
      (Scopes.Lead.aroundMethods _ superclass) hmethods (Records.append_iff.1 h).2
    cases superclass with
    | none => exact ⟨hsettled, List.forall_mem_nil _⟩
    | some e =>
      -- The superclass is a name.
      obtain ⟨id, name, rfl, -⟩ := hsuperclass e rfl
      exact ⟨hsettled, List.forall_mem_nil _⟩
  | .expression e, context, scopes, n, hscopes, hs, h => by
    rw [Stmt.Obeys] at hs
    rw [Stmt.findings] at h
    rw [Stmt.Settled, Stmt.supers]
    exact ⟨trivial, Expr.supersRecorded_map hscopes e hs h⟩
  | .function routine, context, scopes, n, hscopes, hs, h => by
    rw [Stmt.Obeys] at hs
    rw [Stmt.findings] at h
    rw [Stmt.Settled, Stmt.supers]
    exact Stmt.settledRoutine_of_records routine { context with function := .function }
      (hscopes.enter hs.1 true) hs.2 (Records.append_iff.1 h).2
  | .ifElse condition thenBranch elseBranch, context, scopes, n, hscopes, hs, h => by
    rw [Stmt.Obeys] at hs
    rw [Stmt.findings] at h
    rw [Stmt.Settled, Stmt.supers]
    obtain ⟨hcondition, hthen, helse⟩ := hs
    obtain ⟨hhead, hother⟩ := Records.append_iff.1 h
    obtain ⟨htest, hbranch⟩ := Records.append_iff.1 hhead
    have htested := Expr.supersRecorded_map hscopes condition hcondition htest
    obtain ⟨hsettled, hrecorded⟩ := Stmt.settled_of_records thenBranch hscopes hthen hbranch
    obtain ⟨hsettled', hrecorded'⟩ :=
      Stmt.settledOption_of_records elseBranch (hscopes.scopesAfter hthen) helse hother
    exact ⟨⟨hsettled, hsettled'⟩, List.forall_mem_append.2
      ⟨List.forall_mem_append.2 ⟨htested, hrecorded⟩, hrecorded'⟩⟩
  | .print e, context, scopes, n, hscopes, hs, h => by
    rw [Stmt.Obeys] at hs
    rw [Stmt.findings] at h
    rw [Stmt.Settled, Stmt.supers]
    exact ⟨trivial, Expr.supersRecorded_map hscopes e hs h⟩
  | .return keyword value, context, scopes, n, hscopes, hs, h => by
    rw [Stmt.Obeys] at hs
    rw [Stmt.findings] at h
    rw [Stmt.Settled, Stmt.supers]
    exact ⟨trivial, Expr.supersRecordedOption hscopes hs (Records.append_iff.1 h).2⟩
  | .var name initializer, context, scopes, n, hscopes, hs, h => by
    rw [Stmt.Obeys] at hs
    rw [Stmt.findings] at h
    rw [Stmt.Settled, Stmt.supers]
    exact ⟨trivial, Expr.supersRecordedOption (hscopes.enter hs.1 false) hs.2
      (Records.append_iff.1 h).2⟩
  | .while condition body, context, scopes, n, hscopes, hs, h => by
    rw [Stmt.Obeys] at hs
    rw [Stmt.findings] at h
    rw [Stmt.Settled, Stmt.supers]
    obtain ⟨htest, hbody⟩ := Records.append_iff.1 h
    have htested := Expr.supersRecorded_map hscopes condition hs.1 htest
    obtain ⟨hsettled, hrecorded⟩ := Stmt.settled_of_records body hscopes hs.2 hbody
    exact ⟨hsettled, List.forall_mem_append.2 ⟨htested, hrecorded⟩⟩
  | .break _, _, _, _, _, _, _ => by simp [Stmt.Settled, Stmt.supers]
  | .continue _, _, _, _, _, _, _ => by simp [Stmt.Settled, Stmt.supers]

theorem Stmt.settledAll_of_records {addresses : Std.TreeMap NodeId Nat} :
    ∀ (ss : List Stmt) {context : Context} {scopes : Scopes} {n : Nat}, scopes.Lead context.cls n →
      Stmt.ObeysAll (.proper fun _ ↦ True) ss →
      Records addresses (Stmt.findingsAll context scopes ss) →
      Stmt.SettledAll addresses ss ∧
        ∀ p ∈ Stmt.supersAll n ss, SuperRecorded addresses context.inherits p
  | [], _, _, _, _, _, _ => by simp [Stmt.SettledAll, Stmt.supersAll]
  | s :: rest, context, scopes, n, hscopes, hss, h => by
    rw [Stmt.ObeysAll] at hss
    rw [Stmt.findingsAll] at h
    rw [Stmt.SettledAll, Stmt.supersAll]
    obtain ⟨hfirst, hlater⟩ := Records.append_iff.1 h
    obtain ⟨hsettled, hrecorded⟩ := Stmt.settled_of_records s hscopes hss.1 hfirst
    obtain ⟨hsettled', hrecorded'⟩ :=
      Stmt.settledAll_of_records rest (hscopes.scopesAfter hss.1) hss.2 hlater
    exact ⟨⟨hsettled, hsettled'⟩, List.forall_mem_append.2 ⟨hrecorded, hrecorded'⟩⟩

theorem Stmt.settledOption_of_records {addresses : Std.TreeMap NodeId Nat} :
    ∀ (o : Option Stmt) {context : Context} {scopes : Scopes} {n : Nat}, scopes.Lead context.cls n →
      Stmt.ObeysOption (.proper fun _ ↦ True) o →
      Records addresses (Stmt.findingsOption context scopes o) →
      Stmt.SettledOption addresses o ∧
        ∀ p ∈ Stmt.supersOption n o, SuperRecorded addresses context.inherits p
  | none, _, _, _, _, _, _ => by simp [Stmt.SettledOption, Stmt.supersOption]
  | some s, context, scopes, n, hscopes, ho, h => by
    rw [Stmt.ObeysOption] at ho
    rw [Stmt.findingsOption] at h
    rw [Stmt.SettledOption, Stmt.supersOption]
    exact Stmt.settled_of_records s hscopes ho h

theorem Stmt.settledRoutine_of_records {addresses : Std.TreeMap NodeId Nat} :
    ∀ (routine : Routine Stmt) (context : Context) {scopes : Scopes} {n : Nat},
      scopes.Lead context.cls n → Stmt.ObeysRoutine (.proper fun _ ↦ True) routine →
      Records addresses (Stmt.findingsRoutine context scopes routine) →
      Stmt.SettledRoutine addresses routine ∧
        ∀ p ∈ Stmt.supersRoutine (n + 1) routine, SuperRecorded addresses context.inherits p
  | ⟨_, params, body⟩, context, scopes, n, hscopes, hr, h => by
    rw [Stmt.ObeysRoutine] at hr
    rw [Stmt.findingsRoutine] at h
    rw [Stmt.SettledRoutine, Stmt.supersRoutine]
    have hinside := hscopes.cons_empty.enterAll hr.1
    rw [← Scopes.enterAll_ofParameters] at hinside
    exact Stmt.settledAll_of_records body hinside hr.2 (Records.append_iff.1 h).2

theorem Stmt.settledMethods_of_records {addresses : Std.TreeMap NodeId Nat} :
    ∀ (methods : List (Routine Stmt)) {context : Context} {scopes : Scopes},
      scopes.Lead context.cls 0 → Stmt.ObeysMethods (.proper fun _ ↦ True) methods →
      Records addresses (Stmt.findingsMethods context scopes methods) →
      Stmt.SettledMethods addresses context.inherits methods
  | [], _, _, _, _, _ => by rw [Stmt.SettledMethods]; trivial
  | method :: rest, context, scopes, hscopes, hms, h => by
    rw [Stmt.ObeysMethods] at hms
    rw [Stmt.findingsMethods] at h
    rw [Stmt.SettledMethods]
    obtain ⟨hfirst, hlater⟩ := Records.append_iff.1 h
    obtain ⟨hsettled, hrecorded⟩ :=
      Stmt.settledRoutine_of_records method (context.inMethod method.name) hscopes hms.1 hfirst
    exact ⟨hrecorded, hsettled, Stmt.settledMethods_of_records rest hscopes hms.2 hlater⟩

end

end Lox
