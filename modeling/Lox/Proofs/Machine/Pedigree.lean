import Lox.Proofs.Bindings
import Lox.Proofs.Computation
import Lox.Proofs.Machine.Homes
import Mathlib.Logic.Relation
import Mathlib.Order.WellFounded

/-!
# Pedigrees

A class comes of the execution of a declaration, and what it extends has come of an earlier one.
This is settled for good when the class is made, whatever happens to the names of classes later.  So
no class is ever reached from itself along what it extends, and the search for a method ends with
the last method of the name in the declaration of the nearest class that has one
(`Pedigree.searches_iff`, `Pedigree.nearest`).
-/

namespace Lox

/-- The last one of the methods that have a name. -/
def lastMethod? (key : String) (methods : List (Routine Stmt)) : Option (Routine Stmt) :=
  (methods.filter (·.name.lexeme = key)).getLast?

theorem lastMethod?_eq_none_iff {key : String} {methods : List (Routine Stmt)} :
    lastMethod? key methods = none ↔ ∀ r ∈ methods, r.name.lexeme ≠ key := by
  rw [lastMethod?, List.getLast?_eq_none_iff, List.filter_eq_nil_iff]
  simp only [decide_eq_true_eq, ne_eq]

namespace Class

/-- A class with a layer of its own. -/
def make (superclass : Option Class) (own : Layer) : Class :=
  superclass.elim (root own) (derived own)

@[simp] theorem own_make (superclass : Option Class) (own : Layer) :
    (make superclass own).own = own := by
  cases superclass with
  | _ => rfl

@[simp] theorem superclass?_make (superclass : Option Class) (own : Layer) :
    (make superclass own).superclass? = superclass := by
  cases superclass with
  | _ => rfl

section Search

variable {c superclass : Class} {key : String}

theorem findMethod?_of_own {f : Function} (h : c.own.methods.get? key = some f) :
    c.findMethod? key = some f := by
  cases c with
  | root own =>
    rw [findMethod?_root]
    exact h
  | derived own superclass =>
    calc (derived own superclass).findMethod? key
      _ = (own.methods.get? key <|> superclass.findMethod? key) := findMethod?_derived ..
      _ = (some f <|> superclass.findMethod? key) := congrArg (· <|> _) h
      _ = some f := rfl

theorem findMethod?_of_superclass (hnone : c.own.methods.get? key = none)
    (hsuperclass : c.superclass? = some superclass) :
    c.findMethod? key = superclass.findMethod? key := by
  cases c with
  | root own => cases hsuperclass
  | derived own _ =>
    cases hsuperclass
    calc (derived own superclass).findMethod? key
      _ = (own.methods.get? key <|> superclass.findMethod? key) := findMethod?_derived ..
      _ = (none <|> superclass.findMethod? key) := congrArg (· <|> _) hnone
      _ = superclass.findMethod? key := rfl

theorem findMethod?_of_none (hnone : c.own.methods.get? key = none)
    (hsuperclass : c.superclass? = none) : c.findMethod? key = none := by
  cases c with
  | root own =>
    rw [findMethod?_root]
    exact hnone
  | derived own superclass => cases hsuperclass

end Search

/-- The nearest method is that of the first class of the ancestry that has one. -/
theorem findMethod?_eq_findSome? (c : Class) (key : String) :
    c.findMethod? key = c.ancestry.findSome? (·.own.methods.get? key) := by
  induction c with
  | root own =>
    rw [findMethod?_root, ancestry, List.findSome?_singleton]
    rfl
  | derived own superclass ih =>
    rw [findMethod?_derived, ih, ancestry, List.findSome?_cons, Class.own]
    cases own.methods.get? key with
    | none => rfl
    | some f => rfl

/-- The methods of a class are those of a list; of several with one name, the last one. -/
def Lists (c : Class) (methods : List (Routine Stmt)) : Prop :=
  ∀ key, (c.own.methods.get? key).map Function.routine = lastMethod? key methods

theorem Lists.get?_eq_none_iff {c : Class} {methods : List (Routine Stmt)} (h : c.Lists methods)
    {key : String} :
    c.own.methods.get? key = none ↔ ∀ r ∈ methods, r.name.lexeme ≠ key := by
  rw [← lastMethod?_eq_none_iff, ← h key, Option.map_eq_none_iff]

end Class

/-- The machine with one class more, which is bound to a name in the current scope. -/
def Machine.bindClass (m : Machine) (name : Token) (c : Class) : Machine :=
  { m with heap := m.heap.freshIdentity.2.define m.current name.lexeme (.cls c) }

theorem Machine.get?_bindClass {m : Machine} {name : Token}
    (hholds : m.heap.holds m.current name.lexeme = true) (c : Class) :
    (m.bindClass name c).heap.get? (m.bindClass name c).current name.lexeme = some (.cls c) := by
  have hheld : m.heap.freshIdentity.2.holds m.current name.lexeme = true := hholds
  change (m.heap.freshIdentity.2.define m.current name.lexeme (.cls c)).get? m.current _ = _
  rw [Heap.get?_define _ (Heap.lt_size_of_holds hheld), if_pos rfl]

namespace Run

variable {evaluate evaluate' : Expr → Run Value} {name : Token} {superclass : Option Expr}
  {methods : List (Routine Stmt)} {m m' : Machine}

theorem methodsOf_eq_ok {closure : ScopeRef} {fs : List (String × Function)}
    (h : methodsOf closure methods m = .ok fs m') :
    fs.map (fun p ↦ (p.1, p.2.routine)) = methods.map fun r ↦ (r.name.lexeme, r) := by
  induction methods generalizing m fs with
  | nil =>
    cases h
    rfl
  | cons r rest ih =>
    obtain ⟨f, m₁, hf, hrest⟩ := Computation.bind_eq_ok_iff.1 h
    cases hf
    obtain ⟨gs, m₂, hgs, hpure⟩ := Computation.bind_eq_ok_iff.1 hrest
    cases hpure
    exact congrArg (_ :: ·) (ih hgs)

theorem lists_of_methodsOf {fs : List (String × Function)}
    (h : fs.map (fun p ↦ (p.1, p.2.routine)) = methods.map fun r ↦ (r.name.lexeme, r)) {c : Class}
    (hmethods : c.own.methods = .ofList fs) : c.Lists methods := by
  intro key
  have hkept := congrArg (fun ps ↦ (ps.filter (·.1 = key)).getLast?.map Prod.snd) h
  rw [List.filter_map, List.filter_map, List.getLast?_map, List.getLast?_map, Option.map_map,
    Option.map_map] at hkept
  rw [hmethods, Bindings.get?_ofList, Option.map_map, lastMethod?]
  calc
    _ = Option.map id ((methods.filter (·.name.lexeme = key)).getLast?) := hkept
    _ = (methods.filter (·.name.lexeme = key)).getLast? := congrFun Option.map_id _

/-- All that goes before a class is made: what it extends is found, and its methods are made. -/
def prepareClass (evaluate : Expr → Run Value) (name : Token) (superclass : Option Expr)
    (methods : List (Routine Stmt)) : Run (Option Class × List (String × Function)) := do
  define name.lexeme .nil
  match superclass with
  | none => return (none, ← methodsOf (← get).current methods)
  | some e =>
    match ← evaluate e with
    | .cls c =>
      let closure ← openScope (← get).current (.ofList [("super", .cls c)])
      return (some c, ← methodsOf closure methods)
    | _ => fault (superclassToken name e).line .superclassNotClass

theorem declareClass_eq (evaluate : Expr → Run Value) (name : Token) (superclass : Option Expr)
    (methods : List (Routine Stmt)) :
    declareClass evaluate name superclass methods =
      prepareClass evaluate name superclass methods >>= fun p ↦
        finishClass name (Class.make p.1) p.2 := by
  cases superclass with
  | none =>
    rw [declareClass, prepareClass]
    simp only [bind_assoc, pure_bind]
    rfl
  | some e =>
    rw [declareClass_eq_methodsOf, prepareClass, bind_assoc]
    refine bind_congr fun _ ↦ ?_
    dsimp only
    rw [bind_assoc]
    refine bind_congr fun v ↦ ?_
    cases v with
    | cls c =>
      simp only [bind_assoc, pure_bind]
      rfl
    | _ => rfl

/-- Names and methods of what goes before, without what the superclass is. -/
theorem prepareClass_eq_ok {p : Option Class × List (String × Function)}
    (h : prepareClass evaluate name superclass methods m = .ok p m') :
    p.2.map (fun p ↦ (p.1, p.2.routine)) = methods.map fun r ↦ (r.name.lexeme, r) := by
  obtain ⟨_, m₁, -, hrest⟩ := Computation.bind_eq_ok_iff.1 h
  cases superclass with
  | none =>
    dsimp only at hrest
    rw [Computation.get_bind] at hrest
    obtain ⟨fs, m₂, hmethods, hpure⟩ := Computation.bind_eq_ok_iff.1 hrest
    cases hpure
    exact methodsOf_eq_ok hmethods
  | some e =>
    obtain ⟨v, m₂, -, hrest⟩ := Computation.bind_eq_ok_iff.1 hrest
    cases v with
    | cls c =>
      dsimp only at hrest
      rw [Computation.get_bind] at hrest
      obtain ⟨closure, m₃, -, hrest⟩ := Computation.bind_eq_ok_iff.1 hrest
      obtain ⟨fs, m₄, hmethods, hpure⟩ := Computation.bind_eq_ok_iff.1 hrest
      cases hpure
      exact methodsOf_eq_ok hmethods
    | _ => cases hrest

/-- A declaration takes from its expressions nothing but values. -/
theorem prepareClass_of_values (hvalues : ∀ e m v m', evaluate e m = .ok v m' →
      evaluate' e m = .ok v m') {p : Option Class × List (String × Function)}
    (h : prepareClass evaluate name superclass methods m = .ok p m') :
    prepareClass evaluate' name superclass methods m = .ok p m' := by
  obtain ⟨_, m₁, hdefine, hrest⟩ := Computation.bind_eq_ok_iff.1 h
  apply Computation.bind_eq_ok_iff.2
  refine ⟨_, m₁, hdefine, ?_⟩
  cases superclass with
  | none => exact hrest
  | some e =>
    obtain ⟨v, m₂, hv, hrest⟩ := Computation.bind_eq_ok_iff.1 hrest
    exact Computation.bind_eq_ok_iff.2 ⟨v, m₂, hvalues e m₁ v m₂ hv, hrest⟩

/-- A class is made, and is given to its name if that takes a value. -/
theorem finishClass_of_holds (make : Layer → Class) (fs : List (String × Function))
    (hholds : m.heap.holds m.current name.lexeme = true) :
    finishClass name make fs m =
      .ok () (m.bindClass name (make ⟨m.heap.nextIdentity, name.lexeme, .ofList fs⟩)) := by
  have hfresh : onHeap (·.freshIdentity) m =
      .ok m.heap.nextIdentity { m with heap := m.heap.freshIdentity.2 } := rfl
  have hheld : m.heap.freshIdentity.2.holds m.current name.lexeme = true := hholds
  rw [finishClass, Computation.bind_of_ok hfresh]
  rw [Computation.get_bind, assignIn_eq, Computation.get_bind, Option.filter_some, hheld]
  rfl

theorem finishClass_of_not_holds (make : Layer → Class) (fs : List (String × Function))
    (hholds : ¬m.heap.holds m.current name.lexeme = true) :
    finishClass name make fs m = .error (.fault name.line (.undefinedVariable name.lexeme))
      { m with heap := m.heap.freshIdentity.2 } := by
  have hfresh : onHeap (·.freshIdentity) m =
      .ok m.heap.nextIdentity { m with heap := m.heap.freshIdentity.2 } := rfl
  have hheld : ¬m.heap.freshIdentity.2.holds m.current name.lexeme = true := hholds
  rw [finishClass, Computation.bind_of_ok hfresh]
  rw [Computation.get_bind, assignIn_eq, Computation.get_bind, Option.filter_some,
    if_neg hheld]
  rfl

end Run

/-- A declaration is executed and leaves a class behind in its name. -/
def Machine.Makes (m : Machine) (c : Class) (name : Token) (superclass : Option Expr)
    (methods : List (Routine Stmt)) : Prop :=
  ∃ fuel m', Run.execute fuel (.classDecl name superclass methods) m = .ok .normal m' ∧
    m'.heap.get? m'.current name.lexeme = some (.cls c)

/-- Some time a class has been made with these methods. -/
def Class.Declares (c : Class) (methods : List (Routine Stmt)) : Prop :=
  ∃ (m : Machine) (name : Token) (superclass : Option Expr), m.Makes c name superclass methods

theorem Machine.makes_iff {m : Machine} {c : Class} {name : Token} {superclass : Option Expr}
    {methods : List (Routine Stmt)} : m.Makes c name superclass methods ↔
      ∃ fuel p m₁, Run.prepareClass (Run.evaluate fuel) name superclass methods m = .ok p m₁ ∧
        m₁.heap.holds m₁.current name.lexeme = true ∧
        c = .make p.1 ⟨m₁.heap.nextIdentity, name.lexeme, .ofList p.2⟩ := by
  constructor
  · rintro ⟨fuel, m', hexecute, hclass⟩
    cases fuel with
    | zero => cases hexecute
    | succ fuel =>
      rw [Run.execute, Run.executeWith, Run.declareClass_eq, bind_assoc] at hexecute
      obtain ⟨p, m₁, hprepare, hrest⟩ := Computation.bind_eq_ok_iff.1 hexecute
      by_cases hholds : m₁.heap.holds m₁.current name.lexeme = true
      · rw [Computation.bind_of_ok (Run.finishClass_of_holds _ _ hholds)] at hrest
        cases hrest
        rw [Machine.get?_bindClass hholds] at hclass
        cases hclass
        exact ⟨fuel, p, m₁, hprepare, hholds, rfl⟩
      · rw [Computation.bind_of_error (Run.finishClass_of_not_holds _ _ hholds)] at hrest
        cases hrest
  · rintro ⟨fuel, p, m₁, hprepare, hholds, rfl⟩
    refine ⟨fuel + 1, _, ?_, Machine.get?_bindClass hholds _⟩
    rw [Run.execute, Run.executeWith, Run.declareClass_eq, bind_assoc,
      Computation.bind_of_ok hprepare, Computation.bind_of_ok (Run.finishClass_of_holds _ _ hholds)]
    rfl

theorem Class.Declares.lists {c : Class} {methods : List (Routine Stmt)}
    (h : c.Declares methods) : c.Lists methods := by
  obtain ⟨m, name, superclass, hmakes⟩ := h
  obtain ⟨fuel, p, m₁, hprepare, -, rfl⟩ := Machine.makes_iff.1 hmakes
  exact Run.lists_of_methodsOf (Run.prepareClass_eq_ok hprepare) (by rw [Class.own_make])

/-- In the declaration of a class the last method of a name is this one. -/
def Class.DeclaresLast (c : Class) (key : String) (method : Option (Routine Stmt)) : Prop :=
  (∃ methods, c.Declares methods) ∧ ∀ methods, c.Declares methods → lastMethod? key methods = method

/-- A method is looked for in the classes of the ancestry, the nearest one first.  What counts is
the last method of the name in the declaration of a class. -/
structure Class.FindsNearest (c : Class) (key : String) : Prop where
  found : ∀ f, c.findMethod? key = some f → ∃ nearer d farther,
    c.ancestry = nearer ++ d :: farther ∧ (∀ e ∈ nearer, e.DeclaresLast key none) ∧
      d.DeclaresLast key (some f.routine)
  missing : c.findMethod? key = none ↔ ∀ d ∈ c.ancestry, d.DeclaresLast key none

/-! ### Pedigrees -/

/-- Classes that their identities tell apart.  Each has been declared, and what it extends is one of
them that was made before. -/
structure Pedigree (classes : Class → Prop) : Prop where
  same : ∀ c d, classes c → classes d → c.identity = d.identity → c = d
  superclass : ∀ c superclass, classes c → c.superclass? = some superclass →
    classes superclass ∧ superclass.identity < c.identity
  declared : ∀ c, classes c → ∃ methods, c.Declares methods

section Classes

variable (classes : Class → Prop)

/-- One of the classes extends another one, told by identities. -/
def Extends (a b : Nat) : Prop :=
  ∃ c superclass, classes c ∧ c.superclass? = some superclass ∧ c.identity = a ∧
    superclass.identity = b

/-- The search for a method that goes from class to class by identities. -/
inductive Searches (key : String) : Nat → Option Function → Prop
  | found {c : Class} {f : Function} (hc : classes c) (h : c.own.methods.get? key = some f) :
      Searches key c.identity (some f)
  | passed {c superclass : Class} {result : Option Function} (hc : classes c)
      (hnone : c.own.methods.get? key = none) (hsuperclass : c.superclass? = some superclass)
      (h : Searches key superclass.identity result) : Searches key c.identity result
  | missed {c : Class} (hc : classes c) (hnone : c.own.methods.get? key = none)
      (hsuperclass : c.superclass? = none) : Searches key c.identity none

end Classes

namespace Pedigree

variable {classes : Class → Prop} (hp : Pedigree classes)
include hp

theorem lt_of_extends {a b : Nat} (h : Extends classes a b) : b < a := by
  obtain ⟨c, superclass, hc, hsuperclass, rfl, rfl⟩ := h
  exact (hp.superclass c superclass hc hsuperclass).2

/-- However many steps it takes, no class extends itself. -/
theorem acyclic (a : Nat) : ¬Relation.TransGen (Extends classes) a a := by
  have hlt : ∀ b, Relation.TransGen (Extends classes) a b → b < a := by
    intro b h
    induction h with
    | single h => exact hp.lt_of_extends h
    | tail _ h ih => exact (hp.lt_of_extends h).trans ih
  exact fun h ↦ (hlt a h).false

/-- Nor is there an endless line of classes that extend one another. -/
theorem wellFounded : WellFounded fun b a ↦ Extends classes a b :=
  Subrelation.wf hp.lt_of_extends Nat.lt_wfRel.wf

theorem of_mem_ancestry {c d : Class} (hc : classes c) (hd : d ∈ c.ancestry) : classes d := by
  induction c with
  | root own =>
    cases List.mem_singleton.1 hd
    exact hc
  | derived own superclass ih =>
    rcases List.mem_cons.1 hd with rfl | hd
    · exact hc
    · exact ih (hp.superclass _ _ hc rfl).1 hd

/-- So it is with some of the classes, if what one of them extends is among them. -/
theorem mono {some : Class → Prop} (hsome : ∀ c, some c → classes c)
    (hclosed : ∀ c superclass, some c → c.superclass? = Option.some superclass → some superclass) :
    Pedigree some where
  same c d hc hd := hp.same c d (hsome c hc) (hsome d hd)
  superclass c superclass hc hsuperclass := ⟨hclosed c superclass hc hsuperclass,
    (hp.superclass c superclass (hsome c hc) hsuperclass).2⟩
  declared c hc := hp.declared c (hsome c hc)

/-- The search along identities always ends, in one way, and finds the nearest method. -/
theorem searches_iff {c : Class} (hc : classes c) {key : String} {result : Option Function} :
    Searches classes key c.identity result ↔ c.findMethod? key = result := by
  constructor
  · intro h
    generalize hidentity : c.identity = identity at h
    induction h generalizing c with
    | found hd h =>
      cases hp.same _ _ hc hd hidentity
      exact Class.findMethod?_of_own h
    | passed hd hnone hsuperclass _ ih =>
      cases hp.same _ _ hc hd hidentity
      rw [Class.findMethod?_of_superclass hnone hsuperclass]
      exact ih (hp.superclass _ _ hc hsuperclass).1 rfl
    | missed hd hnone hsuperclass =>
      cases hp.same _ _ hc hd hidentity
      exact Class.findMethod?_of_none hnone hsuperclass
  · rintro rfl
    induction c with
    | root own =>
      cases h : (Class.root own).own.methods.get? key with
      | none =>
        rw [Class.findMethod?_of_none h rfl]
        exact .missed hc h rfl
      | some f =>
        rw [Class.findMethod?_of_own h]
        exact .found hc h
    | derived own superclass ih =>
      cases h : (Class.derived own superclass).own.methods.get? key with
      | none =>
        rw [Class.findMethod?_of_superclass h rfl]
        exact .passed hc h rfl (ih (hp.superclass _ _ hc rfl).1)
      | some f =>
        rw [Class.findMethod?_of_own h]
        exact .found hc h

/-- What a class has of a name is the last method of its declaration. -/
theorem declaresLast {c : Class} (hc : classes c) (key : String) :
    c.DeclaresLast key ((c.own.methods.get? key).map Function.routine) :=
  ⟨hp.declared c hc, fun _ hmethods ↦ (hmethods.lists key).symm⟩

theorem nearest {c : Class} (hc : classes c) (key : String) : c.FindsNearest key := by
  have hlast : ∀ d ∈ c.ancestry, d.own.methods.get? key = none → d.DeclaresLast key none := by
    intro d hd hnone
    have hdeclares := hp.declaresLast (hp.of_mem_ancestry hc hd) key
    rw [hnone] at hdeclares
    exact hdeclares
  constructor
  · intro f hf
    rw [Class.findMethod?_eq_findSome?, List.findSome?_eq_some_iff] at hf
    obtain ⟨nearer, d, farther, hancestry, hd, hnearer⟩ := hf
    rw [hancestry] at hlast
    have hdeclares := hp.declaresLast
      (hp.of_mem_ancestry hc (hancestry ▸ List.mem_append_right nearer List.mem_cons_self)) key
    rw [hd] at hdeclares
    exact ⟨nearer, d, farther, hancestry,
      fun e he ↦ hlast e (List.mem_append_left _ he) (hnearer e he), hdeclares⟩
  · rw [Class.findMethod?_eq_findSome?, List.findSome?_eq_none_iff]
    constructor
    · intro hnone d hd
      exact hlast d hd (hnone d hd)
    · intro hdeclares d hd
      obtain ⟨⟨methods, hmethods⟩, hall⟩ := hdeclares d hd
      rw [hmethods.lists.get?_eq_none_iff, ← lastMethod?_eq_none_iff]
      exact hall methods hmethods

end Pedigree

/-- The search for methods among classes that their identities tell apart.  Nothing leads back to
where it came from, so the search ends for every class and every name, with the nearest method. -/
structure FindsMethods (classes : Class → Prop) : Prop where
  same : ∀ c d, classes c → classes d → c.identity = d.identity → c = d
  acyclic : ∀ a, ¬Relation.TransGen (Extends classes) a a
  wellFounded : WellFounded fun b a ↦ Extends classes a b
  searches : ∀ c, classes c → ∀ key result,
    Searches classes key c.identity result ↔ c.findMethod? key = result
  nearest : ∀ c, classes c → ∀ key, c.FindsNearest key

theorem Pedigree.findsMethods {classes : Class → Prop} (hp : Pedigree classes) :
    FindsMethods classes where
  same := hp.same
  acyclic := hp.acyclic
  wellFounded := hp.wellFounded
  searches _ hc _ _ := hp.searches_iff hc
  nearest _ hc key := hp.nearest hc key

end Lox
