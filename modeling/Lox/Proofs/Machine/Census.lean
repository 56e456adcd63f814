import Lox.Proofs.Machine.Course

/-!
# The census of classes

A machine that runs takes its classes and instances from a census, which has all classes that were
ever made and grows with each new one (`Census.course`).  The classes of a census have a pedigree,
and so have those that are anywhere to be found in a heap (`Census.Covers.pedigree`).
-/

namespace Lox

/-- The classes that a value brings along. -/
def Value.classes : Value → List Class
  | .cls c => c.ancestry
  | .instance i => i.cls.ancestry
  | _ => []

/-- The classes that scopes and fields hold, by themselves, by their instances or by what extends
them. -/
def Heap.Knows (h : Heap) (c : Class) : Prop :=
  (∃ scope name v, h.get? scope name = some v ∧ c ∈ v.classes) ∨
    ∃ i name v, (h.fieldsOf i).get? name = some v ∧ c ∈ v.classes

/-- Those and the ones of a value. -/
def Heap.KnowsWith (h : Heap) (v : Value) (c : Class) : Prop :=
  h.Knows c ∨ c ∈ v.classes

theorem Class.mem_ancestry_of_superclass? {c d superclass : Class} (hc : c ∈ d.ancestry)
    (hsuperclass : c.superclass? = some superclass) : superclass ∈ d.ancestry := by
  cases c with
  | root own => cases hsuperclass
  | derived own _ =>
    cases hsuperclass
    exact superclass_mem_ancestry hc

theorem Value.mem_classes_of_superclass? {v : Value} {c superclass : Class} (hc : c ∈ v.classes)
    (hsuperclass : c.superclass? = some superclass) : superclass ∈ v.classes := by
  cases v with
  | cls d => exact Class.mem_ancestry_of_superclass? hc hsuperclass
  | «instance» i => exact Class.mem_ancestry_of_superclass? hc hsuperclass
  | _ => cases hc

theorem Heap.Knows.superclass {h : Heap} {c superclass : Class} (hc : h.Knows c)
    (hsuperclass : c.superclass? = some superclass) : h.Knows superclass := by
  rcases hc with ⟨scope, name, v, hv, hmem⟩ | ⟨i, name, v, hv, hmem⟩
  · exact .inl ⟨scope, name, v, hv, Value.mem_classes_of_superclass? hmem hsuperclass⟩
  · exact .inr ⟨i, name, v, hv, Value.mem_classes_of_superclass? hmem hsuperclass⟩

/-- The classes that have been made, and the number of instances. -/
structure Census where
  classes : Class → Prop
  instances : Nat

namespace Census

/-- A census that has as much as another one. -/
structure Grows (w w' : Census) : Prop where
  classes : ∀ c, w.classes c → w'.classes c
  instances : w.instances ≤ w'.instances

/-- A value that refers to nothing that a census does not have. -/
structure Has (w : Census) (v : Value) : Prop where
  cls : ∀ c, v = .cls c → w.classes c
  inst : ∀ i, v = .instance i → w.classes i.cls ∧ i.ref < w.instances

/-- A census of a heap: identities are still to be given away from the next one on. -/
structure Covers (w : Census) (h : Heap) : Prop where
  pedigree : Pedigree w.classes
  older : ∀ c, w.classes c → c.identity < h.nextIdentity
  instances : w.instances = h.fields.size
  bound : ∀ scope name v, h.get? scope name = some v → w.Has v
  fields : ∀ i name v, (h.fieldsOf i).get? name = some v → w.Has v

theorem Grows.refl (w : Census) : w.Grows w :=
  ⟨fun _ ↦ id, Nat.le_refl _⟩

theorem Grows.trans {w w' w'' : Census} (first : w.Grows w') (second : w'.Grows w'') :
    w.Grows w'' :=
  ⟨fun c hc ↦ second.classes c (first.classes c hc), first.instances.trans second.instances⟩

theorem Has.mono {w w' : Census} {v : Value} (hgrows : w.Grows w') (hv : w.Has v) : w'.Has v where
  cls c hc := hgrows.classes c (hv.cls c hc)
  inst i hi :=
    ⟨hgrows.classes _ (hv.inst i hi).1, Nat.lt_of_lt_of_le (hv.inst i hi).2 hgrows.instances⟩

theorem has_of_isData {w : Census} {v : Value} (hv : v.IsData) : w.Has v := by
  constructor
  · rintro c rfl
    exact hv.elim
  · rintro i rfl
    exact hv.elim

/-- The census with one class more. -/
def enter (w : Census) (c : Class) : Census :=
  ⟨fun d ↦ w.classes d ∨ d = c, w.instances⟩

theorem grows_enter (w : Census) (c : Class) : w.Grows (w.enter c) :=
  ⟨fun _ ↦ .inl, Nat.le_refl _⟩

namespace Covers

variable {w : Census} {h : Heap} (hw : w.Covers h)
include hw

theorem openScope (parent : Option ScopeRef) {bindings : Bindings Value}
    (hbindings : ∀ name v, bindings.get? name = some v → w.Has v) :
    w.Covers (h.openScope parent bindings).2 := by
  refine { hw with bound := fun scope name v hv ↦ ?_ }
  rcases Heap.get?_of_openScope hv with hold | ⟨-, hnew⟩
  · exact hw.bound scope name v hold
  · exact hbindings name v hnew

theorem define (scope : ScopeRef) (name : String) {v : Value} (hv : w.Has v) :
    w.Covers (h.define scope name v) := by
  refine { hw with bound := fun other key found hfound ↦ ?_ }
  rcases Heap.get?_of_define hfound with hold | ⟨-, -, rfl⟩
  · exact hw.bound other key found hold
  · exact hv

theorem setField {v : Value} (hv : w.Has v) (i : Instance) (name : String) :
    w.Covers (h.setField i name v) where
  pedigree := hw.pedigree
  older := hw.older
  instances := by
    calc w.instances
      _ = h.fields.size := hw.instances
      _ = (h.setField i name v).fields.size := Array.size_modify.symm
  bound := hw.bound
  fields j key found hfound := by
    rcases Heap.get?_of_setField hfound with hold | rfl
    · exact hw.fields j key found hold
    · exact hv

theorem freshIdentity : w.Covers h.freshIdentity.2 :=
  { hw with older := fun c hc ↦ (hw.older c hc).trans (Nat.lt_succ_self _) }

theorem instantiate {c : Class} (hc : w.classes c) : ∃ w', w.Grows w' ∧
    w'.Covers (h.instantiate c).2 ∧ w'.Has (.instance (h.instantiate c).1) := by
  have hgrows : w.Grows ⟨w.classes, w.instances + 1⟩ := ⟨fun _ ↦ id, Nat.le_succ _⟩
  refine ⟨⟨w.classes, w.instances + 1⟩, hgrows, ?_, nofun, ?_⟩
  · refine ⟨hw.pedigree, hw.older, ?_, fun scope name v hv ↦ ?_, fun i name v hv ↦ ?_⟩
    · calc w.instances + 1
        _ = h.fields.size + 1 := by rw [hw.instances]
        _ = (h.fields.push {}).size := (Array.size_push _).symm
    · exact (hw.bound scope name v hv).mono hgrows
    · rw [Heap.fieldsOf_instantiate] at hv
      exact (hw.fields i name v hv).mono hgrows
  · rintro i ⟨⟩
    exact ⟨hc, Nat.lt_succ_of_le hw.instances.ge⟩

/-- A class that is newly made extends one of the census. -/
theorem declare {c : Class} (hmade : ∃ methods, c.Declares methods)
    (hidentity : c.identity = h.nextIdentity)
    (hsuperclass : ∀ superclass, c.superclass? = some superclass → w.classes superclass) :
    (w.enter c).Covers h.freshIdentity.2 := by
  have hfresh : ∀ d, w.classes d → d.identity ≠ c.identity := fun d hd heq ↦
    (hw.older d hd).ne (heq.trans hidentity)
  have hgrows := w.grows_enter c
  refine ⟨⟨?_, ?_, ?_⟩, ?_, hw.instances,
    fun scope name v hv ↦ (hw.bound scope name v hv).mono hgrows,
    fun i name v hv ↦ (hw.fields i name v hv).mono hgrows⟩
  · rintro d e (hd | rfl) (he | rfl) heq
    · exact hw.pedigree.same d e hd he heq
    · exact absurd heq (hfresh d hd)
    · exact absurd heq.symm (hfresh e he)
    · rfl
  · rintro d superclass (hd | rfl) hextends
    · obtain ⟨hmem, hlt⟩ := hw.pedigree.superclass d superclass hd hextends
      exact ⟨.inl hmem, hlt⟩
    · have hmem := hsuperclass superclass hextends
      exact ⟨.inl hmem, hidentity ▸ hw.older superclass hmem⟩
  · rintro d (hd | rfl)
    · exact hw.pedigree.declared d hd
    · exact hmade
  · rintro d (hd | rfl)
    · exact (hw.older d hd).trans (Nat.lt_succ_self _)
    · exact hidentity ▸ Nat.lt_succ_self _

theorem of_mem_classes {v : Value} (hv : w.Has v) {c : Class} (hc : c ∈ v.classes) :
    w.classes c := by
  cases v with
  | cls d => exact hw.pedigree.of_mem_ancestry (hv.cls d rfl) hc
  | «instance» i => exact hw.pedigree.of_mem_ancestry (hv.inst i rfl).1 hc
  | _ => cases hc

theorem of_knows {c : Class} (hc : h.Knows c) : w.classes c := by
  rcases hc with ⟨scope, name, v, hv, hmem⟩ | ⟨i, name, v, hv, hmem⟩
  · exact hw.of_mem_classes (hw.bound scope name v hv) hmem
  · exact hw.of_mem_classes (hw.fields i name v hv) hmem

theorem pedigree_knows : Pedigree h.Knows :=
  hw.pedigree.mono (fun _ ↦ hw.of_knows) fun _ _ ↦ Heap.Knows.superclass

theorem pedigree_knowsWith {v : Value} (hv : w.Has v) : Pedigree (h.KnowsWith v) := by
  apply hw.pedigree.mono
  · rintro c (hc | hc)
    · exact hw.of_knows hc
    · exact hw.of_mem_classes hv hc
  · rintro c superclass (hc | hc) hsuperclass
    · exact .inl (hc.superclass hsuperclass)
    · exact .inr (Value.mem_classes_of_superclass? hc hsuperclass)

end Covers

/-- The course that censuses take.  Every class that is made counts, and every field may be set. -/
def course : Course where
  World := Census
  Grows := Grows
  Covers := Covers
  Has := Has
  Made c := ∃ methods, c.Declares methods
  MaySet _ _ := True
  refl := .refl
  trans := .trans
  mono := .mono
  hasData := has_of_isData
  hasFunction _ _ := ⟨nofun, nofun⟩
  bound hw hv := hw.bound _ _ _ hv
  field hw hv := hw.fields _ _ _ hv
  openScope parent hw hbindings := hw.openScope parent hbindings
  define scope name hw hv := hw.define scope name hv
  instantiate hw hc := hw.instantiate (hc.cls _ rfl)
  setField hw _ hv _ := hw.setField hv _ _
  freshIdentity hw := hw.freshIdentity
  declare hw hmade hidentity hsuperclass := ⟨enter _ _, grows_enter _ _,
    hw.declare hmade hidentity fun superclass heq ↦ (hsuperclass superclass heq).cls _ rfl,
    fun _ heq ↦ .inr (Value.cls.inj heq).symm, nofun⟩

/-- Whatever is known of machines that a census covers may be demanded of them. -/
theorem course_meets {onExpr : Expr → Machine → Prop} {onStmt : Stmt → Machine → Prop}
    (hexpr : ∀ {w : Census} {m : Machine} e, w.Covers m.heap → onExpr e m)
    (hstmt : ∀ {w : Census} {m : Machine} s, w.Covers m.heap → onStmt s m) :
    course.Meets onExpr (fun _ _ ↦ True) onStmt fun _ _ ↦ True where
  expression e hw := iff_of_true (hexpr e hw) trivial
  statement s hw := iff_of_true (hstmt s hw) trivial
  set _ _ _ _ _ _ _ _ _ _ _ _ _ _ := trivial
  made _ methods hmade := ⟨methods, hmade⟩

/-- A machine that has run nothing has no class. -/
theorem covers_start (host : Host) : Covers ⟨fun _ ↦ False, 0⟩ (Machine.start host).heap := by
  refine ⟨⟨nofun, nofun, nofun⟩, nofun, rfl, fun scope name v hv ↦ ?_, nofun⟩
  obtain ⟨b, -, rfl⟩ := Heap.exists_builtin_of_get?_start hv
  exact ⟨nofun, nofun⟩

end Census

end Lox
