import Lox.Heap
import Lox.Proofs.Tree.Alike

/-!
# Heaps up to the trees they hold

Two heaps are alike if they have the same scopes, names, instances and identities, and differ only
in the routines of their functions, whose tokens and identifiers correspond.  Every operation on the
heap keeps this.
-/

namespace Lox

variable {α β : Type} {T : Token → Token → Prop} {I : NodeId → NodeId → Prop}

/-- Bindings of the same names, in the same order, to corresponding values. -/
def Bindings.Alike (V : α → β → Prop) (b : Bindings α) (b' : Bindings β) : Prop :=
  List.Forall₂ (fun p p' ↦ p.1 = p'.1 ∧ V p.2 p'.2) b.entries b'.entries

namespace Bindings.Alike

variable {V : α → β → Prop} {b : Bindings α} {b' : Bindings β}

theorem empty : Bindings.Alike V {} {} :=
  .nil

theorem get? (h : b.Alike V b') (name : String) : Option.Rel V (b.get? name) (b'.get? name) := by
  obtain ⟨entries⟩ := b
  obtain ⟨entries'⟩ := b'
  unfold Bindings.get?
  unfold Bindings.Alike at h
  dsimp only at h ⊢
  induction h with
  | nil => exact .none
  | @cons p p' rest rest' hp _ ih =>
    rw [List.lookup_cons, List.lookup_cons, hp.1]
    cases name == p'.1 with
    | true => exact .some hp.2
    | false => exact ih

theorem replace (name : String) {a : α} {a' : β} (ha : V a a') {entries : List (String × α)}
    {entries' : List (String × β)}
    (h : List.Forall₂ (fun p p' ↦ p.1 = p'.1 ∧ V p.2 p'.2) entries entries') :
    Option.Rel (List.Forall₂ fun p p' ↦ p.1 = p'.1 ∧ V p.2 p'.2)
      (Bindings.replace name a entries) (Bindings.replace name a' entries') := by
  induction h with
  | nil => exact .none
  | @cons p p' rest rest' hp hrest ih =>
    unfold Bindings.replace
    rw [hp.1]
    split
    · exact .some (.cons ⟨rfl, ha⟩ hrest)
    · generalize Bindings.replace name a rest = r at ih
      generalize Bindings.replace name a' rest' = r' at ih
      cases ih with
      | none => exact .none
      | some hchanged => exact .some (.cons ⟨rfl, hp.2⟩ hchanged)

theorem set (h : b.Alike V b') (name : String) {a : α} {a' : β} (ha : V a a') :
    (b.set name a).Alike V (b'.set name a') := by
  have hreplace := replace name ha h
  unfold Bindings.set Bindings.Alike
  generalize Bindings.replace name a b.entries = r at hreplace
  generalize Bindings.replace name a' b'.entries = r' at hreplace
  cases hreplace with
  | none => exact .cons ⟨rfl, ha⟩ h
  | some hchanged => exact hchanged

theorem ofList {pairs : List (String × α)} {pairs' : List (String × β)}
    (h : List.Forall₂ (fun p p' ↦ p.1 = p'.1 ∧ V p.2 p'.2) pairs pairs') :
    (Bindings.ofList pairs).Alike V (Bindings.ofList pairs') := by
  have hfold : ∀ {b : Bindings α} {b' : Bindings β}, b.Alike V b' →
      (pairs.foldl (fun b p ↦ b.set p.1 p.2) b).Alike V
        (pairs'.foldl (fun b p ↦ b.set p.1 p.2) b') := by
    induction h with
    | nil => exact fun hb ↦ hb
    | @cons p p' _ _ hp _ ih =>
      intro b b' hb
      obtain ⟨name, a⟩ := p
      obtain ⟨name', a'⟩ := p'
      obtain ⟨rfl, ha⟩ := hp
      exact ih (hb.set name ha)
  exact hfold empty

theorem imp {V' : α → β → Prop} (h : b.Alike V b') (hV : ∀ a a', V a a' → V' a a') :
    b.Alike V' b' :=
  List.Forall₂.imp (fun _ _ hp ↦ ⟨hp.1, hV _ _ hp.2⟩) h

end Bindings.Alike

/-- The same function up to its routine. -/
structure Function.Alike (T : Token → Token → Prop) (I : NodeId → NodeId → Prop)
    (f f' : Function) : Prop where
  identity : f.identity = f'.identity
  routine : Routine.Alike T (Stmt.Alike T I) f.routine f'.routine
  closure : f.closure = f'.closure
  isInitializer : f.isInitializer = f'.isInitializer

structure Layer.Alike (T : Token → Token → Prop) (I : NodeId → NodeId → Prop)
    (own own' : Layer) : Prop where
  identity : own.identity = own'.identity
  name : own.name = own'.name
  methods : own.methods.Alike (Function.Alike T I) own'.methods

inductive Class.Alike (T : Token → Token → Prop) (I : NodeId → NodeId → Prop) :
    Class → Class → Prop
  | root {own own' : Layer} (hown : own.Alike T I own') : Class.Alike T I (.root own) (.root own')
  | derived {own own' : Layer} {c c' : Class} (hown : own.Alike T I own')
      (hc : Class.Alike T I c c') : Class.Alike T I (.derived own c) (.derived own' c')

structure Instance.Alike (T : Token → Token → Prop) (I : NodeId → NodeId → Prop)
    (i i' : Instance) : Prop where
  ref : i.ref = i'.ref
  cls : i.cls.Alike T I i'.cls

/-- The same value up to the routines in it. -/
inductive Value.Alike (T : Token → Token → Prop) (I : NodeId → NodeId → Prop) :
    Value → Value → Prop
  | nil : Value.Alike T I .nil .nil
  | bool (value : Bool) : Value.Alike T I (.bool value) (.bool value)
  | number (value : Number) : Value.Alike T I (.number value) (.number value)
  | string (text : String) : Value.Alike T I (.string text) (.string text)
  | builtin (b : Builtin) : Value.Alike T I (.builtin b) (.builtin b)
  | function {f f' : Function} (hf : f.Alike T I f') : Value.Alike T I (.function f) (.function f')
  | cls {c c' : Class} (hc : c.Alike T I c') : Value.Alike T I (.cls c) (.cls c')
  | instance {i i' : Instance} (hi : i.Alike T I i') :
      Value.Alike T I (.instance i) (.instance i')

/-- Callees that do the same up to their routines. -/
inductive Callee.Alike (T : Token → Token → Prop) (I : NodeId → NodeId → Prop) :
    Callee → Callee → Prop
  | builtin (b : Builtin) : Callee.Alike T I (.builtin b) (.builtin b)
  | function {f f' : Function} (hf : f.Alike T I f') : Callee.Alike T I (.function f) (.function f')
  | cls {c c' : Class} (hc : c.Alike T I c') : Callee.Alike T I (.cls c) (.cls c')

namespace Function.Alike

variable {f f' : Function}

theorem params (h : f.Alike T I f') : List.Forall₂ T f.routine.params f'.routine.params := by
  obtain ⟨-, hroutine, -, -⟩ := h
  generalize f.routine = r at hroutine
  generalize f'.routine = r' at hroutine
  cases hroutine with
  | mk _ hparams _ => exact hparams

theorem body (h : f.Alike T I f') :
    List.Forall₂ (Stmt.Alike T I) f.routine.body f'.routine.body := by
  obtain ⟨-, hroutine, -, -⟩ := h
  generalize f.routine = r at hroutine
  generalize f'.routine = r' at hroutine
  cases hroutine with
  | mk _ _ hbody => exact hbody

theorem nameToken (h : f.Alike T I f') : T f.routine.name f'.routine.name := by
  obtain ⟨-, hroutine, -, -⟩ := h
  generalize f.routine = r at hroutine
  generalize f'.routine = r' at hroutine
  cases hroutine with
  | mk hname _ _ => exact hname

theorem arity (h : f.Alike T I f') : f.arity = f'.arity :=
  h.params.length_eq

end Function.Alike

namespace Class.Alike

variable {c c' : Class}

theorem own (h : c.Alike T I c') : c.own.Alike T I c'.own := by
  cases h with
  | root hown => exact hown
  | derived hown _ => exact hown

theorem findMethod? (h : c.Alike T I c') (name : String) :
    Option.Rel (Function.Alike T I) (c.findMethod? name) (c'.findMethod? name) := by
  induction h with
  | root hown =>
    rw [Class.findMethod?_root, Class.findMethod?_root]
    exact hown.methods.get? name
  | derived hown _ ih =>
    rw [Class.findMethod?_derived, Class.findMethod?_derived]
    have hget := hown.methods.get? name
    revert hget
    generalize Bindings.get? _ name = o
    generalize Bindings.get? _ name = o'
    intro hget
    cases hget with
    | none => exact ih
    | some hf => exact .some hf

theorem arity (h : c.Alike T I c') : c.arity = c'.arity := by
  have hinit := h.findMethod? Class.initializerName
  unfold Class.arity
  generalize c.findMethod? Class.initializerName = o at hinit
  generalize c'.findMethod? Class.initializerName = o' at hinit
  cases hinit with
  | none => rfl
  | some hf => exact hf.arity

end Class.Alike

theorem Callee.Alike.arity {callee callee' : Callee} (h : callee.Alike T I callee') :
    callee.arity = callee'.arity := by
  cases h with
  | builtin b => rfl
  | function hf => exact hf.arity
  | cls hc => exact hc.arity

namespace Value.Alike

variable {v v' : Value}

theorem ofLiteral (value : Literal) : (Value.ofLiteral value).Alike T I (.ofLiteral value) := by
  cases value with
  | nil => exact .nil
  | bool b => exact .bool b
  | number n => exact .number n
  | string s => exact .string s

theorem isTruthy (h : v.Alike T I v') : v.isTruthy = v'.isTruthy := by
  cases h <;> rfl

theorem callee? (h : v.Alike T I v') : Option.Rel (Callee.Alike T I) v.callee? v'.callee? := by
  cases h with
  | builtin b => exact .some (.builtin b)
  | function hf => exact .some (.function hf)
  | cls hc => exact .some (.cls hc)
  | _ => exact .none

theorem equal (h : v.Alike T I v') {w w' : Value} (hw : w.Alike T I w') :
    v.equal w = v'.equal w' := by
  cases h with
  | function hf =>
    cases hw with
    | function hg => simp only [Value.equal, hf.identity, hg.identity]
    | _ => rfl
  | cls hc =>
    cases hw with
    | cls hd =>
      have hiff : _ ↔ _ := Eq.to_iff (congrArg₂ Eq hc.own.identity hd.own.identity)
      exact decide_eq_decide.2 hiff
    | _ => rfl
  | «instance» hi =>
    cases hw with
    | «instance» hj => simp only [Value.equal, hi.ref, hj.ref]
    | _ => rfl
  | _ => cases hw <;> rfl

theorem display (hT : Token.Faithful T) (h : v.Alike T I v') : v.display = v'.display := by
  cases h with
  | function hf => simp only [Value.display, Function.name, hT.lexeme hf.nameToken]
  | cls hc => exact hc.own.name
  | «instance» hi => simp only [Value.display, Class.name, hi.cls.own.name]
  | _ => rfl

end Value.Alike

/-! ### Heaps -/

structure Scope.Alike (T : Token → Token → Prop) (I : NodeId → NodeId → Prop)
    (s s' : Scope) : Prop where
  bindings : s.bindings.Alike (Value.Alike T I) s'.bindings
  parent : s.parent = s'.parent

/-- The same heap up to the routines in it. -/
structure Heap.Alike (T : Token → Token → Prop) (I : NodeId → NodeId → Prop)
    (h h' : Heap) : Prop where
  scopes : List.Forall₂ (Scope.Alike T I) h.scopes.toList h'.scopes.toList
  fields : List.Forall₂ (Bindings.Alike (Value.Alike T I)) h.fields.toList h'.fields.toList
  nextIdentity : h.nextIdentity = h'.nextIdentity

section Arrays

variable {R : α → β → Prop} {as : Array α} {bs : Array β}

theorem rel_getElem? (h : List.Forall₂ R as.toList bs.toList) (k : Nat) :
    Option.Rel R as[k]? bs[k]? := by
  obtain ⟨as⟩ := as
  obtain ⟨bs⟩ := bs
  rw [List.getElem?_toArray, List.getElem?_toArray]
  dsimp only at h
  induction h generalizing k with
  | nil => exact .none
  | cons hab _ ih =>
    cases k with
    | zero => exact .some hab
    | succ k => exact ih k

theorem rel_push (h : List.Forall₂ R as.toList bs.toList) {a : α} {b : β} (hab : R a b) :
    List.Forall₂ R (as.push a).toList (bs.push b).toList := by
  rw [Array.toList_push, Array.toList_push]
  exact List.rel_append h (.cons hab .nil)

theorem rel_modify (h : List.Forall₂ R as.toList bs.toList) (k : Nat) {f : α → α} {g : β → β}
    (hfg : ∀ a b, R a b → R (f a) (g b)) :
    List.Forall₂ R (as.modify k f).toList (bs.modify k g).toList := by
  rw [Array.toList_modify, Array.toList_modify]
  generalize as.toList = as at h
  generalize bs.toList = bs at h
  induction h generalizing k with
  | nil =>
    rw [List.modify_nil, List.modify_nil]
    exact .nil
  | cons hab hrest ih =>
    cases k with
    | zero => exact .cons (hfg _ _ hab) hrest
    | succ k => exact .cons hab (ih k)

end Arrays

namespace Heap.Alike

variable {h h' : Heap}

theorem size_eq (hh : h.Alike T I h') : h.scopes.size = h'.scopes.size :=
  hh.scopes.length_eq

theorem parent? (hh : h.Alike T I h') (scope : ScopeRef) : h.parent? scope = h'.parent? scope := by
  have hscope := rel_getElem? hh.scopes scope
  unfold Heap.parent?
  generalize h.scopes[scope]? = o at hscope
  generalize h'.scopes[scope]? = o' at hscope
  cases hscope with
  | none => rfl
  | some hs => exact hs.parent

theorem ancestor? (hh : h.Alike T I h') (distance : Nat) :
    ∀ scope, h.ancestor? scope distance = h'.ancestor? scope distance := by
  induction distance with
  | zero => exact fun scope ↦ rfl
  | succ distance ih =>
    intro scope
    unfold Heap.ancestor?
    rw [hh.parent? scope]
    split
    · exact ih _
    · rfl

theorem get? (hh : h.Alike T I h') (scope : ScopeRef) (name : String) :
    Option.Rel (Value.Alike T I) (h.get? scope name) (h'.get? scope name) := by
  have hscope := rel_getElem? hh.scopes scope
  unfold Heap.get?
  generalize h.scopes[scope]? = o at hscope
  generalize h'.scopes[scope]? = o' at hscope
  cases hscope with
  | none => exact .none
  | some hs => exact hs.bindings.get? name

theorem holds (hh : h.Alike T I h') (scope : ScopeRef) (name : String) :
    h.holds scope name = h'.holds scope name :=
  isSome_eq_of_rel (hh.get? scope name)

theorem fieldsOf (hh : h.Alike T I h') {i i' : Instance} (hi : i.Alike T I i') :
    (h.fieldsOf i).Alike (Value.Alike T I) (h'.fieldsOf i') := by
  have hfields := rel_getElem? hh.fields i.ref
  unfold Heap.fieldsOf
  rw [← hi.ref, Array.getD_eq_getD_getElem?, Array.getD_eq_getD_getElem?]
  generalize h.fields[i.ref]? = o at hfields
  generalize h'.fields[i.ref]? = o' at hfields
  cases hfields with
  | none => exact .empty
  | some hb => exact hb

theorem openScope (hh : h.Alike T I h') (parent : Option ScopeRef) {b b' : Bindings Value}
    (hb : b.Alike (Value.Alike T I) b') :
    (h.openScope parent b).1 = (h'.openScope parent b').1 ∧
      (h.openScope parent b).2.Alike T I (h'.openScope parent b').2 :=
  ⟨hh.size_eq, ⟨rel_push hh.scopes ⟨hb, rfl⟩, hh.fields, hh.nextIdentity⟩⟩

theorem define (hh : h.Alike T I h') (scope : ScopeRef) (name : String) {v v' : Value}
    (hv : v.Alike T I v') : (h.define scope name v).Alike T I (h'.define scope name v') where
  scopes := rel_modify hh.scopes scope fun _ _ hs ↦ ⟨hs.bindings.set name hv, hs.parent⟩
  fields := hh.fields
  nextIdentity := hh.nextIdentity

theorem instantiate (hh : h.Alike T I h') {c c' : Class} (hc : c.Alike T I c') :
    (h.instantiate c).1.Alike T I (h'.instantiate c').1 ∧
      (h.instantiate c).2.Alike T I (h'.instantiate c').2 :=
  ⟨⟨hh.fields.length_eq, hc⟩, ⟨hh.scopes, rel_push hh.fields .empty, hh.nextIdentity⟩⟩

theorem setField (hh : h.Alike T I h') {i i' : Instance} (hi : i.Alike T I i') (name : String)
    {v v' : Value} (hv : v.Alike T I v') :
    (h.setField i name v).Alike T I (h'.setField i' name v') := by
  unfold Heap.setField
  rw [hi.ref]
  exact ⟨hh.scopes, rel_modify hh.fields _ fun _ _ hb ↦ hb.set name hv, hh.nextIdentity⟩

theorem freshIdentity (hh : h.Alike T I h') :
    h.freshIdentity.1 = h'.freshIdentity.1 ∧ h.freshIdentity.2.Alike T I h'.freshIdentity.2 :=
  ⟨hh.nextIdentity, ⟨hh.scopes, hh.fields, congrArg (· + 1) hh.nextIdentity⟩⟩

end Heap.Alike

/-! ### Weaker correspondences -/

section Imp

variable {T' : Token → Token → Prop} {I' : NodeId → NodeId → Prop}
  (hT : ∀ t t', T t t' → T' t t') (hI : ∀ i i', I i i' → I' i i')

include hT hI

theorem Function.Alike.imp {f f' : Function} (h : f.Alike T I f') : f.Alike T' I' f' :=
  ⟨h.identity, h.routine.imp hT hI, h.closure, h.isInitializer⟩

theorem Layer.Alike.imp {own own' : Layer} (h : own.Alike T I own') : own.Alike T' I' own' :=
  ⟨h.identity, h.name, h.methods.imp fun _ _ hf ↦ hf.imp hT hI⟩

theorem Class.Alike.imp {c c' : Class} (h : c.Alike T I c') : c.Alike T' I' c' := by
  induction h with
  | root hown => exact .root (hown.imp hT hI)
  | derived hown _ ih => exact .derived (hown.imp hT hI) ih

theorem Value.Alike.imp {v v' : Value} (h : v.Alike T I v') : v.Alike T' I' v' := by
  cases h with
  | nil => exact .nil
  | bool b => exact .bool b
  | number n => exact .number n
  | string s => exact .string s
  | builtin b => exact .builtin b
  | function hf => exact .function (hf.imp hT hI)
  | cls hc => exact .cls (hc.imp hT hI)
  | «instance» hi => exact .instance ⟨hi.ref, hi.cls.imp hT hI⟩

theorem Heap.Alike.imp {h h' : Heap} (hh : h.Alike T I h') : h.Alike T' I' h' where
  scopes := hh.scopes.imp fun _ _ hs ↦ ⟨hs.bindings.imp fun _ _ hv ↦ hv.imp hT hI, hs.parent⟩
  fields := hh.fields.imp fun _ _ hb ↦ hb.imp fun _ _ hv ↦ hv.imp hT hI
  nextIdentity := hh.nextIdentity

end Imp

end Lox
