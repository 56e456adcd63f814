import Lox.Proofs.Machine.Frame

/-!
# Expressions without recorded depths

An expression for whose nodes no depth is recorded uses global variables only.  What it evaluates
to, and what it does to the machine, depends neither on the identifiers of its nodes nor on the
columns in which its tokens stand, since nothing of an expression is ever kept in the heap.
-/

namespace Lox

/-- The same token, perhaps in another column. -/
def Token.SameLine (t t' : Token) : Prop :=
  ∃ column, t' = { t with column }

theorem Token.faithful_sameLine : Token.Faithful Token.SameLine where
  kind := by
    rintro t t' ⟨column, rfl⟩
    rfl
  lexeme := by
    rintro t t' ⟨column, rfl⟩
    rfl

/-- Identifiers for which no depth is recorded. -/
def Unaddressed (table : Std.TreeMap NodeId Nat) (i i' : NodeId) : Prop :=
  table[i]? = none ∧ table[i']? = none

namespace Run

variable {α β : Type} {table : Std.TreeMap NodeId Nat}

/-- Both computations do the same on every machine with the given depths, and leave these. -/
abbrev SameWith (table : Std.TreeMap NodeId Nat) (x y : Run α) : Prop :=
  Computation.Related (fun m m' ↦ m = m' ∧ m.addresses = table) Eq Eq x y

namespace SameWith

theorem refl {x : Run α} (hx : Sparing x) : SameWith table x x := by
  rintro m _ ⟨rfl, haddresses⟩
  cases hr : x m with
  | ok a m' => exact .ok rfl ⟨rfl, (hx.of_ok hr).follows.addresses.trans haddresses⟩
  | error e m' => exact .error rfl ⟨rfl, (hx.of_error hr).follows.addresses.trans haddresses⟩

theorem bind {x y : Run α} {f g : α → Run β} (hx : SameWith table x y)
    (hf : ∀ a, SameWith table (f a) (g a)) : SameWith table (x >>= f) (y >>= g) := by
  refine Computation.Related.bind hx ?_
  rintro a _ rfl
  exact hf a

theorem get {f g : Machine → Run β}
    (hf : ∀ m : Machine, m.addresses = table → SameWith table (f m) (g m)) :
    SameWith table (MonadState.get >>= f) (MonadState.get >>= g) := by
  rintro m _ ⟨rfl, haddresses⟩
  exact hf m haddresses m m ⟨rfl, haddresses⟩

theorem eq_of {x y : Run α} (h : SameWith table x y) {m : Machine}
    (haddresses : m.addresses = table) : x m = y m := by
  have hends := h m m ⟨rfl, haddresses⟩
  generalize x m = r at hends ⊢
  generalize y m = r' at hends ⊢
  cases hends with
  | ok ha hm =>
    obtain ⟨rfl, -⟩ := hm
    rw [ha]
  | error he hm =>
    obtain ⟨rfl, -⟩ := hm
    rw [he]

theorem scopeOf? {m : Machine} (haddresses : m.addresses = table) {id id' : NodeId}
    (hid : Unaddressed table id id') : m.scopeOf? id = m.scopeOf? id' := by
  unfold Machine.scopeOf?
  rw [haddresses, hid.1, hid.2]

theorem lookUp {id id' : NodeId} (hid : Unaddressed table id id') {name name' : Token}
    (hname : name.SameLine name') : SameWith table (Run.lookUp id name) (Run.lookUp id' name') := by
  obtain ⟨column, rfl⟩ := hname
  refine get fun m haddresses ↦ ?_
  rw [scopeOf? haddresses hid]
  exact refl (.valueIn _ _ _)

theorem assign {id id' : NodeId} (hid : Unaddressed table id id') {name name' : Token}
    (hname : name.SameLine name') (value : Value) :
    SameWith table (Run.assign id name value) (Run.assign id' name' value) := by
  obtain ⟨column, rfl⟩ := hname
  rw [Run.assign_eq, Run.assign_eq]
  refine get fun m haddresses ↦ ?_
  rw [scopeOf? haddresses hid]
  exact refl (.assignIn _ _ _)

theorem superMethod {id id' : NodeId} (hid : Unaddressed table id id')
    {keyword keyword' : Token} (hkeyword : keyword.SameLine keyword') (method method' : Token) :
    SameWith table (Run.superMethod id keyword method) (Run.superMethod id' keyword' method') := by
  obtain ⟨column, rfl⟩ := hkeyword
  refine get fun m haddresses ↦ ?_
  rw [haddresses, hid.1, hid.2]
  exact refl (.fault _ _)

section Steps

variable {evaluate : Expr → Run Value} {execute : Stmt → Run Flow}

theorem valuesOf
    (hevaluate : ∀ e e', e.Alike Token.SameLine (Unaddressed table) e' →
      SameWith table (evaluate e) (evaluate e'))
    {es es' : List Expr}
    (hes : List.Forall₂ (Expr.Alike Token.SameLine (Unaddressed table)) es es') :
    SameWith table (Run.valuesOf evaluate es) (Run.valuesOf evaluate es') := by
  induction hes with
  | nil => exact refl (.pure _)
  | cons he _ ih =>
    exact bind (hevaluate _ _ he) fun v ↦ bind ih fun vs ↦ refl (.pure _)

/-- One step of evaluation. What an expression calls is executed the same way on both sides. -/
theorem evaluateWith
    (hevaluate : ∀ e e', e.Alike Token.SameLine (Unaddressed table) e' →
      SameWith table (evaluate e) (evaluate e'))
    (hexecute : ∀ s, Sparing (execute s)) {e e' : Expr}
    (he : e.Alike Token.SameLine (Unaddressed table) e') :
    SameWith table (Run.evaluateWith evaluate execute e)
      (Run.evaluateWith evaluate execute e') := by
  cases he with
  | literal value => exact refl (.pure _)
  | grouping h => exact hevaluate _ _ h
  | unary hop h =>
    obtain ⟨column, rfl⟩ := hop
    exact bind (hevaluate _ _ h) fun v ↦ refl (.ofExcept _ _)
  | binary hop hleft hright =>
    obtain ⟨column, rfl⟩ := hop
    refine bind (hevaluate _ _ hleft) fun a ↦ ?_
    refine bind (hevaluate _ _ hright) fun b ↦ ?_
    exact refl (.ofExcept _ _)
  | logical hop hleft hright =>
    obtain ⟨column, rfl⟩ := hop
    refine bind (hevaluate _ _ hleft) fun a ↦ ?_
    dsimp only
    split
    · exact refl (.pure _)
    · exact hevaluate _ _ hright
  | var hid hname => exact lookUp hid hname
  | assign hid hname hvalue =>
    exact bind (hevaluate _ _ hvalue) fun v ↦ bind (assign hid hname v) fun _ ↦ refl (.pure v)
  | call hcallee hparen harguments =>
    obtain ⟨column, rfl⟩ := hparen
    refine bind (hevaluate _ _ hcallee) fun v ↦ ?_
    cases v.callee? with
    | none => exact refl (.fault _ _)
    | some callee =>
      refine bind (valuesOf hevaluate harguments) fun vs ↦ refl ?_
      dsimp only
      split
      · exact .bind (.fault _ _) fun _ ↦ .call hexecute _ _ _
      · exact .call hexecute _ _ _
  | get hobject hname =>
    obtain ⟨column, rfl⟩ := hname
    refine bind (hevaluate _ _ hobject) fun v ↦ ?_
    cases v with
    | «instance» i => exact refl (.property i _)
    | _ => exact refl (.fault _ _)
  | set hobject hname hvalue =>
    obtain ⟨column, rfl⟩ := hname
    refine bind (hevaluate _ _ hobject) fun v ↦ ?_
    cases v with
    | «instance» i =>
      refine bind (hevaluate _ _ hvalue) fun w ↦ refl ?_
      exact .bind (.modifyHeap fun m ↦ m.heap.extends_setField _ _ _) fun _ ↦ .pure _
    | _ => exact refl (.fault _ _)
  | this hid hkeyword => exact lookUp hid hkeyword
  | super hid hkeyword hmethod => exact superMethod hid hkeyword _ _

end Steps

theorem evaluate (fuel : Nat) {e e' : Expr}
    (he : e.Alike Token.SameLine (Unaddressed table) e') :
    SameWith table (Run.evaluate fuel e) (Run.evaluate fuel e') := by
  induction fuel generalizing e e' with
  | zero =>
    rw [Run.evaluate, Run.evaluate]
    exact refl (.throw _)
  | succ fuel ih =>
    rw [Run.evaluate, Run.evaluate]
    exact evaluateWith (fun _ _ h ↦ ih h) (Sparing.evaluate_and_execute fuel).2 he

end SameWith

end Run

end Lox
