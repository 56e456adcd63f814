import Lox.Proofs.Tree.Flatten
import Lox.Proofs.Tree.Orderly
import Lox.Proofs.Tree.Rules

/-!
# Proper expressions

An expression is proper if all that is inside it is: operators are operators, names are not those
that classes keep for themselves, and `this` and `super` are spelled so and have been located.
-/

namespace Lox

mutual

def Expr.Proper (located : NodeId → Prop) : Expr → Prop
  | literal _ => True
  | grouping inner => inner.Proper located
  | unary op operand => (op.kind = .bang ∨ op.kind = .minus) ∧ operand.Proper located
  | binary op left right => 3 ≤ op.kind.precedence ∧ left.Proper located ∧ right.Proper located
  | logical _ left right => left.Proper located ∧ right.Proper located
  | var _ name => ¬Reserved name.lexeme
  | assign _ name value => ¬Reserved name.lexeme ∧ value.Proper located
  | call callee _ arguments => callee.Proper located ∧ Expr.ProperAll located arguments
  | get object _ => object.Proper located
  | set object _ value => object.Proper located ∧ value.Proper located
  | this id keyword => keyword.lexeme = "this" ∧ located id
  | super id keyword _ => keyword.lexeme = "super" ∧ located id

def Expr.ProperAll (located : NodeId → Prop) : List Expr → Prop
  | [] => True
  | e :: rest => e.Proper located ∧ Expr.ProperAll located rest

end

/-- The rules for programs of proper expressions.  A superclass is a name, and nothing is declared
under a name that classes keep for themselves. -/
def Rules.proper (located : NodeId → Prop) : Rules where
  expression := Expr.Proper located
  superclass e := ∃ id name, e = .var id name ∧ ¬Reserved name.lexeme
  name name := ¬Reserved name

namespace Expr

variable {located located' : NodeId → Prop}

theorem properAll_iff {es : List Expr} :
    ProperAll located es ↔ ∀ e ∈ es, e.Proper located := by
  induction es with
  | nil => simp [ProperAll]
  | cons e rest ih => rw [ProperAll, ih, List.forall_mem_cons]

theorem Proper.of_child {e inner : Expr} (he : e.Proper located) (hinner : inner ∈ e.children) :
    inner.Proper located := by
  cases e with
  | literal value => cases hinner
  | grouping body =>
    cases List.mem_singleton.1 hinner
    exact he
  | unary op operand =>
    cases List.mem_singleton.1 hinner
    exact he.2
  | binary op left right =>
    rcases List.mem_cons.1 hinner with rfl | hinner
    · exact he.2.1
    · cases List.mem_singleton.1 hinner
      exact he.2.2
  | logical op left right =>
    rcases List.mem_cons.1 hinner with rfl | hinner
    · exact he.1
    · cases List.mem_singleton.1 hinner
      exact he.2
  | var id name => cases hinner
  | assign id name value =>
    cases List.mem_singleton.1 hinner
    exact he.2
  | call callee paren arguments =>
    rcases List.mem_cons.1 hinner with rfl | hinner
    · exact he.1
    · exact properAll_iff.1 he.2 inner hinner
  | get object name =>
    cases List.mem_singleton.1 hinner
    exact he
  | set object name value =>
    rcases List.mem_cons.1 hinner with rfl | hinner
    · exact he.1
    · cases List.mem_singleton.1 hinner
      exact he.2
  | this id keyword => cases hinner
  | super id keyword method => cases hinner

mutual

theorem Proper.mono (h : ∀ id, located id → located' id) :
    ∀ e : Expr, e.Proper located → e.Proper located'
  | .literal _, _ => trivial
  | .grouping inner, he => Proper.mono h inner he
  | .unary _ operand, he => ⟨he.1, Proper.mono h operand he.2⟩
  | .binary _ left right, he => ⟨he.1, Proper.mono h left he.2.1, Proper.mono h right he.2.2⟩
  | .logical _ left right, he => ⟨Proper.mono h left he.1, Proper.mono h right he.2⟩
  | .var _ _, he => he
  | .assign _ _ value, he => ⟨he.1, Proper.mono h value he.2⟩
  | .call callee _ arguments, he => ⟨Proper.mono h callee he.1, ProperAll.mono h arguments he.2⟩
  | .get object _, he => Proper.mono h object he
  | .set object _ value, he => ⟨Proper.mono h object he.1, Proper.mono h value he.2⟩
  | .this id _, he => ⟨he.1, h id he.2⟩
  | .super id _ _, he => ⟨he.1, h id he.2⟩

theorem ProperAll.mono (h : ∀ id, located id → located' id) :
    ∀ es : List Expr, ProperAll located es → ProperAll located' es
  | [], _ => trivial
  | e :: rest, hes => ⟨Proper.mono h e hes.1, ProperAll.mono h rest hes.2⟩

end

mutual

/-- What respects the levels of the grammar and is spelled as it should be is proper, with nothing
asked of identifiers. -/
theorem proper_of_respects : ∀ e : Expr, e.Respects → e.Orderly →
    (∀ t ∈ e.flatten, t.kind = .identifier → ¬Reserved t.lexeme) → e.Proper fun _ ↦ True
  | .literal _, _, _, _ => trivial
  | .grouping inner, he, horderly, hnames => by
    rw [flatten, List.forall_mem_cons, List.forall_mem_append] at hnames
    rw [Respects] at he
    exact proper_of_respects inner he horderly hnames.2.1
  | .unary op operand, he, horderly, hnames => by
    rw [flatten, List.forall_mem_cons] at hnames
    rw [Respects] at he
    exact ⟨he.1, proper_of_respects operand he.2.2 horderly hnames.2⟩
  | .binary op left right, he, horderly, hnames => by
    rw [flatten, List.forall_mem_append, List.forall_mem_cons] at hnames
    rw [Respects] at he
    obtain ⟨hop, -, -, hleft, hright⟩ := he
    exact ⟨hop, proper_of_respects left hleft horderly.1 hnames.1,
      proper_of_respects right hright horderly.2 hnames.2.2⟩
  | .logical op left right, he, horderly, hnames => by
    rw [flatten, List.forall_mem_append, List.forall_mem_cons] at hnames
    rw [Respects] at he
    obtain ⟨-, -, -, hleft, hright⟩ := he
    exact ⟨proper_of_respects left hleft horderly.1 hnames.1,
      proper_of_respects right hright horderly.2 hnames.2.2⟩
  | .var id name, he, _, hnames => by
    rw [flatten, List.forall_mem_singleton] at hnames
    rw [Respects] at he
    exact hnames he
  | .assign id name value, he, horderly, hnames => by
    rw [flatten, List.forall_mem_cons, List.forall_mem_cons] at hnames
    rw [Respects] at he
    exact ⟨hnames.1 he.1, proper_of_respects value he.2 horderly hnames.2.2⟩
  | .call callee paren arguments, he, horderly, hnames => by
    rw [flatten, List.forall_mem_append, List.forall_mem_cons, List.forall_mem_append] at hnames
    rw [Respects] at he
    obtain ⟨-, -, hcallee, -, harguments⟩ := he
    exact ⟨proper_of_respects callee hcallee horderly.1 hnames.1,
      properAll_of_respects arguments harguments horderly.2 hnames.2.2.1⟩
  | .get object name, he, horderly, hnames => by
    rw [flatten, List.forall_mem_append] at hnames
    rw [Respects] at he
    exact proper_of_respects object he.2.2 horderly hnames.1
  | .set object name value, he, horderly, hnames => by
    rw [flatten, List.forall_mem_append, List.forall_mem_cons, List.forall_mem_cons,
      List.forall_mem_cons] at hnames
    rw [Respects] at he
    obtain ⟨-, -, hobject, hvalue⟩ := he
    exact ⟨proper_of_respects object hobject horderly.1 hnames.1,
      proper_of_respects value hvalue horderly.2 hnames.2.2.2.2⟩
  | .this _ _, _, horderly, _ => ⟨horderly, trivial⟩
  | .super _ _ _, _, horderly, _ => ⟨horderly, trivial⟩

theorem properAll_of_respects : ∀ es : List Expr, RespectsAll es → OrderlyAll es →
    (∀ t ∈ flattenAll es, t.kind = .identifier → ¬Reserved t.lexeme) →
      ProperAll (fun _ ↦ True) es
  | [], _, _, _ => trivial
  -- There is no comma behind the last one.
  | [e], hes, horderly, hnames => by
    rw [flattenAll] at hnames
    exact ⟨proper_of_respects e hes.1 horderly.1 hnames, trivial⟩
  | e :: e' :: rest, hes, horderly, hnames => by
    rw [flattenAll, List.forall_mem_append, List.forall_mem_cons] at hnames
    rotate_left
    · exact List.cons_ne_nil _ _
    exact ⟨proper_of_respects e hes.1 horderly.1 hnames.1,
      properAll_of_respects (e' :: rest) hes.2 horderly.2 hnames.2.2⟩

end

end Expr

namespace Rules

variable {located located' : NodeId → Prop}

theorem proper_within (h : ∀ id, located id → located' id) :
    (proper located).Within (proper located') where
  expression := Expr.Proper.mono h
  superclass _ := id
  name _ := id

theorem proper_governs (h : ∀ id, located id → located' id) :
    (proper located).Governs (Expr.Proper located') where
  of_rule he := Expr.Proper.mono h _ he
  of_superclass := by
    rintro e ⟨id, name, rfl, hname⟩
    exact hname
  of_child := Expr.Proper.of_child
  name_of_assign he := he.1
  name_of_var he := he

end Rules

end Lox
