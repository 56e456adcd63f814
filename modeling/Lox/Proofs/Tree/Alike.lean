import Lox.Tree.Printing
import Mathlib.Data.List.Forall2

/-!
# Trees up to positions and identifiers

Two trees are alike if they have the same shape and the same literals, and their tokens and their
identifiers correspond pairwise.  What counts as corresponding is a parameter: two parses of one
text differ in identifiers only, two layouts of one program in positions only.
-/

namespace Lox

mutual

/-- The identifiers of the nodes that refer to a variable. -/
def Expr.ids : Expr → List NodeId
  | literal _ => []
  | grouping inner => inner.ids
  | unary _ operand => operand.ids
  | binary _ left right => left.ids ++ right.ids
  | logical _ left right => left.ids ++ right.ids
  | var id _ => [id]
  | assign id _ value => value.ids ++ [id]
  | call callee _ arguments => callee.ids ++ Expr.idsAll arguments
  | get object _ => object.ids
  | set object _ value => value.ids ++ object.ids
  | this id _ => [id]
  | super id _ _ => [id]

def Expr.idsAll : List Expr → List NodeId
  | [] => []
  | e :: rest => e.ids ++ Expr.idsAll rest

end

def Expr.idsOption : Option Expr → List NodeId
  | none => []
  | some e => e.ids

mutual

def Stmt.ids : Stmt → List NodeId
  | block body => Stmt.idsAll body
  | classDecl _ superclass methods => Expr.idsOption superclass ++ Stmt.idsMethods methods
  | expression e => e.ids
  | function routine => Stmt.idsRoutine routine
  | ifElse condition thenBranch elseBranch =>
    condition.ids ++ thenBranch.ids ++ Stmt.idsOption elseBranch
  | print e => e.ids
  | .return _ value => Expr.idsOption value
  | var _ initializer => Expr.idsOption initializer
  | .while condition body => condition.ids ++ body.ids
  | .break _ => []
  | .continue _ => []

def Stmt.idsAll : List Stmt → List NodeId
  | [] => []
  | s :: rest => s.ids ++ Stmt.idsAll rest

def Stmt.idsOption : Option Stmt → List NodeId
  | none => []
  | some s => s.ids

def Stmt.idsRoutine : Routine Stmt → List NodeId
  | ⟨_, _, body⟩ => Stmt.idsAll body

def Stmt.idsMethods : List (Routine Stmt) → List NodeId
  | [] => []
  | method :: rest => Stmt.idsRoutine method ++ Stmt.idsMethods rest

end

/-- Tokens that correspond have the same kind and the same text. -/
structure Token.Faithful (T : Token → Token → Prop) : Prop where
  kind {t t' : Token} (h : T t t') : t.kind = t'.kind
  lexeme {t t' : Token} (h : T t t') : t.lexeme = t'.lexeme

theorem Token.faithful_eq : Token.Faithful Eq :=
  ⟨congrArg _, congrArg _⟩

/-- Expressions with corresponding tokens and identifiers. -/
inductive Expr.Alike (T : Token → Token → Prop) (I : NodeId → NodeId → Prop) :
    Expr → Expr → Prop
  | literal (value : Literal) : Expr.Alike T I (.literal value) (.literal value)
  | grouping {e e' : Expr} (h : Expr.Alike T I e e') : Expr.Alike T I (.grouping e) (.grouping e')
  | unary {op op' : Token} {e e' : Expr} (hop : T op op') (h : Expr.Alike T I e e') :
      Expr.Alike T I (.unary op e) (.unary op' e')
  | binary {op op' : Token} {left left' right right' : Expr} (hop : T op op')
      (hleft : Expr.Alike T I left left') (hright : Expr.Alike T I right right') :
      Expr.Alike T I (.binary op left right) (.binary op' left' right')
  | logical {op op' : Token} {left left' right right' : Expr} (hop : T op op')
      (hleft : Expr.Alike T I left left') (hright : Expr.Alike T I right right') :
      Expr.Alike T I (.logical op left right) (.logical op' left' right')
  | var {id id' : NodeId} {name name' : Token} (hid : I id id') (hname : T name name') :
      Expr.Alike T I (.var id name) (.var id' name')
  | assign {id id' : NodeId} {name name' : Token} {value value' : Expr} (hid : I id id')
      (hname : T name name') (hvalue : Expr.Alike T I value value') :
      Expr.Alike T I (.assign id name value) (.assign id' name' value')
  | call {callee callee' : Expr} {paren paren' : Token} {arguments arguments' : List Expr}
      (hcallee : Expr.Alike T I callee callee') (hparen : T paren paren')
      (harguments : List.Forall₂ (Expr.Alike T I) arguments arguments') :
      Expr.Alike T I (.call callee paren arguments) (.call callee' paren' arguments')
  | get {object object' : Expr} {name name' : Token} (hobject : Expr.Alike T I object object')
      (hname : T name name') : Expr.Alike T I (.get object name) (.get object' name')
  | set {object object' value value' : Expr} {name name' : Token}
      (hobject : Expr.Alike T I object object') (hname : T name name')
      (hvalue : Expr.Alike T I value value') :
      Expr.Alike T I (.set object name value) (.set object' name' value')
  | this {id id' : NodeId} {keyword keyword' : Token} (hid : I id id')
      (hkeyword : T keyword keyword') : Expr.Alike T I (.this id keyword) (.this id' keyword')
  | super {id id' : NodeId} {keyword keyword' method method' : Token} (hid : I id id')
      (hkeyword : T keyword keyword') (hmethod : T method method') :
      Expr.Alike T I (.super id keyword method) (.super id' keyword' method')

/-- Routines with corresponding names, parameters and statements. -/
inductive Routine.Alike {α β : Type} (T : Token → Token → Prop) (S : α → β → Prop) :
    Routine α → Routine β → Prop
  | mk {name name' : Token} {params params' : List Token} {body : List α} {body' : List β}
      (hname : T name name') (hparams : List.Forall₂ T params params')
      (hbody : List.Forall₂ S body body') :
      Routine.Alike T S ⟨name, params, body⟩ ⟨name', params', body'⟩

/-- Statements with corresponding tokens and identifiers. -/
inductive Stmt.Alike (T : Token → Token → Prop) (I : NodeId → NodeId → Prop) :
    Stmt → Stmt → Prop
  | block {body body' : List Stmt} (h : List.Forall₂ (Stmt.Alike T I) body body') :
      Stmt.Alike T I (.block body) (.block body')
  | classDecl {name name' : Token} {superclass superclass' : Option Expr}
      {methods methods' : List (Routine Stmt)} (hname : T name name')
      (hsuperclass : Option.Rel (Expr.Alike T I) superclass superclass')
      (hmethods : List.Forall₂ (Routine.Alike T (Stmt.Alike T I)) methods methods') :
      Stmt.Alike T I (.classDecl name superclass methods) (.classDecl name' superclass' methods')
  | expression {e e' : Expr} (h : Expr.Alike T I e e') :
      Stmt.Alike T I (.expression e) (.expression e')
  | function {routine routine' : Routine Stmt}
      (h : Routine.Alike T (Stmt.Alike T I) routine routine') :
      Stmt.Alike T I (.function routine) (.function routine')
  | ifThen {condition condition' : Expr} {thenBranch thenBranch' : Stmt}
      (hcondition : Expr.Alike T I condition condition')
      (hthen : Stmt.Alike T I thenBranch thenBranch') :
      Stmt.Alike T I (.ifElse condition thenBranch none) (.ifElse condition' thenBranch' none)
  | ifElse {condition condition' : Expr} {thenBranch thenBranch' elseBranch elseBranch' : Stmt}
      (hcondition : Expr.Alike T I condition condition')
      (hthen : Stmt.Alike T I thenBranch thenBranch')
      (helse : Stmt.Alike T I elseBranch elseBranch') :
      Stmt.Alike T I (.ifElse condition thenBranch (some elseBranch))
        (.ifElse condition' thenBranch' (some elseBranch'))
  | print {e e' : Expr} (h : Expr.Alike T I e e') : Stmt.Alike T I (.print e) (.print e')
  | return {keyword keyword' : Token} {value value' : Option Expr} (hkeyword : T keyword keyword')
      (hvalue : Option.Rel (Expr.Alike T I) value value') :
      Stmt.Alike T I (.return keyword value) (.return keyword' value')
  | var {name name' : Token} {initializer initializer' : Option Expr} (hname : T name name')
      (hinitializer : Option.Rel (Expr.Alike T I) initializer initializer') :
      Stmt.Alike T I (.var name initializer) (.var name' initializer')
  | while {condition condition' : Expr} {body body' : Stmt}
      (hcondition : Expr.Alike T I condition condition') (hbody : Stmt.Alike T I body body') :
      Stmt.Alike T I (.while condition body) (.while condition' body')
  | break {keyword keyword' : Token} (hkeyword : T keyword keyword') :
      Stmt.Alike T I (.break keyword) (.break keyword')
  | continue {keyword keyword' : Token} (hkeyword : T keyword keyword') :
      Stmt.Alike T I (.continue keyword) (.continue keyword')

/-- Expressions with corresponding tokens, whatever their identifiers. -/
abbrev Expr.Similar (T : Token → Token → Prop) : Expr → Expr → Prop :=
  Expr.Alike T fun _ _ ↦ True

/-- Statements with corresponding tokens, whatever their identifiers. -/
abbrev Stmt.Similar (T : Token → Token → Prop) : Stmt → Stmt → Prop :=
  Stmt.Alike T fun _ _ ↦ True

variable {T T' : Token → Token → Prop} {I I' : NodeId → NodeId → Prop}

theorem Stmt.Alike.forLoop {initializer initializer' : Option Stmt}
    {condition condition' increment increment' : Option Expr} {body body' : Stmt}
    (hinitializer : Option.Rel (Stmt.Alike T I) initializer initializer')
    (hcondition : Option.Rel (Expr.Alike T I) condition condition')
    (hincrement : Option.Rel (Expr.Alike T I) increment increment')
    (hbody : Stmt.Alike T I body body') :
    Stmt.Alike T I (.forLoop initializer condition increment body)
      (.forLoop initializer' condition' increment' body') := by
  have htest : Expr.Alike T I (condition.getD (.literal (.bool true)))
      (condition'.getD (.literal (.bool true))) := by
    cases hcondition with
    | none => exact .literal _
    | some h => exact h
  unfold Stmt.forLoop
  cases hincrement with
  | none =>
    cases hinitializer with
    | none => exact .while htest hbody
    | some hfirst => exact .block (.cons hfirst (.cons (.while htest hbody) .nil))
  | some hstep =>
    have hblock := Stmt.Alike.block (.cons hbody (.cons (.expression hstep) .nil))
    cases hinitializer with
    | none => exact .while htest hblock
    | some hfirst => exact .block (.cons hfirst (.cons (.while htest hblock) .nil))

/-! ### Likeness and identifiers -/

theorem isSome_eq_of_rel {α β : Type} {R : α → β → Prop} {o : Option α} {o' : Option β}
    (h : Option.Rel R o o') : o.isSome = o'.isSome := by
  cases h with
  | none => rfl
  | some _ => rfl

theorem forall₂_of_append {α β : Type} {R : α → β → Prop} {as cs : List α} {bs ds : List β}
    (hlength : as.length = bs.length) (h : List.Forall₂ R (as ++ cs) (bs ++ ds)) :
    List.Forall₂ R as bs ∧ List.Forall₂ R cs ds := by
  induction as generalizing bs with
  | nil =>
    cases List.length_eq_zero_iff.1 hlength.symm
    exact ⟨.nil, h⟩
  | cons a as ih =>
    cases bs with
    | nil => cases hlength
    | cons b bs =>
      cases h with
      | cons hab hrest =>
        obtain ⟨hleft, hright⟩ := ih (Nat.succ.inj hlength) hrest
        exact ⟨.cons hab hleft, hright⟩

theorem forall₂_of_mem {α β : Type} {R R' : α → β → Prop} {as : List α} {bs : List β}
    (h : List.Forall₂ R as bs) (hR : ∀ a ∈ as, ∀ b ∈ bs, R' a b) : List.Forall₂ R' as bs := by
  induction h with
  | nil => exact .nil
  | cons _ _ ih =>
    refine .cons (hR _ List.mem_cons_self _ List.mem_cons_self) (ih fun a ha b hb ↦ ?_)
    exact hR a (List.mem_cons_of_mem _ ha) b (List.mem_cons_of_mem _ hb)

theorem forall₂_trans {α β γ : Type} {R : α → β → Prop} {R' : β → γ → Prop} {R'' : α → γ → Prop}
    (hR : ∀ a b c, R a b → R' b c → R'' a c) {as : List α} {bs : List β} {cs : List γ}
    (h : List.Forall₂ R as bs) (h' : List.Forall₂ R' bs cs) : List.Forall₂ R'' as cs := by
  induction h generalizing cs with
  | nil =>
    cases h'
    exact .nil
  | cons hab _ ih =>
    cases h' with
    | cons hbc hrest => exact .cons (hR _ _ _ hab hbc) (ih hrest)

mutual

theorem Expr.Alike.ids {e e' : Expr} : Expr.Alike T I e e' → List.Forall₂ I e.ids e'.ids
  | .literal _ => .nil
  | .grouping h => h.ids
  | .unary _ h => h.ids
  | .binary _ hleft hright => List.rel_append hleft.ids hright.ids
  | .logical _ hleft hright => List.rel_append hleft.ids hright.ids
  | .var hid _ => .cons hid .nil
  | .assign hid _ hvalue => List.rel_append hvalue.ids (.cons hid .nil)
  | .call hcallee _ harguments => List.rel_append hcallee.ids (Expr.Alike.idsAll harguments)
  | .get hobject _ => hobject.ids
  | .set hobject _ hvalue => List.rel_append hvalue.ids hobject.ids
  | .this hid _ => .cons hid .nil
  | .super hid _ _ => .cons hid .nil

theorem Expr.Alike.idsAll {es es' : List Expr} :
    List.Forall₂ (Expr.Alike T I) es es' → List.Forall₂ I (Expr.idsAll es) (Expr.idsAll es')
  | .nil => .nil
  | .cons h hrest => List.rel_append h.ids (Expr.Alike.idsAll hrest)

end

theorem Expr.Alike.idsOption {o o' : Option Expr} (h : Option.Rel (Expr.Alike T I) o o') :
    List.Forall₂ I (Expr.idsOption o) (Expr.idsOption o') := by
  cases h with
  | none => exact .nil
  | some h => exact h.ids

mutual

theorem Stmt.Alike.ids {s s' : Stmt} : Stmt.Alike T I s s' → List.Forall₂ I s.ids s'.ids
  | .block h => by
    simp only [Stmt.ids]
    exact Stmt.Alike.idsAll h
  | .classDecl _ hsuperclass hmethods => by
    simp only [Stmt.ids]
    exact List.rel_append (Expr.Alike.idsOption hsuperclass) (Stmt.Alike.idsMethods hmethods)
  | .expression h => by
    simp only [Stmt.ids]
    exact h.ids
  | .function h => by
    simp only [Stmt.ids]
    exact Stmt.Alike.idsRoutine h
  | .ifThen hcondition hthen => by
    simp only [Stmt.ids, Stmt.idsOption]
    exact List.rel_append (List.rel_append hcondition.ids hthen.ids) .nil
  | .ifElse hcondition hthen helse => by
    simp only [Stmt.ids, Stmt.idsOption]
    exact List.rel_append (List.rel_append hcondition.ids hthen.ids) helse.ids
  | .print h => by
    simp only [Stmt.ids]
    exact h.ids
  | .return _ hvalue => by
    simp only [Stmt.ids]
    exact Expr.Alike.idsOption hvalue
  | .var _ hinitializer => by
    simp only [Stmt.ids]
    exact Expr.Alike.idsOption hinitializer
  | .while hcondition hbody => by
    simp only [Stmt.ids]
    exact List.rel_append hcondition.ids hbody.ids
  | .break _ => by
    simp only [Stmt.ids]
    exact .nil
  | .continue _ => by
    simp only [Stmt.ids]
    exact .nil
termination_by sizeOf s

theorem Stmt.Alike.idsAll {ss ss' : List Stmt} :
    List.Forall₂ (Stmt.Alike T I) ss ss' → List.Forall₂ I (Stmt.idsAll ss) (Stmt.idsAll ss')
  | .nil => by
    simp only [Stmt.idsAll]
    exact .nil
  | .cons h hrest => by
    simp only [Stmt.idsAll]
    exact List.rel_append h.ids (Stmt.Alike.idsAll hrest)
termination_by sizeOf ss

theorem Stmt.Alike.idsRoutine : ∀ {r r' : Routine Stmt},
    Routine.Alike T (Stmt.Alike T I) r r' →
      List.Forall₂ I (Stmt.idsRoutine r) (Stmt.idsRoutine r')
  | ⟨_, _, _⟩, ⟨_, _, _⟩, .mk _ _ hbody => by
    simp only [Stmt.idsRoutine]
    exact Stmt.Alike.idsAll hbody
termination_by r => sizeOf r

theorem Stmt.Alike.idsMethods {rs rs' : List (Routine Stmt)} :
    List.Forall₂ (Routine.Alike T (Stmt.Alike T I)) rs rs' →
      List.Forall₂ I (Stmt.idsMethods rs) (Stmt.idsMethods rs')
  | .nil => by
    simp only [Stmt.idsMethods]
    exact .nil
  | .cons h hrest => by
    simp only [Stmt.idsMethods]
    exact List.rel_append (Stmt.Alike.idsRoutine h) (Stmt.Alike.idsMethods hrest)
termination_by sizeOf rs

end

mutual

/-- Trees of the same shape are alike in whatever way their identifiers correspond. -/
theorem Expr.Alike.renumber (hT : ∀ t t', T t t' → T' t t') {e e' : Expr} :
    Expr.Alike T I e e' → List.Forall₂ I' e.ids e'.ids → Expr.Alike T' I' e e'
  | .literal value, _ => .literal value
  | .grouping h, hI => .grouping (h.renumber hT hI)
  | .unary hop h, hI => .unary (hT _ _ hop) (h.renumber hT hI)
  | .binary hop hleft hright, hI => by
    obtain ⟨hI₁, hI₂⟩ := forall₂_of_append hleft.ids.length_eq hI
    exact .binary (hT _ _ hop) (hleft.renumber hT hI₁) (hright.renumber hT hI₂)
  | .logical hop hleft hright, hI => by
    obtain ⟨hI₁, hI₂⟩ := forall₂_of_append hleft.ids.length_eq hI
    exact .logical (hT _ _ hop) (hleft.renumber hT hI₁) (hright.renumber hT hI₂)
  | .var _ hname, .cons hid _ => .var hid (hT _ _ hname)
  | .assign _ hname hvalue, hI => by
    obtain ⟨hI₁, hI₂⟩ := forall₂_of_append hvalue.ids.length_eq hI
    exact .assign (List.forall₂_cons.1 hI₂).1 (hT _ _ hname) (hvalue.renumber hT hI₁)
  | .call hcallee hparen harguments, hI => by
    obtain ⟨hI₁, hI₂⟩ := forall₂_of_append hcallee.ids.length_eq hI
    exact .call (hcallee.renumber hT hI₁) (hT _ _ hparen)
      (Expr.Alike.renumberAll hT harguments hI₂)
  | .get hobject hname, hI => .get (hobject.renumber hT hI) (hT _ _ hname)
  | .set hobject hname hvalue, hI => by
    obtain ⟨hI₁, hI₂⟩ := forall₂_of_append hvalue.ids.length_eq hI
    exact .set (hobject.renumber hT hI₂) (hT _ _ hname) (hvalue.renumber hT hI₁)
  | .this _ hkeyword, .cons hid _ => .this hid (hT _ _ hkeyword)
  | .super _ hkeyword hmethod, .cons hid _ => .super hid (hT _ _ hkeyword) (hT _ _ hmethod)

theorem Expr.Alike.renumberAll (hT : ∀ t t', T t t' → T' t t') {es es' : List Expr} :
    List.Forall₂ (Expr.Alike T I) es es' →
      List.Forall₂ I' (Expr.idsAll es) (Expr.idsAll es') →
      List.Forall₂ (Expr.Alike T' I') es es'
  | .nil, _ => .nil
  | .cons h hrest, hI => by
    obtain ⟨hI₁, hI₂⟩ := forall₂_of_append h.ids.length_eq hI
    exact .cons (h.renumber hT hI₁) (Expr.Alike.renumberAll hT hrest hI₂)

end

theorem Expr.Alike.renumberOption (hT : ∀ t t', T t t' → T' t t') {o o' : Option Expr}
    (h : Option.Rel (Expr.Alike T I) o o')
    (hI : List.Forall₂ I' (Expr.idsOption o) (Expr.idsOption o')) :
    Option.Rel (Expr.Alike T' I') o o' := by
  cases h with
  | none => exact .none
  | some h => exact .some (h.renumber hT hI)

mutual

theorem Stmt.Alike.renumber (hT : ∀ t t', T t t' → T' t t') {s s' : Stmt} :
    Stmt.Alike T I s s' → List.Forall₂ I' s.ids s'.ids → Stmt.Alike T' I' s s'
  | .block h, hI => by
    simp only [Stmt.ids] at hI
    exact .block (Stmt.Alike.renumberAll hT h hI)
  | .classDecl hname hsuperclass hmethods, hI => by
    simp only [Stmt.ids] at hI
    obtain ⟨hI₁, hI₂⟩ := forall₂_of_append (Expr.Alike.idsOption hsuperclass).length_eq hI
    exact .classDecl (hT _ _ hname) (Expr.Alike.renumberOption hT hsuperclass hI₁)
      (Stmt.Alike.renumberMethods hT hmethods hI₂)
  | .expression h, hI => by
    simp only [Stmt.ids] at hI
    exact .expression (h.renumber hT hI)
  | .function h, hI => by
    simp only [Stmt.ids] at hI
    exact .function (Stmt.Alike.renumberRoutine hT h hI)
  | .ifThen hcondition hthen, hI => by
    simp only [Stmt.ids, Stmt.idsOption, List.append_nil] at hI
    obtain ⟨hI₁, hI₂⟩ := forall₂_of_append hcondition.ids.length_eq hI
    exact .ifThen (hcondition.renumber hT hI₁) (hthen.renumber hT hI₂)
  | .ifElse hcondition hthen helse, hI => by
    simp only [Stmt.ids, Stmt.idsOption, List.append_assoc] at hI
    obtain ⟨hI₁, hI₂⟩ := forall₂_of_append hcondition.ids.length_eq hI
    obtain ⟨hI₂, hI₃⟩ := forall₂_of_append hthen.ids.length_eq hI₂
    exact .ifElse (hcondition.renumber hT hI₁) (hthen.renumber hT hI₂) (helse.renumber hT hI₃)
  | .print h, hI => by
    simp only [Stmt.ids] at hI
    exact .print (h.renumber hT hI)
  | .return hkeyword hvalue, hI => by
    simp only [Stmt.ids] at hI
    exact .return (hT _ _ hkeyword) (Expr.Alike.renumberOption hT hvalue hI)
  | .var hname hinitializer, hI => by
    simp only [Stmt.ids] at hI
    exact .var (hT _ _ hname) (Expr.Alike.renumberOption hT hinitializer hI)
  | .while hcondition hbody, hI => by
    simp only [Stmt.ids] at hI
    obtain ⟨hI₁, hI₂⟩ := forall₂_of_append hcondition.ids.length_eq hI
    exact .while (hcondition.renumber hT hI₁) (hbody.renumber hT hI₂)
  | .break hkeyword, _ => .break (hT _ _ hkeyword)
  | .continue hkeyword, _ => .continue (hT _ _ hkeyword)
termination_by sizeOf s

theorem Stmt.Alike.renumberAll (hT : ∀ t t', T t t' → T' t t') {ss ss' : List Stmt} :
    List.Forall₂ (Stmt.Alike T I) ss ss' →
      List.Forall₂ I' (Stmt.idsAll ss) (Stmt.idsAll ss') →
      List.Forall₂ (Stmt.Alike T' I') ss ss'
  | .nil, _ => .nil
  | .cons h hrest, hI => by
    simp only [Stmt.idsAll] at hI
    obtain ⟨hI₁, hI₂⟩ := forall₂_of_append h.ids.length_eq hI
    exact .cons (h.renumber hT hI₁) (Stmt.Alike.renumberAll hT hrest hI₂)
termination_by sizeOf ss

theorem Stmt.Alike.renumberRoutine (hT : ∀ t t', T t t' → T' t t') : ∀ {r r' : Routine Stmt},
    Routine.Alike T (Stmt.Alike T I) r r' →
      List.Forall₂ I' (Stmt.idsRoutine r) (Stmt.idsRoutine r') →
      Routine.Alike T' (Stmt.Alike T' I') r r'
  | ⟨_, _, _⟩, ⟨_, _, _⟩, .mk hname hparams hbody, hI => by
    simp only [Stmt.idsRoutine] at hI
    exact .mk (hT _ _ hname) (hparams.imp hT) (Stmt.Alike.renumberAll hT hbody hI)
termination_by r => sizeOf r

theorem Stmt.Alike.renumberMethods (hT : ∀ t t', T t t' → T' t t') {rs rs' : List (Routine Stmt)} :
    List.Forall₂ (Routine.Alike T (Stmt.Alike T I)) rs rs' →
      List.Forall₂ I' (Stmt.idsMethods rs) (Stmt.idsMethods rs') →
      List.Forall₂ (Routine.Alike T' (Stmt.Alike T' I')) rs rs'
  | .nil, _ => .nil
  | .cons h hrest, hI => by
    simp only [Stmt.idsMethods] at hI
    obtain ⟨hI₁, hI₂⟩ := forall₂_of_append (Stmt.Alike.idsRoutine h).length_eq hI
    exact .cons (Stmt.Alike.renumberRoutine hT h hI₁) (Stmt.Alike.renumberMethods hT hrest hI₂)
termination_by sizeOf rs

end

/-- What corresponds in a stronger sense corresponds in a weaker one. -/
theorem Routine.Alike.imp {r r' : Routine Stmt} (h : Routine.Alike T (Stmt.Alike T I) r r')
    (hT : ∀ t t', T t t' → T' t t') (hI : ∀ id id', I id id' → I' id id') :
    Routine.Alike T' (Stmt.Alike T' I') r r' :=
  Stmt.Alike.renumberRoutine hT h ((Stmt.Alike.idsRoutine h).imp hI)

/-! ### One correspondence after another -/

section Trans

variable {T'' : Token → Token → Prop}

mutual

/-- Identifiers aside, what corresponds in two steps corresponds. -/
theorem Expr.Alike.trans (hT : ∀ t t' t'', T t t' → T' t' t'' → T'' t t'') {e e' e'' : Expr} :
    e.Similar T e' → e'.Similar T' e'' → e.Similar T'' e''
  | .literal value, .literal _ => .literal value
  | .grouping h, .grouping h' => .grouping (h.trans hT h')
  | .unary hop h, .unary hop' h' => .unary (hT _ _ _ hop hop') (h.trans hT h')
  | .binary hop hleft hright, .binary hop' hleft' hright' =>
    .binary (hT _ _ _ hop hop') (hleft.trans hT hleft') (hright.trans hT hright')
  | .logical hop hleft hright, .logical hop' hleft' hright' =>
    .logical (hT _ _ _ hop hop') (hleft.trans hT hleft') (hright.trans hT hright')
  | .var _ hname, .var _ hname' => .var trivial (hT _ _ _ hname hname')
  | .assign _ hname hvalue, .assign _ hname' hvalue' =>
    .assign trivial (hT _ _ _ hname hname') (hvalue.trans hT hvalue')
  | .call hcallee hparen harguments, .call hcallee' hparen' harguments' =>
    .call (hcallee.trans hT hcallee') (hT _ _ _ hparen hparen')
      (Expr.Alike.transAll hT harguments harguments')
  | .get hobject hname, .get hobject' hname' =>
    .get (hobject.trans hT hobject') (hT _ _ _ hname hname')
  | .set hobject hname hvalue, .set hobject' hname' hvalue' =>
    .set (hobject.trans hT hobject') (hT _ _ _ hname hname') (hvalue.trans hT hvalue')
  | .this _ hkeyword, .this _ hkeyword' => .this trivial (hT _ _ _ hkeyword hkeyword')
  | .super _ hkeyword hmethod, .super _ hkeyword' hmethod' =>
    .super trivial (hT _ _ _ hkeyword hkeyword') (hT _ _ _ hmethod hmethod')
termination_by sizeOf e

theorem Expr.Alike.transAll (hT : ∀ t t' t'', T t t' → T' t' t'' → T'' t t'')
    {es es' es'' : List Expr} : List.Forall₂ (Expr.Similar T) es es' →
      List.Forall₂ (Expr.Similar T') es' es'' → List.Forall₂ (Expr.Similar T'') es es''
  | .nil, .nil => .nil
  | .cons h hrest, .cons h' hrest' => .cons (h.trans hT h') (Expr.Alike.transAll hT hrest hrest')
termination_by sizeOf es

end

theorem Expr.Alike.transOption (hT : ∀ t t' t'', T t t' → T' t' t'' → T'' t t'')
    {o o' o'' : Option Expr} : Option.Rel (Expr.Similar T) o o' →
      Option.Rel (Expr.Similar T') o' o'' → Option.Rel (Expr.Similar T'') o o''
  | .none, .none => .none
  | .some h, .some h' => .some (h.trans hT h')

mutual

theorem Stmt.Alike.trans (hT : ∀ t t' t'', T t t' → T' t' t'' → T'' t t'') {s s' s'' : Stmt} :
    s.Similar T s' → s'.Similar T' s'' → s.Similar T'' s''
  | .block h, .block h' => .block (Stmt.Alike.transAll hT h h')
  | .classDecl hname hsuperclass hmethods, .classDecl hname' hsuperclass' hmethods' =>
    .classDecl (hT _ _ _ hname hname') (Expr.Alike.transOption hT hsuperclass hsuperclass')
      (Stmt.Alike.transMethods hT hmethods hmethods')
  | .expression h, .expression h' => .expression (h.trans hT h')
  | .function h, .function h' => .function (Stmt.Alike.transRoutine hT h h')
  | .ifThen hcondition hthen, .ifThen hcondition' hthen' =>
    .ifThen (hcondition.trans hT hcondition') (hthen.trans hT hthen')
  | .ifElse hcondition hthen helse, .ifElse hcondition' hthen' helse' =>
    .ifElse (hcondition.trans hT hcondition') (hthen.trans hT hthen') (helse.trans hT helse')
  | .print h, .print h' => .print (h.trans hT h')
  | .return hkeyword hvalue, .return hkeyword' hvalue' =>
    .return (hT _ _ _ hkeyword hkeyword') (Expr.Alike.transOption hT hvalue hvalue')
  | .var hname hinitializer, .var hname' hinitializer' =>
    .var (hT _ _ _ hname hname') (Expr.Alike.transOption hT hinitializer hinitializer')
  | .while hcondition hbody, .while hcondition' hbody' =>
    .while (hcondition.trans hT hcondition') (hbody.trans hT hbody')
  | .break hkeyword, .break hkeyword' => .break (hT _ _ _ hkeyword hkeyword')
  | .continue hkeyword, .continue hkeyword' => .continue (hT _ _ _ hkeyword hkeyword')
termination_by sizeOf s

theorem Stmt.Alike.transAll (hT : ∀ t t' t'', T t t' → T' t' t'' → T'' t t'')
    {ss ss' ss'' : List Stmt} : List.Forall₂ (Stmt.Similar T) ss ss' →
      List.Forall₂ (Stmt.Similar T') ss' ss'' → List.Forall₂ (Stmt.Similar T'') ss ss''
  | .nil, .nil => .nil
  | .cons h hrest, .cons h' hrest' => .cons (h.trans hT h') (Stmt.Alike.transAll hT hrest hrest')
termination_by sizeOf ss

theorem Stmt.Alike.transRoutine (hT : ∀ t t' t'', T t t' → T' t' t'' → T'' t t'') :
    ∀ {r r' r'' : Routine Stmt}, Routine.Alike T (Stmt.Similar T) r r' →
      Routine.Alike T' (Stmt.Similar T') r' r'' → Routine.Alike T'' (Stmt.Similar T'') r r''
  | ⟨_, _, _⟩, ⟨_, _, _⟩, ⟨_, _, _⟩, .mk hname hparams hbody, .mk hname' hparams' hbody' =>
    .mk (hT _ _ _ hname hname') (forall₂_trans hT hparams hparams')
      (Stmt.Alike.transAll hT hbody hbody')
termination_by r => sizeOf r

theorem Stmt.Alike.transMethods (hT : ∀ t t' t'', T t t' → T' t' t'' → T'' t t'')
    {rs rs' rs'' : List (Routine Stmt)} :
    List.Forall₂ (Routine.Alike T (Stmt.Similar T)) rs rs' →
      List.Forall₂ (Routine.Alike T' (Stmt.Similar T')) rs' rs'' →
      List.Forall₂ (Routine.Alike T'' (Stmt.Similar T'')) rs rs''
  | .nil, .nil => .nil
  | .cons h hrest, .cons h' hrest' =>
    .cons (Stmt.Alike.transRoutine hT h h') (Stmt.Alike.transMethods hT hrest hrest')
termination_by sizeOf rs

end

end Trans

/-! ### Prefix form -/

mutual

theorem Expr.Alike.print (hT : Token.Faithful T) {e e' : Expr} :
    e.Alike T I e' → e.print = e'.print
  | .literal _ => rfl
  | .grouping h => by rw [Expr.print, Expr.print, h.print hT]
  | .unary hop h => by rw [Expr.print, Expr.print, hT.lexeme hop, h.print hT]
  | .binary hop hleft hright => by
    rw [Expr.print, Expr.print, hT.lexeme hop, hleft.print hT, hright.print hT]
  | .logical hop hleft hright => by
    rw [Expr.print, Expr.print, hT.lexeme hop, hleft.print hT, hright.print hT]
  | .var _ hname => by rw [Expr.print, Expr.print, hT.lexeme hname]
  | .assign _ hname hvalue => by rw [Expr.print, Expr.print, hT.lexeme hname, hvalue.print hT]
  | .call hcallee _ harguments => by
    rw [Expr.print, Expr.print, hcallee.print hT, Expr.Alike.printAll hT harguments]
  | .get hobject hname => by rw [Expr.print, Expr.print, hobject.print hT, hT.lexeme hname]
  | .set hobject hname hvalue => by
    rw [Expr.print, Expr.print, hobject.print hT, hT.lexeme hname, hvalue.print hT]
  | .this _ _ => rfl
  | .super _ _ hmethod => by rw [Expr.print, Expr.print, hT.lexeme hmethod]

theorem Expr.Alike.printAll (hT : Token.Faithful T) {es es' : List Expr} :
    List.Forall₂ (Expr.Alike T I) es es' → Expr.printAll es = Expr.printAll es'
  | .nil => rfl
  | .cons h hrest => by
    rw [Expr.printAll, Expr.printAll, h.print hT, Expr.Alike.printAll hT hrest]

end

end Lox
