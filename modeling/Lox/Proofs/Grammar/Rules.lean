import Lox.Proofs.Grammar.Contained
import Lox.Proofs.Grammar.Levels
import Lox.Proofs.Grammar.Orderly
import Lox.Proofs.Tree.Proper

/-!
# What the grammar derives obeys rules

Rules that the expressions and names of scanned tokens obey are obeyed by the statements that the
grammar derives.  So programs are made of proper expressions.
-/

namespace Lox.Grammar

/-- Rules that hold of whatever is derived from tokens that are spelled as their kinds say. -/
structure Fits (rules : Rules) : Prop where
  expression : ∀ {ts e}, Expression ts e → (∀ t ∈ ts, t.Spelt) → rules.expression e
  superclass : ∀ {id t}, t.Spelt → t.kind = .identifier → rules.superclass (.var id t)
  name : ∀ {t : Token}, t.Spelt → t.kind = .identifier → rules.name t.lexeme
  condition : rules.expression (.literal (.bool true))

section Parts

variable {rules : Rules} (hrules : Fits rules) {ts : List Token}
include hrules

theorem Maybe.obeys {o : Option Expr} (h : Maybe Expression ts o) (hspelt : ∀ t ∈ ts, t.Spelt) :
    ∀ e, o = some e → rules.expression e := by
  rintro e rfl
  cases h with
  | present h => exact hrules.expression h hspelt

theorem VarDecl.obeys {s : Stmt} (h : VarDecl ts s) (hspelt : ∀ t ∈ ts, t.Spelt) :
    s.Obeys rules := by
  obtain ⟨hkeyword, hname, hinitializer, hsemicolon⟩ := h
  rw [Stmt.Obeys]
  constructor
  · exact hrules.name (hspelt _ (by simp)) hname
  · rintro e rfl
    cases hinitializer with
    | present hequals h => exact hrules.expression h fun t ht ↦ hspelt t (by simp [ht])

theorem ExprStmt.obeys {s : Stmt} (h : ExprStmt ts s) (hspelt : ∀ t ∈ ts, t.Spelt) :
    s.Obeys rules := by
  obtain ⟨h, hsemicolon⟩ := h
  rw [Stmt.Obeys]
  exact hrules.expression h fun t ht ↦ hspelt t (List.mem_append_left _ ht)

theorem ForStart.obeys {o : Option Stmt} (h : ForStart ts o) (hspelt : ∀ t ∈ ts, t.Spelt) :
    ∀ s, o = some s → s.Obeys rules := by
  rintro s rfl
  cases h with
  | varDecl h => exact h.obeys hrules hspelt
  | exprStmt h => exact h.obeys hrules hspelt

theorem Superclass.obeys {o : Option Expr} (h : Superclass ts o) (hspelt : ∀ t ∈ ts, t.Spelt) :
    ∀ e, o = some e → rules.superclass e := by
  rintro e rfl
  cases h with
  | present hless hname => exact hrules.superclass (hspelt _ (by simp)) hname

theorem Commas.obeys {params : List Token} (h : Commas Name ts params)
    (hspelt : ∀ t ∈ ts, t.Spelt) : ∀ param ∈ params, rules.name param.lexeme := by
  induction h with
  | one h =>
    obtain ⟨hname⟩ := h
    intro param hparam
    rw [List.mem_singleton.1 hparam]
    exact hrules.name (hspelt _ List.mem_cons_self) hname
  | more h hcomma hrest ih =>
    obtain ⟨hname⟩ := h
    intro param hparam
    rcases List.mem_cons.1 hparam with rfl | hparam
    · exact hrules.name (hspelt _ (by simp)) hname
    · exact ih (fun t ht ↦ hspelt t (by simp [ht])) param hparam

theorem Listed.obeys {params : List Token} (h : Listed Name ts params)
    (hspelt : ∀ t ∈ ts, t.Spelt) : ∀ param ∈ params, rules.name param.lexeme := by
  cases h with
  | none => exact fun _ hparam ↦ absurd hparam List.not_mem_nil
  | some h _ => exact h.obeys hrules hspelt

theorem Function.name_obeys {nearest : Bool} {routine : Routine Stmt}
    (h : Function nearest ts routine) (hspelt : ∀ t ∈ ts, t.Spelt) :
    rules.name routine.name.lexeme := by
  obtain ⟨hname, -, -, -, -⟩ := h
  exact hrules.name (hspelt _ List.mem_cons_self) hname

theorem obeys_forLoop {initializer : Option Stmt} {condition increment : Option Expr} {body : Stmt}
    (hinitializer : ∀ s, initializer = some s → s.Obeys rules)
    (hcondition : ∀ e, condition = some e → rules.expression e)
    (hincrement : ∀ e, increment = some e → rules.expression e) (hbody : body.Obeys rules) :
    (Stmt.forLoop initializer condition increment body).Obeys rules := by
  have hstep : (forStep increment body).Obeys rules := by
    cases increment with
    | none => exact hbody
    | some e =>
      simp only [forStep, Stmt.Obeys, Stmt.ObeysAll]
      exact ⟨hbody, hincrement e rfl, trivial⟩
  have htest : rules.expression (condition.getD (.literal (.bool true))) := by
    cases condition with
    | none => exact hrules.condition
    | some e => exact hcondition e rfl
  cases initializer with
  | none =>
    rw [forLoop_none, Stmt.Obeys]
    exact ⟨htest, hstep⟩
  | some first =>
    rw [forLoop_some]
    simp only [Stmt.Obeys, Stmt.ObeysAll]
    exact ⟨hinitializer first rfl, ⟨htest, hstep⟩, trivial⟩

end Parts

variable {rules : Rules}

mutual

theorem Statement.obeys (hrules : Fits rules) {nearest inLoop dangling : Bool}
    {ts : List Token} {s : Stmt} :
    Statement nearest inLoop dangling ts s → (∀ t ∈ ts, t.Spelt) → s.Obeys rules
  | .expression h, hspelt => h.obeys hrules hspelt
  | .forLoop _ _ hinitializer hcondition _ hincrement _ hbody, hspelt => by
    apply obeys_forLoop hrules
    · exact hinitializer.obeys hrules fun t ht ↦ hspelt t (by simp [ht])
    · exact hcondition.obeys hrules fun t ht ↦ hspelt t (by simp [ht])
    · exact hincrement.obeys hrules fun t ht ↦ hspelt t (by simp [ht])
    · exact hbody.obeys hrules fun t ht ↦ hspelt t (by simp [ht])
  | .ifThen _ _ hcondition _ hbranch, hspelt => by
    rw [Stmt.Obeys, Stmt.ObeysOption]
    exact ⟨hrules.expression hcondition fun t ht ↦ hspelt t (by simp [ht]),
      hbranch.obeys hrules fun t ht ↦ hspelt t (by simp [ht]), trivial⟩
  | .ifElse _ _ hcondition _ hbranch _ _ hother, hspelt => by
    rw [Stmt.Obeys, Stmt.ObeysOption]
    exact ⟨hrules.expression hcondition fun t ht ↦ hspelt t (by simp [ht]),
      hbranch.obeys hrules fun t ht ↦ hspelt t (by simp [ht]),
      hother.obeys hrules fun t ht ↦ hspelt t (by simp [ht])⟩
  | .print _ h _, hspelt => by
    rw [Stmt.Obeys]
    exact hrules.expression h fun t ht ↦ hspelt t (by simp [ht])
  | .return _ h _, hspelt => by
    rw [Stmt.Obeys]
    exact h.obeys hrules fun t ht ↦ hspelt t (by simp [ht])
  | .while _ _ hcondition _ hbody, hspelt => by
    rw [Stmt.Obeys]
    exact ⟨hrules.expression hcondition fun t ht ↦ hspelt t (by simp [ht]),
      hbody.obeys hrules fun t ht ↦ hspelt t (by simp [ht])⟩
  | .break _ _, _ => by rw [Stmt.Obeys]; trivial
  | .continue _ _, _ => by rw [Stmt.Obeys]; trivial
  | .block h, hspelt => by
    rw [Stmt.Obeys]
    exact h.obeys hrules hspelt

theorem Declaration.obeys (hrules : Fits rules) {nearest inLoop dangling : Bool}
    {ts : List Token} {s : Stmt} :
    Declaration nearest inLoop dangling ts s → (∀ t ∈ ts, t.Spelt) → s.Obeys rules
  | .classDecl _ hname hsuperclass _ hmethods _, hspelt => by
    rw [Stmt.Obeys]
    exact ⟨hrules.name (hspelt _ (by simp)) hname,
      hsuperclass.obeys hrules fun t ht ↦ hspelt t (by simp [ht]),
      hmethods.obeys hrules fun t ht ↦ hspelt t (by simp [ht])⟩
  | .funDecl _ h, hspelt => by
    rw [Stmt.Obeys]
    have hrest := fun t ht ↦ hspelt t (List.mem_cons_of_mem _ ht)
    exact ⟨h.name_obeys hrules hrest, h.obeys hrules hrest⟩
  | .varDecl h, hspelt => h.obeys hrules hspelt
  | .statement h, hspelt => h.obeys hrules hspelt

theorem Declarations.obeys (hrules : Fits rules) {nearest inLoop : Bool} {ts : List Token}
    {body : List Stmt} :
    Declarations nearest inLoop ts body → (∀ t ∈ ts, t.Spelt) → Stmt.ObeysAll rules body
  | .nil, _ => by rw [Stmt.ObeysAll]; trivial
  | .cons h hrest, hspelt => by
    rw [Stmt.ObeysAll]
    exact ⟨h.obeys hrules fun t ht ↦ hspelt t (by simp [ht]),
      hrest.obeys hrules fun t ht ↦ hspelt t (by simp [ht])⟩

theorem Function.obeys (hrules : Fits rules) {nearest : Bool} {ts : List Token}
    {routine : Routine Stmt} :
    Function nearest ts routine → (∀ t ∈ ts, t.Spelt) → Stmt.ObeysRoutine rules routine
  | .mk _ _ hparams _ hbody, hspelt => by
    rw [Stmt.ObeysRoutine]
    exact ⟨hparams.obeys hrules fun t ht ↦ hspelt t (by simp [ht]),
      hbody.obeys hrules fun t ht ↦ hspelt t (by simp [ht])⟩

theorem Functions.obeys (hrules : Fits rules) {nearest : Bool} {ts : List Token}
    {methods : List (Routine Stmt)} :
    Functions nearest ts methods → (∀ t ∈ ts, t.Spelt) → Stmt.ObeysMethods rules methods
  | .nil, _ => by rw [Stmt.ObeysMethods]; trivial
  | .cons h hrest, hspelt => by
    rw [Stmt.ObeysMethods]
    exact ⟨h.obeys hrules fun t ht ↦ hspelt t (by simp [ht]),
      hrest.obeys hrules fun t ht ↦ hspelt t (by simp [ht])⟩

theorem Block.obeys (hrules : Fits rules) {nearest inLoop : Bool} {ts : List Token}
    {body : List Stmt} :
    Block nearest inLoop ts body → (∀ t ∈ ts, t.Spelt) → Stmt.ObeysAll rules body
  | .mk _ h _, hspelt => h.obeys hrules fun t ht ↦ hspelt t (by simp [ht])

end

theorem not_reserved_of_agrees {ts us : List Token} (h : List.Forall₂ Token.Agrees ts us)
    (hspelt : ∀ t ∈ us, t.Spelt) : ∀ t ∈ ts, t.kind = .identifier → ¬Reserved t.lexeme := by
  induction h with
  | nil => exact List.forall_mem_nil _
  | cons hagrees _ ih =>
    obtain ⟨hfirst, hrest⟩ := List.forall_mem_cons.1 hspelt
    rw [List.forall_mem_cons]
    constructor
    · intro hkind
      rw [hagrees.lexeme hkind]
      exact not_reserved_of_identifier hfirst (hagrees.kind ▸ hkind)
    · exact ih hrest

theorem Expression.proper {ts : List Token} {e : Expr} (h : Expression ts e)
    (hspelt : ∀ t ∈ ts, t.Spelt) : e.Proper fun _ ↦ True := by
  obtain ⟨-, hrespects, hagrees⟩ := respects_of_derives e (Nat.zero_le _) h
  apply Expr.proper_of_respects e hrespects (h.orderly hspelt)
  exact not_reserved_of_agrees hagrees hspelt

theorem fits_proper : Fits (.proper fun _ ↦ True) where
  expression := Expression.proper
  superclass hspelt hname := ⟨_, _, rfl, not_reserved_of_identifier hspelt hname⟩
  name := not_reserved_of_identifier
  condition := trivial

end Lox.Grammar
