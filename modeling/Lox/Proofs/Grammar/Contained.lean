import Lox.Proofs.Grammar.Basic
import Lox.Proofs.Resolution.Sites
import Lox.Value

/-!
# Jumps are contained

Two walks over a program see to it that no jump leaves what it belongs to.  The grammar admits
`break` and `continue` in loops only, and a function body inside a loop is in no loop.  Resolution
objects to a `return` outside functions and to one that gives a value in an initializer.
-/

namespace Lox

/-- The kind of function that a method is. -/
def FunctionContext.ofMethod (name : Token) : FunctionContext :=
  if name.lexeme = Class.initializerName then .initializer else .method

theorem Context.function_inMethod (context : Context) (name : Token) :
    (context.inMethod name).function = .ofMethod name :=
  rfl

mutual

/-- Every jump of a statement belongs to a loop or a function around it.  What is around the
statement itself is given; whatever is declared in it has functions of its own. -/
def Stmt.Contained (inLoop : Bool) (kind : FunctionContext) : Stmt → Prop
  | block body => Stmt.ContainedAll inLoop kind body
  | classDecl _ _ methods => Stmt.ContainedMethods methods
  | expression _ => True
  | .function routine => Stmt.ContainedRoutine .function routine
  | ifElse _ thenBranch elseBranch =>
    thenBranch.Contained inLoop kind ∧ Stmt.ContainedOption inLoop kind elseBranch
  | print _ => True
  | .return _ value => kind ≠ .none ∧ (kind = .initializer → value = none)
  | var _ _ => True
  | .while _ body => body.Contained true kind
  | .break _ => inLoop = true
  | .continue _ => inLoop = true

def Stmt.ContainedAll (inLoop : Bool) (kind : FunctionContext) : List Stmt → Prop
  | [] => True
  | s :: rest => s.Contained inLoop kind ∧ Stmt.ContainedAll inLoop kind rest

def Stmt.ContainedOption (inLoop : Bool) (kind : FunctionContext) : Option Stmt → Prop
  | none => True
  | some s => s.Contained inLoop kind

def Stmt.ContainedRoutine (kind : FunctionContext) : Routine Stmt → Prop
  | ⟨_, _, body⟩ => Stmt.ContainedAll false kind body

def Stmt.ContainedMethods : List (Routine Stmt) → Prop
  | [] => True
  | method :: rest =>
    Stmt.ContainedRoutine (.ofMethod method.name) method ∧ Stmt.ContainedMethods rest

end

theorem Stmt.containedAll_iff {inLoop : Bool} {kind : FunctionContext} {ss : List Stmt} :
    Stmt.ContainedAll inLoop kind ss ↔ ∀ s ∈ ss, s.Contained inLoop kind := by
  induction ss with
  | nil => simp [Stmt.ContainedAll]
  | cons s rest ih => rw [Stmt.ContainedAll, ih, List.forall_mem_cons]

theorem Stmt.containedRoutine_iff {kind : FunctionContext} {routine : Routine Stmt} :
    Stmt.ContainedRoutine kind routine ↔ Stmt.ContainedAll false kind routine.body := by
  obtain ⟨_, _, _⟩ := routine
  rw [Stmt.ContainedRoutine]

namespace Grammar

variable {nearest : Bool} {context : Context} {scopes : Scopes}

theorem contained_of_varDecl {ts : List Token} {s : Stmt} (h : VarDecl ts s) (inLoop : Bool)
    (kind : FunctionContext) : s.Contained inLoop kind := by
  obtain ⟨-, -, -, -⟩ := h
  rw [Stmt.Contained]
  trivial

theorem contained_of_exprStmt {ts : List Token} {s : Stmt} (h : ExprStmt ts s) (inLoop : Bool)
    (kind : FunctionContext) : s.Contained inLoop kind := by
  obtain ⟨-, -⟩ := h
  rw [Stmt.Contained]
  trivial

/-- What a loop repeats: its body, with the increment behind it if there is one. -/
def forStep (increment : Option Expr) (body : Stmt) : Stmt :=
  match increment with
  | some e => .block [body, .expression e]
  | none => body

theorem forLoop_none (condition increment : Option Expr) (body : Stmt) :
    Stmt.forLoop none condition increment body =
      .while (condition.getD (.literal (.bool true))) (forStep increment body) := by
  cases increment with
  | none => rfl
  | some e => rfl

theorem forLoop_some (first : Stmt) (condition increment : Option Expr) (body : Stmt) :
    Stmt.forLoop (some first) condition increment body = .block [first,
      .while (condition.getD (.literal (.bool true))) (forStep increment body)] := by
  cases increment with
  | none => rfl
  | some e => rfl

/-- The body of a loop is resolved inside the scopes that the loop makes. -/
theorem quiet_body_of_forLoop {initializer : Option Stmt} {condition increment : Option Expr}
    {body : Stmt}
    (h : Quiet ((Stmt.forLoop initializer condition increment body).findings context scopes)) :
    ∃ inside, Quiet (body.findings context inside) := by
  have hstep : ∀ {test : Expr} {around : Scopes},
      Quiet ((Stmt.while test (forStep increment body)).findings context around) →
        ∃ inside, Quiet (body.findings context inside) := by
    intro test around hloop
    rw [Stmt.findings] at hloop
    have hrepeated := (Quiet.append_iff.1 hloop).2
    cases increment with
    | none => exact ⟨around, hrepeated⟩
    | some e =>
      rw [forStep, Stmt.findings, Stmt.findingsAll] at hrepeated
      exact ⟨_, (Quiet.append_iff.1 hrepeated).1⟩
  cases initializer with
  | none =>
    rw [forLoop_none] at h
    exact hstep h
  | some first =>
    rw [forLoop_some, Stmt.findings, Stmt.findingsAll, Stmt.findingsAll] at h
    exact hstep (Quiet.append_iff.1 (Quiet.append_iff.1 h).2).1

theorem contained_forLoop {ts : List Token} {initializer : Option Stmt}
    (hinitializer : ForStart ts initializer) {body : Stmt} {kind : FunctionContext}
    (hbody : body.Contained true kind) (inLoop : Bool) (condition increment : Option Expr) :
    (Stmt.forLoop initializer condition increment body).Contained inLoop kind := by
  have hstep : (forStep increment body).Contained true kind := by
    cases increment with
    | none => exact hbody
    | some e =>
      simp only [forStep, Stmt.Contained, Stmt.ContainedAll]
      exact ⟨hbody, trivial, trivial⟩
  cases hinitializer with
  | none =>
    rw [forLoop_none, Stmt.Contained]
    exact hstep
  | varDecl h =>
    rw [forLoop_some]
    simp only [Stmt.Contained, Stmt.ContainedAll]
    exact ⟨contained_of_varDecl h _ _, hstep, trivial⟩
  | exprStmt h =>
    rw [forLoop_some]
    simp only [Stmt.Contained, Stmt.ContainedAll]
    exact ⟨contained_of_exprStmt h _ _, hstep, trivial⟩

mutual

/-- By induction on the derivation: where no rule is broken, jumps are contained. -/
theorem Statement.contained {inLoop dangling : Bool} {ts : List Token} {s : Stmt}
    {context : Context} {scopes : Scopes} : Statement nearest inLoop dangling ts s →
      Quiet (s.findings context scopes) → s.Contained inLoop context.function
  | .expression h, _ => contained_of_exprStmt h _ _
  | .forLoop _ _ hinitializer _ _ _ _ hbody, h => by
    obtain ⟨inside, hinside⟩ := quiet_body_of_forLoop h
    exact contained_forLoop hinitializer (hbody.contained hinside) _ _ _
  | .ifThen _ _ _ _ hbranch, h => by
    rw [Stmt.findings] at h
    have hquiet := (Quiet.append_iff.1 (Quiet.append_iff.1 h).1).2
    rw [Stmt.Contained, Stmt.ContainedOption]
    exact ⟨hbranch.contained hquiet, trivial⟩
  | .ifElse _ _ _ _ hbranch _ _ hother, h => by
    rw [Stmt.findings, Stmt.findingsOption] at h
    obtain ⟨hhead, helse⟩ := Quiet.append_iff.1 h
    have hthen := (Quiet.append_iff.1 hhead).2
    rw [Stmt.Contained, Stmt.ContainedOption]
    exact ⟨hbranch.contained hthen, hother.contained helse⟩
  | .print _ _ _, _ => by
    rw [Stmt.Contained]
    trivial
  | .return _ _ _, h => by
    rw [Stmt.findings] at h
    obtain ⟨hrules, -⟩ := Quiet.append_iff.1 h
    obtain ⟨htop, hinitializer⟩ := Quiet.append_iff.1 hrules
    rw [Stmt.Contained]
    refine ⟨of_decide_eq_false htop.eq_false_of_when, fun hkind ↦ ?_⟩
    have hvalue := hinitializer.eq_false_of_when
    rw [hkind] at hvalue
    simpa using hvalue
  | .while _ _ _ _ hbody, h => by
    rw [Stmt.findings] at h
    rw [Stmt.Contained]
    exact hbody.contained (Quiet.append_iff.1 h).2
  | .break _ _, _ => by rw [Stmt.Contained]
  | .continue _ _, _ => by rw [Stmt.Contained]
  | .block h, hquiet => by
    rw [Stmt.findings] at hquiet
    rw [Stmt.Contained]
    exact h.contained hquiet

theorem Declaration.contained {inLoop dangling : Bool} {ts : List Token} {s : Stmt}
    {context : Context} {scopes : Scopes} : Declaration nearest inLoop dangling ts s →
      Quiet (s.findings context scopes) → s.Contained inLoop context.function
  | .classDecl _ _ _ _ hmethods _, h => by
    simp only [Stmt.findings] at h
    rw [Stmt.Contained]
    exact hmethods.contained (Quiet.append_iff.1 h).2
  | .funDecl _ hroutine, h => by
    rw [Stmt.findings] at h
    rw [Stmt.Contained]
    exact hroutine.contained (Quiet.append_iff.1 h).2
  | .varDecl h, _ => contained_of_varDecl h _ _
  | .statement hs, h => hs.contained h

theorem Declarations.contained {inLoop : Bool} {ts : List Token} {body : List Stmt}
    {context : Context} {scopes : Scopes} : Declarations nearest inLoop ts body →
      Quiet (Stmt.findingsAll context scopes body) →
      Stmt.ContainedAll inLoop context.function body
  | .nil, _ => by
    rw [Stmt.ContainedAll]
    trivial
  | .cons hs hrest, h => by
    rw [Stmt.findingsAll] at h
    obtain ⟨hfirst, hlater⟩ := Quiet.append_iff.1 h
    rw [Stmt.ContainedAll]
    exact ⟨hs.contained hfirst, hrest.contained hlater⟩

/-- Whatever loop a function is declared in, its body is in none. -/
theorem Function.contained {ts : List Token} {routine : Routine Stmt} {context : Context}
    {scopes : Scopes} : Function nearest ts routine →
      Quiet (Stmt.findingsRoutine context scopes routine) →
      Stmt.ContainedRoutine context.function routine
  | .mk _ _ _ _ hbody, h => by
    rw [Stmt.findingsRoutine] at h
    rw [Stmt.ContainedRoutine]
    exact hbody.contained (Quiet.append_iff.1 h).2

theorem Functions.contained {ts : List Token} {methods : List (Routine Stmt)} {context : Context}
    {scopes : Scopes} : Functions nearest ts methods →
      Quiet (Stmt.findingsMethods context scopes methods) → Stmt.ContainedMethods methods
  | .nil, _ => by
    rw [Stmt.ContainedMethods]
    trivial
  | .cons hmethod hrest, h => by
    rw [Stmt.findingsMethods] at h
    obtain ⟨hfirst, hlater⟩ := Quiet.append_iff.1 h
    rw [Stmt.ContainedMethods]
    exact ⟨context.function_inMethod _ ▸ hmethod.contained hfirst, hrest.contained hlater⟩

theorem Block.contained {inLoop : Bool} {ts : List Token} {body : List Stmt} {context : Context}
    {scopes : Scopes} : Block nearest inLoop ts body →
      Quiet (Stmt.findingsAll context scopes body) →
      Stmt.ContainedAll inLoop context.function body
  | .mk _ hbody _, h => hbody.contained h

end

end Grammar

end Lox
