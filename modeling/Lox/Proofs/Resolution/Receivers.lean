import Lox.Proofs.Resolution.Sites
import Lox.Proofs.Tree.Proper

/-!
# Receivers are found

Resolution objects to `this` outside classes and to `super` outside subclasses.  Inside them there
are scopes that hold these names, whatever has been declared in between, so where it does not object
it finds a depth for every `this` and every `super`.
-/

namespace Lox

namespace Scopes

/-- Some scope holds a name. -/
def Holds (scopes : Scopes) (name : String) : Prop :=
  ∃ inner ∈ scopes, inner.contains name = true

/-- Whatever name some scopes hold, others hold, too. -/
def Covers (scopes scopes' : Scopes) : Prop :=
  ∀ name, scopes.Holds name → scopes'.Holds name

theorem Holds.exists_depth? {scopes : Scopes} {name : String} (h : scopes.Holds name) :
    ∃ depth, scopes.depth? name = some depth := by
  apply Option.isSome_iff_exists.1
  rw [depth?, List.findIdx?_isSome, List.any_eq_true]
  exact h

theorem Covers.trans {scopes scopes' scopes'' : Scopes} (first : scopes.Covers scopes')
    (second : scopes'.Covers scopes'') : scopes.Covers scopes'' :=
  fun name h ↦ second name (first name h)

theorem covers_cons (inner : Bindings Bool) (scopes : Scopes) :
    scopes.Covers (inner :: scopes) := by
  rintro name ⟨other, hother, hname⟩
  exact ⟨other, List.mem_cons_of_mem _ hother, hname⟩

theorem covers_enter (scopes : Scopes) (name : String) (ready : Bool) :
    scopes.Covers (scopes.enter name ready) := by
  cases scopes with
  | nil => exact fun _ h ↦ h
  | cons inner outer =>
    rintro key ⟨other, hother, hkey⟩
    rcases List.mem_cons.1 hother with rfl | hother
    · refine ⟨_, List.mem_cons_self, ?_⟩
      rw [Bindings.contains, Bindings.get?_set]
      by_cases heq : key = name
      · rw [if_pos heq]
        rfl
      · rw [if_neg heq]
        exact hkey
    · exact ⟨other, List.mem_cons_of_mem _ hother, hkey⟩

theorem covers_ofParameters (scopes : Scopes) (params : List Token) :
    scopes.Covers (Finding.ofParameters scopes params).2 := by
  induction params generalizing scopes with
  | nil => exact fun _ h ↦ h
  | cons param rest ih => exact (covers_enter scopes param.lexeme true).trans (ih _)

theorem holds_openWith (scopes : Scopes) (name : String) : (scopes.openWith name).Holds name := by
  refine ⟨_, List.mem_cons_self, ?_⟩
  rw [Bindings.contains, Bindings.get?_set, if_pos rfl]
  rfl

/-- A class has the scopes that go with it. -/
structure Suits (scopes : Scopes) (cls : ClassContext) : Prop where
  this : cls ≠ .none → scopes.Holds "this"
  super : cls = .subclass → scopes.Holds "super"

theorem Suits.mono {scopes scopes' : Scopes} {cls : ClassContext} (h : scopes.Suits cls)
    (hcovers : scopes.Covers scopes') : scopes'.Suits cls :=
  ⟨fun hcls ↦ hcovers _ (h.this hcls), fun hcls ↦ hcovers _ (h.super hcls)⟩

theorem suits_none (scopes : Scopes) : scopes.Suits .none :=
  ⟨fun h ↦ absurd rfl h, nofun⟩

theorem suits_aroundMethods (scopes : Scopes) (superclass : Option Expr) :
    (scopes.aroundMethods superclass).Suits
      (if superclass.isSome then .subclass else .plain) := by
  constructor
  · intro _
    exact holds_openWith _ "this"
  · intro hcls
    cases superclass with
    | none => cases hcls
    | some e => exact covers_cons _ _ _ (holds_openWith scopes "super")

end Scopes

mutual

theorem Stmt.covers_scopesAfter (scopes : Scopes) :
    ∀ s : Stmt, scopes.Covers (s.scopesAfter scopes)
  | .classDecl _ _ _ => by
    rw [Stmt.scopesAfter]
    exact Scopes.covers_enter _ _ _
  | .function _ => by
    rw [Stmt.scopesAfter]
    exact Scopes.covers_enter _ _ _
  | .var _ _ => by
    rw [Stmt.scopesAfter]
    exact Scopes.covers_enter _ _ _
  | .ifElse _ thenBranch elseBranch => by
    rw [Stmt.scopesAfter]
    exact (thenBranch.covers_scopesAfter scopes).trans (Stmt.covers_scopesAfterOption _ elseBranch)
  | .while _ body => by
    rw [Stmt.scopesAfter]
    exact body.covers_scopesAfter scopes
  | .block _ => by simp [Stmt.scopesAfter, Scopes.Covers]
  | .expression _ => by simp [Stmt.scopesAfter, Scopes.Covers]
  | .print _ => by simp [Stmt.scopesAfter, Scopes.Covers]
  | .return _ _ => by simp [Stmt.scopesAfter, Scopes.Covers]
  | .break _ => by simp [Stmt.scopesAfter, Scopes.Covers]
  | .continue _ => by simp [Stmt.scopesAfter, Scopes.Covers]

theorem Stmt.covers_scopesAfterOption (scopes : Scopes) :
    ∀ o : Option Stmt, scopes.Covers (Stmt.scopesAfterOption scopes o)
  | none => by simp [Stmt.scopesAfterOption, Scopes.Covers]
  | some s => by
    rw [Stmt.scopesAfterOption]
    exact s.covers_scopesAfter scopes

end

/-! ### Findings -/

/-- No rule is broken, and every node for which a depth is found is located. -/
def Locates (located : NodeId → Prop) (findings : List Finding) : Prop :=
  ∀ f ∈ findings, f.violation? = none ∧ ∀ id depth, f.address? = some (id, depth) → located id

namespace Locates

variable {located : NodeId → Prop} {found more : List Finding}

theorem append_iff :
    Locates located (found ++ more) ↔ Locates located found ∧ Locates located more :=
  List.forall_mem_append

theorem of_use {scopes : Scopes} {id : NodeId} {name : Token}
    (h : Locates located [.ofUse scopes id name]) (hname : scopes.Holds name.lexeme) :
    located id := by
  obtain ⟨depth, hdepth⟩ := hname.exists_depth?
  refine (h _ List.mem_cons_self).2 id depth ?_
  rw [Finding.ofUse, hdepth]
  rfl

end Locates

section Proper

variable {located : NodeId → Prop} {context : Context} {scopes : Scopes}

theorem Expr.proper_this {id : NodeId} {keyword : Token} (hscopes : scopes.Suits context.cls)
    (hkeyword : keyword.lexeme = "this")
    (h : Locates located ((Expr.this id keyword).findings context scopes)) :
    (Expr.this id keyword).Proper located := by
  rw [Expr.findings] at h
  by_cases hcls : context.cls = .none
  -- Outside classes the rule is broken.
  · rw [if_pos hcls] at h
    cases (h _ List.mem_cons_self).1
  · rw [if_neg hcls] at h
    refine ⟨hkeyword, h.of_use ?_⟩
    rw [hkeyword]
    exact hscopes.this hcls

theorem Expr.proper_super {id : NodeId} {keyword method : Token}
    (hscopes : scopes.Suits context.cls) (hkeyword : keyword.lexeme = "super")
    (h : Locates located ((Expr.super id keyword method).findings context scopes)) :
    (Expr.super id keyword method).Proper located := by
  rw [Expr.findings, Locates.append_iff] at h
  obtain ⟨hallowed, huse⟩ := h
  have hcls := Finding.subclass_of_ofSuper fun f hf ↦ (hallowed f hf).1
  refine ⟨hkeyword, huse.of_use ?_⟩
  rw [hkeyword]
  exact hscopes.super hcls

mutual

theorem Expr.proper_of_locates (hscopes : scopes.Suits context.cls) :
    ∀ e : Expr, e.Proper (fun _ ↦ True) → Locates located (e.findings context scopes) →
      e.Proper located
  | .literal _, _, _ => trivial
  | .grouping inner, he, h => Expr.proper_of_locates hscopes inner he h
  | .unary _ operand, he, h => ⟨he.1, Expr.proper_of_locates hscopes operand he.2 h⟩
  | .binary _ left right, he, h => by
    obtain ⟨hleft, hright⟩ := Locates.append_iff.1 h
    exact ⟨he.1, Expr.proper_of_locates hscopes left he.2.1 hleft,
      Expr.proper_of_locates hscopes right he.2.2 hright⟩
  | .logical _ left right, he, h => by
    obtain ⟨hleft, hright⟩ := Locates.append_iff.1 h
    exact ⟨Expr.proper_of_locates hscopes left he.1 hleft,
      Expr.proper_of_locates hscopes right he.2 hright⟩
  | .var _ _, he, _ => he
  | .assign _ _ value, he, h =>
    ⟨he.1, Expr.proper_of_locates hscopes value he.2 (Locates.append_iff.1 h).1⟩
  | .call callee _ arguments, he, h => by
    obtain ⟨hcallee, harguments⟩ := Locates.append_iff.1 h
    exact ⟨Expr.proper_of_locates hscopes callee he.1 hcallee,
      Expr.properAll_of_locates hscopes arguments he.2 harguments⟩
  | .get object _, he, h => Expr.proper_of_locates hscopes object he h
  | .set object _ value, he, h => by
    obtain ⟨hvalue, hobject⟩ := Locates.append_iff.1 h
    exact ⟨Expr.proper_of_locates hscopes object he.1 hobject,
      Expr.proper_of_locates hscopes value he.2 hvalue⟩
  | .this _ _, he, h => Expr.proper_this hscopes he.1 h
  | .super _ _ _, he, h => Expr.proper_super hscopes he.1 h

theorem Expr.properAll_of_locates (hscopes : scopes.Suits context.cls) :
    ∀ es : List Expr, Expr.ProperAll (fun _ ↦ True) es →
      Locates located (Expr.findingsAll context scopes es) → Expr.ProperAll located es
  | [], _, _ => trivial
  | e :: rest, hes, h => by
    obtain ⟨hfirst, hlater⟩ := Locates.append_iff.1 h
    exact ⟨Expr.proper_of_locates hscopes e hes.1 hfirst,
      Expr.properAll_of_locates hscopes rest hes.2 hlater⟩

end

theorem Expr.properOption_of_locates (hscopes : scopes.Suits context.cls) {o : Option Expr}
    (ho : ∀ e, o = some e → e.Proper fun _ ↦ True)
    (h : Locates located (Expr.findingsOption context scopes o)) :
    ∀ e, o = some e → e.Proper located := by
  rintro e rfl
  exact Expr.proper_of_locates hscopes e (ho e rfl) h

end Proper

mutual

/-- By induction on the statement: where no rule is broken, receivers are located. -/
theorem Stmt.obeys_of_locates {located : NodeId → Prop} {context : Context} {scopes : Scopes}
    (hscopes : scopes.Suits context.cls) :
    ∀ s : Stmt, s.Obeys (.proper fun _ ↦ True) → Locates located (s.findings context scopes) →
      s.Obeys (.proper located)
  | .block body, hs, h => by
    simp only [Stmt.Obeys, Stmt.findings] at hs h ⊢
    exact Stmt.obeysAll_of_locates (hscopes.mono (Scopes.covers_cons _ _)) body hs h
  | .classDecl name superclass methods, hs, h => by
    simp only [Stmt.Obeys, Stmt.findings] at hs h ⊢
    obtain ⟨hname, hsuperclass, hmethods⟩ := hs
    -- Whatever surrounds a class, its methods are resolved in scopes of its own kind.
    exact ⟨hname, hsuperclass, Stmt.obeysMethods_of_locates (Scopes.suits_aroundMethods ..) methods
      hmethods (Locates.append_iff.1 h).2⟩
  | .expression e, hs, h => by
    simp only [Stmt.Obeys, Stmt.findings] at hs h ⊢
    exact Expr.proper_of_locates hscopes e hs h
  | .function routine, hs, h => by
    simp only [Stmt.Obeys, Stmt.findings] at hs h ⊢
    have hinside : (scopes.enter routine.name.lexeme true).Suits
        (Context.cls { context with function := .function }) :=
      hscopes.mono (Scopes.covers_enter _ _ _)
    exact ⟨hs.1, Stmt.obeysRoutine_of_locates hinside routine hs.2 (Locates.append_iff.1 h).2⟩
  | .ifElse condition thenBranch elseBranch, hs, h => by
    simp only [Stmt.Obeys, Stmt.findings] at hs h ⊢
    obtain ⟨hcondition, hthen, helse⟩ := hs
    obtain ⟨hhead, hother⟩ := Locates.append_iff.1 h
    obtain ⟨htest, hbranch⟩ := Locates.append_iff.1 hhead
    exact ⟨Expr.proper_of_locates hscopes condition hcondition htest,
      Stmt.obeys_of_locates hscopes thenBranch hthen hbranch,
      Stmt.obeysOption_of_locates (hscopes.mono (thenBranch.covers_scopesAfter scopes)) elseBranch
        helse hother⟩
  | .print e, hs, h => by
    simp only [Stmt.Obeys, Stmt.findings] at hs h ⊢
    exact Expr.proper_of_locates hscopes e hs h
  | .return keyword value, hs, h => by
    simp only [Stmt.Obeys, Stmt.findings] at hs h ⊢
    exact Expr.properOption_of_locates hscopes hs (Locates.append_iff.1 h).2
  | .var name initializer, hs, h => by
    simp only [Stmt.Obeys, Stmt.findings] at hs h ⊢
    exact ⟨hs.1, Expr.properOption_of_locates (hscopes.mono (Scopes.covers_enter _ _ _)) hs.2
      (Locates.append_iff.1 h).2⟩
  | .while condition body, hs, h => by
    simp only [Stmt.Obeys, Stmt.findings] at hs h ⊢
    obtain ⟨htest, hbody⟩ := Locates.append_iff.1 h
    exact ⟨Expr.proper_of_locates hscopes condition hs.1 htest,
      Stmt.obeys_of_locates hscopes body hs.2 hbody⟩
  | .break _, _, _ => by simp only [Stmt.Obeys]
  | .continue _, _, _ => by simp only [Stmt.Obeys]

theorem Stmt.obeysAll_of_locates {located : NodeId → Prop} {context : Context} {scopes : Scopes}
    (hscopes : scopes.Suits context.cls) :
    ∀ ss : List Stmt, Stmt.ObeysAll (.proper fun _ ↦ True) ss →
      Locates located (Stmt.findingsAll context scopes ss) → Stmt.ObeysAll (.proper located) ss
  | [], _, _ => by simp only [Stmt.ObeysAll]
  | s :: rest, hss, h => by
    simp only [Stmt.ObeysAll, Stmt.findingsAll] at hss h ⊢
    obtain ⟨hfirst, hlater⟩ := Locates.append_iff.1 h
    exact ⟨Stmt.obeys_of_locates hscopes s hss.1 hfirst,
      Stmt.obeysAll_of_locates (hscopes.mono (s.covers_scopesAfter scopes)) rest hss.2 hlater⟩

theorem Stmt.obeysOption_of_locates {located : NodeId → Prop} {context : Context}
    {scopes : Scopes} (hscopes : scopes.Suits context.cls) :
    ∀ o : Option Stmt, Stmt.ObeysOption (.proper fun _ ↦ True) o →
      Locates located (Stmt.findingsOption context scopes o) →
      Stmt.ObeysOption (.proper located) o
  | none, _, _ => by simp only [Stmt.ObeysOption]
  | some s, ho, h => by
    simp only [Stmt.ObeysOption, Stmt.findingsOption] at ho h ⊢
    exact Stmt.obeys_of_locates hscopes s ho h

theorem Stmt.obeysRoutine_of_locates {located : NodeId → Prop} {context : Context}
    {scopes : Scopes} (hscopes : scopes.Suits context.cls) :
    ∀ routine : Routine Stmt, Stmt.ObeysRoutine (.proper fun _ ↦ True) routine →
      Locates located (Stmt.findingsRoutine context scopes routine) →
      Stmt.ObeysRoutine (.proper located) routine
  | ⟨_, params, body⟩, hr, h => by
    simp only [Stmt.ObeysRoutine, Stmt.findingsRoutine] at hr h ⊢
    have hinside := (Scopes.covers_cons {} scopes).trans (Scopes.covers_ofParameters _ params)
    exact ⟨hr.1, Stmt.obeysAll_of_locates (hscopes.mono hinside) body hr.2
      (Locates.append_iff.1 h).2⟩

theorem Stmt.obeysMethods_of_locates {located : NodeId → Prop} {context : Context}
    {scopes : Scopes} (hscopes : scopes.Suits context.cls) :
    ∀ methods : List (Routine Stmt), Stmt.ObeysMethods (.proper fun _ ↦ True) methods →
      Locates located (Stmt.findingsMethods context scopes methods) →
      Stmt.ObeysMethods (.proper located) methods
  | [], _, _ => by simp only [Stmt.ObeysMethods]
  | method :: rest, hms, h => by
    simp only [Stmt.ObeysMethods, Stmt.findingsMethods] at hms h ⊢
    obtain ⟨hfirst, hlater⟩ := Locates.append_iff.1 h
    have hmethod : scopes.Suits (context.inMethod method.name).cls := hscopes
    exact ⟨Stmt.obeysRoutine_of_locates hmethod method hms.1 hfirst,
      Stmt.obeysMethods_of_locates hscopes rest hms.2 hlater⟩

end

end Lox
