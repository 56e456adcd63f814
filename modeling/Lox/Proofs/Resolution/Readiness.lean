import Lox.Proofs.Resolution.Sites

/-!
# Variables that are read are ready

While resolution walks over a program that breaks no rule, at most the innermost scope holds a name
whose initializer is still being read, and `this` stands just inside every `super`.  So a variable
that is read is ready in the scope where it is found.  So is one that is assigned to, unless the
assignment stands in the initializer of that same variable: that breaks no rule.
-/

namespace Lox

namespace Scopes

/-- The scope at a depth holds a name, and the name is ready. -/
def ReadyAt (scopes : Scopes) (depth : Nat) (name : String) : Prop :=
  ∃ inner : Bindings Bool, scopes[depth]? = some inner ∧ inner.get? name = some true

theorem exists_of_depth? {scopes : Scopes} {name : String} {depth : Nat}
    (h : scopes.depth? name = some depth) :
    ∃ inner : Bindings Bool, scopes[depth]? = some inner ∧ inner.contains name = true := by
  obtain ⟨hlt, hcontains, -⟩ := List.findIdx?_eq_some_iff_getElem.1 h
  exact ⟨scopes[depth], List.getElem?_eq_getElem hlt, hcontains⟩

/-- `this` stands just inside every `super`. -/
def Nested (scopes : Scopes) : Prop :=
  ∀ (depth : Nat) (inner : Bindings Bool), scopes[depth]? = some inner →
    inner.contains "super" = true → ∃ depth', depth = depth' + 1 ∧ scopes.ReadyAt depth' "this"

/-- At most the innermost scope holds a name that is not ready, and that name is not reserved. -/
structure Regular (scopes : Scopes) : Prop where
  pending : ∀ (depth : Nat) (inner : Bindings Bool) (name : String), scopes[depth]? = some inner →
    inner.get? name = some false → depth = 0 ∧ ¬Reserved name
  nested : scopes.Nested

/-- Every name is ready. -/
structure Settled (scopes : Scopes) : Prop where
  ready : ∀ (depth : Nat) (inner : Bindings Bool) (name : String), scopes[depth]? = some inner →
    inner.get? name ≠ some false
  nested : scopes.Nested

theorem Settled.regular {scopes : Scopes} (h : scopes.Settled) : scopes.Regular :=
  ⟨fun depth inner name hinner hname ↦ absurd hname (h.ready depth inner name hinner), h.nested⟩

theorem settled_nil : Settled [] :=
  ⟨fun _ _ _ hinner ↦ by simp at hinner, fun _ _ hinner ↦ by simp at hinner⟩

theorem nested_cons {inner : Bindings Bool} {scopes : Scopes} (h : scopes.Nested)
    (hinner : inner.contains "super" = false) : Nested (inner :: scopes) := by
  intro depth other hother hsuper
  cases depth with
  | zero =>
    cases hother
    exact absurd hsuper (by simp [hinner])
  | succ depth =>
    obtain ⟨depth', rfl, hthis⟩ := h depth other hother hsuper
    exact ⟨depth' + 1, rfl, hthis⟩

theorem Settled.push {scopes : Scopes} (h : scopes.Settled) : Settled ({} :: scopes) := by
  refine ⟨fun depth inner name hinner ↦ ?_, nested_cons h.nested rfl⟩
  cases depth with
  | zero =>
    cases hinner
    exact nofun
  | succ depth => exact h.ready depth inner name hinner

/-- Entering a name that is not reserved changes nothing about `this` and `super`. -/
theorem nested_enter {scopes : Scopes} {name : String} (h : scopes.Nested)
    (hname : ¬Reserved name) (ready : Bool) : (scopes.enter name ready).Nested := by
  cases scopes with
  | nil => exact h
  | cons inner outer =>
    have hthis : "this" ≠ name := fun heq ↦ hname (.inl heq.symm)
    have hsuper : "super" ≠ name := fun heq ↦ hname (.inr heq.symm)
    have hkeep : ∀ (depth : Nat) (other : Bindings Bool), (inner :: outer)[depth]? = some other →
        ∃ other' : Bindings Bool, (inner.set name ready :: outer)[depth]? = some other' ∧
          other'.get? "this" = other.get? "this" := by
      intro depth other hother
      cases depth with
      | zero =>
        cases hother
        exact ⟨_, rfl, by rw [Bindings.get?_set, if_neg hthis]⟩
      | succ depth => exact ⟨other, hother, rfl⟩
    have hback : ∀ (depth : Nat) (other : Bindings Bool),
        (inner.set name ready :: outer)[depth]? = some other →
        ∃ other' : Bindings Bool, (inner :: outer)[depth]? = some other' ∧
          other'.contains "super" = other.contains "super" := by
      intro depth other hother
      cases depth with
      | zero =>
        cases hother
        refine ⟨inner, rfl, ?_⟩
        rw [Bindings.contains, Bindings.contains, Bindings.get?_set, if_neg hsuper]
      | succ depth => exact ⟨other, hother, rfl⟩
    intro depth other hother hcontains
    obtain ⟨other', hother', heq⟩ := hback depth other hother
    obtain ⟨depth', rfl, this, hthis, hready⟩ := h depth other' hother' (heq.trans hcontains)
    obtain ⟨this', hthis', heq'⟩ := hkeep depth' this hthis
    exact ⟨depth', rfl, this', hthis', heq'.trans hready⟩

theorem Settled.enter {scopes : Scopes} {name : String} (h : scopes.Settled)
    (hname : ¬Reserved name) : (scopes.enter name true).Settled := by
  refine ⟨?_, nested_enter h.nested hname true⟩
  cases scopes with
  | nil => exact h.ready
  | cons inner outer =>
    intro depth other key hother
    cases depth with
    | zero =>
      cases hother
      rw [Bindings.get?_set]
      split
      · simp
      · exact h.ready 0 inner key rfl
    | succ depth => exact h.ready (depth + 1) other key hother

/-- While an initializer is read, the name it is for is the only one that is not ready. -/
theorem Settled.regular_enter {scopes : Scopes} {name : String} (h : scopes.Settled)
    (hname : ¬Reserved name) : (scopes.enter name false).Regular := by
  refine ⟨?_, nested_enter h.nested hname false⟩
  cases scopes with
  | nil => exact h.regular.pending
  | cons inner outer =>
    intro depth other key hother hkey
    cases depth with
    | zero =>
      cases hother
      rw [Bindings.get?_set] at hkey
      split at hkey
      · rename_i heq
        exact ⟨rfl, heq ▸ hname⟩
      · exact absurd hkey (h.ready 0 inner key rfl)
    | succ depth => exact absurd hkey (h.ready (depth + 1) other key hother)

theorem get?_single (name key : String) :
    (({} : Bindings Bool).set name true).get? key = if key = name then some true else none := by
  rw [Bindings.get?_set]
  rfl

theorem ready_openWith {scopes : Scopes}
    (h : ∀ (depth : Nat) (inner : Bindings Bool) (key : String), scopes[depth]? = some inner →
      inner.get? key ≠ some false) (name : String) :
    ∀ (depth : Nat) (inner : Bindings Bool) (key : String),
      (scopes.openWith name)[depth]? = some inner → inner.get? key ≠ some false := by
  intro depth inner key hinner
  cases depth with
  | zero =>
    cases hinner
    rw [get?_single]
    split <;> simp
  | succ depth => exact h depth inner key hinner

theorem Settled.aroundMethods {scopes : Scopes} (h : scopes.Settled) (superclass : Option Expr) :
    (scopes.aroundMethods superclass).Settled := by
  have hthis : (({} : Bindings Bool).set "this" true).contains "super" = false := rfl
  cases superclass with
  | none => exact ⟨ready_openWith h.ready "this", nested_cons h.nested hthis⟩
  | some e =>
    refine ⟨ready_openWith (ready_openWith h.ready "super") "this", ?_⟩
    intro depth inner hinner hsuper
    match depth with
    | 0 =>
      cases hinner
      exact absurd hsuper (by simp [hthis])
    | 1 => exact ⟨0, rfl, _, rfl, rfl⟩
    | depth + 2 =>
      obtain ⟨depth', rfl, hready⟩ := h.nested depth inner hinner hsuper
      exact ⟨depth' + 2, rfl, hready⟩

theorem Settled.ofParameters {scopes : Scopes} {params : List Token} (h : scopes.Settled)
    (hparams : ∀ param ∈ params, ¬Reserved param.lexeme) :
    (Finding.ofParameters scopes params).2.Settled := by
  induction params generalizing scopes with
  | nil => exact h
  | cons param rest ih =>
    refine ih (h.enter (hparams param List.mem_cons_self)) fun other hother ↦ ?_
    exact hparams other (List.mem_cons_of_mem _ hother)

theorem Settled.insideRoutine {scopes : Scopes} {params : List Token} (h : scopes.Settled)
    (hparams : ∀ param ∈ params, ¬Reserved param.lexeme) :
    (scopes.insideRoutine params).Settled :=
  h.push.ofParameters hparams

end Scopes

/-- A variable that is read is ready where it is found, and `this` stands just inside `super`.  One
that is assigned to may still wait for its initializer. -/
def Site.Ready (site : Site) : Prop :=
  ∀ depth, site.scopes.depth? site.name.lexeme = some depth →
    match site.access with
    | .assign => site.scopes.isPending site.name.lexeme = false →
      site.scopes.ReadyAt depth site.name.lexeme
    | .read => site.scopes.ReadyAt depth site.name.lexeme
    | .super => site.scopes.ReadyAt depth site.name.lexeme ∧
      ∃ depth', depth = depth' + 1 ∧ site.scopes.ReadyAt depth' "this"

namespace Scopes.Regular

variable {scopes : Scopes}

/-- Where the innermost scope is not waiting for a name, the name is ready. -/
theorem readyAt (h : scopes.Regular) {name : String} {depth : Nat}
    (hdepth : scopes.depth? name = some depth)
    (hname : scopes.isPending name = false ∨ Reserved name) : scopes.ReadyAt depth name := by
  obtain ⟨inner, hinner, hcontains⟩ := exists_of_depth? hdepth
  rw [Bindings.contains, Option.isSome_iff_exists] at hcontains
  obtain ⟨ready, hready⟩ := hcontains
  cases ready with
  | true => exact ⟨inner, hinner, hready⟩
  | false =>
    obtain ⟨rfl, hreserved⟩ := h.pending depth inner name hinner hready
    rcases hname with hname | hname
    · cases scopes with
      | nil => cases hinner
      | cons first outer =>
        cases hinner
        simp [Scopes.isPending, hready] at hname
    · exact absurd hname hreserved

theorem ready_var (h : scopes.Regular) {id : NodeId} {name : Token}
    (hname : scopes.isPending name.lexeme = false) :
    Site.Ready ⟨id, name, .read, scopes⟩ :=
  fun _ hdepth ↦ h.readyAt hdepth (.inl hname)

theorem ready_assign (h : scopes.Regular) {id : NodeId} {name : Token} :
    Site.Ready ⟨id, name, .assign, scopes⟩ :=
  fun _ hdepth hname ↦ h.readyAt hdepth (.inl hname)

theorem ready_this (h : scopes.Regular) {id : NodeId} {keyword : Token}
    (hkeyword : keyword.lexeme = "this") : Site.Ready ⟨id, keyword, .read, scopes⟩ :=
  fun _ hdepth ↦ h.readyAt hdepth (.inr (.inl hkeyword))

theorem ready_super (h : scopes.Regular) {id : NodeId} {keyword : Token}
    (hkeyword : keyword.lexeme = "super") : Site.Ready ⟨id, keyword, .super, scopes⟩ := by
  intro depth hdepth
  obtain ⟨inner, hinner, hcontains⟩ := exists_of_depth? hdepth
  refine ⟨h.readyAt hdepth (.inr (.inr hkeyword)), h.nested depth inner hinner ?_⟩
  exact hkeyword ▸ hcontains

end Scopes.Regular

mutual

theorem Expr.ready_of_quiet {context : Context} {scopes : Scopes} (hscopes : scopes.Regular) :
    ∀ {e : Expr}, e.Orderly → Quiet (e.findings context scopes) →
      ∀ site ∈ e.sites scopes, site.Ready
  | .literal _, _, _ => fun _ hsite ↦ absurd hsite List.not_mem_nil
  | .grouping inner, ho, h => inner.ready_of_quiet hscopes ho h
  | .unary _ operand, ho, h => operand.ready_of_quiet hscopes ho h
  | .binary _ left right, ho, h => by
    obtain ⟨hleft, hright⟩ := Quiet.append_iff.1 h
    exact List.forall_mem_append.2
      ⟨left.ready_of_quiet hscopes ho.1 hleft, right.ready_of_quiet hscopes ho.2 hright⟩
  | .logical _ left right, ho, h => by
    obtain ⟨hleft, hright⟩ := Quiet.append_iff.1 h
    exact List.forall_mem_append.2
      ⟨left.ready_of_quiet hscopes ho.1 hleft, right.ready_of_quiet hscopes ho.2 hright⟩
  | .var id name, _, h => by
    obtain ⟨hpending, -⟩ := Quiet.append_iff.1 h
    exact List.forall_mem_singleton.2 (hscopes.ready_var hpending.eq_false_of_when)
  | .assign id name value, ho, h => by
    obtain ⟨hvalue, -⟩ := Quiet.append_iff.1 h
    refine List.forall_mem_append.2 ⟨value.ready_of_quiet hscopes ho hvalue, ?_⟩
    exact List.forall_mem_singleton.2 hscopes.ready_assign
  | .call callee _ arguments, ho, h => by
    obtain ⟨hcallee, harguments⟩ := Quiet.append_iff.1 h
    exact List.forall_mem_append.2 ⟨callee.ready_of_quiet hscopes ho.1 hcallee,
      Expr.readyAll_of_quiet hscopes ho.2 harguments⟩
  | .get object _, ho, h => object.ready_of_quiet hscopes ho h
  | .set object _ value, ho, h => by
    obtain ⟨hvalue, hobject⟩ := Quiet.append_iff.1 h
    exact List.forall_mem_append.2
      ⟨value.ready_of_quiet hscopes ho.2 hvalue, object.ready_of_quiet hscopes ho.1 hobject⟩
  | .this id keyword, ho, _ => List.forall_mem_singleton.2 (hscopes.ready_this ho)
  | .super id keyword _, ho, _ => List.forall_mem_singleton.2 (hscopes.ready_super ho)

theorem Expr.readyAll_of_quiet {context : Context} {scopes : Scopes} (hscopes : scopes.Regular) :
    ∀ {es : List Expr}, Expr.OrderlyAll es → Quiet (Expr.findingsAll context scopes es) →
      ∀ site ∈ Expr.sitesAll scopes es, site.Ready
  | [], _, _ => fun _ hsite ↦ absurd hsite List.not_mem_nil
  | e :: rest, ho, h => by
    obtain ⟨he, hrest⟩ := Quiet.append_iff.1 h
    exact List.forall_mem_append.2
      ⟨e.ready_of_quiet hscopes ho.1 he, Expr.readyAll_of_quiet hscopes ho.2 hrest⟩

end

theorem Expr.readyOption_of_quiet {context : Context} {scopes : Scopes} (hscopes : scopes.Regular)
    {o : Option Expr} (ho : Expr.OrderlyOption o)
    (h : Quiet (Expr.findingsOption context scopes o)) :
    ∀ site ∈ Expr.sitesOption scopes o, site.Ready := by
  cases o with
  | none => exact fun _ hsite ↦ absurd hsite List.not_mem_nil
  | some e => exact e.ready_of_quiet hscopes ho h

mutual

theorem Stmt.settled_scopesAfter {scopes : Scopes} (hscopes : scopes.Settled) :
    ∀ {s : Stmt}, s.Orderly → (s.scopesAfter scopes).Settled
  | .classDecl name _ _, ho => by
    rw [Stmt.Orderly] at ho
    rw [Stmt.scopesAfter]
    exact hscopes.enter ho.1
  | .function routine, ho => by
    rw [Stmt.Orderly] at ho
    rw [Stmt.scopesAfter]
    exact hscopes.enter ho.1
  | .var name _, ho => by
    rw [Stmt.Orderly] at ho
    rw [Stmt.scopesAfter]
    exact hscopes.enter ho.1
  | .ifElse _ thenBranch elseBranch, ho => by
    rw [Stmt.Orderly] at ho
    rw [Stmt.scopesAfter, ho.2.1.2]
    exact Stmt.settled_scopesAfterOption hscopes ho.2.2
  | .while _ body, ho => by
    rw [Stmt.Orderly] at ho
    rw [Stmt.scopesAfter, ho.2.2]
    exact hscopes
  | .block _, _ => by simpa [Stmt.scopesAfter] using hscopes
  | .expression _, _ => by simpa [Stmt.scopesAfter] using hscopes
  | .print _, _ => by simpa [Stmt.scopesAfter] using hscopes
  | .return _ _, _ => by simpa [Stmt.scopesAfter] using hscopes
  | .break _, _ => by simpa [Stmt.scopesAfter] using hscopes
  | .continue _, _ => by simpa [Stmt.scopesAfter] using hscopes

theorem Stmt.settled_scopesAfterOption {scopes : Scopes} (hscopes : scopes.Settled) :
    ∀ {o : Option Stmt}, Stmt.OrderlyOption o → (Stmt.scopesAfterOption scopes o).Settled
  | none, _ => by simpa [Stmt.scopesAfterOption] using hscopes
  | some s, ho => by
    rw [Stmt.OrderlyOption] at ho
    rw [Stmt.scopesAfterOption]
    exact s.settled_scopesAfter hscopes ho.1

end

mutual

/-- Where no rule is broken, every variable that is read is ready. -/
theorem Stmt.ready_of_quiet {context : Context} {scopes : Scopes} (hscopes : scopes.Settled) :
    ∀ {s : Stmt}, s.Orderly → Quiet (s.findings context scopes) →
      ∀ site ∈ s.sites scopes, site.Ready
  | .block body, ho, h => by
    simp only [Stmt.Orderly, Stmt.findings, Stmt.sites] at ho h ⊢
    exact Stmt.readyAll_of_quiet hscopes.push ho h
  | .classDecl name superclass methods, ho, h => by
    simp only [Stmt.Orderly, Stmt.findings, Stmt.sites] at ho h ⊢
    obtain ⟨hname, hsuperclass, hmethods⟩ := ho
    obtain ⟨hhead, hquiet⟩ := Quiet.append_iff.1 h
    have hinside := hscopes.enter hname
    refine List.forall_mem_append.2 ⟨?_, ?_⟩
    · cases superclass with
      | none => exact fun _ hsite ↦ absurd hsite List.not_mem_nil
      | some e =>
        obtain ⟨-, he⟩ := Quiet.append_iff.1 (Quiet.append_iff.1 hhead).2
        exact e.ready_of_quiet hinside.regular hsuperclass he
    · exact Stmt.readyMethods_of_quiet (hinside.aroundMethods superclass) hmethods hquiet
  | .expression e, ho, h => by
    simp only [Stmt.Orderly, Stmt.findings, Stmt.sites] at ho h ⊢
    exact e.ready_of_quiet hscopes.regular ho h
  | .function routine, ho, h => by
    simp only [Stmt.Orderly, Stmt.findings, Stmt.sites] at ho h ⊢
    exact Stmt.readyRoutine_of_quiet (hscopes.enter ho.1) ho.2 (Quiet.append_iff.1 h).2
  | .ifElse condition thenBranch elseBranch, ho, h => by
    simp only [Stmt.Orderly, Stmt.findings, Stmt.sites] at ho h ⊢
    obtain ⟨hcondition, ⟨hthen, hnothing⟩, helse⟩ := ho
    obtain ⟨hhead, hquiet⟩ := Quiet.append_iff.1 h
    obtain ⟨hquiet₁, hquiet₂⟩ := Quiet.append_iff.1 hhead
    rw [hnothing] at hquiet ⊢
    refine List.forall_mem_append.2 ⟨List.forall_mem_append.2 ⟨?_, ?_⟩, ?_⟩
    · exact condition.ready_of_quiet hscopes.regular hcondition hquiet₁
    · exact thenBranch.ready_of_quiet hscopes hthen hquiet₂
    · exact Stmt.readyOption_of_quiet hscopes helse hquiet
  | .print e, ho, h => by
    simp only [Stmt.Orderly, Stmt.findings, Stmt.sites] at ho h ⊢
    exact e.ready_of_quiet hscopes.regular ho h
  | .return keyword value, ho, h => by
    simp only [Stmt.Orderly, Stmt.findings, Stmt.sites] at ho h ⊢
    exact Expr.readyOption_of_quiet hscopes.regular ho (Quiet.append_iff.1 h).2
  | .var name initializer, ho, h => by
    simp only [Stmt.Orderly, Stmt.findings, Stmt.sites] at ho h ⊢
    exact Expr.readyOption_of_quiet (hscopes.regular_enter ho.1) ho.2 (Quiet.append_iff.1 h).2
  | .while condition body, ho, h => by
    simp only [Stmt.Orderly, Stmt.findings, Stmt.sites] at ho h ⊢
    obtain ⟨hquiet₁, hquiet₂⟩ := Quiet.append_iff.1 h
    exact List.forall_mem_append.2 ⟨condition.ready_of_quiet hscopes.regular ho.1 hquiet₁,
      body.ready_of_quiet hscopes ho.2.1 hquiet₂⟩
  | .break _, _, _ => by simp [Stmt.sites]
  | .continue _, _, _ => by simp [Stmt.sites]

theorem Stmt.readyAll_of_quiet {context : Context} {scopes : Scopes} (hscopes : scopes.Settled) :
    ∀ {ss : List Stmt}, Stmt.OrderlyAll ss → Quiet (Stmt.findingsAll context scopes ss) →
      ∀ site ∈ Stmt.sitesAll scopes ss, site.Ready
  | [], _, _ => by simp [Stmt.sitesAll]
  | s :: rest, ho, h => by
    simp only [Stmt.OrderlyAll, Stmt.findingsAll, Stmt.sitesAll] at ho h ⊢
    obtain ⟨hquiet₁, hquiet₂⟩ := Quiet.append_iff.1 h
    exact List.forall_mem_append.2 ⟨s.ready_of_quiet hscopes ho.1 hquiet₁,
      Stmt.readyAll_of_quiet (s.settled_scopesAfter hscopes ho.1) ho.2 hquiet₂⟩

theorem Stmt.readyOption_of_quiet {context : Context} {scopes : Scopes} (hscopes : scopes.Settled) :
    ∀ {o : Option Stmt}, Stmt.OrderlyOption o → Quiet (Stmt.findingsOption context scopes o) →
      ∀ site ∈ Stmt.sitesOption scopes o, site.Ready
  | none, _, _ => by simp [Stmt.sitesOption]
  | some s, ho, h => by
    simp only [Stmt.OrderlyOption, Stmt.findingsOption, Stmt.sitesOption] at ho h ⊢
    exact s.ready_of_quiet hscopes ho.1 h

theorem Stmt.readyRoutine_of_quiet {context : Context} {scopes : Scopes}
    (hscopes : scopes.Settled) :
    ∀ {routine : Routine Stmt}, Stmt.OrderlyRoutine routine →
      Quiet (Stmt.findingsRoutine context scopes routine) →
      ∀ site ∈ Stmt.sitesRoutine scopes routine, site.Ready
  | ⟨_, params, body⟩, ho, h => by
    simp only [Stmt.OrderlyRoutine, Stmt.findingsRoutine, Stmt.sitesRoutine] at ho h ⊢
    exact Stmt.readyAll_of_quiet (hscopes.insideRoutine ho.1) ho.2 (Quiet.append_iff.1 h).2

theorem Stmt.readyMethods_of_quiet {context : Context} {scopes : Scopes}
    (hscopes : scopes.Settled) :
    ∀ {methods : List (Routine Stmt)}, Stmt.OrderlyMethods methods →
      Quiet (Stmt.findingsMethods context scopes methods) →
      ∀ site ∈ Stmt.sitesMethods scopes methods, site.Ready
  | [], _, _ => by simp [Stmt.sitesMethods]
  | method :: rest, ho, h => by
    simp only [Stmt.OrderlyMethods, Stmt.findingsMethods, Stmt.sitesMethods] at ho h ⊢
    obtain ⟨hquiet₁, hquiet₂⟩ := Quiet.append_iff.1 h
    exact List.forall_mem_append.2 ⟨Stmt.readyRoutine_of_quiet hscopes ho.1 hquiet₁,
      Stmt.readyMethods_of_quiet hscopes ho.2 hquiet₂⟩

end

end Lox
