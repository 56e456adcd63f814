import Lox.Proofs.Resolution.Sites

/-!
# Resolving programs that correspond

The walk looks at the texts of names alone.  So it finds the same depths and the same violations in
trees that correspond, and it goes through one program after another as through both at once.
-/

namespace Lox

/-- Uses with the same depth, or violations of the same rule, at corresponding tokens. -/
inductive Finding.Alike (T : Token → Token → Prop) : Finding → Finding → Prop
  | use {id id' : NodeId} {name name' : Token} (hname : T name name') (depth : Option Nat) :
      Finding.Alike T (.use id name depth) (.use id' name' depth)
  | violation {token token' : Token} (htoken : T token token') (fault : StaticFault) :
      Finding.Alike T (.violation token fault) (.violation token' fault)

variable {T : Token → Token → Prop} {I : NodeId → NodeId → Prop}

namespace Finding.Alike

theorem depth_eq {site site' : Site} (h : site.finding.Alike T site'.finding) :
    site.scopes.depth? site.name.lexeme = site'.scopes.depth? site'.name.lexeme := by
  unfold Site.finding Finding.ofUse at h
  generalize site.scopes.depth? site.name.lexeme = depth at h ⊢
  generalize site'.scopes.depth? site'.name.lexeme = depth' at h ⊢
  cases h with
  | use _ _ => rfl

section Faithful

variable (hT : Token.Faithful T)

include hT

theorem ofUse (scopes : Scopes) {id id' : NodeId} {name name' : Token} (hname : T name name') :
    Finding.Alike T (.ofUse scopes id name) (.ofUse scopes id' name') := by
  rw [Finding.ofUse, Finding.ofUse, hT.lexeme hname]
  exact .use hname _

omit hT in
theorem when {token token' : Token} (htoken : T token token') (broken : Bool)
    (fault : StaticFault) :
    List.Forall₂ (Finding.Alike T) (Finding.when broken token fault)
      (Finding.when broken token' fault) := by
  cases broken with
  | false => exact .nil
  | true => exact .cons (.violation htoken fault) .nil

theorem ofDeclaration (scopes : Scopes) {name name' : Token} (hname : T name name') :
    List.Forall₂ (Finding.Alike T) (Finding.ofDeclaration scopes name)
      (Finding.ofDeclaration scopes name') := by
  rw [Finding.ofDeclaration, Finding.ofDeclaration, hT.lexeme hname]
  exact when hname ..

theorem ofSuperclass {name name' : Token} (hname : T name name') {e e' : Expr}
    (he : e.Alike T I e') :
    List.Forall₂ (Finding.Alike T) (Finding.ofSuperclass name e)
      (Finding.ofSuperclass name' e') := by
  cases he with
  | var hid hsuper =>
    rw [Finding.ofSuperclass, Finding.ofSuperclass, hT.lexeme hname, hT.lexeme hsuper]
    exact when hsuper ..
  | _ => exact .nil

omit hT in
theorem ofSuper (context : Context) {keyword keyword' : Token} (hkeyword : T keyword keyword') :
    List.Forall₂ (Finding.Alike T) (Finding.ofSuper context keyword)
      (Finding.ofSuper context keyword') := by
  unfold Finding.ofSuper
  split
  · exact .cons (.violation hkeyword _) .nil
  · exact .cons (.violation hkeyword _) .nil
  · exact .nil

theorem ofParameters {params params' : List Token} (hparams : List.Forall₂ T params params') :
    ∀ scopes : Scopes,
      List.Forall₂ (Finding.Alike T) (Finding.ofParameters scopes params).1
        (Finding.ofParameters scopes params').1 ∧
      (Finding.ofParameters scopes params).2 = (Finding.ofParameters scopes params').2 := by
  induction hparams with
  | nil => exact fun scopes ↦ ⟨.nil, rfl⟩
  | cons hparam _ ih =>
    intro scopes
    simp only [Finding.ofParameters]
    rw [hT.lexeme hparam]
    obtain ⟨hfound, hafter⟩ := ih (scopes.enter _ true)
    exact ⟨List.rel_append (ofDeclaration hT scopes hparam) hfound, hafter⟩

end Faithful

end Finding.Alike

mutual

theorem Expr.Alike.findings (hT : Token.Faithful T) (context : Context) (scopes : Scopes)
    {e e' : Expr} : e.Alike T I e' →
      List.Forall₂ (Finding.Alike T) (e.findings context scopes) (e'.findings context scopes)
  | .literal _ => .nil
  | .grouping h => h.findings hT context scopes
  | .unary _ h => h.findings hT context scopes
  | .binary _ hleft hright =>
    List.rel_append (hleft.findings hT context scopes) (hright.findings hT context scopes)
  | .logical _ hleft hright =>
    List.rel_append (hleft.findings hT context scopes) (hright.findings hT context scopes)
  | .var _ hname => by
    simp only [Expr.findings]
    rw [hT.lexeme hname]
    exact List.rel_append (Finding.Alike.when hname ..) (.cons (.ofUse hT scopes hname) .nil)
  | .assign _ hname hvalue =>
    List.rel_append (hvalue.findings hT context scopes) (.cons (.ofUse hT scopes hname) .nil)
  | .call hcallee _ harguments =>
    List.rel_append (hcallee.findings hT context scopes)
      (Expr.Alike.findingsAll hT context scopes harguments)
  | .get hobject _ => hobject.findings hT context scopes
  | .set hobject _ hvalue =>
    List.rel_append (hvalue.findings hT context scopes) (hobject.findings hT context scopes)
  | .this _ hkeyword => by
    simp only [Expr.findings]
    split
    · exact .cons (.violation hkeyword _) .nil
    · exact .cons (.ofUse hT scopes hkeyword) .nil
  | .super _ hkeyword _ =>
    List.rel_append (Finding.Alike.ofSuper context hkeyword)
      (.cons (.ofUse hT scopes hkeyword) .nil)

theorem Expr.Alike.findingsAll (hT : Token.Faithful T) (context : Context) (scopes : Scopes)
    {es es' : List Expr} : List.Forall₂ (Expr.Alike T I) es es' →
      List.Forall₂ (Finding.Alike T) (Expr.findingsAll context scopes es)
        (Expr.findingsAll context scopes es')
  | .nil => .nil
  | .cons h hrest =>
    List.rel_append (h.findings hT context scopes) (Expr.Alike.findingsAll hT context scopes hrest)

end

theorem Expr.Alike.findingsOption (hT : Token.Faithful T) (context : Context) (scopes : Scopes)
    {o o' : Option Expr} (h : Option.Rel (Expr.Alike T I) o o') :
    List.Forall₂ (Finding.Alike T) (Expr.findingsOption context scopes o)
      (Expr.findingsOption context scopes o') := by
  cases h with
  | none => exact .nil
  | some h => exact h.findings hT context scopes

theorem Stmt.Alike.scopesAfter (hT : Token.Faithful T) (scopes : Scopes) {s s' : Stmt} :
    s.Alike T I s' → s.scopesAfter scopes = s'.scopesAfter scopes
  | .classDecl hname _ _ => by simp only [Stmt.scopesAfter, hT.lexeme hname]
  | .function (.mk hname _ _) => by simp only [Stmt.scopesAfter, hT.lexeme hname]
  | .var hname _ => by simp only [Stmt.scopesAfter, hT.lexeme hname]
  | .ifThen _ hthen => by
    simp only [Stmt.scopesAfter, Stmt.scopesAfterOption]
    exact hthen.scopesAfter hT scopes
  | .ifElse _ hthen helse => by
    simp only [Stmt.scopesAfter, Stmt.scopesAfterOption]
    rw [hthen.scopesAfter hT scopes]
    exact helse.scopesAfter hT _
  | .while _ hbody => by
    simp only [Stmt.scopesAfter]
    exact hbody.scopesAfter hT scopes
  | .block _ => by simp only [Stmt.scopesAfter]
  | .expression _ => by simp only [Stmt.scopesAfter]
  | .print _ => by simp only [Stmt.scopesAfter]
  | .return _ _ => by simp only [Stmt.scopesAfter]
  | .break _ => by simp only [Stmt.scopesAfter]
  | .continue _ => by simp only [Stmt.scopesAfter]

mutual

theorem Stmt.Alike.findings (hT : Token.Faithful T) (context : Context) (scopes : Scopes)
    {s s' : Stmt} : s.Alike T I s' →
      List.Forall₂ (Finding.Alike T) (s.findings context scopes) (s'.findings context scopes)
  | .block h => by
    simp only [Stmt.findings]
    exact Stmt.Alike.findingsAll hT context _ h
  | .classDecl hname hsuperclass hmethods => by
    simp only [Stmt.findings]
    rw [hT.lexeme hname]
    cases hsuperclass with
    | none =>
      exact List.rel_append (List.rel_append (Finding.Alike.ofDeclaration hT scopes hname) .nil)
        (Stmt.Alike.findingsMethods hT _ _ hmethods)
    | some he =>
      exact List.rel_append (List.rel_append (Finding.Alike.ofDeclaration hT scopes hname)
        (List.rel_append (Finding.Alike.ofSuperclass hT hname he) (he.findings hT _ _)))
        (Stmt.Alike.findingsMethods hT _ _ hmethods)
  | .expression h => by
    simp only [Stmt.findings]
    exact h.findings hT context scopes
  | .function (.mk hname hparams hbody) => by
    simp only [Stmt.findings]
    rw [hT.lexeme hname]
    exact List.rel_append (Finding.Alike.ofDeclaration hT scopes hname)
      (Stmt.Alike.findingsRoutine hT _ _ (.mk hname hparams hbody))
  | .ifThen hcondition hthen => by
    simp only [Stmt.findings, Stmt.findingsOption]
    exact List.rel_append (List.rel_append (hcondition.findings hT context scopes)
      (hthen.findings hT context scopes)) .nil
  | .ifElse hcondition hthen helse => by
    simp only [Stmt.findings, Stmt.findingsOption]
    rw [hthen.scopesAfter hT scopes]
    exact List.rel_append (List.rel_append (hcondition.findings hT context scopes)
      (hthen.findings hT context scopes)) (helse.findings hT context _)
  | .print h => by
    simp only [Stmt.findings]
    exact h.findings hT context scopes
  | .return hkeyword hvalue => by
    simp only [Stmt.findings]
    rw [isSome_eq_of_rel hvalue]
    exact List.rel_append (List.rel_append (Finding.Alike.when hkeyword ..)
      (Finding.Alike.when hkeyword ..)) (Expr.Alike.findingsOption hT context scopes hvalue)
  | .var hname hinitializer => by
    simp only [Stmt.findings]
    rw [hT.lexeme hname]
    exact List.rel_append (Finding.Alike.ofDeclaration hT scopes hname)
      (Expr.Alike.findingsOption hT context _ hinitializer)
  | .while hcondition hbody => by
    simp only [Stmt.findings]
    exact List.rel_append (hcondition.findings hT context scopes)
      (hbody.findings hT context scopes)
  | .break _ => by
    simp only [Stmt.findings]
    exact .nil
  | .continue _ => by
    simp only [Stmt.findings]
    exact .nil
termination_by sizeOf s

theorem Stmt.Alike.findingsAll (hT : Token.Faithful T) (context : Context) (scopes : Scopes)
    {ss ss' : List Stmt} : List.Forall₂ (Stmt.Alike T I) ss ss' →
      List.Forall₂ (Finding.Alike T) (Stmt.findingsAll context scopes ss)
        (Stmt.findingsAll context scopes ss')
  | .nil => by
    simp only [Stmt.findingsAll]
    exact .nil
  | .cons h hrest => by
    simp only [Stmt.findingsAll]
    rw [h.scopesAfter hT scopes]
    exact List.rel_append (h.findings hT context scopes)
      (Stmt.Alike.findingsAll hT context _ hrest)
termination_by sizeOf ss

theorem Stmt.Alike.findingsRoutine (hT : Token.Faithful T) (context : Context) (scopes : Scopes) :
    ∀ {r r' : Routine Stmt}, Routine.Alike T (Stmt.Alike T I) r r' →
      List.Forall₂ (Finding.Alike T) (Stmt.findingsRoutine context scopes r)
        (Stmt.findingsRoutine context scopes r')
  | ⟨_, _, _⟩, ⟨_, _, _⟩, .mk _ hparams hbody => by
    simp only [Stmt.findingsRoutine]
    obtain ⟨hfound, hafter⟩ := Finding.Alike.ofParameters hT hparams ({} :: scopes)
    rw [hafter]
    exact List.rel_append hfound (Stmt.Alike.findingsAll hT context _ hbody)
termination_by r => sizeOf r

theorem Stmt.Alike.findingsMethods (hT : Token.Faithful T) (context : Context) (scopes : Scopes) :
    ∀ {rs rs' : List (Routine Stmt)},
      List.Forall₂ (Routine.Alike T (Stmt.Alike T I)) rs rs' →
      List.Forall₂ (Finding.Alike T) (Stmt.findingsMethods context scopes rs)
        (Stmt.findingsMethods context scopes rs')
  | _, _, .nil => by
    simp only [Stmt.findingsMethods]
    exact .nil
  | _, _, .cons (.mk hname hparams hbody) hrest => by
    simp only [Stmt.findingsMethods, Context.inMethod]
    rw [hT.lexeme hname]
    exact List.rel_append (Stmt.Alike.findingsRoutine hT _ _ (.mk hname hparams hbody))
      (Stmt.Alike.findingsMethods hT context scopes hrest)
termination_by rs => sizeOf rs

end

/-- Similar programs break a rule together or not at all. -/
theorem Quiet.of_alike {found found' : List Finding}
    (h : List.Forall₂ (Finding.Alike T) found found') (hquiet : Quiet found) : Quiet found' := by
  induction h with
  | nil => exact hquiet
  | cons hf _ ih =>
    obtain ⟨hfirst, hrest⟩ := List.forall_mem_cons.1 hquiet
    refine List.forall_mem_cons.2 ⟨?_, ih hrest⟩
    cases hf with
    | use _ _ => rfl
    | violation _ _ => cases hfirst

/-- At the top level nothing of a program is left behind. -/
theorem Stmt.findingsAll_append (context : Context) (program rest : List Stmt) :
    Stmt.findingsAll context [] (program ++ rest) =
      Stmt.findingsAll context [] program ++ Stmt.findingsAll context [] rest := by
  induction program with
  | nil => rw [Stmt.findingsAll, List.nil_append, List.nil_append]
  | cons s program ih =>
    calc Stmt.findingsAll context [] (s :: (program ++ rest))
      _ = s.findings context [] ++ Stmt.findingsAll context [] (program ++ rest) := by
        rw [Stmt.findingsAll, Stmt.scopesAfter_nil]
      _ = s.findings context [] ++
          (Stmt.findingsAll context [] program ++ Stmt.findingsAll context [] rest) := by rw [ih]
      _ = Stmt.findingsAll context [] (s :: program) ++ Stmt.findingsAll context [] rest := by
        rw [Stmt.findingsAll, Stmt.scopesAfter_nil, List.append_assoc]

theorem Stmt.sitesAll_append (program rest : List Stmt) :
    Stmt.sitesAll [] (program ++ rest) = Stmt.sitesAll [] program ++ Stmt.sitesAll [] rest := by
  induction program with
  | nil => rw [Stmt.sitesAll, List.nil_append, List.nil_append]
  | cons s program ih =>
    calc Stmt.sitesAll [] (s :: (program ++ rest))
      _ = s.sites [] ++ Stmt.sitesAll [] (program ++ rest) := by
        rw [Stmt.sitesAll, Stmt.scopesAfter_nil]
      _ = s.sites [] ++ (Stmt.sitesAll [] program ++ Stmt.sitesAll [] rest) := by rw [ih]
      _ = Stmt.sitesAll [] (s :: program) ++ Stmt.sitesAll [] rest := by
        rw [Stmt.sitesAll, Stmt.scopesAfter_nil, List.append_assoc]

end Lox
