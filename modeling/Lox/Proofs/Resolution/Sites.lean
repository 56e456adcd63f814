import Lox.Proofs.Tree.Alike
import Lox.Proofs.Tree.Orderly

/-!
# Sites

A site is a node that uses a variable, together with the scopes around it.  Where no static rule is
broken, the findings of resolution are the sites of a program with their depths, one for each, in
the order of the walk (`findings_eq_of_quiet`).  Then a variable that is read is ready where it is
found: its initializer is not still being read.
-/

namespace Lox

/-- What a node does with its variable. -/
inductive Access where
  | read
  | super
  | assign
deriving DecidableEq

/-- A node that uses a variable, with the scopes around it. -/
structure Site where
  id : NodeId
  name : Token
  access : Access
  scopes : Scopes

/-- What resolution finds at a site. -/
def Site.finding (site : Site) : Finding :=
  .ofUse site.scopes site.id site.name

/-- The scopes inside a function: those around it and one for its parameters. -/
def Scopes.insideRoutine (scopes : Scopes) (params : List Token) : Scopes :=
  (Finding.ofParameters ({} :: scopes) params).2

mutual

/-- The global scope is not among the scopes, so nothing is entered outside all of them. -/
theorem Stmt.scopesAfter_nil : ∀ s : Stmt, s.scopesAfter [] = []
  | .classDecl _ _ _ => by rw [Stmt.scopesAfter]; rfl
  | .function _ => by rw [Stmt.scopesAfter]; rfl
  | .var _ _ => by rw [Stmt.scopesAfter]; rfl
  | .ifElse _ thenBranch elseBranch => by
    rw [Stmt.scopesAfter, thenBranch.scopesAfter_nil, Stmt.scopesAfterOption_nil]
  | .while _ body => by rw [Stmt.scopesAfter, body.scopesAfter_nil]
  | .block _ => by simp [Stmt.scopesAfter]
  | .expression _ => by simp [Stmt.scopesAfter]
  | .print _ => by simp [Stmt.scopesAfter]
  | .return _ _ => by simp [Stmt.scopesAfter]
  | .break _ => by simp [Stmt.scopesAfter]
  | .continue _ => by simp [Stmt.scopesAfter]

theorem Stmt.scopesAfterOption_nil : ∀ o : Option Stmt, Stmt.scopesAfterOption [] o = []
  | none => by rw [Stmt.scopesAfterOption]
  | some s => by rw [Stmt.scopesAfterOption, s.scopesAfter_nil]

end

/-- Parameters are ready in the one scope that a function opens. -/
theorem Scopes.insideRoutine_eq (scopes : Scopes) (params : List Token) :
    ∃ inner, scopes.insideRoutine params = inner :: scopes ∧
      ∀ name, inner.get? name = some true → name ∈ params.map Token.lexeme := by
  have hgeneral : ∀ (params : List Token) (first : Bindings Bool), ∃ inner,
      (Finding.ofParameters (first :: scopes) params).2 = inner :: scopes ∧
        ∀ name, inner.get? name = some true →
          name ∈ params.map Token.lexeme ∨ first.get? name = some true := by
    intro params
    induction params with
    | nil => exact fun first ↦ ⟨first, rfl, fun name hname ↦ .inr hname⟩
    | cons param rest ih =>
      intro first
      obtain ⟨inner, hinner, hnames⟩ := ih (first.set param.lexeme true)
      refine ⟨inner, hinner, fun name hname ↦ ?_⟩
      rcases hnames name hname with hmem | hset
      · exact .inl (List.mem_cons_of_mem _ hmem)
      · rw [Bindings.get?_set] at hset
        split at hset
        · rename_i heq
          exact .inl (heq ▸ List.mem_cons_self)
        · exact .inr hset
  obtain ⟨inner, hinner, hnames⟩ := hgeneral params {}
  refine ⟨inner, hinner, fun name hname ↦ (hnames name hname).resolve_right ?_⟩
  exact nofun

mutual

/-- The sites of an expression, in the order of the walk. -/
def Expr.sites (scopes : Scopes) : Expr → List Site
  | literal _ => []
  | grouping inner => inner.sites scopes
  | unary _ operand => operand.sites scopes
  | binary _ left right => left.sites scopes ++ right.sites scopes
  | logical _ left right => left.sites scopes ++ right.sites scopes
  | var id name => [⟨id, name, .read, scopes⟩]
  | assign id name value => value.sites scopes ++ [⟨id, name, .assign, scopes⟩]
  | call callee _ arguments => callee.sites scopes ++ Expr.sitesAll scopes arguments
  | get object _ => object.sites scopes
  | set object _ value => value.sites scopes ++ object.sites scopes
  | this id keyword => [⟨id, keyword, .read, scopes⟩]
  | super id keyword _ => [⟨id, keyword, .super, scopes⟩]

def Expr.sitesAll (scopes : Scopes) : List Expr → List Site
  | [] => []
  | e :: rest => e.sites scopes ++ Expr.sitesAll scopes rest

end

def Expr.sitesOption (scopes : Scopes) : Option Expr → List Site
  | none => []
  | some e => e.sites scopes

mutual

/-- The sites of a statement, in the order of the walk. -/
def Stmt.sites (scopes : Scopes) : Stmt → List Site
  | block body => Stmt.sitesAll ({} :: scopes) body
  | classDecl name superclass methods =>
    let scopes' := scopes.enter name.lexeme true
    Expr.sitesOption scopes' superclass ++
      Stmt.sitesMethods (scopes'.aroundMethods superclass) methods
  | expression e => e.sites scopes
  | function routine => Stmt.sitesRoutine (scopes.enter routine.name.lexeme true) routine
  | ifElse condition thenBranch elseBranch =>
    condition.sites scopes ++ thenBranch.sites scopes ++
      Stmt.sitesOption (thenBranch.scopesAfter scopes) elseBranch
  | print e => e.sites scopes
  | .return _ value => Expr.sitesOption scopes value
  | var name initializer => Expr.sitesOption (scopes.enter name.lexeme false) initializer
  | .while condition body => condition.sites scopes ++ body.sites scopes
  | .break _ => []
  | .continue _ => []

def Stmt.sitesAll (scopes : Scopes) : List Stmt → List Site
  | [] => []
  | s :: rest => s.sites scopes ++ Stmt.sitesAll (s.scopesAfter scopes) rest

def Stmt.sitesOption (scopes : Scopes) : Option Stmt → List Site
  | none => []
  | some s => s.sites scopes

def Stmt.sitesRoutine (scopes : Scopes) : Routine Stmt → List Site
  | ⟨_, params, body⟩ => Stmt.sitesAll (scopes.insideRoutine params) body

def Stmt.sitesMethods (scopes : Scopes) : List (Routine Stmt) → List Site
  | [] => []
  | method :: rest => Stmt.sitesRoutine scopes method ++ Stmt.sitesMethods scopes rest

end

theorem Stmt.sitesRoutine_eq (scopes : Scopes) (routine : Routine Stmt) :
    Stmt.sitesRoutine scopes routine =
      Stmt.sitesAll (scopes.insideRoutine routine.params) routine.body := by
  obtain ⟨_, _, _⟩ := routine
  rw [Stmt.sitesRoutine]

/-! ### Identifiers of sites -/

mutual

theorem Expr.map_id_sites (scopes : Scopes) : ∀ e : Expr, (e.sites scopes).map Site.id = e.ids
  | .literal _ => rfl
  | .grouping inner => inner.map_id_sites scopes
  | .unary _ operand => operand.map_id_sites scopes
  | .binary _ left right => by
    simp only [Expr.sites, Expr.ids, List.map_append]
    rw [left.map_id_sites, right.map_id_sites]
  | .logical _ left right => by
    simp only [Expr.sites, Expr.ids, List.map_append]
    rw [left.map_id_sites, right.map_id_sites]
  | .var _ _ => rfl
  | .assign id _ value => by
    simp only [Expr.sites, Expr.ids, List.map_append, List.map_cons, List.map_nil]
    rw [value.map_id_sites]
  | .call callee _ arguments => by
    simp only [Expr.sites, Expr.ids, List.map_append]
    rw [callee.map_id_sites, Expr.map_id_sitesAll scopes arguments]
  | .get object _ => object.map_id_sites scopes
  | .set object _ value => by
    simp only [Expr.sites, Expr.ids, List.map_append]
    rw [value.map_id_sites, object.map_id_sites]
  | .this _ _ => rfl
  | .super _ _ _ => rfl

theorem Expr.map_id_sitesAll (scopes : Scopes) :
    ∀ es : List Expr, (Expr.sitesAll scopes es).map Site.id = Expr.idsAll es
  | [] => rfl
  | e :: rest => by
    simp only [Expr.sitesAll, Expr.idsAll, List.map_append]
    rw [e.map_id_sites, Expr.map_id_sitesAll scopes rest]

end

theorem Expr.map_id_sitesOption (scopes : Scopes) (o : Option Expr) :
    (Expr.sitesOption scopes o).map Site.id = Expr.idsOption o := by
  cases o with
  | none => rfl
  | some e => exact e.map_id_sites scopes

mutual

/-- Every node that refers to a variable is one site. -/
theorem Stmt.map_id_sites (scopes : Scopes) : ∀ s : Stmt, (s.sites scopes).map Site.id = s.ids
  | .block body => by
    simp only [Stmt.sites, Stmt.ids]
    exact Stmt.map_id_sitesAll _ body
  | .classDecl _ superclass methods => by
    simp only [Stmt.sites, Stmt.ids, List.map_append]
    rw [Expr.map_id_sitesOption, Stmt.map_id_sitesMethods _ methods]
  | .expression e => by
    simp only [Stmt.sites, Stmt.ids]
    exact e.map_id_sites scopes
  | .function routine => by
    simp only [Stmt.sites, Stmt.ids]
    exact Stmt.map_id_sitesRoutine _ routine
  | .ifElse condition thenBranch elseBranch => by
    simp only [Stmt.sites, Stmt.ids, List.map_append]
    rw [condition.map_id_sites, thenBranch.map_id_sites, Stmt.map_id_sitesOption _ elseBranch]
  | .print e => by
    simp only [Stmt.sites, Stmt.ids]
    exact e.map_id_sites scopes
  | .return _ value => by
    simp only [Stmt.sites, Stmt.ids]
    exact Expr.map_id_sitesOption _ value
  | .var _ initializer => by
    simp only [Stmt.sites, Stmt.ids]
    exact Expr.map_id_sitesOption _ initializer
  | .while condition body => by
    simp only [Stmt.sites, Stmt.ids, List.map_append]
    rw [condition.map_id_sites, body.map_id_sites]
  | .break _ => by simp only [Stmt.sites, Stmt.ids, List.map_nil]
  | .continue _ => by simp only [Stmt.sites, Stmt.ids, List.map_nil]

theorem Stmt.map_id_sitesAll (scopes : Scopes) :
    ∀ ss : List Stmt, (Stmt.sitesAll scopes ss).map Site.id = Stmt.idsAll ss
  | [] => by simp only [Stmt.sitesAll, Stmt.idsAll, List.map_nil]
  | s :: rest => by
    simp only [Stmt.sitesAll, Stmt.idsAll, List.map_append]
    rw [s.map_id_sites, Stmt.map_id_sitesAll _ rest]

theorem Stmt.map_id_sitesOption (scopes : Scopes) :
    ∀ o : Option Stmt, (Stmt.sitesOption scopes o).map Site.id = Stmt.idsOption o
  | none => by simp only [Stmt.sitesOption, Stmt.idsOption, List.map_nil]
  | some s => by
    simp only [Stmt.sitesOption, Stmt.idsOption]
    exact s.map_id_sites _

theorem Stmt.map_id_sitesRoutine (scopes : Scopes) :
    ∀ r : Routine Stmt, (Stmt.sitesRoutine scopes r).map Site.id = Stmt.idsRoutine r
  | ⟨_, _, body⟩ => by
    simp only [Stmt.sitesRoutine, Stmt.idsRoutine]
    exact Stmt.map_id_sitesAll _ body

theorem Stmt.map_id_sitesMethods (scopes : Scopes) :
    ∀ rs : List (Routine Stmt), (Stmt.sitesMethods scopes rs).map Site.id = Stmt.idsMethods rs
  | [] => by simp only [Stmt.sitesMethods, Stmt.idsMethods, List.map_nil]
  | r :: rest => by
    simp only [Stmt.sitesMethods, Stmt.idsMethods, List.map_append]
    rw [Stmt.map_id_sitesRoutine _ r, Stmt.map_id_sitesMethods _ rest]

end

/-! ### What is found and where -/

/-- No static rule is broken. -/
def Quiet (findings : List Finding) : Prop :=
  ∀ f ∈ findings, f.violation? = none

namespace Quiet

variable {found more : List Finding}

theorem append_iff : Quiet (found ++ more) ↔ Quiet found ∧ Quiet more :=
  List.forall_mem_append

theorem eq_false_of_when {broken : Bool} {token : Token} {fault : StaticFault}
    (h : Quiet (Finding.when broken token fault)) : broken = false := by
  cases broken with
  | false => rfl
  | true => exact absurd (h _ List.mem_cons_self) (by simp [Finding.violation?])

end Quiet

/-- Findings tell about sites, in order: a use tells about one site, a violation about none, or it
takes the place of what a site would have told. -/
inductive Tallies : List Finding → List Site → Prop
  | nil : Tallies [] []
  | use {found : List Finding} {sites : List Site} (site : Site) (h : Tallies found sites) :
      Tallies (site.finding :: found) (site :: sites)
  | violation {found : List Finding} {sites : List Site} (token : Token) (fault : StaticFault)
      (h : Tallies found sites) : Tallies (.violation token fault :: found) sites
  | missed {found : List Finding} {sites : List Site} (token : Token) (fault : StaticFault)
      (site : Site) (h : Tallies found sites) :
      Tallies (.violation token fault :: found) (site :: sites)

namespace Tallies

variable {found more : List Finding} {sites others : List Site}

theorem append (h : Tallies found sites) (hmore : Tallies more others) :
    Tallies (found ++ more) (sites ++ others) := by
  induction h with
  | nil => exact hmore
  | use site _ ih => exact .use site ih
  | violation token fault _ ih => exact .violation token fault ih
  | missed token fault site _ ih => exact .missed token fault site ih

theorem ofUse (id : NodeId) (name : Token) (access : Access) (scopes : Scopes) :
    Tallies [.ofUse scopes id name] [⟨id, name, access, scopes⟩] :=
  .use ⟨id, name, access, scopes⟩ .nil

/-- Violations before what is found change nothing about its sites. -/
theorem preceded (hbefore : Tallies found []) (h : Tallies more sites) :
    Tallies (found ++ more) sites :=
  hbefore.append h

/-- Without violations what is found is what the sites tell. -/
theorem eq_of_quiet (h : Tallies found sites) (hquiet : Quiet found) :
    found = sites.map Site.finding := by
  induction h with
  | nil => rfl
  | use site _ ih =>
    rw [List.map_cons, ih fun f hf ↦ hquiet f (List.mem_cons_of_mem _ hf)]
  | violation token fault _ _ => cases hquiet _ List.mem_cons_self
  | missed token fault site _ _ => cases hquiet _ List.mem_cons_self

/-- A depth is found at a site only. -/
theorem exists_of_address? (h : Tallies found sites) {f : Finding} (hf : f ∈ found)
    {address : NodeId × Nat} (haddress : f.address? = some address) :
    ∃ site ∈ sites, f = site.finding := by
  induction h with
  | nil => cases hf
  | use site _ ih =>
    rcases List.mem_cons.1 hf with rfl | hf
    · exact ⟨site, List.mem_cons_self, rfl⟩
    · obtain ⟨other, hother, heq⟩ := ih hf
      exact ⟨other, List.mem_cons_of_mem _ hother, heq⟩
  | violation token fault _ ih =>
    rcases List.mem_cons.1 hf with rfl | hf
    · cases haddress
    · exact ih hf
  | missed token fault site _ ih =>
    rcases List.mem_cons.1 hf with rfl | hf
    · cases haddress
    · obtain ⟨other, hother, heq⟩ := ih hf
      exact ⟨other, List.mem_cons_of_mem _ hother, heq⟩

theorem when (broken : Bool) (token : Token) (fault : StaticFault) :
    Tallies (Finding.when broken token fault) [] := by
  cases broken with
  | false => exact .nil
  | true => exact .violation token fault .nil

theorem ofDeclaration (scopes : Scopes) (name : Token) :
    Tallies (Finding.ofDeclaration scopes name) [] :=
  when ..

theorem ofSuperclass (name : Token) (e : Expr) : Tallies (Finding.ofSuperclass name e) [] := by
  unfold Finding.ofSuperclass
  split
  · exact when ..
  · exact .nil

theorem ofSuper (context : Context) (keyword : Token) :
    Tallies (Finding.ofSuper context keyword) [] := by
  unfold Finding.ofSuper
  split
  · exact .violation _ _ .nil
  · exact .violation _ _ .nil
  · exact .nil

theorem ofParameters (scopes : Scopes) (params : List Token) :
    Tallies (Finding.ofParameters scopes params).1 [] := by
  induction params generalizing scopes with
  | nil => exact .nil
  | cons param rest ih => exact (ofDeclaration scopes param).preceded (ih _)

end Tallies

mutual

theorem Expr.tallies (context : Context) (scopes : Scopes) :
    ∀ e : Expr, Tallies (e.findings context scopes) (e.sites scopes)
  | .literal _ => .nil
  | .grouping inner => inner.tallies context scopes
  | .unary _ operand => operand.tallies context scopes
  | .binary _ left right => (left.tallies context scopes).append (right.tallies context scopes)
  | .logical _ left right => (left.tallies context scopes).append (right.tallies context scopes)
  | .var _ _ => (Tallies.when ..).preceded (.ofUse ..)
  | .assign _ _ value => (value.tallies context scopes).append (.ofUse ..)
  | .call callee _ arguments =>
    (callee.tallies context scopes).append (Expr.talliesAll context scopes arguments)
  | .get object _ => object.tallies context scopes
  | .set object _ value => (value.tallies context scopes).append (object.tallies context scopes)
  | .this _ _ => by
    rw [Expr.findings, Expr.sites]
    split
    · exact .missed _ _ _ .nil
    · exact .ofUse ..
  | .super _ _ _ => (Tallies.ofSuper ..).preceded (.ofUse ..)

theorem Expr.talliesAll (context : Context) (scopes : Scopes) :
    ∀ es : List Expr, Tallies (Expr.findingsAll context scopes es) (Expr.sitesAll scopes es)
  | [] => .nil
  | e :: rest => (e.tallies context scopes).append (Expr.talliesAll context scopes rest)

end

theorem Expr.talliesOption (context : Context) (scopes : Scopes) (o : Option Expr) :
    Tallies (Expr.findingsOption context scopes o) (Expr.sitesOption scopes o) := by
  cases o with
  | none => exact .nil
  | some e => exact e.tallies context scopes

mutual

/-- What is found in a statement tells about its sites. -/
theorem Stmt.tallies (context : Context) (scopes : Scopes) :
    ∀ s : Stmt, Tallies (s.findings context scopes) (s.sites scopes)
  | .block body => by
    simp only [Stmt.findings, Stmt.sites]
    exact Stmt.talliesAll context _ body
  | .classDecl name superclass methods => by
    simp only [Stmt.findings, Stmt.sites]
    refine .append (.preceded (.ofDeclaration ..) ?_) (Stmt.talliesMethods _ _ methods)
    cases superclass with
    | none => exact .nil
    | some e => exact (Tallies.ofSuperclass name e).preceded (e.tallies ..)
  | .expression e => by
    simp only [Stmt.findings, Stmt.sites]
    exact e.tallies context scopes
  | .function routine => by
    simp only [Stmt.findings, Stmt.sites]
    exact (Tallies.ofDeclaration ..).preceded (Stmt.talliesRoutine _ _ routine)
  | .ifElse condition thenBranch elseBranch => by
    simp only [Stmt.findings, Stmt.sites]
    exact ((condition.tallies context scopes).append (thenBranch.tallies context scopes)).append
      (Stmt.talliesOption context _ elseBranch)
  | .print e => by
    simp only [Stmt.findings, Stmt.sites]
    exact e.tallies context scopes
  | .return keyword value => by
    simp only [Stmt.findings, Stmt.sites]
    exact ((Tallies.when ..).preceded (.when ..)).preceded (Expr.talliesOption context scopes value)
  | .var name initializer => by
    simp only [Stmt.findings, Stmt.sites]
    exact (Tallies.ofDeclaration ..).preceded (Expr.talliesOption context _ initializer)
  | .while condition body => by
    simp only [Stmt.findings, Stmt.sites]
    exact (condition.tallies context scopes).append (body.tallies context scopes)
  | .break _ => by
    simp only [Stmt.findings, Stmt.sites]
    exact .nil
  | .continue _ => by
    simp only [Stmt.findings, Stmt.sites]
    exact .nil

theorem Stmt.talliesAll (context : Context) (scopes : Scopes) :
    ∀ ss : List Stmt, Tallies (Stmt.findingsAll context scopes ss) (Stmt.sitesAll scopes ss)
  | [] => by
    simp only [Stmt.findingsAll, Stmt.sitesAll]
    exact .nil
  | s :: rest => by
    simp only [Stmt.findingsAll, Stmt.sitesAll]
    exact (s.tallies context scopes).append (Stmt.talliesAll context _ rest)

theorem Stmt.talliesOption (context : Context) (scopes : Scopes) :
    ∀ o : Option Stmt, Tallies (Stmt.findingsOption context scopes o) (Stmt.sitesOption scopes o)
  | none => by
    simp only [Stmt.findingsOption, Stmt.sitesOption]
    exact .nil
  | some s => by
    simp only [Stmt.findingsOption, Stmt.sitesOption]
    exact s.tallies context scopes

theorem Stmt.talliesRoutine (context : Context) (scopes : Scopes) :
    ∀ routine : Routine Stmt,
      Tallies (Stmt.findingsRoutine context scopes routine) (Stmt.sitesRoutine scopes routine)
  | ⟨_, params, body⟩ => by
    simp only [Stmt.findingsRoutine, Stmt.sitesRoutine]
    exact (Tallies.ofParameters ..).preceded (Stmt.talliesAll context _ body)

theorem Stmt.talliesMethods (context : Context) (scopes : Scopes) :
    ∀ methods : List (Routine Stmt),
      Tallies (Stmt.findingsMethods context scopes methods) (Stmt.sitesMethods scopes methods)
  | [] => by
    simp only [Stmt.findingsMethods, Stmt.sitesMethods]
    exact .nil
  | method :: rest => by
    simp only [Stmt.findingsMethods, Stmt.sitesMethods]
    exact (Stmt.talliesRoutine _ _ method).append (Stmt.talliesMethods context scopes rest)

end

end Lox
