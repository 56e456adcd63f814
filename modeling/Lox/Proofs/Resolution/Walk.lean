import Lox.Proofs.Resolution.Occurrences
import Mathlib.Data.List.Basic

/-!
# The walk of resolution

Resolution remembers scopes and a context while it walks over a program.  At every node they are
those that the enclosures of the node give.  So what resolution finds is what there is to find at
each node by itself, in the order of the walk (`resolve_eq_occurrences`).
-/

namespace Lox

namespace Scopes

/-- Enter names that are ready, one after the other. -/
def enterAll (scopes : Scopes) (names : List Token) : Scopes :=
  names.foldl (fun scopes name ↦ scopes.enter name.lexeme true) scopes

theorem enterAll_append (scopes : Scopes) (names more : List Token) :
    scopes.enterAll (names ++ more) = (scopes.enterAll names).enterAll more :=
  List.foldl_append

theorem enterAll_nil (names : List Token) : enterAll [] names = [] := by
  induction names with
  | nil => rfl
  | cons name rest ih => exact ih

/-- A scope that holds certain names, all of them ready. -/
def Keeps (inner : Bindings Bool) (names : List Token) : Prop :=
  ∀ name, inner.get? name = if name ∈ names.map Token.lexeme then some true else none

theorem Keeps.set {inner : Bindings Bool} {names : List Token} (h : Keeps inner names)
    (name : Token) : Keeps (inner.set name.lexeme true) (names ++ [name]) := by
  intro other
  rw [Bindings.get?_set, h other, List.map_append, List.map_singleton]
  by_cases heq : other = name.lexeme
  · rw [if_pos heq, if_pos (List.mem_append_right _ (List.mem_singleton.2 heq))]
  · rw [if_neg heq]
    congr 1
    simp [heq]

theorem enterAll_cons {inner : Bindings Bool} {names : List Token} (h : Keeps inner names)
    (outer : Scopes) (more : List Token) :
    ∃ inner', enterAll (inner :: outer) more = inner' :: outer ∧ Keeps inner' (names ++ more) := by
  induction more generalizing inner names with
  | nil => exact ⟨inner, rfl, by rwa [List.append_nil]⟩
  | cons name more ih =>
    obtain ⟨inner', henter, hinner'⟩ := ih (h.set name)
    rw [List.append_assoc] at hinner'
    exact ⟨inner', henter, hinner'⟩

/-- A new scope, with names entered into it. -/
theorem exists_enterAll_eq (outer : Scopes) (names : List Token) :
    ∃ inner, enterAll ({} :: outer) names = inner :: outer ∧ Keeps inner names := by
  have hnone : Keeps {} [] := fun _ ↦ rfl
  exact enterAll_cons hnone outer names

end Scopes

mutual

theorem Stmt.scopesAfter_eq (scopes : Scopes) :
    ∀ s : Stmt, s.scopesAfter scopes = scopes.enterAll s.declared
  | .classDecl _ _ _ => by simp only [Stmt.scopesAfter, Stmt.declared]; rfl
  | .function _ => by simp only [Stmt.scopesAfter, Stmt.declared]; rfl
  | .var _ _ => by simp only [Stmt.scopesAfter, Stmt.declared]; rfl
  | .ifElse _ thenBranch elseBranch => by
    rw [Stmt.scopesAfter, Stmt.declared, Scopes.enterAll_append, thenBranch.scopesAfter_eq,
      Stmt.scopesAfterOption_eq _ elseBranch]
  | .while _ body => by rw [Stmt.scopesAfter, Stmt.declared, body.scopesAfter_eq]
  | .block _ => by simp only [Stmt.scopesAfter, Stmt.declared]; rfl
  | .expression _ => by simp only [Stmt.scopesAfter, Stmt.declared]; rfl
  | .print _ => by simp only [Stmt.scopesAfter, Stmt.declared]; rfl
  | .return _ _ => by simp only [Stmt.scopesAfter, Stmt.declared]; rfl
  | .break _ => by simp only [Stmt.scopesAfter, Stmt.declared]; rfl
  | .continue _ => by simp only [Stmt.scopesAfter, Stmt.declared]; rfl

theorem Stmt.scopesAfterOption_eq (scopes : Scopes) :
    ∀ o : Option Stmt,
      Stmt.scopesAfterOption scopes o = scopes.enterAll (Stmt.declaredOption o)
  | none => by simp only [Stmt.scopesAfterOption, Stmt.declaredOption]; rfl
  | some s => by rw [Stmt.scopesAfterOption, Stmt.declaredOption, s.scopesAfter_eq]

end

/-- The scopes of the walk in front of a statement of a body. -/
def BodyKind.tracked (kind : BodyKind) (before : List Stmt) (outer : Scopes) : Scopes :=
  if kind.isLocal then
    Scopes.enterAll ({} :: outer) (kind.params ++ before.flatMap Stmt.declared)
  else outer

/-- A declaration enters its name before the walk goes on into it, that of a variable not yet
ready. -/
def Stmt.entering (scopes : Scopes) : Stmt → Scopes
  | classDecl name _ _ => scopes.enter name.lexeme true
  | function routine => scopes.enter routine.name.lexeme true
  | var name _ => scopes.enter name.lexeme false
  | _ => scopes

/-- The scopes of the walk inside an enclosure. -/
def Enclosure.tracked (outer : Scopes) : Enclosure → Scopes
  | body kind before here =>
    if kind.isLocal then here.entering (kind.tracked before outer) else outer
  | parameters before => Scopes.enterAll ({} :: outer) before
  | heritage => outer
  | methods superclass => outer.aroundMethods superclass

namespace Path

/-- The scopes of the walk at a node. -/
def tracked : Path → Scopes
  | [] => []
  | enclosure :: outer => enclosure.tracked (tracked outer)

/-- The context of the walk at a node. -/
def context (path : Path) : Context where
  function :=
    match path.routine? with
    | some (.method name _) => if name.lexeme = "init" then .initializer else .method
    | some _ => .function
    | none => .none
  cls :=
    match path.inherits? with
    | some true => .subclass
    | some false => .plain
    | none => .none

end Path

/-- The context of the walk in a body. -/
def BodyKind.context (kind : BodyKind) (outer : Path) : Context :=
  Path.context (.body kind [] (.block []) :: outer)

namespace Scopes

variable {inner : Bindings Bool} {names : List Token}

theorem Keeps.contains (h : Keeps inner names) (name : String) :
    inner.contains name = (names.map Token.lexeme).contains name := by
  rw [Bindings.contains, h name]
  split
  · rename_i hmem
    exact (List.contains_iff_mem.2 hmem).symm
  · rename_i hmem
    simpa using hmem

theorem contains_set (inner : Bindings Bool) (own name : String) (ready : Bool) :
    (inner.set own ready).contains name = (inner.contains name || [own].contains name) := by
  unfold Bindings.contains
  rw [Bindings.get?_set]
  by_cases heq : name = own
  · simp [heq]
  · simp [heq]

theorem map_contains_openWith (scopes : Scopes) (own name : String) :
    (scopes.openWith own).map (·.contains name) =
      [own].contains name :: scopes.map (·.contains name) := by
  rw [openWith, List.map_cons, contains_set]
  rfl

end Scopes

theorem BodyKind.tracked_cons {kind : BodyKind} (hlocal : kind.isLocal = true)
    (before : List Stmt) (outer : Scopes) :
    ∃ inner, kind.tracked before outer = inner :: outer ∧
      Scopes.Keeps inner (kind.params ++ before.flatMap Stmt.declared) := by
  rw [BodyKind.tracked, if_pos hlocal]
  exact Scopes.exists_enterAll_eq outer _

theorem Stmt.entering_cons (inner : Bindings Bool) (outer : Scopes) (s : Stmt) :
    ∃ inner', s.entering (inner :: outer) = inner' :: outer ∧
      ∀ name, inner'.contains name =
        (inner.contains name || (s.ownName.map Token.lexeme).contains name) := by
  cases s with
  | classDecl own _ _ => exact ⟨_, rfl, fun name ↦ Scopes.contains_set inner own.lexeme name true⟩
  | function routine =>
    exact ⟨_, rfl, fun name ↦ Scopes.contains_set inner routine.name.lexeme name true⟩
  | var own _ => exact ⟨_, rfl, fun name ↦ Scopes.contains_set inner own.lexeme name false⟩
  | _ => exact ⟨inner, rfl, fun name ↦ (Bool.or_false _).symm⟩

/-- An enclosure opens scopes that hold its names. -/
theorem Enclosure.map_contains_tracked (outer : Scopes) (name : String) (enclosure : Enclosure) :
    (enclosure.tracked outer).map (·.contains name) =
      enclosure.scopes.map (·.contains name) ++ outer.map (·.contains name) := by
  cases enclosure with
  | body kind before here =>
    rw [Enclosure.tracked, Enclosure.scopes]
    split
    · rename_i hlocal
      obtain ⟨inner, htracked, hinner⟩ := BodyKind.tracked_cons hlocal before outer
      obtain ⟨inner', hentering, hinner'⟩ := here.entering_cons inner outer
      rw [htracked, hentering, List.map_cons, hinner' name, hinner.contains name,
        ← List.contains_append, ← List.map_append]
      rfl
    · rfl
  | parameters before =>
    obtain ⟨inner, henter, hinner⟩ := Scopes.exists_enterAll_eq outer before
    rw [Enclosure.tracked, Enclosure.scopes, henter, List.map_cons, hinner.contains name]
    rfl
  | heritage => rfl
  | methods superclass =>
    cases superclass with
    | none => exact outer.map_contains_openWith "this" name
    | some e =>
      calc ((outer.openWith "super").openWith "this").map (·.contains name)
        _ = ["this"].contains name :: (outer.openWith "super").map (·.contains name) :=
          Scopes.map_contains_openWith ..
        _ = ["this"].contains name :: ["super"].contains name :: outer.map (·.contains name) := by
          rw [outer.map_contains_openWith]

theorem Path.map_contains_tracked (path : Path) (name : String) :
    path.tracked.map (·.contains name) = path.scopes.map (·.contains name) := by
  induction path with
  | nil => rfl
  | cons enclosure outer ih =>
    calc (Path.tracked (enclosure :: outer)).map (·.contains name)
      _ = enclosure.scopes.map (·.contains name) ++ (Path.tracked outer).map (·.contains name) := by
        rw [Path.tracked, Enclosure.map_contains_tracked]
      _ = enclosure.scopes.map (·.contains name) ++ (Path.scopes outer).map (·.contains name) := by
        rw [ih]
      _ = (Path.scopes (enclosure :: outer)).map (·.contains name) := by
        simp only [Path.scopes, List.flatMap_cons, List.map_append]

/-- The walk finds a name where the scopes around the node have it. -/
theorem Path.depth?_tracked (path : Path) (name : String) :
    path.tracked.depth? name = path.depth? name := by
  have hscopes := congrArg (List.findIdx? id) (path.map_contains_tracked name)
  rw [List.findIdx?_map, List.findIdx?_map] at hscopes
  exact hscopes

section Body

variable {kind : BodyKind} {outer : Path}

/-- A body keeps its scope apart from what is around it, and outside of all scopes nothing is
kept. -/
def BodyKind.Within (kind : BodyKind) (outer : Path) : Prop :=
  kind.isLocal = true ∨ outer = []

theorem BodyKind.Within.tracked_eq (h : kind.Within outer) (hglobal : kind.isLocal ≠ true)
    (before : List Stmt) : kind.tracked before outer.tracked = [] := by
  rw [BodyKind.tracked, if_neg hglobal, h.resolve_left hglobal]
  rfl

/-- Inside a statement the walk has the scopes in front of it, with what the statement enters. -/
theorem BodyKind.Within.tracked_cons (h : kind.Within outer) (before : List Stmt) (here : Stmt) :
    Path.tracked (.body kind before here :: outer) =
      here.entering (kind.tracked before outer.tracked) := by
  rw [Path.tracked, Enclosure.tracked]
  by_cases hlocal : kind.isLocal = true
  · rw [if_pos hlocal]
  · rw [if_neg hlocal, h.tracked_eq hlocal, h.resolve_left hlocal]
    cases here with
    | _ => rfl

/-- The walk enters what a statement declares behind it. -/
theorem BodyKind.Within.scopesAfter (h : kind.Within outer) (before : List Stmt) (s : Stmt) :
    s.scopesAfter (kind.tracked before outer.tracked) =
      kind.tracked (before ++ [s]) outer.tracked := by
  rw [Stmt.scopesAfter_eq]
  by_cases hlocal : kind.isLocal = true
  · rw [BodyKind.tracked, BodyKind.tracked, if_pos hlocal, if_pos hlocal, ← Scopes.enterAll_append,
      List.append_assoc, List.flatMap_append, List.flatMap_singleton]
  · rw [h.tracked_eq hlocal, h.tracked_eq hlocal, Scopes.enterAll_nil]

theorem BodyKind.Within.clashes (h : kind.Within outer) (before : List Stmt) (here : Stmt)
    (name : String) :
    (kind.tracked before outer.tracked).clashes name =
      Path.declaresEarlier (.body kind before here :: outer) name := by
  rw [Path.declaresEarlier, Enclosure.earlier]
  by_cases hlocal : kind.isLocal = true
  · obtain ⟨inner, htracked, hinner⟩ := BodyKind.tracked_cons hlocal before outer.tracked
    rw [htracked, if_pos hlocal]
    exact hinner.contains name
  · rw [h.tracked_eq hlocal, if_neg hlocal]
    rfl

theorem clashes_parameters (before : List Token) (outer : Path) (name : String) :
    (Scopes.enterAll ({} :: outer.tracked) before).clashes name =
      Path.declaresEarlier (.parameters before :: outer) name := by
  obtain ⟨inner, henter, hinner⟩ := Scopes.exists_enterAll_eq outer.tracked before
  rw [henter]
  exact hinner.contains name

/-- Of the names of a body only that of a variable is pending, in its own declaration. -/
theorem BodyKind.Within.isPending (h : kind.Within outer) (before : List Stmt) (here : Stmt)
    (name : String) :
    (Path.tracked (.body kind before here :: outer)).isPending name =
      Path.initializes (.body kind before here :: outer) name := by
  rw [h.tracked_cons]
  by_cases hlocal : kind.isLocal = true
  · obtain ⟨inner, htracked, hinner⟩ := BodyKind.tracked_cons hlocal before outer.tracked
    have hready : decide (inner.get? name = some false) = false := by
      rw [hinner name]
      split
      · rfl
      · rfl
    have hset (own : String) : decide ((inner.set own true).get? name = some false) = false := by
      rw [Bindings.get?_set]
      split
      · rfl
      · exact hready
    rw [htracked]
    cases here with
    | classDecl own _ _ => exact hset own.lexeme
    | function routine => exact hset routine.name.lexeme
    | var own _ =>
      change decide ((inner.set own.lexeme false).get? name = some false) =
        (kind.isLocal && decide (own.lexeme = name))
      rw [Bindings.get?_set, hlocal, Bool.true_and]
      by_cases heq : name = own.lexeme
      · rw [if_pos heq, decide_eq_true heq.symm]
        rfl
      · rw [if_neg heq, hready, decide_eq_false fun h ↦ heq h.symm]
    | _ => exact hready
  · rw [h.tracked_eq hlocal]
    cases here with
    | var own _ =>
      change false = (kind.isLocal && decide (own.lexeme = name))
      rw [Bool.eq_false_iff.2 hlocal, Bool.false_and]
    | _ => rfl

end Body

/-! ### What is found at each node -/

namespace Occurrence

theorem findings_declaration (path : Path) (name : Token) :
    findings ⟨.declaration name, path⟩ =
      Finding.when (path.declaresEarlier name.lexeme) name .redeclared := by
  unfold findings violation? use?
  by_cases hearlier : path.declaresEarlier name.lexeme = true
  · simp [hearlier, Finding.when]
  · simp [hearlier, Finding.when]

theorem findings_inheritance (path : Path) (name superclass : Token) :
    findings ⟨.inheritance name superclass, path⟩ =
      Finding.when (superclass.lexeme = name.lexeme) superclass .inheritsFromItself := by
  unfold findings violation? use?
  by_cases heq : superclass.lexeme = name.lexeme
  · simp [heq, Finding.when]
  · simp [heq, Finding.when]

theorem findings_return (path : Path) (keyword : Token) (hasValue : Bool) :
    findings ⟨.return keyword hasValue, path⟩ =
      Finding.when (path.context.function = .none) keyword .topLevelReturn ++
        Finding.when (path.context.function = .initializer && hasValue) keyword
          .initializerReturnsValue := by
  unfold findings violation? use? Path.context
  cases hroutine : path.routine? with
  | none => simp [hroutine, Finding.when]
  | some kind =>
    cases kind with
    | method name params =>
      by_cases hname : name.lexeme = "init"
      · cases hasValue with
        | _ => simp [hroutine, hname, Finding.when]
      · simp [hroutine, hname, Finding.when]
    | _ => simp [hroutine, Finding.when]

theorem findings_read (path : Path) (id : NodeId) (name : Token) :
    findings ⟨.read id name, path⟩ =
      Finding.when (path.initializes name.lexeme) name .readInOwnInitializer ++
        [.use id name (path.depth? name.lexeme)] := by
  unfold findings violation? use?
  by_cases hinitializes : path.initializes name.lexeme = true
  · simp [hinitializes, Finding.when]
  · simp [hinitializes, Finding.when]

theorem findings_this (path : Path) (id : NodeId) (keyword : Token) :
    findings ⟨.this id keyword, path⟩ =
      if path.context.cls = .none then [.violation keyword .thisOutsideClass]
      else [.use id keyword (path.depth? keyword.lexeme)] := by
  unfold findings violation? use? Path.context
  cases hcls : path.inherits? with
  | none => simp [hcls]
  | some inherits =>
    cases inherits with
    | _ => simp [hcls]

theorem findings_super (path : Path) (id : NodeId) (keyword : Token) :
    findings ⟨.super id keyword, path⟩ =
      Finding.ofSuper path.context keyword ++ [.use id keyword (path.depth? keyword.lexeme)] := by
  unfold findings violation? use? Path.context Finding.ofSuper
  cases hcls : path.inherits? with
  | none => simp [hcls]
  | some inherits =>
    cases inherits with
    | _ => simp [hcls]

end Occurrence

theorem Finding.ofUse_tracked (path : Path) (id : NodeId) (name : Token) :
    Finding.ofUse path.tracked id name = .use id name (path.depth? name.lexeme) := by
  rw [Finding.ofUse, path.depth?_tracked]

/-- The walk has the name of a variable as pending in the initializer of this variable alone. -/
def Path.Steady (path : Path) : Prop :=
  ∀ name, path.tracked.isPending name = path.initializes name

mutual

theorem Expr.findings_eq_occurrences {path : Path} (h : path.Steady) :
    ∀ e : Expr, e.findings path.context path.tracked =
      (e.occurrences path).flatMap Occurrence.findings
  | .literal _ => rfl
  | .grouping inner => inner.findings_eq_occurrences h
  | .unary _ operand => operand.findings_eq_occurrences h
  | .binary _ left right => by
    rw [Expr.findings, Expr.occurrences, List.flatMap_append, left.findings_eq_occurrences h,
      right.findings_eq_occurrences h]
  | .logical _ left right => by
    rw [Expr.findings, Expr.occurrences, List.flatMap_append, left.findings_eq_occurrences h,
      right.findings_eq_occurrences h]
  | .var id name => by
    rw [Expr.findings, Expr.occurrences, List.flatMap_singleton, Occurrence.findings_read,
      h name.lexeme, Finding.ofUse_tracked]
  | .assign id name value => by
    rw [Expr.findings, Expr.occurrences, List.flatMap_append, value.findings_eq_occurrences h,
      List.flatMap_singleton, Finding.ofUse_tracked]
    rfl
  | .call callee _ arguments => by
    rw [Expr.findings, Expr.occurrences, List.flatMap_append, callee.findings_eq_occurrences h,
      Expr.findingsAll_eq_occurrences h arguments]
  | .get object _ => object.findings_eq_occurrences h
  | .set object _ value => by
    rw [Expr.findings, Expr.occurrences, List.flatMap_append, value.findings_eq_occurrences h,
      object.findings_eq_occurrences h]
  | .this id keyword => by
    rw [Expr.findings, Expr.occurrences, List.flatMap_singleton, Occurrence.findings_this,
      Finding.ofUse_tracked]
  | .super id keyword _ => by
    rw [Expr.findings, Expr.occurrences, List.flatMap_singleton, Occurrence.findings_super,
      Finding.ofUse_tracked]

theorem Expr.findingsAll_eq_occurrences {path : Path} (h : path.Steady) :
    ∀ es : List Expr, Expr.findingsAll path.context path.tracked es =
      (Expr.occurrencesAll path es).flatMap Occurrence.findings
  | [] => rfl
  | e :: rest => by
    rw [Expr.findingsAll, Expr.occurrencesAll, List.flatMap_append, e.findings_eq_occurrences h,
      Expr.findingsAll_eq_occurrences h rest]

end

theorem Expr.findingsOption_eq_occurrences {path : Path} (h : path.Steady) (o : Option Expr) :
    Expr.findingsOption path.context path.tracked o =
      (Expr.occurrencesOption path o).flatMap Occurrence.findings := by
  cases o with
  | none => rfl
  | some e => exact e.findings_eq_occurrences h

theorem Finding.ofParameters_eq_occurrences (outer : Path) (before params : List Token) :
    Finding.ofParameters (Scopes.enterAll ({} :: outer.tracked) before) params =
      ((Occurrence.ofParameters outer before params).flatMap Occurrence.findings,
        Scopes.enterAll ({} :: outer.tracked) (before ++ params)) := by
  induction params generalizing before with
  | nil => rw [List.append_nil]; rfl
  | cons param rest ih =>
    have hnext : (Scopes.enterAll ({} :: outer.tracked) before).enter param.lexeme true =
        Scopes.enterAll ({} :: outer.tracked) (before ++ [param]) := by
      rw [Scopes.enterAll_append]
      rfl
    rw [Finding.ofParameters, hnext, ih, Occurrence.ofParameters, List.flatMap_cons,
      Occurrence.findings_declaration, ← clashes_parameters, List.append_assoc]
    rfl

/-! ### The walk over statements -/

theorem BodyKind.Within.steady {kind : BodyKind} {outer : Path} (h : kind.Within outer)
    (before : List Stmt) (here : Stmt) : Path.Steady (.body kind before here :: outer) :=
  h.isPending before here

/-- The name of a class is ready where its superclass is read. -/
theorem BodyKind.Within.steady_heritage {kind : BodyKind} {outer : Path} (h : kind.Within outer)
    (before : List Stmt) (name : Token) (superclass : Option Expr)
    (methods : List (Routine Stmt)) :
    Path.Steady (.heritage :: .body kind before (.classDecl name superclass methods) :: outer) :=
  h.isPending before (.classDecl name superclass methods)

theorem Expr.findingsHeritage_eq_occurrences {path : Path} (h : Path.Steady (.heritage :: path))
    (name : Token) (e : Expr) :
    Finding.ofSuperclass name e ++ e.findings (Path.context (.heritage :: path)) path.tracked =
      (Expr.occurrencesHeritage path name (some e)).flatMap Occurrence.findings := by
  have he := e.findings_eq_occurrences h
  rw [Path.tracked, Enclosure.tracked] at he
  rw [he]
  cases e with
  | var id superclass =>
    rw [Expr.occurrencesHeritage, List.flatMap_cons, Occurrence.findings_inheritance]
    rfl
  | _ => rfl

mutual

/-- What the walk finds in a statement of a body is what there is to find at its nodes. -/
theorem Stmt.findings_eq_occurrences :
    ∀ (s : Stmt) {kind : BodyKind} (before : List Stmt) {outer : Path}, kind.Within outer →
      s.findings (kind.context outer) (kind.tracked before outer.tracked) =
        (s.occurrences kind before outer).flatMap Occurrence.findings
  | .block body, kind, before, outer, h => by
    have hblock : BodyKind.block.Within (.body kind before (.block body) :: outer) := .inl rfl
    rw [Stmt.findings, Stmt.occurrences, ← Stmt.findingsAll_eq_occurrences body [] hblock,
      h.tracked_cons]
    rfl
  | .classDecl name superclass methods, kind, before, outer, h => by
    simp only [Stmt.findings, Stmt.occurrences]
    have htracked := h.tracked_cons before (.classDecl name superclass methods)
    have hmethods := Stmt.findingsMethods_eq_occurrences methods
      (.methods superclass :: .body kind before (.classDecl name superclass methods) :: outer)
    rw [List.flatMap_cons, List.flatMap_append, Occurrence.findings_declaration,
      ← h.clashes, ← hmethods, Path.tracked, Enclosure.tracked, htracked]
    cases superclass with
    | none =>
      rw [List.append_nil]
      rfl
    | some e =>
      rw [← Expr.findingsHeritage_eq_occurrences (h.steady_heritage before name _ methods),
        htracked, List.append_assoc]
      rfl
  | .expression e, kind, before, outer, h => by
    rw [Stmt.findings, Stmt.occurrences, ← e.findings_eq_occurrences (h.steady _ _), h.tracked_cons]
    rfl
  | .function routine, kind, before, outer, h => by
    rw [Stmt.findings, Stmt.occurrences]
    have htracked := h.tracked_cons before (.function routine)
    rw [List.flatMap_cons, Occurrence.findings_declaration, ← h.clashes,
      ← Stmt.findingsRoutine_eq_occurrences routine .function _ (fun _ _ ↦ ⟨rfl, rfl⟩), htracked]
    rfl
  | .ifElse condition thenBranch elseBranch, kind, before, outer, h => by
    have hcondition := condition.findings_eq_occurrences
      (h.steady before (.ifElse condition thenBranch elseBranch))
    have hthen := thenBranch.findings_eq_occurrences before h
    have helse := Stmt.findingsOption_eq_occurrences elseBranch (before ++ [thenBranch]) h
    rw [Stmt.findings, Stmt.occurrences, List.flatMap_append, List.flatMap_append, ← hcondition,
      ← hthen, ← helse, h.scopesAfter, h.tracked_cons]
    rfl
  | .print e, kind, before, outer, h => by
    rw [Stmt.findings, Stmt.occurrences, ← e.findings_eq_occurrences (h.steady _ _), h.tracked_cons]
    rfl
  | .return keyword value, kind, before, outer, h => by
    rw [Stmt.findings, Stmt.occurrences]
    rw [List.flatMap_cons, Occurrence.findings_return,
      ← Expr.findingsOption_eq_occurrences (h.steady _ _), h.tracked_cons]
    rfl
  | .var name initializer, kind, before, outer, h => by
    rw [Stmt.findings, Stmt.occurrences]
    rw [List.flatMap_cons, Occurrence.findings_declaration, ← h.clashes,
      ← Expr.findingsOption_eq_occurrences (h.steady _ _), h.tracked_cons]
    rfl
  | .while condition body, kind, before, outer, h => by
    have hcondition := condition.findings_eq_occurrences (h.steady before (.while condition body))
    have hbody := body.findings_eq_occurrences before h
    rw [Stmt.findings, Stmt.occurrences, List.flatMap_append, ← hcondition, ← hbody, h.tracked_cons]
    rfl
  | .break _, _, _, _, _ => by simp only [Stmt.findings, Stmt.occurrences, List.flatMap_nil]
  | .continue _, _, _, _, _ => by simp only [Stmt.findings, Stmt.occurrences, List.flatMap_nil]

theorem Stmt.findingsAll_eq_occurrences :
    ∀ (ss : List Stmt) {kind : BodyKind} (before : List Stmt) {outer : Path}, kind.Within outer →
      Stmt.findingsAll (kind.context outer) (kind.tracked before outer.tracked) ss =
        (Stmt.occurrencesAll kind before outer ss).flatMap Occurrence.findings
  | [], _, _, _, _ => by simp only [Stmt.findingsAll, Stmt.occurrencesAll, List.flatMap_nil]
  | s :: rest, kind, before, outer, h => by
    have hs := s.findings_eq_occurrences before h
    have hrest := Stmt.findingsAll_eq_occurrences rest (before ++ [s]) h
    rw [Stmt.findingsAll, Stmt.occurrencesAll, List.flatMap_append, ← hs, ← hrest, h.scopesAfter]

theorem Stmt.findingsOption_eq_occurrences :
    ∀ (o : Option Stmt) {kind : BodyKind} (before : List Stmt) {outer : Path}, kind.Within outer →
      Stmt.findingsOption (kind.context outer) (kind.tracked before outer.tracked) o =
        (Stmt.occurrencesOption kind before outer o).flatMap Occurrence.findings
  | none, _, _, _, _ => by
    simp only [Stmt.findingsOption, Stmt.occurrencesOption, List.flatMap_nil]
  | some s, kind, before, outer, h => by
    rw [Stmt.findingsOption, Stmt.occurrencesOption, s.findings_eq_occurrences before h]

theorem Stmt.findingsRoutine_eq_occurrences :
    ∀ (routine : Routine Stmt) (kind : Token → List Token → BodyKind) (outer : Path),
      (∀ name params, (kind name params).isLocal = true ∧ (kind name params).params = params) →
      Stmt.findingsRoutine ((kind routine.name routine.params).context outer) outer.tracked
          routine =
        (Stmt.occurrencesRoutine kind outer routine).flatMap Occurrence.findings
  | ⟨name, params, body⟩, kind, outer, h => by
    obtain ⟨hlocal, hparams⟩ := h name params
    rw [Stmt.findingsRoutine, Stmt.occurrencesRoutine, List.flatMap_append,
      ← Stmt.findingsAll_eq_occurrences body [] (.inl hlocal)]
    have hfound := Finding.ofParameters_eq_occurrences outer [] params
    rw [Scopes.enterAll, List.foldl_nil] at hfound
    rw [hfound, BodyKind.tracked, if_pos hlocal, hparams, List.flatMap_nil, List.append_nil]
    rfl

theorem Stmt.findingsMethods_eq_occurrences :
    ∀ (methods : List (Routine Stmt)) (outer : Path),
      Stmt.findingsMethods outer.context outer.tracked methods =
        (Stmt.occurrencesMethods outer methods).flatMap Occurrence.findings
  | [], _ => by simp only [Stmt.findingsMethods, Stmt.occurrencesMethods, List.flatMap_nil]
  | method :: rest, outer => by
    rw [Stmt.findingsMethods, Stmt.occurrencesMethods, List.flatMap_append,
      ← Stmt.findingsRoutine_eq_occurrences method .method outer (fun _ _ ↦ ⟨rfl, rfl⟩),
      ← Stmt.findingsMethods_eq_occurrences rest outer]
    rfl

end

/-- What resolution finds is what there is to find at each node of the program, in the order of the
walk. -/
theorem resolve_eq_occurrences (program : List Stmt) :
    resolve program = (occurrences program).flatMap Occurrence.findings := by
  have hprogram : BodyKind.program.Within [] := .inr rfl
  exact Stmt.findingsAll_eq_occurrences program [] hprogram

end Lox
