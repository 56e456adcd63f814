import Lox.Proofs.Resolution.Walk

/-!
# Broken rules

The static rules, each by the position of a node in the program, and that resolution reports exactly
the nodes that break one.
-/

namespace Lox

namespace Occurrence

/-- A node breaks a static rule, which is reported at a token. -/
inductive Breaks : Occurrence → Token → StaticFault → Prop
  /-- A `return` with no function around it. -/
  | topLevelReturn {keyword : Token} {hasValue : Bool} {path : Path}
      (hroutine : ∀ enclosure ∈ path, enclosure.routine? = none) :
      Breaks ⟨.return keyword hasValue, path⟩ keyword .topLevelReturn
  /-- A `return` with a value whose innermost function is a method of the name `init`. -/
  | initializerReturnsValue {keyword name : Token} {params : List Token} {path : Path}
      (hroutine : path.routine? = some (.method name params)) (hname : name.lexeme = "init") :
      Breaks ⟨.return keyword true, path⟩ keyword .initializerReturnsValue
  /-- A `this` with no class around it. -/
  | thisOutsideClass {id : NodeId} {keyword : Token} {path : Path}
      (hclass : ∀ enclosure ∈ path, enclosure.inherits? = none) :
      Breaks ⟨.this id keyword, path⟩ keyword .thisOutsideClass
  /-- A `super` with no class around it. -/
  | superOutsideClass {id : NodeId} {keyword : Token} {path : Path}
      (hclass : ∀ enclosure ∈ path, enclosure.inherits? = none) :
      Breaks ⟨.super id keyword, path⟩ keyword .superOutsideClass
  /-- A `super` whose innermost class has no superclass. -/
  | superWithoutSuperclass {id : NodeId} {keyword : Token} {path : Path}
      (hclass : path.inherits? = some false) :
      Breaks ⟨.super id keyword, path⟩ keyword .superWithoutSuperclass
  /-- A declaration in a scope that has one of the same name. -/
  | redeclared {name : Token} {enclosure : Enclosure} {outer : Path}
      (hearlier : name.lexeme ∈ enclosure.earlier.map Token.lexeme) :
      Breaks ⟨.declaration name, enclosure :: outer⟩ name .redeclared
  /-- A read in the initializer of the local variable of the same name. -/
  | readInOwnInitializer {id : NodeId} {name own : Token} {kind : BodyKind} {before : List Stmt}
      {initializer : Option Expr} {outer : Path} (hlocal : kind ≠ .program)
      (hname : own.lexeme = name.lexeme) :
      Breaks ⟨.read id name, .body kind before (.var own initializer) :: outer⟩ name
        .readInOwnInitializer
  /-- A class that names itself as its superclass. -/
  | inheritsFromItself {name superclass : Token} {path : Path}
      (hname : superclass.lexeme = name.lexeme) :
      Breaks ⟨.inheritance name superclass, path⟩ superclass .inheritsFromItself

end Occurrence

theorem BodyKind.isLocal_iff {kind : BodyKind} : kind.isLocal = true ↔ kind ≠ .program := by
  cases kind with
  | _ => simp [BodyKind.isLocal]

theorem Path.declaresEarlier_iff {path : Path} {name : String} :
    path.declaresEarlier name = true ↔
      ∃ enclosure outer, path = enclosure :: outer ∧
        name ∈ enclosure.earlier.map Token.lexeme := by
  cases path with
  | nil => simp [Path.declaresEarlier]
  | cons enclosure outer =>
    rw [Path.declaresEarlier, List.contains_iff_mem]
    constructor
    · intro hmem
      exact ⟨enclosure, outer, rfl, hmem⟩
    · rintro ⟨_, _, heq, hmem⟩
      cases heq
      exact hmem

theorem Path.initializes_iff {path : Path} {name : String} :
    path.initializes name = true ↔
      ∃ kind before own initializer outer,
        path = .body kind before (.var own initializer) :: outer ∧
          kind ≠ .program ∧ own.lexeme = name := by
  constructor
  · intro h
    unfold Path.initializes at h
    split at h
    · rw [Bool.and_eq_true, BodyKind.isLocal_iff, decide_eq_true_eq] at h
      exact ⟨_, _, _, _, _, rfl, h⟩
    · cases h
  · rintro ⟨kind, before, own, initializer, outer, rfl, hlocal, hname⟩
    rw [Path.initializes, BodyKind.isLocal_iff.2 hlocal, decide_eq_true hname]
    rfl

namespace Occurrence

/-- What is decided at a node is whether it breaks a rule. -/
theorem violation?_eq_some_iff {o : Occurrence} {token : Token} {fault : StaticFault} :
    o.violation? = some (token, fault) ↔ o.Breaks token fault := by
  constructor
  · obtain ⟨node, path⟩ := o
    intro h
    cases node with
    | declaration name =>
      obtain ⟨hearlier, heq⟩ := Option.ite_none_right_eq_some.1 h
      obtain ⟨enclosure, outer, rfl, hmem⟩ := Path.declaresEarlier_iff.1 hearlier
      cases heq
      exact .redeclared hmem
    | inheritance name superclass =>
      obtain ⟨hname, heq⟩ := Option.ite_none_right_eq_some.1 h
      cases heq
      exact .inheritsFromItself hname
    | «return» keyword hasValue =>
      rw [violation?] at h
      split at h
      · rename_i hroutine
        cases h
        exact .topLevelReturn (List.findSome?_eq_none_iff.1 hroutine)
      · rename_i hroutine
        obtain ⟨hinit, heq⟩ := Option.ite_none_right_eq_some.1 h
        obtain ⟨hname, rfl⟩ := (Bool.and_eq_true _ _).mp hinit
        cases heq
        exact .initializerReturnsValue hroutine (of_decide_eq_true hname)
      · cases h
    | read id name =>
      obtain ⟨hinitializes, heq⟩ := Option.ite_none_right_eq_some.1 h
      obtain ⟨kind, before, own, initializer, outer, rfl, hlocal, hname⟩ :=
        Path.initializes_iff.1 hinitializes
      cases heq
      exact .readInOwnInitializer hlocal hname
    | assign id name => cases h
    | this id keyword =>
      obtain ⟨hclass, heq⟩ := Option.ite_none_right_eq_some.1 h
      cases heq
      exact .thisOutsideClass (List.findSome?_eq_none_iff.1 hclass)
    | super id keyword =>
      rw [violation?] at h
      split at h
      · rename_i hclass
        cases h
        exact .superOutsideClass (List.findSome?_eq_none_iff.1 hclass)
      · rename_i hclass
        cases h
        exact .superWithoutSuperclass hclass
      · cases h
  · intro h
    cases h with
    | topLevelReturn hroutine =>
      rw [violation?, Path.routine?, List.findSome?_eq_none_iff.2 hroutine]
    | initializerReturnsValue hroutine hname =>
      rw [violation?, hroutine]
      exact if_pos (by rw [decide_eq_true hname]; rfl)
    | thisOutsideClass hclass =>
      rw [violation?, Path.inherits?, List.findSome?_eq_none_iff.2 hclass, if_pos rfl]
    | superOutsideClass hclass =>
      rw [violation?, Path.inherits?, List.findSome?_eq_none_iff.2 hclass]
    | superWithoutSuperclass hclass => rw [violation?, hclass]
    | redeclared hearlier =>
      rw [violation?, if_pos (Path.declaresEarlier_iff.2 ⟨_, _, rfl, hearlier⟩)]
    | readInOwnInitializer hlocal hname =>
      rw [violation?, if_pos (Path.initializes_iff.2 ⟨_, _, _, _, _, rfl, hlocal, hname⟩)]
    | inheritsFromItself hname => rw [violation?, if_pos hname]

/-- The report about a node that breaks a rule. -/
def diagnostic? (o : Occurrence) : Option Diagnostic :=
  o.violation?.map fun broken ↦ .static broken.1 broken.2

theorem diagnostic?_eq_some_iff {o : Occurrence} {d : Diagnostic} :
    o.diagnostic? = some d ↔ ∃ token fault, d = .static token fault ∧ o.Breaks token fault := by
  rw [diagnostic?, Option.map_eq_some_iff]
  constructor
  · rintro ⟨⟨token, fault⟩, hbroken, rfl⟩
    exact ⟨token, fault, rfl, violation?_eq_some_iff.1 hbroken⟩
  · rintro ⟨token, fault, rfl, hbreaks⟩
    exact ⟨(token, fault), violation?_eq_some_iff.2 hbreaks, rfl⟩

theorem filterMap_violation?_findings (o : Occurrence) :
    o.findings.filterMap Finding.violation? = o.diagnostic?.toList := by
  have huse (used : Option (NodeId × Token)) :
      (used.map fun used ↦ Finding.use used.1 used.2 (o.path.depth? used.2.lexeme)).toList.filterMap
        Finding.violation? = [] := by
    cases used with
    | _ => rfl
  rw [findings, List.filterMap_append, huse, List.append_nil, diagnostic?]
  cases o.violation? with
  | _ => rfl

end Occurrence

/-- Resolution reports exactly the broken rules, one report for each node that breaks one, in the
order of the walk.  What breaks a rule is told by the position of a node alone.  So there is nothing
to report if and only if no node breaks a rule. -/
theorem violations_resolve (program : List Stmt) :
    (resolve program).filterMap Finding.violation? =
        (occurrences program).filterMap Occurrence.diagnostic? ∧
      (∀ (o : Occurrence) (d : Diagnostic),
        o.diagnostic? = some d ↔ ∃ token fault, d = .static token fault ∧ o.Breaks token fault) ∧
      ((resolve program).filterMap Finding.violation? = [] ↔
        ∀ o ∈ occurrences program, ∀ token fault, ¬o.Breaks token fault) := by
  have hreported : (resolve program).filterMap Finding.violation? =
      (occurrences program).filterMap Occurrence.diagnostic? := by
    rw [resolve_eq_occurrences, List.filterMap_flatMap, List.filterMap_eq_flatMap_toList]
    simp only [Occurrence.filterMap_violation?_findings]
  refine ⟨hreported, fun o d ↦ Occurrence.diagnostic?_eq_some_iff, ?_⟩
  rw [hreported, List.filterMap_eq_nil_iff]
  constructor
  · intro hnone o ho token fault hbreaks
    have hsome := Occurrence.diagnostic?_eq_some_iff.2 ⟨token, fault, rfl, hbreaks⟩
    rw [hnone o ho] at hsome
    cases hsome
  · intro hquiet o ho
    cases hd : o.diagnostic? with
    | none => rfl
    | some d =>
      obtain ⟨token, fault, -, hbreaks⟩ := Occurrence.diagnostic?_eq_some_iff.1 hd
      exact absurd hbreaks (hquiet o ho token fault)

end Lox
