import Lox.Proofs.Machine.Recording
import Lox.Proofs.Parser.Identifiers
import Lox.Proofs.Resolution.Walk
import Mathlib.Data.List.Pairwise

/-!
# Lexical addresses

The depth that is recorded for a node is its lexical address: the number of scopes between the node
and the first one that holds its name, where a scope holds what has been declared in it up to the
node and nothing else.
-/

namespace Lox

/-- The identifier of a node that refers to a variable. -/
def Occurrence.id? : Occurrence → Option NodeId
  | ⟨.read id _, _⟩ => some id
  | ⟨.assign id _, _⟩ => some id
  | ⟨.this id _, _⟩ => some id
  | ⟨.super id _, _⟩ => some id
  | _ => none

mutual

theorem Expr.filterMap_id?_occurrences (path : Path) :
    ∀ e : Expr, (e.occurrences path).filterMap Occurrence.id? = e.ids
  | .literal _ => rfl
  | .grouping inner => inner.filterMap_id?_occurrences path
  | .unary _ operand => operand.filterMap_id?_occurrences path
  | .binary _ left right => by
    rw [Expr.occurrences, Expr.ids, List.filterMap_append, left.filterMap_id?_occurrences,
      right.filterMap_id?_occurrences]
  | .logical _ left right => by
    rw [Expr.occurrences, Expr.ids, List.filterMap_append, left.filterMap_id?_occurrences,
      right.filterMap_id?_occurrences]
  | .var _ _ => rfl
  | .assign _ _ value => by
    rw [Expr.occurrences, Expr.ids, List.filterMap_append, value.filterMap_id?_occurrences]
    rfl
  | .call callee _ arguments => by
    rw [Expr.occurrences, Expr.ids, List.filterMap_append, callee.filterMap_id?_occurrences,
      Expr.filterMap_id?_occurrencesAll path arguments]
  | .get object _ => object.filterMap_id?_occurrences path
  | .set object _ value => by
    rw [Expr.occurrences, Expr.ids, List.filterMap_append, value.filterMap_id?_occurrences,
      object.filterMap_id?_occurrences]
  | .this _ _ => rfl
  | .super _ _ _ => rfl

theorem Expr.filterMap_id?_occurrencesAll (path : Path) :
    ∀ es : List Expr, (Expr.occurrencesAll path es).filterMap Occurrence.id? = Expr.idsAll es
  | [] => rfl
  | e :: rest => by
    rw [Expr.occurrencesAll, Expr.idsAll, List.filterMap_append, e.filterMap_id?_occurrences,
      Expr.filterMap_id?_occurrencesAll path rest]

end

theorem Expr.filterMap_id?_occurrencesOption (path : Path) (o : Option Expr) :
    (Expr.occurrencesOption path o).filterMap Occurrence.id? = Expr.idsOption o := by
  cases o with
  | none => rfl
  | some e => exact e.filterMap_id?_occurrences path

theorem Expr.filterMap_id?_occurrencesHeritage (path : Path) (name : Token) (o : Option Expr) :
    (Expr.occurrencesHeritage path name o).filterMap Occurrence.id? = Expr.idsOption o := by
  cases o with
  | none => rfl
  | some e =>
    cases e with
    | var id superclass => rfl
    | _ => exact Expr.filterMap_id?_occurrences (.heritage :: path) _

theorem Occurrence.filterMap_id?_ofParameters (outer : Path) (before params : List Token) :
    (Occurrence.ofParameters outer before params).filterMap Occurrence.id? = [] := by
  induction params generalizing before with
  | nil => rfl
  | cons param rest ih => exact ih (before ++ [param])

mutual

theorem Stmt.filterMap_id?_occurrences :
    ∀ (s : Stmt) (kind : BodyKind) (before : List Stmt) (outer : Path),
      (s.occurrences kind before outer).filterMap Occurrence.id? = s.ids
  | .block body, _, _, _ => by
    rw [Stmt.occurrences, Stmt.ids, Stmt.filterMap_id?_occurrencesAll body]
  | .classDecl name superclass methods, _, _, _ => by
    rw [Stmt.occurrences, Stmt.ids, List.filterMap_cons_none rfl, List.filterMap_append,
      Expr.filterMap_id?_occurrencesHeritage, Stmt.filterMap_id?_occurrencesMethods methods]
  | .expression e, _, _, _ => by
    rw [Stmt.occurrences, Stmt.ids, e.filterMap_id?_occurrences]
  | .function routine, _, _, _ => by
    rw [Stmt.occurrences, Stmt.ids, List.filterMap_cons_none rfl,
      Stmt.filterMap_id?_occurrencesRoutine routine]
  | .ifElse condition thenBranch elseBranch, _, _, _ => by
    rw [Stmt.occurrences, Stmt.ids, List.filterMap_append, List.filterMap_append,
      condition.filterMap_id?_occurrences, thenBranch.filterMap_id?_occurrences,
      Stmt.filterMap_id?_occurrencesOption elseBranch]
  | .print e, _, _, _ => by
    rw [Stmt.occurrences, Stmt.ids, e.filterMap_id?_occurrences]
  | .return _ value, _, _, _ => by
    rw [Stmt.occurrences, Stmt.ids, List.filterMap_cons_none rfl,
      Expr.filterMap_id?_occurrencesOption]
  | .var _ initializer, _, _, _ => by
    rw [Stmt.occurrences, Stmt.ids, List.filterMap_cons_none rfl,
      Expr.filterMap_id?_occurrencesOption]
  | .while condition body, _, _, _ => by
    rw [Stmt.occurrences, Stmt.ids, List.filterMap_append, condition.filterMap_id?_occurrences,
      body.filterMap_id?_occurrences]
  | .break _, _, _, _ => by rw [Stmt.occurrences, Stmt.ids, List.filterMap_nil]
  | .continue _, _, _, _ => by rw [Stmt.occurrences, Stmt.ids, List.filterMap_nil]

theorem Stmt.filterMap_id?_occurrencesAll :
    ∀ (ss : List Stmt) (kind : BodyKind) (before : List Stmt) (outer : Path),
      (Stmt.occurrencesAll kind before outer ss).filterMap Occurrence.id? = Stmt.idsAll ss
  | [], _, _, _ => by rw [Stmt.occurrencesAll, Stmt.idsAll, List.filterMap_nil]
  | s :: rest, _, _, _ => by
    rw [Stmt.occurrencesAll, Stmt.idsAll, List.filterMap_append, s.filterMap_id?_occurrences,
      Stmt.filterMap_id?_occurrencesAll rest]

theorem Stmt.filterMap_id?_occurrencesOption :
    ∀ (o : Option Stmt) (kind : BodyKind) (before : List Stmt) (outer : Path),
      (Stmt.occurrencesOption kind before outer o).filterMap Occurrence.id? = Stmt.idsOption o
  | none, _, _, _ => by rw [Stmt.occurrencesOption, Stmt.idsOption, List.filterMap_nil]
  | some s, _, _, _ => by
    rw [Stmt.occurrencesOption, Stmt.idsOption, s.filterMap_id?_occurrences]

theorem Stmt.filterMap_id?_occurrencesRoutine :
    ∀ (routine : Routine Stmt) (kind : Token → List Token → BodyKind) (outer : Path),
      (Stmt.occurrencesRoutine kind outer routine).filterMap Occurrence.id? =
        Stmt.idsRoutine routine
  | ⟨_, _, body⟩, _, _ => by
    rw [Stmt.occurrencesRoutine, Stmt.idsRoutine, List.filterMap_append,
      Occurrence.filterMap_id?_ofParameters, List.nil_append,
      Stmt.filterMap_id?_occurrencesAll body]

theorem Stmt.filterMap_id?_occurrencesMethods :
    ∀ (methods : List (Routine Stmt)) (outer : Path),
      (Stmt.occurrencesMethods outer methods).filterMap Occurrence.id? = Stmt.idsMethods methods
  | [], _ => by rw [Stmt.occurrencesMethods, Stmt.idsMethods, List.filterMap_nil]
  | method :: rest, _ => by
    rw [Stmt.occurrencesMethods, Stmt.idsMethods, List.filterMap_append,
      Stmt.filterMap_id?_occurrencesRoutine method, Stmt.filterMap_id?_occurrencesMethods rest]

end

/-- Every node of a program that refers to a variable occurs once. -/
theorem filterMap_id?_occurrences (program : List Stmt) :
    (occurrences program).filterMap Occurrence.id? = Stmt.idsAll program :=
  Stmt.filterMap_id?_occurrencesAll program .program [] []

theorem eq_of_id?_eq {program : List Stmt} (hnodup : (Stmt.idsAll program).Nodup)
    {o o' : Occurrence} (ho : o ∈ occurrences program) (ho' : o' ∈ occurrences program)
    {id : NodeId} (hid : o.id? = some id) (hid' : o'.id? = some id) : o = o' := by
  rw [← filterMap_id?_occurrences, List.Nodup, List.pairwise_filterMap] at hnodup
  let R (a b : Occurrence) : Prop := a.id? = some id → b.id? = some id → a = b
  have hpairwise : (occurrences program).Pairwise R :=
    hnodup.imp fun hne ha hb ↦ absurd rfl (hne id ha id hb)
  have hsymm : Std.Symm R := ⟨fun a b hab hb ha ↦ (hab ha hb).symm⟩
  have hsame : ∀ a ∈ occurrences program, R a a := fun a _ _ _ ↦ rfl
  exact hpairwise.forall_of_forall hsame ho ho' hid hid'

/-- A node whose name is looked up: it reads or assigns a variable, or is a `super`, or a `this`
with a class around it. -/
inductive Occurrence.Uses : Occurrence → NodeId → Token → Prop
  | read {id : NodeId} {name : Token} {path : Path} : Uses ⟨.read id name, path⟩ id name
  | assign {id : NodeId} {name : Token} {path : Path} : Uses ⟨.assign id name, path⟩ id name
  | super {id : NodeId} {keyword : Token} {path : Path} : Uses ⟨.super id keyword, path⟩ id keyword
  | this {id : NodeId} {keyword : Token} {path : Path} {enclosure : Enclosure}
      (henclosure : enclosure ∈ path) (hclass : enclosure.inherits? ≠ none) :
      Uses ⟨.this id keyword, path⟩ id keyword

/-- Counting outwards from a node, a scope is the first one that holds a name. -/
def Path.FirstHolding (path : Path) (name : String) (depth : Nat) : Prop :=
  ∃ inner names outer, path.scopes = inner ++ names :: outer ∧ inner.length = depth ∧
    name ∈ names ∧ ∀ closer ∈ inner, name ∉ closer

theorem Occurrence.use?_eq_some_iff {o : Occurrence} {id : NodeId} {name : Token} :
    o.use? = some (id, name) ↔ o.Uses id name := by
  constructor
  · intro h
    unfold Occurrence.use? at h
    split at h
    · cases h
      exact .read
    · cases h
      exact .assign
    · obtain ⟨hclass, heq⟩ := Option.ite_none_left_eq_some.1 h
      cases heq
      obtain ⟨inherits, hinherits⟩ := Option.ne_none_iff_exists'.1 hclass
      obtain ⟨enclosure, henclosure, hsome⟩ := List.exists_of_findSome?_eq_some hinherits
      exact .this henclosure (hsome ▸ nofun)
    · cases h
      exact .super
    · cases h
  · intro h
    cases h with
    | read => rfl
    | assign => rfl
    | super => rfl
    | this henclosure hclass =>
      rw [Occurrence.use?, if_neg]
      intro hnone
      exact hclass (List.findSome?_eq_none_iff.1 hnone _ henclosure)

theorem Occurrence.Uses.id?_eq {o : Occurrence} {id : NodeId} {name : Token}
    (h : o.Uses id name) : o.id? = some id := by
  cases h with
  | _ => rfl

theorem Path.depth?_eq_none_iff {path : Path} {name : String} :
    path.depth? name = none ↔ ∀ names ∈ path.scopes, name ∉ names := by
  rw [Path.depth?, List.findIdx?_eq_none_iff]
  simp

theorem Path.depth?_eq_some_iff {path : Path} {name : String} {depth : Nat} :
    path.depth? name = some depth ↔ path.FirstHolding name depth := by
  unfold Path.depth? Path.FirstHolding
  generalize path.scopes = scopes
  induction scopes generalizing depth with
  | nil => simp
  | cons names outer ih =>
    rw [List.findIdx?_cons]
    by_cases hmem : name ∈ names
    · rw [if_pos (List.contains_iff_mem.2 hmem), Option.some_inj]
      constructor
      · rintro rfl
        exact ⟨[], names, outer, rfl, rfl, hmem, List.forall_mem_nil _⟩
      · rintro ⟨inner, _, _, hscopes, rfl, -, hcloser⟩
        cases inner with
        | nil => rfl
        | cons closest inner =>
          cases hscopes
          exact absurd hmem (hcloser _ List.mem_cons_self)
    · rw [if_neg fun h ↦ hmem (List.contains_iff_mem.1 h), Option.map_eq_some_iff]
      constructor
      · rintro ⟨d, hd, rfl⟩
        obtain ⟨inner, found, rest, rfl, rfl, hfound, hcloser⟩ := ih.1 hd
        exact ⟨names :: inner, found, rest, rfl, rfl, hfound,
          List.forall_mem_cons.2 ⟨hmem, hcloser⟩⟩
      · rintro ⟨inner, found, rest, hscopes, rfl, hfound, hcloser⟩
        cases inner with
        | nil =>
          cases hscopes
          exact absurd hfound hmem
        | cons closest inner =>
          cases hscopes
          exact ⟨inner.length, ih.2 ⟨inner, found, rest, rfl, rfl, hfound,
            (List.forall_mem_cons.1 hcloser).2⟩, rfl⟩

/-! ### What is recorded -/

/-- A depth is found at a use, as far outwards as its name is first held. -/
theorem Occurrence.uses_of_address? {o : Occurrence} {f : Finding} (hf : f ∈ o.findings)
    {id : NodeId} {depth : Nat} (haddress : f.address? = some (id, depth)) :
    ∃ name, o.Uses id name ∧ o.path.depth? name.lexeme = some depth := by
  rcases List.mem_append.1 hf with hviolation | huse
  · rw [Option.mem_toList, Option.map_eq_some_iff] at hviolation
    obtain ⟨broken, -, rfl⟩ := hviolation
    cases haddress
  · rw [Option.mem_toList, Option.map_eq_some_iff] at huse
    obtain ⟨⟨id', name⟩, huse, rfl⟩ := huse
    cases hdepth : o.path.depth? name.lexeme with
    | none =>
      rw [hdepth] at haddress
      cases haddress
    | some depth' =>
      rw [hdepth] at haddress
      cases haddress
      exact ⟨name, use?_eq_some_iff.1 huse, hdepth⟩

/-- For a use the depth of its name is recorded, if nothing was recorded for the program before. -/
theorem getElem?_record_resolve {m : Machine} {program : List Stmt}
    (hnodup : (Stmt.idsAll program).Nodup)
    (hnew : ∀ id ∈ Stmt.idsAll program, m.addresses[id]? = none) {o : Occurrence}
    (ho : o ∈ occurrences program) {id : NodeId} {name : Token}
    (huses : o.Uses id name) :
    (m.record (resolve program)).addresses[id]? = o.path.depth? name.lexeme := by
  have hmem : id ∈ Stmt.idsAll program := by
    rw [← filterMap_id?_occurrences]
    exact List.mem_filterMap.2 ⟨o, ho, huses.id?_eq⟩
  -- All that is found for the identifier is found at this one node.
  have hfound : ∀ depth, (m.record (resolve program)).addresses[id]? = some depth →
      o.path.depth? name.lexeme = some depth := by
    intro depth hdepth
    rcases Machine.exists_of_getElem?_record hdepth with ⟨f, hf, haddress⟩ | hold
    · rw [resolve_eq_occurrences] at hf
      obtain ⟨o', ho', hf⟩ := List.mem_flatMap.1 hf
      obtain ⟨name', huses', hdepth'⟩ := Occurrence.uses_of_address? hf haddress
      have heq := eq_of_id?_eq hnodup ho' ho huses'.id?_eq huses.id?_eq
      subst heq
      rw [← Occurrence.use?_eq_some_iff] at huses huses'
      rw [huses] at huses'
      cases huses'
      exact hdepth'
    · rw [hnew id hmem] at hold
      cases hold
  cases hdepth : o.path.depth? name.lexeme with
  | none =>
    cases hkept : (m.record (resolve program)).addresses[id]? with
    | none => rfl
    | some depth =>
      rw [hfound depth hkept] at hdepth
      cases hdepth
  | some depth =>
    have hf : Finding.use id name (some depth) ∈ resolve program := by
      rw [resolve_eq_occurrences]
      refine List.mem_flatMap.2 ⟨o, ho, List.mem_append_right _ ?_⟩
      rw [Occurrence.use?_eq_some_iff.2 huses, Option.map_some, hdepth]
      exact List.mem_singleton_self _
    obtain ⟨kept, hkept⟩ := Option.isSome_iff_exists.1
      (Machine.isSome_getElem?_record (m := m) hf (rfl : _ = some (id, depth)))
    rw [hkept, ← hdepth, hfound kept hkept]

/-- Recorded depths are lexical addresses.  For every program that is read, whether or not it breaks
a rule, and every use of a name in it: a depth is recorded if and only if, counting outwards, the
scope at this depth is the first one that holds the name at that point, and nothing is recorded if
and only if no scope holds it.  Every node that refers to a variable occurs, and occurs once. -/
theorem recorded_iff_firstHolding (n : NodeId) (tokens : List Token) (m : Machine)
    (hnew : ∀ id depth, m.addresses[id]? = some depth → id < n) :
    let program := (readProgram n tokens).result
    let recorded := (m.record (resolve program)).addresses
    ((occurrences program).filterMap Occurrence.id? = Stmt.idsAll program ∧
      (Stmt.idsAll program).Nodup) ∧
    ∀ o ∈ occurrences program, ∀ id name, o.Uses id name →
      (∀ depth, recorded[id]? = some depth ↔ o.path.FirstHolding name.lexeme depth) ∧
      (recorded[id]? = none ↔ ∀ names ∈ o.path.scopes, name.lexeme ∉ names) := by
  intro program recorded
  obtain ⟨-, hissued⟩ := issued_readProgram n tokens
  have hnone : ∀ id ∈ Stmt.idsAll program, m.addresses[id]? = none := by
    intro id hid
    cases hdepth : m.addresses[id]? with
    | none => rfl
    | some depth => exact absurd (hnew id depth hdepth) (Nat.not_lt_of_le (hissued.bounds hid).1)
  refine ⟨⟨filterMap_id?_occurrences program, hissued.nodup⟩, fun o ho id name huses ↦ ?_⟩
  have hrecorded : recorded[id]? = o.path.depth? name.lexeme :=
    getElem?_record_resolve hissued.nodup hnone ho huses
  rw [hrecorded]
  exact ⟨fun depth ↦ Path.depth?_eq_some_iff, Path.depth?_eq_none_iff⟩

/-- In `fun f(a) { var b; { print a; print c; } }` the scope of the block holds neither name, that
of the body holds `a`, and none holds `c`. -/
theorem recorded_iff_firstHolding_nested :
    let a : Token := ⟨.identifier, "a", 1, 7⟩
    let c : Token := ⟨.identifier, "c", 1, 36⟩
    let tokens : List Token := [⟨.funWord, "fun", 1, 1⟩, ⟨.identifier, "f", 1, 5⟩,
      ⟨.leftParen, "(", 1, 6⟩, a, ⟨.rightParen, ")", 1, 8⟩, ⟨.leftBrace, "\x7b", 1, 10⟩,
      ⟨.varWord, "var", 1, 12⟩, ⟨.identifier, "b", 1, 16⟩, ⟨.semicolon, ";", 1, 17⟩,
      ⟨.leftBrace, "\x7b", 1, 19⟩, ⟨.printWord, "print", 1, 21⟩, a, ⟨.semicolon, ";", 1, 28⟩,
      ⟨.printWord, "print", 1, 30⟩, c, ⟨.semicolon, ";", 1, 37⟩, ⟨.rightBrace, "\x7d", 1, 39⟩,
      ⟨.rightBrace, "\x7d", 1, 41⟩]
    let program := (readProgram 0 tokens).result
    let recorded := ((Machine.start {}).record (resolve program)).addresses
    (∃ o ∈ occurrences program, o.Uses 0 a ∧ o.path.FirstHolding "a" 1 ∧ recorded[0]? = some 1) ∧
      ∃ o ∈ occurrences program, o.Uses 1 c ∧ recorded[1]? = none := by
  intro a c tokens program recorded
  have hnew : ∀ (id : NodeId) (depth : Nat),
      (Machine.start {}).addresses[id]? = some depth → id < 0 := by
    intro id depth hdepth
    rw [Machine.start, Std.TreeMap.getElem?_emptyc] at hdepth
    cases hdepth
  have haddresses := (recorded_iff_firstHolding 0 tokens (.start {}) hnew).2
  have ha : ∃ o ∈ occurrences program, o.use? = some (0, a) ∧ o.path.depth? "a" = some 1 := by
    decide +kernel
  have hc : ∃ o ∈ occurrences program, o.use? = some (1, c) ∧ o.path.depth? "c" = none := by
    decide +kernel
  constructor
  · obtain ⟨o, ho, huse, hdepth⟩ := ha
    have huses := Occurrence.use?_eq_some_iff.1 huse
    have hfirst := Path.depth?_eq_some_iff.1 hdepth
    exact ⟨o, ho, huses, hfirst, ((haddresses o ho 0 a huses).1 1).2 hfirst⟩
  · obtain ⟨o, ho, huse, hdepth⟩ := hc
    have huses := Occurrence.use?_eq_some_iff.1 huse
    have hnone := Path.depth?_eq_none_iff.1 hdepth
    exact ⟨o, ho, huses, (haddresses o ho 1 c huses).2.2 hnone⟩

end Lox
