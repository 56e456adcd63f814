import Lox.Proofs.Machine.Recording
import Lox.Proofs.Parser.Identifiers
import Mathlib.Data.List.Flatten
import Mathlib.Data.List.Perm.Subperm

/-!
# Reading and resolving one input after another

Inputs that are read one after another take their identifiers from the same counter, so an
identifier names one node of all the trees.  The walk over a program comes past a node once.  Hence
no depth is recorded twice for a node, whichever of the programs are resolved and in whatever order.
-/

namespace Lox

/-- What can be read: the tokens of a program, or tokens that start with an expression. -/
inductive Input where
  | program (tokens : List Token)
  | expression (tokens : List Token)

/-- What an input is read as. Where errors leave no expression there is none. -/
inductive Tree where
  | program (statements : List Stmt)
  | expression (e : Option Expr)

namespace Tree

/-- The identifiers of the nodes that refer to a variable. -/
def ids : Tree → List NodeId
  | program statements => Stmt.idsAll statements
  | expression e => Expr.idsOption e

def program? : Tree → Option (List Stmt)
  | program statements => some statements
  | expression _ => none

/-- The programs among some trees have no other identifiers than these. -/
theorem flatMap_programs_sublist (trees : List Tree) :
    ((trees.filterMap program?).flatMap Stmt.idsAll).Sublist (trees.flatMap ids) := by
  induction trees with
  | nil => exact .refl _
  | cons tree rest ih =>
    cases tree with
    | program statements => exact ih.append_left _
    | expression e => exact ih.trans (List.sublist_append_right ..)

end Tree

namespace Input

/-- Read an input, with the identifiers from the next free one on. -/
def read (nextId : NodeId) : Input → Reading Tree
  | program tokens =>
    let reading := readProgram nextId tokens
    ⟨.program reading.result, reading.errors, reading.nextId⟩
  | expression tokens =>
    let reading := readExpression nextId tokens
    ⟨.expression reading.result, reading.errors, reading.nextId⟩

/-- Read inputs one after another. Identifiers that were given out for an input with errors are not
given out again. -/
def readAll (nextId : NodeId) : List Input → Reading (List Tree)
  | [] => ⟨[], [], nextId⟩
  | input :: rest =>
    let first := input.read nextId
    let later := readAll first.nextId rest
    ⟨first.result :: later.result, first.errors ++ later.errors, later.nextId⟩

theorem readAll_append (nextId : NodeId) (inputs more : List Input) :
    readAll nextId (inputs ++ more) =
      ⟨(readAll nextId inputs).result ++ (readAll (readAll nextId inputs).nextId more).result,
        (readAll nextId inputs).errors ++ (readAll (readAll nextId inputs).nextId more).errors,
        (readAll (readAll nextId inputs).nextId more).nextId⟩ := by
  induction inputs generalizing nextId with
  | nil => rfl
  | cons input rest ih => simp only [List.cons_append, readAll, ih, List.append_assoc]

theorem issued_read (nextId : NodeId) (input : Input) :
    nextId ≤ (input.read nextId).nextId ∧
      Issued nextId (input.read nextId).nextId (input.read nextId).result.ids := by
  cases input with
  | program tokens => exact issued_readProgram nextId tokens
  | expression tokens => exact issued_readExpression nextId tokens

/-- The identifiers of all trees are new and differ from each other, by induction on the inputs. -/
theorem issued_readAll (nextId : NodeId) (inputs : List Input) :
    nextId ≤ (readAll nextId inputs).nextId ∧
      Issued nextId (readAll nextId inputs).nextId
        ((readAll nextId inputs).result.flatMap Tree.ids) := by
  induction inputs generalizing nextId with
  | nil => exact ⟨Nat.le_refl _, .nil⟩
  | cons input rest ih =>
    obtain ⟨hfirst, hissued⟩ := input.issued_read nextId
    obtain ⟨hlater, hissued'⟩ := ih (input.read nextId).nextId
    exact ⟨Nat.le_trans hfirst hlater, hissued.append hissued' hfirst hlater⟩

end Input

/-- The depths that are recorded when a program is resolved, each with its node, in the order of the
walk. -/
def recordings (program : List Stmt) : List (NodeId × Nat) :=
  (resolve program).filterMap Finding.address?

/-- Sites are told about one after another, so a depth is found at most once for each. -/
theorem Tallies.addresses_sublist {found : List Finding} {sites : List Site}
    (h : Tallies found sites) :
    ((found.filterMap Finding.address?).map Prod.fst).Sublist (sites.map Site.id) := by
  induction h with
  | nil => exact .refl _
  | use site _ ih =>
    cases haddress : site.finding.address? with
    | none =>
      rw [List.filterMap_cons_none haddress]
      exact ih.cons _
    | some address =>
      obtain ⟨hid, -⟩ := Site.address?_finding haddress
      rw [List.filterMap_cons_some haddress, List.map_cons, List.map_cons, hid]
      exact ih.cons_cons _
  | violation token fault _ ih => exact ih
  | missed token fault site _ ih => exact ih.cons _

/-- Resolve programs one after another, and keep the depths that are found. -/
def Machine.recordAll (m : Machine) (programs : List (List Stmt)) : Machine :=
  programs.foldl (fun m program ↦ m.record (resolve program)) m

theorem Machine.addresses_recordAll (m : Machine) (programs : List (List Stmt)) :
    (m.recordAll programs).addresses = (programs.flatMap recordings).foldl
      (fun t (p : NodeId × Nat) ↦ t.insert p.1 p.2) m.addresses := by
  induction programs generalizing m with
  | nil => rfl
  | cons program rest ih =>
    rw [List.flatMap_cons, List.foldl_append]
    exact ih (m.record (resolve program))

theorem recordings_sublist (programs : List (List Stmt)) :
    ((programs.flatMap recordings).map Prod.fst).Sublist (programs.flatMap Stmt.idsAll) := by
  rw [List.map_flatMap]
  refine .flatMap_right programs fun program _ ↦ ?_
  rw [← Stmt.map_id_sitesAll [] program]
  exact (Stmt.talliesAll {} [] program).addresses_sublist

/-- Of programs that were read one after another any may be resolved, each of them once and in any
order: no depth is recorded twice for a node. -/
theorem nodup_recordings {nextId : NodeId} {inputs : List Input} {programs : List (List Stmt)}
    (h : programs.Subperm ((Input.readAll nextId inputs).result.filterMap Tree.program?)) :
    ((programs.flatMap recordings).map Prod.fst).Nodup := by
  obtain ⟨ordered, hperm, hsublist⟩ := h
  have htrees := (Input.issued_readAll nextId inputs).2.nodup
  have hordered : (ordered.flatMap Stmt.idsAll).Nodup :=
    htrees.sublist ((hsublist.flatMap _).trans (Tree.flatMap_programs_sublist _))
  have hprograms : (programs.flatMap Stmt.idsAll).Nodup :=
    (hperm.flatMap fun _ _ ↦ .refl _).nodup_iff.1 hordered
  exact hprograms.sublist (recordings_sublist programs)

end Lox
