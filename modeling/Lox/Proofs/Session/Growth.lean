import Lox.Proofs.Machine.Likeness
import Lox.Proofs.Machine.Recording
import Lox.Proofs.Parser.Identifiers
import Lox.Proofs.Session.Request

/-!
# What reading and resolving do to a session

Before anything runs, a session gives out identifiers, keeps depths for them and reports errors.  It
touches nothing that a program could notice: neither scopes nor instances, nor the printed text.
-/

namespace Lox

/-- A program cannot tell what has been reported. -/
theorem Session.alike_host_report (s : Session) (d : Diagnostic) :
    s.machine.host.Alike (s.report d).machine.host := by
  have hwrite := s.machine.host.alike_write_err (d.text ++ "\n")
  unfold Session.report
  dsimp only
  split
  · rename_i host hhost
    rw [hhost] at hwrite
    exact hwrite.trans host.alike_flush_err
  · rename_i host hhost
    rw [hhost] at hwrite
    exact hwrite

/-- A session in which nothing has run since: identifiers have been given out, depths recorded for
them only, and diagnostics reported. -/
structure Session.Grows (s t : Session) : Prop where
  heap : t.machine.heap = s.machine.heap
  current : t.machine.current = s.machine.current
  host : s.machine.host.Alike t.machine.host
  next : s.nextId ≤ t.nextId
  kept : ∀ id < s.nextId, t.machine.addresses[id]? = s.machine.addresses[id]?
  recorded : ∀ id depth, t.machine.addresses[id]? = some depth → id < t.nextId
  hadRuntimeError : t.hadRuntimeError = s.hadRuntimeError

namespace Session.Grows

variable {s t : Session}

theorem refl (h : ∀ id depth, s.machine.addresses[id]? = some depth → id < s.nextId) :
    s.Grows s :=
  ⟨rfl, rfl, .refl _, Nat.le_refl _, fun _ _ ↦ rfl, h, rfl⟩

theorem report (h : s.Grows t) {d : Diagnostic} (hd : d.isCompileTime = true) :
    s.Grows (t.report d) where
  heap := h.heap
  current := h.current
  host := h.host.trans (t.alike_host_report d)
  next := h.next
  kept := h.kept
  recorded := h.recorded
  hadRuntimeError := by
    unfold Session.report
    dsimp only
    rw [hd, Bool.not_true, Bool.or_false]
    exact h.hadRuntimeError

theorem reportAll (h : s.Grows t) {ds : List Diagnostic} (hds : ∀ d ∈ ds, d.isCompileTime = true) :
    s.Grows (t.reportAll ds) := by
  induction ds generalizing t with
  | nil => exact h
  | cons d rest ih =>
    obtain ⟨hd, hrest⟩ := List.forall_mem_cons.1 hds
    exact ih (h.report hd) hrest

variable (hrecorded : ∀ id depth, s.machine.addresses[id]? = some depth → id < s.nextId)

include hrecorded

theorem next_id {next : NodeId} (hnext : s.nextId ≤ next) : s.Grows { s with nextId := next } where
  heap := rfl
  current := rfl
  host := .refl _
  next := hnext
  kept _ _ := rfl
  recorded id depth hdepth := Nat.lt_of_lt_of_le (hrecorded id depth hdepth) hnext
  hadRuntimeError := rfl

theorem resolve {program : List Stmt} {next : NodeId} (hnext : s.nextId ≤ next)
    (hissued : Issued s.nextId next (Stmt.idsAll program)) :
    s.Grows { s with machine := s.machine.record (Lox.resolve program), nextId := next } := by
  have hfound : ∀ f ∈ Lox.resolve program, ∀ id depth, f.address? = some (id, depth) →
      s.nextId ≤ id ∧ id < next := by
    intro f hf id depth haddress
    obtain ⟨site, hsite, rfl⟩ := (Stmt.talliesAll {} [] _).exists_of_address? hf haddress
    obtain ⟨rfl, -⟩ := Site.address?_finding haddress
    exact hissued.bounds (Stmt.map_id_sitesAll [] program ▸ List.mem_map_of_mem hsite)
  refine ⟨rfl, rfl, .refl _, hnext, fun id hid ↦ ?_, fun id depth hdepth ↦ ?_, rfl⟩
  · exact Machine.getElem?_record_of_ne fun f hf depth haddress ↦
      Nat.not_lt_of_le (hfound f hf id depth haddress).1 hid
  · rcases Machine.exists_of_getElem?_record hdepth with ⟨f, hf, haddress⟩ | hold
    · exact (hfound f hf id depth haddress).2
    · exact Nat.lt_of_lt_of_le (hrecorded id depth hold) hnext

theorem resolved (source : String) : s.Grows (s.resolved source) := by
  obtain ⟨hnext, hissued⟩ := issued_readProgram s.nextId (tokens source)
  exact .resolve hrecorded hnext hissued

end Session.Grows

/-- A session in which a program without errors has been resolved: the identifiers of its nodes have
been given out, and their depths are kept. -/
structure Session.HasResolved (s : Session) (program : List Stmt) : Prop where
  quiet : Quiet (resolve program)
  addressed : Addressed s.machine.addresses (Stmt.sitesAll [] program)
  given : ∀ id ∈ Stmt.idsAll program, id < s.nextId

theorem Session.hasResolved {s : Session} {source : String}
    (hrecorded : ∀ id depth, s.machine.addresses[id]? = some depth → id < s.nextId)
    (hquiet : Quiet (resolve (readProgram s.nextId (tokens source)).result)) :
    (s.resolved source).HasResolved (readProgram s.nextId (tokens source)).result := by
  obtain ⟨-, hissued⟩ := issued_readProgram s.nextId (tokens source)
  exact ⟨hquiet, addressed_resolve hissued.nodup (fun id hid ↦ (hissued.bounds hid).1) hrecorded
    hquiet, fun id hid ↦ (hissued.bounds hid).2⟩

end Lox
