import Lox.Proofs.Machine.Upholding

/-!
# Demands

Checks that demand something of the machine, with one alarm before expressions and another one
before statements.  A demand changes what happens only where its alarm is raised.
-/

namespace Lox

namespace Oversight

noncomputable def demanding (onExpr : Expr → Machine → Prop) (onStmt : Stmt → Machine → Prop)
    (alarm objection : Halt) : Oversight :=
  ⟨fun e ↦ Run.ensure (onExpr e) alarm, fun s ↦ Run.ensure (onStmt s) objection⟩

theorem demanding_watch (onExpr : Expr → Machine → Prop) (alarm objection : Halt) :
    demanding onExpr (fun _ _ ↦ True) alarm objection =
      .ofWatch fun e ↦ Run.ensure (onExpr e) alarm := by
  rw [demanding, Run.ensure_true, ofWatch]

theorem demanding_nothing (alarm objection : Halt) :
    demanding (fun _ _ ↦ True) (fun _ _ ↦ True) alarm objection = .blind := by
  rw [demanding_watch, Run.ensure_true, blind]

end Oversight

theorem Conduct.ChecksAlike.ensure {excused : Halt → Prop} {onFirst onSecond : Machine → Prop}
    {m : Machine} {alarm : Halt} (hsecond : onFirst m → onSecond m)
    (hfirst : onSecond m → onFirst m ∨ excused alarm) :
    Conduct.ChecksAlike excused (Run.ensure onFirst alarm) (Run.ensure onSecond alarm) m := by
  by_cases hm : onFirst m
  · exact .inl ⟨Run.ensure_of_property hm alarm, Run.ensure_of_property (hsecond hm) alarm⟩
  · refine .inr ⟨alarm, Run.ensure_of_not hm alarm, ?_⟩
    by_cases hm' : onSecond m
    · exact .inr ((hfirst hm').resolve_left hm)
    · exact .inl (Run.ensure_of_not hm' alarm)

/-- Nothing is asked of the heap. -/
def Discipline.free : Discipline where
  rules := .none
  shape _ := True
  step _ _ := True
  binding _ _ := True
  function _ _ := True
  method _ _ _ := True
  inst _ _ := True
  site _ _ := True
  inside _ _ := True

theorem Discipline.free_lawful : Discipline.free.Lawful := by
  constructor <;> intros <;> trivial

theorem Discipline.free_kept (h : Heap) : Discipline.free.Kept h := by
  have hclass : ∀ c, Discipline.free.AdmitsClass h c := fun c layer _ name f _ ↦
    ⟨Stmt.obeysRoutine_none f.routine, trivial⟩
  have hall : ∀ v, Discipline.free.Admits h v := by
    intro v
    cases v with
    | function f => exact ⟨Stmt.obeysRoutine_none f.routine, trivial⟩
    | cls c => exact hclass c
    | «instance» i => exact ⟨trivial, hclass i.cls⟩
    | _ => trivial
  exact ⟨trivial, fun _ _ _ _ ↦ trivial, fun _ _ v _ ↦ hall v, fun _ _ v _ ↦ hall v⟩

namespace Run

variable (onExpr : Expr → Machine → Prop) (onStmt : Stmt → Machine → Prop) (alarm objection : Halt)

/-- With and without the demand on expressions; the alarm is excused. -/
noncomputable def heedless (m : Machine) : Conduct :=
  .tolerant .free m.addresses (fun _ ↦ True) (.demanding onExpr onStmt alarm objection)
    (.demanding (fun _ _ ↦ True) onStmt alarm objection) (· = alarm)

theorem heedless_lawful (m : Machine) : (heedless onExpr onStmt alarm objection m).Lawful := by
  apply Conduct.tolerant_lawful Discipline.free_lawful Rules.none_governs
  · intro e m' _ _
    exact .ensure (fun _ ↦ trivial) fun _ ↦ .inr rfl
  · intro s m' _ _
    exact .ensure id .inl

theorem heedless_sane (m : Machine) : (heedless onExpr onStmt alarm objection m).Sane m :=
  ⟨Discipline.free_kept m.heap, rfl⟩

/-- To run without the demand on expressions is the same, unless the alarm is raised. -/
theorem programOverseen_demanding (fuel : Nat) (statements : List Stmt) (m : Machine) :
    programOverseen (.demanding onExpr onStmt alarm objection) fuel statements m =
        programOverseen (.demanding (fun _ _ ↦ True) onStmt alarm objection) fuel statements m ∨
      ∃ m', programOverseen (.demanding onExpr onStmt alarm objection) fuel statements m =
        .error alarm m' := by
  have L := heedless_lawful onExpr onStmt alarm objection m
  have hupholds := Conduct.program_upheld L fuel (Stmt.obeysAll_none statements)
    ⟨heedless_sane onExpr onStmt alarm objection m, trivial⟩
  rcases hupholds.alike with heq | ⟨halt, m', herror, rfl⟩
  · exact .inl heq
  · exact .inr ⟨m', herror⟩

theorem overseen_demanding (fuel : Nat) (m : Machine) :
    (∀ e, evaluateOverseen (.demanding onExpr onStmt alarm objection) fuel e m =
        evaluateOverseen (.demanding (fun _ _ ↦ True) onStmt alarm objection) fuel e m ∨
      ∃ m', evaluateOverseen (.demanding onExpr onStmt alarm objection) fuel e m =
        .error alarm m') ∧
    ∀ s, executeOverseen (.demanding onExpr onStmt alarm objection) fuel s m =
        executeOverseen (.demanding (fun _ _ ↦ True) onStmt alarm objection) fuel s m ∨
      ∃ m', executeOverseen (.demanding onExpr onStmt alarm objection) fuel s m =
        .error alarm m' := by
  have L := heedless_lawful onExpr onStmt alarm objection m
  obtain ⟨hevaluate, hexecute⟩ := Conduct.evaluate_and_execute_upheld L fuel
  have hsane := heedless_sane onExpr onStmt alarm objection m
  constructor
  · intro e
    rcases (hevaluate e m trivial ⟨hsane, trivial⟩).alike with heq | ⟨halt, m', herror, rfl⟩
    · exact .inl heq
    · exact .inr ⟨m', herror⟩
  · intro s
    rcases (hexecute s m s.obeys_none ⟨hsane, trivial⟩).alike with heq | ⟨halt, m', herror, rfl⟩
    · exact .inl heq
    · exact .inr ⟨m', herror⟩

/-- A value that is found under checks is found without. -/
theorem evaluate_of_demanding {onExpr : Expr → Machine → Prop} {onStmt : Stmt → Machine → Prop}
    {alarm objection : Halt} {fuel : Nat} {e : Expr} {m m' : Machine} {v : Value}
    (h : evaluateOverseen (.demanding onExpr onStmt alarm objection) fuel e m = .ok v m') :
    evaluate fuel e m = .ok v m' := by
  have hchecks : ∀ (demand : Machine → Prop) (alarm : Halt) (t : Machine),
      Conduct.ChecksAlike (fun _ ↦ True) (ensure demand alarm) (pure ()) t := by
    intro demand alarm t
    by_cases ht : demand t
    · exact .inl ⟨ensure_of_property ht alarm, rfl⟩
    · exact .inr ⟨alarm, ensure_of_not ht alarm, .inr trivial⟩
  -- Whatever a check objects to is excused.
  have L : (Conduct.tolerant .free m.addresses (fun _ ↦ True)
      (.demanding onExpr onStmt alarm objection) .blind fun _ ↦ True).Lawful := by
    apply Conduct.tolerant_lawful Discipline.free_lawful Rules.none_governs
    · intro e t _ _
      exact hchecks (onExpr e) alarm t
    · intro s t _ _
      exact hchecks (onStmt s) objection t
  have hupheld := (Conduct.evaluate_and_execute_upheld L fuel).1 e m trivial
    ⟨⟨Discipline.free_kept m.heap, rfl⟩, trivial⟩
  rw [← (overseen_blind fuel).1]
  exact (hupheld.of_ok h).1

end Run

end Lox
