import Lox.Proofs.Machine.Course

/-!
# The fields of instances

A field of an instance changes in no way but by an expression that sets it.  Until such an
expression is evaluated, whatever else a machine does, the field is as it was wherever an expression
is evaluated, and in the end (`Machine.keepsField`).
-/

namespace Lox

open Lox.Computation (EndsIn)

namespace Heap

variable {h : Heap} {i j : Instance} {name key : String} {v : Value}

theorem get?_setField (hi : i.ref < h.fields.size) :
    ((h.setField i name v).fieldsOf i).get? name = some v := by
  have hfields : (h.setField i name v).fieldsOf i = (h.fieldsOf i).set name v := by
    rw [fieldsOf, fieldsOf, setField, Array.getD_eq_getD_getElem?, Array.getD_eq_getD_getElem?,
      Array.getElem?_modify, if_pos rfl, Array.getElem?_eq_getElem hi]
    rfl
  rw [hfields, Bindings.get?_set, if_pos rfl]

theorem get?_setField_of_ne (hne : j.ref = i.ref → key ≠ name) :
    ((h.setField i name v).fieldsOf j).get? key = (h.fieldsOf j).get? key := by
  rw [fieldsOf, fieldsOf, setField, Array.getD_eq_getD_getElem?, Array.getD_eq_getD_getElem?,
    Array.getElem?_modify]
  by_cases href : i.ref = j.ref
  · rw [if_pos href]
    cases h.fields[j.ref]? with
    | none => rfl
    | some fields =>
      calc (fields.set name v).get? key
        _ = if key = name then some v else fields.get? key := Bindings.get?_set ..
        _ = fields.get? key := if_neg (hne href.symm)
  · rw [if_neg href]

end Heap

/-- An expression sets a field of an instance: the object is evaluated to it, and a value is
found. -/
def Machine.Sets (m : Machine) (i : Instance) (key : String) : Expr → Prop
  | .set object name value => name.lexeme = key ∧ ∃ fuel j m₁ v m₂,
    Run.evaluate fuel object m = .ok (.instance j) m₁ ∧ j.ref = i.ref ∧
      Run.evaluate fuel value m₁ = .ok v m₂
  | _ => False

/-- The field of an instance is as it was. -/
def Machine.SameField (m : Machine) (i : Instance) (key : String) (m' : Machine) : Prop :=
  (m'.heap.fieldsOf i).get? key = (m.heap.fieldsOf i).get? key

/-- What is known of a heap is the value of a field, which may not be set. -/
def Course.ofField (i : Instance) (key : String) (value : Option Value) : Course where
  World := Unit
  Grows _ _ := True
  Covers _ h := (h.fieldsOf i).get? key = value
  Has _ _ := True
  Made _ := True
  MaySet j name := j.ref = i.ref → name ≠ key
  refl _ := trivial
  trans _ _ := trivial
  mono _ _ := trivial
  hasData _ := trivial
  hasFunction _ _ := trivial
  bound _ _ := trivial
  field _ _ := trivial
  openScope _ hh _ := hh
  define _ _ hh _ := hh
  instantiate hh _ := ⟨(), trivial, (congrArg (·.get? key) (Heap.fieldsOf_instantiate ..)).trans hh,
    trivial⟩
  setField hh _ _ hmay := (Heap.get?_setField_of_ne fun href heq ↦ hmay href.symm heq.symm).trans hh
  freshIdentity hh := hh
  declare hh _ _ _ := ⟨(), trivial, hh, trivial⟩

namespace Run

/-- Halt with an alarm where a field is about to be set. -/
noncomputable def demandUnset (i : Instance) (key : String) (alarm : Halt) : Oversight :=
  .demanding (fun e m ↦ ¬m.Sets i key e) (fun _ _ ↦ True) alarm alarm

/-- Or where an expression is to be evaluated and the field is not as it was once. -/
noncomputable def demandSame (start : Machine) (i : Instance) (key : String) (alarm : Halt) :
    Oversight :=
  .demanding (fun e m ↦ ¬m.Sets i key e ∧ start.SameField i key m) (fun _ _ ↦ True) alarm alarm

end Run

theorem Course.ofField_meets (start : Machine) (i : Instance) (key : String) :
    (Course.ofField i key ((start.heap.fieldsOf i).get? key)).Meets
      (fun e m ↦ ¬m.Sets i key e ∧ start.SameField i key m) (fun e m ↦ ¬m.Sets i key e)
      (fun _ _ ↦ True) (fun _ _ ↦ True) where
  expression _ hm := and_iff_left hm
  statement _ _ := Iff.rfl
  set fuel e m hunset object name value j m₁ v m₂ heq hobject hvalue href hname := by
    subst heq
    exact hunset ⟨hname, fuel, j, m₁, v, m₂, hobject, href, hvalue⟩
  made _ _ _ := trivial

/-- A watch over a field goes unnoticed unless an alarm is raised, because the field is about to be
set.  Until then the field is the same wherever an expression is evaluated, and in the end. -/
structure Run.LeavesField {α : Type} (watched unset plain : Run α) (m : Machine) (i : Instance)
    (key : String) (alarm : Halt) : Prop where
  unnoticed : unset m = plain m ∨ ∃ m', unset m = .error alarm m'
  everywhere : watched m = unset m
  atEnd : EndsIn (m.SameField i key) unset m

/-- So it is with whatever is evaluated and executed in a machine. -/
structure Machine.KeepsField (m : Machine) (i : Instance) (key : String) (alarm : Halt)
    (fuel : Nat) : Prop where
  expression : ∀ e, Run.LeavesField (Run.evaluateOverseen (Run.demandSame m i key alarm) fuel e)
    (Run.evaluateOverseen (Run.demandUnset i key alarm) fuel e) (Run.evaluate fuel e) m i key alarm
  statement : ∀ s, Run.LeavesField (Run.executeOverseen (Run.demandSame m i key alarm) fuel s)
    (Run.executeOverseen (Run.demandUnset i key alarm) fuel s) (Run.execute fuel s) m i key alarm
  program : ∀ ss, Run.LeavesField (Run.programOverseen (Run.demandSame m i key alarm) fuel ss)
    (Run.programOverseen (Run.demandUnset i key alarm) fuel ss) (Run.program fuel ss) m i key alarm

theorem Course.Tracks.leavesField {α : Type} {watched unset plain : Run α} {m : Machine}
    {i : Instance} {key : String} {alarm : Halt} {Q : Unit → α → Prop}
    (h : (Course.ofField i key ((m.heap.fieldsOf i).get? key)).Tracks () watched unset m Q)
    (hplain : unset m = plain m ∨ ∃ m', unset m = .error alarm m') :
    Run.LeavesField watched unset plain m i key alarm :=
  ⟨hplain, h.alike, h.endsIn fun _ _ hsame ↦ hsame⟩

/-- From any machine on, fields are kept until they are set. -/
theorem Machine.keepsField (m : Machine) (i : Instance) (key : String) (alarm : Halt) (fuel : Nat) :
    m.KeepsField i key alarm fuel := by
  have hmeets := Course.ofField_meets m i key
  have hblind : Oversight.demanding (fun _ _ ↦ True) (fun _ _ ↦ True) alarm alarm = .blind :=
    Oversight.demanding_nothing alarm alarm
  obtain ⟨hexpr, hstmt⟩ := Run.overseen_demanding (fun e m ↦ ¬m.Sets i key e) (fun _ _ ↦ True) alarm
    alarm fuel m
  obtain ⟨hevaluate, hexecute⟩ := Course.evaluate_and_execute_track hmeets alarm alarm fuel
  refine ⟨fun e ↦ (hevaluate e () m rfl).leavesField ?_,
    fun s ↦ (hexecute s () m rfl).leavesField ?_,
    fun ss ↦ (Course.program_tracks hmeets alarm alarm fuel ss rfl).leavesField ?_⟩
  · rw [← (Run.overseen_blind fuel).1, ← hblind]
    exact hexpr e
  · rw [← (Run.overseen_blind fuel).2, ← hblind]
    exact hstmt s
  · rw [← Run.programOverseen_blind, ← hblind]
    exact Run.programOverseen_demanding _ _ alarm alarm fuel ss m

end Lox
