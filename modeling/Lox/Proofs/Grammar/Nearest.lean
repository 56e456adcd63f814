import Lox.Proofs.Grammar.Basic

/-!
# An `else` can always go to the nearest `if`

Tokens that derive a program in any way also derive one in which every `else` belongs to the nearest
`if`.  Where a derivation attaches an `else` further out, the branch in between takes it instead.
-/

namespace Lox.Grammar

variable {nearest nearest' : Bool}

mutual

/-- A statement may also stand in a loop, and where every `else` has to go to the nearest `if` it
may. -/
theorem Statement.weaken (hnearest : nearest' = true → nearest = true)
    {inLoop inLoop' dangling : Bool} (hloop : inLoop = true → inLoop' = true) {ts : List Token}
    {s : Stmt} : Statement nearest inLoop dangling ts s → Statement nearest' inLoop' dangling ts s
  | .expression h => .expression h
  | .forLoop hkeyword hleft hinitializer hcondition hsemicolon hincrement hright hbody =>
    .forLoop hkeyword hleft hinitializer hcondition hsemicolon hincrement hright
      (hbody.weaken hnearest fun _ ↦ rfl)
  | .ifThen hkeyword hleft hcondition hright hbranch =>
    .ifThen hkeyword hleft hcondition hright (hbranch.weaken hnearest hloop)
  | .ifElse hkeyword hleft hcondition hright hbranch hinner hotherwise hother =>
    .ifElse hkeyword hleft hcondition hright (hbranch.weaken hnearest hloop)
      (fun h ↦ hinner (hnearest h)) hotherwise (hother.weaken hnearest hloop)
  | .print hkeyword h hsemicolon => .print hkeyword h hsemicolon
  | .return hkeyword h hsemicolon => .return hkeyword h hsemicolon
  | .while hkeyword hleft hcondition hright hbody =>
    .while hkeyword hleft hcondition hright (hbody.weaken hnearest fun _ ↦ rfl)
  | .break hkeyword hsemicolon => hloop rfl ▸ .break hkeyword hsemicolon
  | .continue hkeyword hsemicolon => hloop rfl ▸ .continue hkeyword hsemicolon
  | .block h => .block (h.weaken hnearest hloop)

theorem Declaration.weaken (hnearest : nearest' = true → nearest = true)
    {inLoop inLoop' dangling : Bool} (hloop : inLoop = true → inLoop' = true) {ts : List Token}
    {s : Stmt} :
    Declaration nearest inLoop dangling ts s → Declaration nearest' inLoop' dangling ts s
  | .classDecl hkeyword hname hsuperclass hleft hmethods hright =>
    .classDecl hkeyword hname hsuperclass hleft (hmethods.weaken hnearest) hright
  | .funDecl hkeyword h => .funDecl hkeyword (h.weaken hnearest)
  | .varDecl h => .varDecl h
  | .statement h => .statement (h.weaken hnearest hloop)

theorem Declarations.weaken (hnearest : nearest' = true → nearest = true)
    {inLoop inLoop' : Bool} (hloop : inLoop = true → inLoop' = true) {ts : List Token}
    {body : List Stmt} : Declarations nearest inLoop ts body → Declarations nearest' inLoop' ts body
  | .nil => .nil
  | .cons h hrest => .cons (h.weaken hnearest hloop) (hrest.weaken hnearest hloop)

theorem Function.weaken (hnearest : nearest' = true → nearest = true) {ts : List Token}
    {routine : Routine Stmt} : Function nearest ts routine → Function nearest' ts routine
  | .mk hname hleft hparams hright hbody =>
    .mk hname hleft hparams hright (hbody.weaken hnearest id)

theorem Functions.weaken (hnearest : nearest' = true → nearest = true) {ts : List Token}
    {methods : List (Routine Stmt)} : Functions nearest ts methods → Functions nearest' ts methods
  | .nil => .nil
  | .cons h hrest => .cons (h.weaken hnearest) (hrest.weaken hnearest)

theorem Block.weaken (hnearest : nearest' = true → nearest = true)
    {inLoop inLoop' : Bool} (hloop : inLoop = true → inLoop' = true) {ts : List Token}
    {body : List Stmt} : Block nearest inLoop ts body → Block nearest' inLoop' ts body
  | .mk hleft h hright => .mk hleft (h.weaken hnearest hloop) hright

end

/-- A statement that leaves an `if` open takes an `else` behind it. -/
theorem Statement.absorb {otherwise : Token} {vs : List Token} {outer : Bool} {other : Stmt}
    (hotherwise : otherwise.kind = .elseWord) {inLoop : Bool} {ts : List Token} {s : Stmt}
    (h : Statement true inLoop true ts s) (hother : Statement true inLoop outer vs other) :
    ∃ dangling s', Statement true inLoop dangling (ts ++ otherwise :: vs) s' := by
  obtain ⟨bound, hbound⟩ : ∃ bound, ts.length < bound := ⟨_, Nat.lt_succ_self _⟩
  induction bound generalizing inLoop ts s with
  | zero => exact absurd hbound (Nat.not_lt_zero _)
  | succ bound ih =>
    cases h with
    | @ifThen _ inner _ _ _ _ _ _ _ hkeyword hleft hcondition hright hbranch =>
      simp only [List.length_cons, List.length_append] at hbound
      cases inner with
      | false =>
        have hif := Statement.ifElse hkeyword hleft hcondition hright hbranch (fun _ ↦ rfl)
          hotherwise hother
        exact ⟨outer, _, by simpa using hif⟩
      | true =>
        obtain ⟨_, _, hbranch⟩ := ih hbranch hother (by omega)
        have hif := Statement.ifThen hkeyword hleft hcondition hright hbranch
        exact ⟨true, _, by simpa using hif⟩
    | ifElse hkeyword hleft hcondition hright hbranch hnearest hotherwise' hlast =>
      simp only [List.length_cons, List.length_append] at hbound
      obtain ⟨dangling, _, hlast⟩ := ih hlast hother (by omega)
      have hif := Statement.ifElse hkeyword hleft hcondition hright hbranch hnearest hotherwise'
        hlast
      exact ⟨dangling, _, by simpa using hif⟩
    | «while» hkeyword hleft hcondition hright hbody =>
      simp only [List.length_cons, List.length_append] at hbound
      obtain ⟨dangling, _, hbody⟩ := ih hbody (hother.weaken id fun _ ↦ rfl) (by omega)
      have hwhile : Statement _ inLoop _ _ _ := .while hkeyword hleft hcondition hright hbody
      exact ⟨dangling, _, by simpa using hwhile⟩
    | forLoop hkeyword hleft hinitializer hcondition hsemicolon hincrement hright hbody =>
      simp only [List.length_cons, List.length_append] at hbound
      obtain ⟨dangling, _, hbody⟩ := ih hbody (hother.weaken id fun _ ↦ rfl) (by omega)
      have hfor : Statement _ inLoop _ _ _ := .forLoop hkeyword hleft hinitializer hcondition
        hsemicolon hincrement hright hbody
      exact ⟨dangling, _, by simpa using hfor⟩

mutual

theorem Statement.exists_nearest {inLoop dangling : Bool} {ts : List Token} {s : Stmt} :
    Statement nearest inLoop dangling ts s →
      ∃ dangling' s', Statement true inLoop dangling' ts s'
  | .expression h => ⟨_, _, .expression h⟩
  | .forLoop hkeyword hleft hinitializer hcondition hsemicolon hincrement hright hbody => by
    obtain ⟨_, _, hbody⟩ := hbody.exists_nearest
    exact ⟨_, _, .forLoop hkeyword hleft hinitializer hcondition hsemicolon hincrement hright hbody⟩
  | .ifThen hkeyword hleft hcondition hright hbranch => by
    obtain ⟨_, _, hbranch⟩ := hbranch.exists_nearest
    exact ⟨_, _, .ifThen hkeyword hleft hcondition hright hbranch⟩
  | .ifElse hkeyword hleft hcondition hright hbranch _ hotherwise hother => by
    obtain ⟨inner, _, hbranch⟩ := hbranch.exists_nearest
    obtain ⟨_, _, hother⟩ := hother.exists_nearest
    cases inner with
    | false =>
      exact ⟨_, _, .ifElse hkeyword hleft hcondition hright hbranch (fun _ ↦ rfl) hotherwise hother⟩
    | true =>
      obtain ⟨_, _, hbranch⟩ := hbranch.absorb hotherwise hother
      exact ⟨_, _, .ifThen hkeyword hleft hcondition hright hbranch⟩
  | .print hkeyword h hsemicolon => ⟨_, _, .print hkeyword h hsemicolon⟩
  | .return hkeyword h hsemicolon => ⟨_, _, .return hkeyword h hsemicolon⟩
  | .while hkeyword hleft hcondition hright hbody => by
    obtain ⟨_, _, hbody⟩ := hbody.exists_nearest
    exact ⟨_, _, .while hkeyword hleft hcondition hright hbody⟩
  | .break hkeyword hsemicolon => ⟨_, _, .break hkeyword hsemicolon⟩
  | .continue hkeyword hsemicolon => ⟨_, _, .continue hkeyword hsemicolon⟩
  | .block h => by
    obtain ⟨_, h⟩ := h.exists_nearest
    exact ⟨_, _, .block h⟩

theorem Declaration.exists_nearest {inLoop dangling : Bool} {ts : List Token} {s : Stmt} :
    Declaration nearest inLoop dangling ts s →
      ∃ dangling' s', Declaration true inLoop dangling' ts s'
  | .classDecl hkeyword hname hsuperclass hleft hmethods hright => by
    obtain ⟨_, hmethods⟩ := hmethods.exists_nearest
    exact ⟨_, _, .classDecl hkeyword hname hsuperclass hleft hmethods hright⟩
  | .funDecl hkeyword h => by
    obtain ⟨_, h⟩ := h.exists_nearest
    exact ⟨_, _, .funDecl hkeyword h⟩
  | .varDecl h => ⟨_, _, .varDecl h⟩
  | .statement h => by
    obtain ⟨_, _, h⟩ := h.exists_nearest
    exact ⟨_, _, .statement h⟩

theorem Declarations.exists_nearest {inLoop : Bool} {ts : List Token} {body : List Stmt} :
    Declarations nearest inLoop ts body → ∃ body', Declarations true inLoop ts body'
  | .nil => ⟨_, .nil⟩
  | .cons h hrest => by
    obtain ⟨_, _, h⟩ := h.exists_nearest
    obtain ⟨_, hrest⟩ := hrest.exists_nearest
    exact ⟨_, .cons h hrest⟩

theorem Function.exists_nearest {ts : List Token} {routine : Routine Stmt} :
    Function nearest ts routine → ∃ routine', Function true ts routine'
  | .mk hname hleft hparams hright hbody => by
    obtain ⟨_, hbody⟩ := hbody.exists_nearest
    exact ⟨_, .mk hname hleft hparams hright hbody⟩

theorem Functions.exists_nearest {ts : List Token} {methods : List (Routine Stmt)} :
    Functions nearest ts methods → ∃ methods', Functions true ts methods'
  | .nil => ⟨_, .nil⟩
  | .cons h hrest => by
    obtain ⟨_, h⟩ := h.exists_nearest
    obtain ⟨_, hrest⟩ := hrest.exists_nearest
    exact ⟨_, .cons h hrest⟩

theorem Block.exists_nearest {inLoop : Bool} {ts : List Token} {body : List Stmt} :
    Block nearest inLoop ts body → ∃ body', Block true inLoop ts body'
  | .mk hleft h hright => by
    obtain ⟨_, h⟩ := h.exists_nearest
    exact ⟨_, .mk hleft h hright⟩

end

end Lox.Grammar
