import Lox.Proofs.Grammar.Lemmas
import Lox.Proofs.Token.Spelling
import Lox.Proofs.Tree.Orderly

/-!
# What the grammar derives is orderly

The trees of derivations over tokens that are spelled as their kinds say.
-/

namespace Lox.Grammar

variable {operators : List Kind} {node : Token → Expr → Expr → Expr} {operand : Phrase Expr}
  {ts : List Token} {e : Expr}

theorem not_reserved_of_identifier {t : Token} (hspelt : t.Spelt) (ht : t.kind = .identifier) :
    ¬Reserved t.lexeme := by
  have hnone := hspelt.1 ht
  rintro (h | h) <;> rw [h] at hnone <;> exact absurd hnone (by decide)

theorem lexeme_of_this {t : Token} (hspelt : t.Spelt) (ht : t.kind = .thisWord) :
    t.lexeme = "this" :=
  hspelt.2 "this" (by rw [ht]; decide)

theorem lexeme_of_super {t : Token} (hspelt : t.Spelt) (ht : t.kind = .superWord) :
    t.lexeme = "super" :=
  hspelt.2 "super" (by rw [ht]; decide)

theorem Chain.orderly (h : Chain operators node operand ts e)
    (hnode : ∀ op left right, left.Orderly → right.Orderly → (node op left right).Orderly)
    (hoperand : ∀ us e, operand us e → us.Sublist ts → e.Orderly) : e.Orderly := by
  induction h with
  | one h => exact hoperand _ _ h (.refl _)
  | more hleft hop hright ih =>
    refine hnode _ _ _ (ih fun us e h hsub ↦ ?_) (hoperand _ _ hright ?_)
    · exact hoperand us e h (hsub.trans (List.sublist_append_left ..))
    · exact (List.sublist_cons_self ..).trans (List.sublist_append_right ..)

theorem Commas.orderly {es : List Expr} (h : Commas operand ts es)
    (hoperand : ∀ us e, operand us e → us.Sublist ts → e.Orderly) : Expr.OrderlyAll es := by
  induction h with
  | one h => exact ⟨hoperand _ _ h (.refl _), trivial⟩
  | more h hcomma hrest ih =>
    refine ⟨hoperand _ _ h (List.sublist_append_left ..), ih fun us e h hsub ↦ ?_⟩
    refine hoperand us e h (hsub.trans ?_)
    exact (List.sublist_cons_self ..).trans (List.sublist_append_right ..)

theorem Listed.orderly {es : List Expr} (h : Listed operand ts es)
    (hoperand : ∀ us e, operand us e → us.Sublist ts → e.Orderly) : Expr.OrderlyAll es := by
  cases h with
  | none => trivial
  | some h _ => exact h.orderly hoperand

theorem Suffixed.orderly {argument : Phrase Expr} (h : Suffixed argument operand ts e)
    (hargument : ∀ us e, argument us e → us.Sublist ts → us.length < ts.length → e.Orderly)
    (hoperand : ∀ us e, operand us e → us.Sublist ts → e.Orderly) : e.Orderly := by
  induction h with
  | bare h => exact hoperand _ _ h (.refl _)
  | @call ts us left right e es h hleft hes hright ih =>
    have hprefix : ts.Sublist (ts ++ left :: (us ++ [right])) := List.sublist_append_left ..
    have hmiddle : us.Sublist (ts ++ left :: (us ++ [right])) := by
      calc us.Sublist (us ++ [right]) := List.sublist_append_left ..
        List.Sublist _ (left :: (us ++ [right])) := List.sublist_cons_self ..
        List.Sublist _ (ts ++ left :: (us ++ [right])) := List.sublist_append_right ..
    refine ⟨ih (fun vs e h hsub hlt ↦ ?_) fun vs e h hsub ↦ ?_, hes.orderly fun vs e h hsub ↦ ?_⟩
    · exact hargument vs e h (hsub.trans hprefix) (Nat.lt_of_lt_of_le hlt hprefix.length_le)
    · exact hoperand vs e h (hsub.trans hprefix)
    · refine hargument vs e h (hsub.trans hmiddle) ?_
      have hle := hsub.length_le
      simp only [List.length_append, List.length_cons]
      omega
  | @property ts dot name e h hdot hname ih =>
    have hprefix : ts.Sublist (ts ++ [dot, name]) := List.sublist_append_left ..
    refine ih (fun vs e h hsub hlt ↦ ?_) fun vs e h hsub ↦ ?_
    · exact hargument vs e h (hsub.trans hprefix) (Nat.lt_of_lt_of_le hlt hprefix.length_le)
    · exact hoperand vs e h (hsub.trans hprefix)

/-- The expressions over fewer tokens are orderly. -/
def OrderlyBelow (bound : Nat) : Prop :=
  ∀ ts e, Expression ts e → ts.length < bound → (∀ t ∈ ts, t.Spelt) → e.Orderly

theorem Primary.orderly (h : Primary ts e) (hbelow : OrderlyBelow ts.length)
    (hspelt : ∀ t ∈ ts, t.Spelt) : e.Orderly := by
  cases h with
  | this h => exact lexeme_of_this (hspelt _ List.mem_cons_self) h
  | super h _ _ => exact lexeme_of_super (hspelt _ List.mem_cons_self) h
  | @grouping left right us e hleft h hright =>
    have hlength : us.length < (left :: (us ++ [right])).length := by
      simp only [List.length_cons, List.length_append]
      omega
    refine hbelow us e h hlength fun t ht ↦ hspelt t ?_
    exact List.mem_cons_of_mem _ (List.mem_append_left _ ht)
  | _ => trivial

theorem Call.orderly (h : Call ts e) (hbelow : OrderlyBelow ts.length)
    (hspelt : ∀ t ∈ ts, t.Spelt) : e.Orderly := by
  obtain ⟨h⟩ := h
  refine h.orderly (fun us e h hsub hlt ↦ ?_) fun us e h hsub ↦ ?_
  · exact hbelow us e h hlt fun t ht ↦ hspelt t (hsub.subset ht)
  · refine h.orderly (fun vs e h hlt ↦ ?_) fun t ht ↦ hspelt t (hsub.subset ht)
    exact hbelow vs e h (Nat.lt_of_lt_of_le hlt hsub.length_le)

theorem OrderlyBelow.mono {bound bound' : Nat} (h : OrderlyBelow bound) (hle : bound' ≤ bound) :
    OrderlyBelow bound' :=
  fun ts e he hlt ↦ h ts e he (Nat.lt_of_lt_of_le hlt hle)

theorem Unary.orderly (h : Unary ts e) (hbelow : OrderlyBelow ts.length)
    (hspelt : ∀ t ∈ ts, t.Spelt) : e.Orderly := by
  obtain ⟨bound, hbound⟩ : ∃ bound, ts.length ≤ bound := ⟨_, Nat.le_refl _⟩
  induction bound generalizing ts e with
  | zero => exact absurd (length_pos_of_begins h.begins) (by omega)
  | succ bound ih =>
    cases h with
    | sign hop h =>
      rw [List.length_cons] at hbound hbelow
      have hoperand := ih h (hbelow.mono (Nat.le_succ _))
        (fun t ht ↦ hspelt t (List.mem_cons_of_mem _ ht)) (Nat.le_of_succ_le_succ hbound)
      exact hoperand
    | call h => exact h.orderly hbelow hspelt

theorem LogicOr.orderly (h : LogicOr ts e) (hbelow : OrderlyBelow ts.length)
    (hspelt : ∀ t ∈ ts, t.Spelt) : e.Orderly := by
  have hlogical : ∀ op left right, left.Orderly → right.Orderly →
      (Expr.logical op left right).Orderly := fun _ _ _ hleft hright ↦ ⟨hleft, hright⟩
  have hbinary : ∀ op left right, left.Orderly → right.Orderly →
      (Expr.binary op left right).Orderly := fun _ _ _ hleft hright ↦ ⟨hleft, hright⟩
  obtain ⟨h⟩ := h
  -- One level after the other down to the signs.
  refine h.orderly hlogical fun ts₁ _ ⟨h⟩ h₁ ↦ ?_
  refine h.orderly hlogical fun ts₂ _ ⟨h⟩ h₂ ↦ ?_
  refine h.orderly hbinary fun ts₃ _ ⟨h⟩ h₃ ↦ ?_
  refine h.orderly hbinary fun ts₄ _ ⟨h⟩ h₄ ↦ ?_
  refine h.orderly hbinary fun ts₅ _ ⟨h⟩ h₅ ↦ ?_
  refine h.orderly hbinary fun us _ h h₆ ↦ ?_
  have hsub : us.Sublist ts := by
    calc us.Sublist ts₅ := h₆
      List.Sublist _ ts₄ := h₅
      List.Sublist _ ts₃ := h₄
      List.Sublist _ ts₂ := h₃
      List.Sublist _ ts₁ := h₂
      List.Sublist _ ts := h₁
  exact h.orderly (hbelow.mono hsub.length_le) fun t ht ↦ hspelt t (hsub.subset ht)

theorem orderlyBelow (bound : Nat) : OrderlyBelow bound := by
  induction bound with
  | zero => exact fun _ _ _ hlt ↦ absurd hlt (Nat.not_lt_zero _)
  | succ bound ih =>
    intro ts e h hlt hspelt
    cases h with
    | assign hname hequals hvalue =>
      simp only [List.length_cons] at hlt
      have hright := ih _ _ hvalue (by omega) fun t ht ↦
        hspelt t (List.mem_cons_of_mem _ (List.mem_cons_of_mem _ ht))
      exact hright
    | set hobject hdot hname hequals hvalue =>
      simp only [List.length_append, List.length_cons] at hlt
      refine ⟨hobject.orderly (ih.mono (by omega)) fun t ht ↦ hspelt t ?_,
        ih _ _ hvalue (by omega) fun t ht ↦ hspelt t ?_⟩
      · exact List.mem_append_left _ ht
      · simp [ht]
    | operation h => exact h.orderly (ih.mono (Nat.le_of_lt_succ hlt)) hspelt

theorem Expression.orderly (h : Expression ts e) (hspelt : ∀ t ∈ ts, t.Spelt) : e.Orderly :=
  orderlyBelow _ ts e h (Nat.lt_succ_self _) hspelt

/-! ### Statements -/

theorem Maybe.orderly {o : Option Expr} (h : Maybe Expression ts o) (hspelt : ∀ t ∈ ts, t.Spelt) :
    Expr.OrderlyOption o := by
  cases h with
  | absent => trivial
  | present h => exact h.orderly hspelt

theorem Initializer.orderly {o : Option Expr} (h : Initializer ts o)
    (hspelt : ∀ t ∈ ts, t.Spelt) : Expr.OrderlyOption o := by
  cases h with
  | absent => trivial
  | present hequals h => exact h.orderly fun t ht ↦ hspelt t (List.mem_cons_of_mem _ ht)

theorem Superclass.orderly {o : Option Expr} (h : Superclass ts o) : Expr.OrderlyOption o := by
  cases h with
  | absent => trivial
  | present hless hname => trivial

theorem VarDecl.orderly {s : Stmt} (h : VarDecl ts s) (hspelt : ∀ t ∈ ts, t.Spelt) :
    s.Orderly := by
  obtain ⟨hkeyword, hname, hinitializer, hsemicolon⟩ := h
  rw [Stmt.Orderly]
  refine ⟨not_reserved_of_identifier (hspelt _ (by simp)) hname, hinitializer.orderly fun t ht ↦ ?_⟩
  exact hspelt t (by simp [ht])

theorem ExprStmt.orderly {s : Stmt} (h : ExprStmt ts s) (hspelt : ∀ t ∈ ts, t.Spelt) :
    s.Orderly := by
  obtain ⟨h, hsemicolon⟩ := h
  rw [Stmt.Orderly]
  exact h.orderly fun t ht ↦ hspelt t (List.mem_append_left _ ht)

theorem ForStart.orderly {o : Option Stmt} (h : ForStart ts o) (hspelt : ∀ t ∈ ts, t.Spelt) :
    ∀ s, o = some s → s.Orderly := by
  rintro s rfl
  cases h with
  | varDecl h => exact h.orderly hspelt
  | exprStmt h => exact h.orderly hspelt

theorem Commas.not_reserved {params : List Token} (h : Commas Name ts params)
    (hspelt : ∀ t ∈ ts, t.Spelt) : ∀ param ∈ params, ¬Reserved param.lexeme := by
  induction h with
  | one h =>
    obtain ⟨hname⟩ := h
    intro param hparam
    rw [List.mem_singleton.1 hparam]
    exact not_reserved_of_identifier (hspelt _ List.mem_cons_self) hname
  | more h hcomma hrest ih =>
    obtain ⟨hname⟩ := h
    intro param hparam
    rcases List.mem_cons.1 hparam with rfl | hparam
    · exact not_reserved_of_identifier (hspelt _ (by simp)) hname
    · exact ih (fun t ht ↦ hspelt t (by simp [ht])) param hparam

theorem Listed.not_reserved {params : List Token} (h : Listed Name ts params)
    (hspelt : ∀ t ∈ ts, t.Spelt) : ∀ param ∈ params, ¬Reserved param.lexeme := by
  cases h with
  | none => exact fun _ hparam ↦ absurd hparam List.not_mem_nil
  | some h _ => exact h.not_reserved hspelt

variable {nearest : Bool}

theorem declaresNothing_forLoop {body : Stmt} (hbody : body.DeclaresNothing)
    (initializer : Option Stmt) (condition increment : Option Expr) :
    (Stmt.forLoop initializer condition increment body).DeclaresNothing := by
  intro scopes
  cases initializer with
  | none => cases increment <;> simp [Stmt.forLoop, Stmt.scopesAfter, hbody scopes]
  | some s => simp [Stmt.forLoop, Stmt.scopesAfter]

theorem Statement.declaresNothing {inLoop dangling : Bool} {ts : List Token} {s : Stmt} :
    Statement nearest inLoop dangling ts s → s.DeclaresNothing
  | .expression ⟨_, _⟩ => fun _ ↦ rfl
  | .forLoop _ _ _ _ _ _ _ hbody => declaresNothing_forLoop hbody.declaresNothing _ _ _
  | .ifThen _ _ _ _ hbranch => fun scopes ↦ hbranch.declaresNothing scopes
  | .ifElse _ _ _ _ hbranch _ _ hother => fun scopes ↦
    (hother.declaresNothing _).trans (hbranch.declaresNothing scopes)
  | .print _ _ _ => fun _ ↦ rfl
  | .return _ _ _ => fun _ ↦ rfl
  | .while _ _ _ _ hbody => fun scopes ↦ hbody.declaresNothing scopes
  | .break _ _ => fun _ ↦ rfl
  | .continue _ _ => fun _ ↦ rfl
  | .block _ => fun _ ↦ rfl

theorem orderly_forLoop {initializer : Option Stmt} {condition increment : Option Expr}
    {body : Stmt} (hinitializer : ∀ s, initializer = some s → s.Orderly)
    (hcondition : Expr.OrderlyOption condition) (hincrement : Expr.OrderlyOption increment)
    (hbody : body.Orderly) (hnothing : body.DeclaresNothing) :
    (Stmt.forLoop initializer condition increment body).Orderly := by
  have htest : (condition.getD (.literal (.bool true))).Orderly := by
    cases condition with
    | none => trivial
    | some e => exact hcondition
  have hblock : ∀ e : Expr, (Stmt.block [body, .expression e]).DeclaresNothing := fun e scopes ↦ by
    simp [Stmt.scopesAfter]
  unfold Stmt.forLoop
  cases increment with
  | none =>
    cases initializer with
    | none => simp only [Stmt.Orderly]; exact ⟨htest, hbody, hnothing⟩
    | some first =>
      simp only [Stmt.Orderly, Stmt.OrderlyAll]
      exact ⟨hinitializer first rfl, ⟨htest, hbody, hnothing⟩, trivial⟩
  | some e =>
    cases initializer with
    | none =>
      simp only [Stmt.Orderly, Stmt.OrderlyAll]
      exact ⟨htest, ⟨hbody, hincrement, trivial⟩, hblock e⟩
    | some first =>
      simp only [Stmt.Orderly, Stmt.OrderlyAll]
      exact ⟨hinitializer first rfl, ⟨htest, ⟨hbody, hincrement, trivial⟩, hblock e⟩, trivial⟩

theorem Function.not_reserved {routine : Routine Stmt} (h : Function nearest ts routine)
    (hspelt : ∀ t ∈ ts, t.Spelt) : ¬Reserved routine.name.lexeme := by
  obtain ⟨hname, -, -, -, -⟩ := h
  exact not_reserved_of_identifier (hspelt _ List.mem_cons_self) hname

mutual

theorem Statement.orderly {inLoop dangling : Bool} {ts : List Token} {s : Stmt} :
    Statement nearest inLoop dangling ts s → (∀ t ∈ ts, t.Spelt) → s.Orderly
  | .expression h, hspelt => h.orderly hspelt
  | .forLoop _ _ hinitializer hcondition _ hincrement _ hbody, hspelt =>
    orderly_forLoop (hinitializer.orderly fun t ht ↦ hspelt t (by simp [ht]))
      (hcondition.orderly fun t ht ↦ hspelt t (by simp [ht]))
      (hincrement.orderly fun t ht ↦ hspelt t (by simp [ht]))
      (hbody.orderly fun t ht ↦ hspelt t (by simp [ht])) hbody.declaresNothing
  | .ifThen _ _ hcondition _ hbranch, hspelt => by
    rw [Stmt.Orderly, Stmt.OrderlyOption]
    exact ⟨hcondition.orderly fun t ht ↦ hspelt t (by simp [ht]),
      ⟨hbranch.orderly fun t ht ↦ hspelt t (by simp [ht]), hbranch.declaresNothing⟩, trivial⟩
  | .ifElse _ _ hcondition _ hbranch _ _ hother, hspelt => by
    rw [Stmt.Orderly, Stmt.OrderlyOption]
    exact ⟨hcondition.orderly fun t ht ↦ hspelt t (by simp [ht]),
      ⟨hbranch.orderly fun t ht ↦ hspelt t (by simp [ht]), hbranch.declaresNothing⟩,
      hother.orderly fun t ht ↦ hspelt t (by simp [ht]), hother.declaresNothing⟩
  | .print _ h _, hspelt => by
    rw [Stmt.Orderly]
    exact h.orderly fun t ht ↦ hspelt t (by simp [ht])
  | .return _ h _, hspelt => by
    rw [Stmt.Orderly]
    exact h.orderly fun t ht ↦ hspelt t (by simp [ht])
  | .while _ _ hcondition _ hbody, hspelt => by
    rw [Stmt.Orderly]
    exact ⟨hcondition.orderly fun t ht ↦ hspelt t (by simp [ht]),
      hbody.orderly fun t ht ↦ hspelt t (by simp [ht]), hbody.declaresNothing⟩
  | .break _ _, _ => by rw [Stmt.Orderly]; trivial
  | .continue _ _, _ => by rw [Stmt.Orderly]; trivial
  | .block h, hspelt => by
    rw [Stmt.Orderly]
    exact h.orderly hspelt

theorem Declaration.orderly {inLoop dangling : Bool} {ts : List Token} {s : Stmt} :
    Declaration nearest inLoop dangling ts s → (∀ t ∈ ts, t.Spelt) → s.Orderly
  | .classDecl _ hname hsuperclass _ hmethods _, hspelt => by
    rw [Stmt.Orderly]
    exact ⟨not_reserved_of_identifier (hspelt _ (by simp)) hname, hsuperclass.orderly,
      hmethods.orderly fun t ht ↦ hspelt t (by simp [ht])⟩
  | .funDecl _ h, hspelt => by
    rw [Stmt.Orderly]
    have hrest := fun t ht ↦ hspelt t (List.mem_cons_of_mem _ ht)
    exact ⟨h.not_reserved hrest, h.orderly hrest⟩
  | .varDecl h, hspelt => h.orderly hspelt
  | .statement h, hspelt => h.orderly hspelt

theorem Declarations.orderly {inLoop : Bool} {ts : List Token} {body : List Stmt} :
    Declarations nearest inLoop ts body → (∀ t ∈ ts, t.Spelt) → Stmt.OrderlyAll body
  | .nil, _ => by rw [Stmt.OrderlyAll]; trivial
  | .cons h hrest, hspelt => by
    rw [Stmt.OrderlyAll]
    exact ⟨h.orderly fun t ht ↦ hspelt t (by simp [ht]),
      hrest.orderly fun t ht ↦ hspelt t (by simp [ht])⟩

theorem Function.orderly {ts : List Token} {routine : Routine Stmt} :
    Function nearest ts routine → (∀ t ∈ ts, t.Spelt) → Stmt.OrderlyRoutine routine
  | .mk _ _ hparams _ hbody, hspelt => by
    rw [Stmt.OrderlyRoutine]
    exact ⟨hparams.not_reserved fun t ht ↦ hspelt t (by simp [ht]),
      hbody.orderly fun t ht ↦ hspelt t (by simp [ht])⟩

theorem Functions.orderly {ts : List Token} {methods : List (Routine Stmt)} :
    Functions nearest ts methods → (∀ t ∈ ts, t.Spelt) → Stmt.OrderlyMethods methods
  | .nil, _ => by rw [Stmt.OrderlyMethods]; trivial
  | .cons h hrest, hspelt => by
    rw [Stmt.OrderlyMethods]
    exact ⟨h.orderly fun t ht ↦ hspelt t (by simp [ht]),
      hrest.orderly fun t ht ↦ hspelt t (by simp [ht])⟩

theorem Block.orderly {inLoop : Bool} {ts : List Token} {body : List Stmt} :
    Block nearest inLoop ts body → (∀ t ∈ ts, t.Spelt) → Stmt.OrderlyAll body
  | .mk _ h _, hspelt => h.orderly fun t ht ↦ hspelt t (by simp [ht])

end

end Lox.Grammar
