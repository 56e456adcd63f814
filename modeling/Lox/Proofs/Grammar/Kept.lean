import Lox.Proofs.Grammar.Levels
import Lox.Proofs.Tree.Form

/-!
# What an expression keeps of its tokens

The tokens that an expression keeps are among those that it is derived from, and so are tokens with
the values of its literals.
-/

namespace Lox.Grammar

/-- Every token and every literal of an expression comes from one of some tokens. -/
structure Kept (ts : List Token) (tokens : List Token) (literals : List Literal) : Prop where
  token : ∀ t ∈ tokens, t ∈ ts
  literal : ∀ l ∈ literals, ∃ t ∈ ts, t.kind = l.kind

namespace Kept

variable {ts us : List Token} {tokens tokens' : List Token} {literals literals' : List Literal}

theorem nil : Kept ts [] [] :=
  ⟨fun _ h ↦ absurd h List.not_mem_nil, fun _ h ↦ absurd h List.not_mem_nil⟩

theorem of_literal {t : Token} {value : Literal} (ht : t ∈ ts) (hkind : t.kind = value.kind) :
    Kept ts [] [value] :=
  ⟨fun _ h ↦ absurd h List.not_mem_nil,
    fun _ h ↦ ⟨t, ht, hkind.trans (congrArg _ (List.mem_singleton.1 h).symm)⟩⟩

theorem cons {t : Token} (ht : t ∈ ts) (h : Kept ts tokens literals) :
    Kept ts (t :: tokens) literals :=
  ⟨List.forall_mem_cons.2 ⟨ht, h.token⟩, h.literal⟩

theorem append (h : Kept ts tokens literals) (h' : Kept ts tokens' literals') :
    Kept ts (tokens ++ tokens') (literals ++ literals') :=
  ⟨List.forall_mem_append.2 ⟨h.token, h'.token⟩, List.forall_mem_append.2 ⟨h.literal, h'.literal⟩⟩

theorem mono (h : Kept ts tokens literals) (hsub : ts ⊆ us) : Kept us tokens literals :=
  ⟨fun t ht ↦ hsub (h.token t ht), fun l hl ↦ (h.literal l hl).imp fun _ ht ↦ ⟨hsub ht.1, ht.2⟩⟩

/-- What stands on both sides of a token. -/
theorem around (h : Kept ts tokens literals) (t : Token) (h' : Kept us tokens' literals') :
    Kept (ts ++ t :: us) (tokens ++ tokens') (literals ++ literals') := by
  refine .append (h.mono (List.subset_append_left _ _)) (h'.mono ?_)
  exact fun u hu ↦ by simp [hu]

end Kept

mutual

theorem kept_of_derives (e : Expr) {k : Nat} {ts : List Token} (hk : k ≤ 9)
    (h : Derives k ts e) : Kept ts e.tokens e.literals := by
  obtain ⟨-, hbuilt⟩ := (derives_iff hk).1 h
  match e with
  | .literal value =>
    cases hbuilt with
    | primary hprimary => cases hprimary <;> exact .of_literal List.mem_cons_self ‹_›
  | .grouping inner =>
    cases hbuilt with
    | primary hprimary =>
      cases hprimary with
      | grouping hleft hinner hright =>
        exact (kept_of_derives inner (Nat.zero_le _) hinner).mono fun t ht ↦ by simp [ht]
  | .unary op operand =>
    cases hbuilt with
    | unary hop hoperand =>
      have hkept := kept_of_derives operand (by omega) hoperand
      exact .cons List.mem_cons_self (hkept.mono (List.subset_cons_self _ _))
    | primary hprimary => cases hprimary
  | .binary op left right =>
    cases hbuilt with
    | binary hop hleft hright =>
      have hle := Kind.precedence_le op.kind
      have hkept := kept_of_derives left (by omega) hleft
      have hkept' := kept_of_derives right (by omega) hright
      exact .cons (by simp) (hkept.around op hkept')
    | primary hprimary => cases hprimary
  | .logical op left right =>
    cases hbuilt with
    | logical hop hleft hright =>
      have hle := Kind.precedence_le op.kind
      have hkept := kept_of_derives left (by omega) hleft
      have hkept' := kept_of_derives right (by omega) hright
      exact .cons (by simp) (hkept.around op hkept')
    | primary hprimary => cases hprimary
  | .var id name =>
    cases hbuilt with
    | primary hprimary =>
      cases hprimary with
      | ident hname => exact .cons List.mem_cons_self .nil
  | .assign id name value =>
    cases hbuilt with
    | assign hname hequals hvalue =>
      have hkept := kept_of_derives value (Nat.zero_le _) hvalue
      exact .cons List.mem_cons_self (hkept.mono fun t ht ↦ by simp [ht])
    | primary hprimary => cases hprimary
  | .call callee paren arguments =>
    cases hbuilt with
    | @call ts us _ _ _ _ hcallee hopening harguments hclosing =>
      have hkept := kept_of_derives callee (by omega) hcallee
      have hall : Kept us (Expr.tokensAll arguments) (Expr.literalsAll arguments) := by
        cases harguments with
        | none => exact .nil
        | some hcommas hlength => exact kept_of_commas arguments hcommas
      refine .cons (by simp) (.append (hkept.mono ?_) (hall.mono ?_))
      · exact List.subset_append_left _ _
      · exact fun t ht ↦ by simp [ht]
    | primary hprimary => cases hprimary
  | .get object name =>
    cases hbuilt with
    | get hobject hdot hname =>
      have hkept := kept_of_derives object (by omega) hobject
      exact .cons (by simp) (hkept.mono (List.subset_append_left _ _))
    | primary hprimary => cases hprimary
  | .set object name value =>
    cases hbuilt with
    | set hobject hdot hname hequals hvalue =>
      have hkept := kept_of_derives object (by omega) hobject
      have hkept' := kept_of_derives value (Nat.zero_le _) hvalue
      refine .cons (by simp) (.append (hkept.mono ?_) (hkept'.mono ?_))
      · exact List.subset_append_left _ _
      · exact fun t ht ↦ by simp [ht]
    | primary hprimary => cases hprimary
  | .this id keyword =>
    cases hbuilt with
    | primary hprimary =>
      cases hprimary with
      | this hkeyword => exact .cons List.mem_cons_self .nil
  | .super id keyword method =>
    cases hbuilt with
    | primary hprimary =>
      cases hprimary with
      | super hkeyword hdot hmethod => exact .cons (by simp) (.cons (by simp) .nil)

theorem kept_of_commas (es : List Expr) {ts : List Token} (h : Commas (Derives 0) ts es) :
    Kept ts (Expr.tokensAll es) (Expr.literalsAll es) := by
  match es with
  | [] => cases h
  | [e] =>
    cases h with
    | one hfirst => exact (kept_of_derives e (Nat.zero_le _) hfirst).append .nil
    | more _ _ hrest => cases hrest
  | e :: e' :: es =>
    cases h with
    | more hfirst hcomma hrest =>
      have hkept := kept_of_derives e (Nat.zero_le _) hfirst
      have hall := kept_of_commas (e' :: es) hrest
      exact hkept.around _ hall

end

end Lox.Grammar
