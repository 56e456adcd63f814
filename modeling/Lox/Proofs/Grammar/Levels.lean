import Lox.Proofs.Grammar.Basic
import Lox.Proofs.Tree.Flatten

/-!
# The levels of the grammar

The nonterminals for expressions, numbered by how tightly they bind.  Each level derives what is
built on it or on a tighter one, so what a level derives is decided by the root of the tree.  From
this, by induction on trees: the grammar derives a tree from its own tokens exactly if the tree
respects the levels, and from no other tokens than those.
-/

namespace Lox.Grammar

/-- The nonterminal of a level. -/
def Derives : Nat → Phrase Expr
  | 0 => Expression
  | 1 => LogicOr
  | 2 => LogicAnd
  | 3 => Equality
  | 4 => Comparison
  | 5 => Term
  | 6 => Factor
  | 7 => Unary
  | 8 => Call
  | _ => Primary

theorem Derives.loosen {k : Nat} {ts : List Token} {e : Expr} :
    Derives (k + 1) ts e → Derives k ts e := by
  intro h
  match k, h with
  | 0, h => exact .operation h
  | 1, h => exact .mk (.one h)
  | 2, h => exact .mk (.one h)
  | 3, h => exact .mk (.one h)
  | 4, h => exact .mk (.one h)
  | 5, h => exact .mk (.one h)
  | 6, h => exact .mk (.one h)
  | 7, h => exact .call h
  | 8, h => exact .mk (.bare h)
  | _ + 9, h => exact h

theorem Derives.of_le {j k : Nat} {ts : List Token} {e : Expr} (hle : j ≤ k) (h : Derives k ts e) :
    Derives j ts e := by
  induction hle with
  | refl => exact h
  | step _ ih => exact ih h.loosen

/-- The trees that are built from phrases by one rule of the grammar, with their tokens. -/
inductive Built : Phrase Expr
  | assign {id : NodeId} {name equals : Token} {ts : List Token} {value : Expr}
      (hname : name.kind = .identifier) (hequals : equals.kind = .equal)
      (hvalue : Derives 0 ts value) : Built (name :: equals :: ts) (.assign id name value)
  | set {ts us : List Token} {dot name equals : Token} {object value : Expr}
      (hobject : Derives 8 ts object) (hdot : dot.kind = .dot) (hname : name.kind = .identifier)
      (hequals : equals.kind = .equal) (hvalue : Derives 0 us value) :
      Built (ts ++ dot :: name :: equals :: us) (.set object name value)
  | logical {op : Token} {ts us : List Token} {left right : Expr}
      (hop : op.kind = .orWord ∨ op.kind = .andWord) (hleft : Derives op.kind.precedence ts left)
      (hright : Derives (op.kind.precedence + 1) us right) :
      Built (ts ++ op :: us) (.logical op left right)
  | binary {op : Token} {ts us : List Token} {left right : Expr} (hop : 3 ≤ op.kind.precedence)
      (hleft : Derives op.kind.precedence ts left)
      (hright : Derives (op.kind.precedence + 1) us right) :
      Built (ts ++ op :: us) (.binary op left right)
  | unary {op : Token} {ts : List Token} {operand : Expr} (hop : op.kind = .bang ∨ op.kind = .minus)
      (h : Derives 7 ts operand) : Built (op :: ts) (.unary op operand)
  | call {ts us : List Token} {opening closing : Token} {callee : Expr} {arguments : List Expr}
      (h : Derives 8 ts callee) (hopening : opening.kind = .leftParen)
      (harguments : Listed (Derives 0) us arguments) (hclosing : closing.kind = .rightParen) :
      Built (ts ++ opening :: (us ++ [closing])) (.call callee closing arguments)
  | get {ts : List Token} {dot name : Token} {object : Expr} (h : Derives 8 ts object)
      (hdot : dot.kind = .dot) (hname : name.kind = .identifier) :
      Built (ts ++ [dot, name]) (.get object name)
  | primary {ts : List Token} {e : Expr} (h : Primary ts e) : Built ts e

variable {ts us : List Token} {e left right : Expr} {op : Token} {k : Nat}

/-- What is built with a binary operator comes from the level of that operator. -/
theorem derives_of_binary (hop : 3 ≤ op.kind.precedence)
    (hleft : Derives op.kind.precedence ts left)
    (hright : Derives (op.kind.precedence + 1) us right) :
    Derives op.kind.precedence (ts ++ op :: us) (.binary op left right) := by
  have hkind : (op.kind.precedence = 3 ∧ op.kind ∈ [.bangEqual, .equalEqual]) ∨
      (op.kind.precedence = 4 ∧ op.kind ∈ [.greater, .greaterEqual, .less, .lessEqual]) ∨
      (op.kind.precedence = 5 ∧ op.kind ∈ [.minus, .plus]) ∨
      (op.kind.precedence = 6 ∧ op.kind ∈ [.slash, .star]) := by
    cases hk : op.kind <;> simp [hk, Kind.precedence] at hop ⊢
  rcases hkind with ⟨hlevel, hmem⟩ | ⟨hlevel, hmem⟩ | ⟨hlevel, hmem⟩ | ⟨hlevel, hmem⟩
  all_goals
    rw [hlevel] at hleft hright ⊢
    obtain ⟨hleft⟩ := hleft
    exact .mk (.more hleft hmem hright)

theorem derives_of_logical (hop : op.kind = .orWord ∨ op.kind = .andWord)
    (hleft : Derives op.kind.precedence ts left)
    (hright : Derives (op.kind.precedence + 1) us right) :
    Derives op.kind.precedence (ts ++ op :: us) (.logical op left right) := by
  rcases hop with hop | hop
  all_goals
    rw [hop] at hleft hright ⊢
    obtain ⟨hleft⟩ := hleft
    exact .mk (.more hleft (hop ▸ List.mem_singleton_self _) hright)

theorem Primary.rank_eq (h : Primary ts e) : e.rank = 9 := by
  cases h <;> rfl

theorem Built.derives (h : Built ts e) : Derives e.rank ts e := by
  cases h with
  | assign hname hequals hvalue => exact Expression.assign hname hequals hvalue
  | set hobject hdot hname hequals hvalue =>
    exact Expression.set hobject hdot hname hequals hvalue
  | logical hop hleft hright => exact derives_of_logical hop hleft hright
  | binary hop hleft hright => exact derives_of_binary hop hleft hright
  | unary hop h => exact Unary.sign hop h
  | call h hopening harguments hclosing =>
    obtain ⟨h⟩ := h
    exact Call.mk (.call h hopening harguments hclosing)
  | get h hdot hname =>
    obtain ⟨h⟩ := h
    exact Call.mk (.property h hdot hname)
  | primary h =>
    rw [h.rank_eq]
    exact h

/-! ### From a derivation to its last rule -/

/-- The last rule of a chain of binary operators on a level. -/
theorem built_of_chain {node : Token → Expr → Expr → Expr} {operators : List Kind}
    (hlevel : ∀ {us e}, Chain operators node (Derives (k + 1)) us e → Derives k us e)
    (hnode : ∀ {op ts us left right}, op.kind ∈ operators → Derives k ts left →
      Derives (k + 1) us right → k ≤ (node op left right).rank ∧
        Built (ts ++ op :: us) (node op left right))
    (htighter : ∀ {us e}, Derives (k + 1) us e → k + 1 ≤ e.rank ∧ Built us e)
    (h : Chain operators node (Derives (k + 1)) ts e) : k ≤ e.rank ∧ Built ts e := by
  cases h with
  | one h =>
    obtain ⟨hrank, hbuilt⟩ := htighter h
    exact ⟨Nat.le_of_succ_le hrank, hbuilt⟩
  | more hleft hop hright => exact hnode hop (hlevel hleft) hright

theorem built_of_binary {operators : List Kind}
    (hoperators : ∀ kind ∈ operators, kind.precedence = k) (hk : 3 ≤ k) {op : Token}
    (hop : op.kind ∈ operators) (hleft : Derives k ts left) (hright : Derives (k + 1) us right) :
    k ≤ (Expr.binary op left right).rank ∧ Built (ts ++ op :: us) (.binary op left right) := by
  have hlevel := hoperators _ hop
  subst hlevel
  exact ⟨Nat.le_refl _, .binary hk hleft hright⟩

theorem built_of_primary (h : Derives 9 ts e) : 9 ≤ e.rank ∧ Built ts e :=
  ⟨Nat.le_of_eq (Primary.rank_eq h).symm, .primary h⟩

theorem built_of_call (h : Derives 8 ts e) : 8 ≤ e.rank ∧ Built ts e := by
  obtain ⟨h⟩ := h
  cases h with
  | bare h =>
    obtain ⟨hrank, hbuilt⟩ := built_of_primary h
    exact ⟨Nat.le_of_succ_le hrank, hbuilt⟩
  | call h hopening harguments hclosing =>
    exact ⟨Nat.le_refl 8, .call (.mk h) hopening harguments hclosing⟩
  | property h hdot hname => exact ⟨Nat.le_refl 8, .get (.mk h) hdot hname⟩

theorem built_of_unary (h : Derives 7 ts e) : 7 ≤ e.rank ∧ Built ts e := by
  cases h with
  | sign hop h => exact ⟨Nat.le_refl 7, .unary hop h⟩
  | call h =>
    obtain ⟨hrank, hbuilt⟩ := built_of_call h
    exact ⟨Nat.le_of_succ_le hrank, hbuilt⟩

theorem built_of_factor (h : Derives 6 ts e) : 6 ≤ e.rank ∧ Built ts e := by
  obtain ⟨h⟩ := h
  exact built_of_chain Factor.mk (built_of_binary (by decide) (by decide)) built_of_unary h

theorem built_of_term (h : Derives 5 ts e) : 5 ≤ e.rank ∧ Built ts e := by
  obtain ⟨h⟩ := h
  exact built_of_chain Term.mk (built_of_binary (by decide) (by decide)) built_of_factor h

theorem built_of_comparison (h : Derives 4 ts e) : 4 ≤ e.rank ∧ Built ts e := by
  obtain ⟨h⟩ := h
  exact built_of_chain Comparison.mk (built_of_binary (by decide) (by decide)) built_of_term h

theorem built_of_equality (h : Derives 3 ts e) : 3 ≤ e.rank ∧ Built ts e := by
  obtain ⟨h⟩ := h
  exact built_of_chain Equality.mk (built_of_binary (by decide) (by decide)) built_of_comparison h

theorem built_of_logicAnd (h : Derives 2 ts e) : 2 ≤ e.rank ∧ Built ts e := by
  obtain ⟨h⟩ := h
  refine built_of_chain LogicAnd.mk (fun {op ts us left right} hop hleft hright ↦ ?_)
    built_of_equality h
  have hkind : op.kind = .andWord := List.mem_singleton.1 hop
  refine ⟨?_, .logical (.inr hkind) ?_ ?_⟩
  · simp [Expr.rank, hkind, Kind.precedence]
  · rwa [hkind]
  · rwa [hkind]

theorem built_of_logicOr (h : Derives 1 ts e) : 1 ≤ e.rank ∧ Built ts e := by
  obtain ⟨h⟩ := h
  refine built_of_chain LogicOr.mk (fun {op ts us left right} hop hleft hright ↦ ?_)
    built_of_logicAnd h
  have hkind : op.kind = .orWord := List.mem_singleton.1 hop
  refine ⟨?_, .logical (.inl hkind) ?_ ?_⟩
  · simp [Expr.rank, hkind, Kind.precedence]
  · rwa [hkind]
  · rwa [hkind]

theorem built_of_expression (h : Derives 0 ts e) : Built ts e := by
  cases h with
  | assign hname hequals hvalue => exact .assign hname hequals hvalue
  | set hobject hdot hname hequals hvalue => exact .set hobject hdot hname hequals hvalue
  | operation h => exact (built_of_logicOr h).2

/-- A level derives exactly what is built at least as tightly. -/
theorem derives_iff (hk : k ≤ 9) : Derives k ts e ↔ k ≤ e.rank ∧ Built ts e := by
  constructor
  · intro h
    match k, hk, h with
    | 0, _, h => exact ⟨Nat.zero_le _, built_of_expression h⟩
    | 1, _, h => exact built_of_logicOr h
    | 2, _, h => exact built_of_logicAnd h
    | 3, _, h => exact built_of_equality h
    | 4, _, h => exact built_of_comparison h
    | 5, _, h => exact built_of_term h
    | 6, _, h => exact built_of_factor h
    | 7, _, h => exact built_of_unary h
    | 8, _, h => exact built_of_call h
    | 9, _, h => exact built_of_primary h
  · rintro ⟨hrank, hbuilt⟩
    exact hbuilt.derives.of_le hrank

/-! ### Trees and their tokens -/

mutual

/-- A tree that respects the levels is derived from its own tokens, by induction on the tree. -/
theorem derives_flatten (e : Expr) (h : e.Respects) {k : Nat} (hk : k ≤ e.rank) :
    Derives k e.flatten e := by
  refine (derives_iff (Nat.le_trans hk e.rank_le)).2 ⟨hk, ?_⟩
  match e with
  | .literal value =>
    refine .primary ?_
    match value with
    | .nil => exact .nilWord rfl
    | .bool true => exact .trueWord rfl
    | .bool false => exact .falseWord rfl
    | .number value => exact .number rfl
    | .string text => exact .string rfl
  | .grouping inner =>
    rw [Expr.Respects] at h
    rw [Expr.flatten]
    exact .primary (.grouping rfl (derives_flatten inner h (Nat.zero_le _)) rfl)
  | .unary op operand =>
    rw [Expr.Respects] at h
    obtain ⟨hop, hrank, hoperand⟩ := h
    rw [Expr.flatten]
    exact .unary hop (derives_flatten operand hoperand hrank)
  | .binary op left right =>
    rw [Expr.Respects] at h
    obtain ⟨hop, hlrank, hrrank, hleft, hright⟩ := h
    rw [Expr.flatten]
    exact .binary hop (derives_flatten left hleft hlrank) (derives_flatten right hright hrrank)
  | .logical op left right =>
    rw [Expr.Respects] at h
    obtain ⟨hop, hlrank, hrrank, hleft, hright⟩ := h
    rw [Expr.flatten]
    exact .logical hop (derives_flatten left hleft hlrank) (derives_flatten right hright hrrank)
  | .var id name =>
    rw [Expr.Respects] at h
    rw [Expr.flatten]
    exact .primary (.ident h)
  | .assign id name value =>
    rw [Expr.Respects] at h
    rw [Expr.flatten]
    exact .assign h.1 rfl (derives_flatten value h.2 (Nat.zero_le _))
  | .call callee paren arguments =>
    rw [Expr.Respects] at h
    obtain ⟨hparen, hrank, hcallee, hlength, harguments⟩ := h
    rw [Expr.flatten]
    refine .call (derives_flatten callee hcallee hrank) rfl ?_ hparen
    by_cases hne : arguments = []
    · rw [hne]
      exact .none
    · exact .some (commas_flattenAll arguments harguments hne) hlength
  | .get object name =>
    rw [Expr.Respects] at h
    obtain ⟨hname, hrank, hobject⟩ := h
    rw [Expr.flatten]
    exact .get (derives_flatten object hobject hrank) rfl hname
  | .set object name value =>
    rw [Expr.Respects] at h
    obtain ⟨hname, hrank, hobject, hvalue⟩ := h
    rw [Expr.flatten]
    exact .set (derives_flatten object hobject hrank) rfl hname rfl
      (derives_flatten value hvalue (Nat.zero_le _))
  | .this id keyword =>
    rw [Expr.Respects] at h
    rw [Expr.flatten]
    exact .primary (.this h)
  | .super id keyword method =>
    rw [Expr.Respects] at h
    rw [Expr.flatten]
    exact .primary (.super h.1 rfl h.2)

theorem commas_flattenAll (es : List Expr) (h : Expr.RespectsAll es) (hne : es ≠ []) :
    Commas (Derives 0) (Expr.flattenAll es) es := by
  match es with
  | [] => exact absurd rfl hne
  | [e] =>
    rw [Expr.RespectsAll] at h
    exact .one (derives_flatten e h.1 (Nat.zero_le _))
  | e :: e' :: es =>
    rw [Expr.RespectsAll] at h
    have hrest := commas_flattenAll (e' :: es) h.2 (List.cons_ne_nil _ _)
    rw [Expr.flattenAll]
    · exact .more (derives_flatten e h.1 (Nat.zero_le _)) rfl hrest
    · exact List.cons_ne_nil _ _

end

mutual

/-- What is derived respects the levels, and the tokens are those of the tree, by induction on the
tree. -/
theorem respects_of_derives (e : Expr) {k : Nat} {ts : List Token} (hk : k ≤ 9)
    (h : Derives k ts e) :
    k ≤ e.rank ∧ e.Respects ∧ List.Forall₂ Token.Agrees e.flatten ts := by
  obtain ⟨hrank, hbuilt⟩ := (derives_iff hk).1 h
  refine ⟨hrank, ?_⟩
  match e with
  | .literal value =>
    rw [Expr.Respects, Expr.flatten]
    cases hbuilt with
    | primary hprimary => cases hprimary <;> exact ⟨trivial, .cons (.ofKind ‹_› nofun) .nil⟩
  | .grouping inner =>
    rw [Expr.Respects, Expr.flatten]
    cases hbuilt with
    | primary hprimary =>
      cases hprimary with
      | grouping hleft hinner hright =>
        obtain ⟨-, hrespects, hagrees⟩ := respects_of_derives inner (Nat.zero_le _) hinner
        refine ⟨hrespects, .cons (.ofKind hleft nofun) ?_⟩
        exact List.rel_append hagrees (.cons (.ofKind hright nofun) .nil)
  | .unary op operand =>
    rw [Expr.Respects, Expr.flatten]
    cases hbuilt with
    | unary hop hoperand =>
      obtain ⟨hrank, hrespects, hagrees⟩ := respects_of_derives operand (by omega) hoperand
      exact ⟨⟨hop, hrank, hrespects⟩, .cons (.refl op) hagrees⟩
    | primary hprimary => cases hprimary
  | .binary op left right =>
    rw [Expr.Respects, Expr.flatten]
    cases hbuilt with
    | binary hop hleft hright =>
      have hle := Kind.precedence_le op.kind
      obtain ⟨hlrank, hleft, hlagrees⟩ := respects_of_derives left (by omega) hleft
      obtain ⟨hrrank, hright, hragrees⟩ := respects_of_derives right (by omega) hright
      refine ⟨⟨hop, hlrank, hrrank, hleft, hright⟩, ?_⟩
      exact List.rel_append hlagrees (.cons (.refl op) hragrees)
    | primary hprimary => cases hprimary
  | .logical op left right =>
    rw [Expr.Respects, Expr.flatten]
    cases hbuilt with
    | logical hop hleft hright =>
      have hle := Kind.precedence_le op.kind
      obtain ⟨hlrank, hleft, hlagrees⟩ := respects_of_derives left (by omega) hleft
      obtain ⟨hrrank, hright, hragrees⟩ := respects_of_derives right (by omega) hright
      refine ⟨⟨hop, hlrank, hrrank, hleft, hright⟩, ?_⟩
      exact List.rel_append hlagrees (.cons (.refl op) hragrees)
    | primary hprimary => cases hprimary
  | .var id name =>
    rw [Expr.Respects, Expr.flatten]
    cases hbuilt with
    | primary hprimary =>
      cases hprimary with
      | ident hname => exact ⟨hname, .cons (.refl name) .nil⟩
  | .assign id name value =>
    rw [Expr.Respects, Expr.flatten]
    cases hbuilt with
    | assign hname hequals hvalue =>
      obtain ⟨-, hrespects, hagrees⟩ := respects_of_derives value (Nat.zero_le _) hvalue
      exact ⟨⟨hname, hrespects⟩, .cons (.refl name) (.cons (.ofKind hequals nofun) hagrees)⟩
    | primary hprimary => cases hprimary
  | .call callee paren arguments =>
    rw [Expr.Respects, Expr.flatten]
    cases hbuilt with
    | @call _ us _ _ _ _ hcallee hopening harguments hclosing =>
      obtain ⟨hrank, hrespects, hagrees⟩ := respects_of_derives callee (by omega) hcallee
      have hall : arguments.length ≤ 255 ∧ Expr.RespectsAll arguments ∧
          List.Forall₂ Token.Agrees (Expr.flattenAll arguments) us := by
        cases harguments with
        | none => exact ⟨Nat.zero_le _, trivial, .nil⟩
        | some hcommas hlength => exact ⟨hlength, respectsAll_of_commas arguments hcommas⟩
      obtain ⟨hlength, hall, hargs⟩ := hall
      refine ⟨⟨hclosing, hrank, hrespects, hlength, hall⟩, ?_⟩
      refine List.rel_append hagrees (.cons (.ofKind hopening nofun) ?_)
      exact List.rel_append hargs (.cons (.refl paren) .nil)
    | primary hprimary => cases hprimary
  | .get object name =>
    rw [Expr.Respects, Expr.flatten]
    cases hbuilt with
    | get hobject hdot hname =>
      obtain ⟨hrank, hrespects, hagrees⟩ := respects_of_derives object (by omega) hobject
      refine ⟨⟨hname, hrank, hrespects⟩, List.rel_append hagrees ?_⟩
      exact .cons (.ofKind hdot nofun) (.cons (.refl name) .nil)
    | primary hprimary => cases hprimary
  | .set object name value =>
    rw [Expr.Respects, Expr.flatten]
    cases hbuilt with
    | set hobject hdot hname hequals hvalue =>
      obtain ⟨hrank, hobject, hoagrees⟩ := respects_of_derives object (by omega) hobject
      obtain ⟨-, hvalue, hvagrees⟩ := respects_of_derives value (Nat.zero_le _) hvalue
      refine ⟨⟨hname, hrank, hobject, hvalue⟩, List.rel_append hoagrees ?_⟩
      exact .cons (.ofKind hdot nofun) (.cons (.refl name) (.cons (.ofKind hequals nofun) hvagrees))
    | primary hprimary => cases hprimary
  | .this id keyword =>
    rw [Expr.Respects, Expr.flatten]
    cases hbuilt with
    | primary hprimary =>
      cases hprimary with
      | this hkeyword => exact ⟨hkeyword, .cons (.refl keyword) .nil⟩
  | .super id keyword method =>
    rw [Expr.Respects, Expr.flatten]
    cases hbuilt with
    | primary hprimary =>
      cases hprimary with
      | super hkeyword hdot hmethod =>
        refine ⟨⟨hkeyword, hmethod⟩, .cons (.refl keyword) ?_⟩
        exact .cons (.ofKind hdot nofun) (.cons (.refl method) .nil)

theorem respectsAll_of_commas (es : List Expr) {ts : List Token} (h : Commas (Derives 0) ts es) :
    Expr.RespectsAll es ∧ List.Forall₂ Token.Agrees (Expr.flattenAll es) ts := by
  match es with
  | [] => cases h
  | [e] =>
    cases h with
    | one hfirst =>
      obtain ⟨-, hrespects, hagrees⟩ := respects_of_derives e (Nat.zero_le _) hfirst
      exact ⟨⟨hrespects, trivial⟩, hagrees⟩
    | more _ _ hrest => cases hrest
  | e :: e' :: es =>
    cases h with
    | more hfirst hcomma hrest =>
      obtain ⟨-, hrespects, hagrees⟩ := respects_of_derives e (Nat.zero_le _) hfirst
      obtain ⟨hall, hargs⟩ := respectsAll_of_commas (e' :: es) hrest
      refine ⟨⟨hrespects, hall⟩, ?_⟩
      rw [Expr.flattenAll]
      · exact List.rel_append hagrees (.cons (.ofKind hcomma nofun) hargs)
      · exact List.cons_ne_nil _ _

end

end Lox.Grammar
