import Lox.Parser.Statement
import Lox.Proofs.Computation
import Lox.Proofs.Grammar.Lemmas
import Lox.Proofs.Tree.Alike

/-!
# What the grammar derives is read without errors

In front of a continuation that cannot extend it, a phrase is read completely and nothing is noted.
The tree is that of the derivation up to identifiers.  It does not depend on what follows, so that
the same tokens give the same tree, identifiers included, in front of every continuation.
-/

namespace Lox

/-- Expressions that differ in identifiers only. -/
abbrev Expr.Renumbered : Expr → Expr → Prop :=
  Expr.Alike Eq fun _ _ ↦ True

/-- Statements that differ in identifiers only. -/
abbrev Stmt.Renumbered : Stmt → Stmt → Prop :=
  Stmt.Alike Eq fun _ _ ↦ True

namespace Parser

open Grammar

variable {α β : Type}

/-- In front of every continuation that `follow` allows a rule takes exactly the given tokens and
notes nothing, and its good result depends on the identifiers alone. -/
def Complete (p : Parser α) (ts : List Token) (follow : List Token → Prop) (good : α → Prop) :
    Prop :=
  ∀ n, ∃ a n', good a ∧ ∀ rest stop errors, follow rest →
    p ⟨ts ++ rest, stop, n, errors⟩ = .ok a ⟨rest, stop, n', errors⟩

/-- The continuations that do not begin with a token of some kinds. -/
def Stops (extending : Kind → Bool) (rest : List Token) : Prop :=
  begins extending rest = false

theorem Stops.of_begins {extending : Kind → Bool} {kind : Kind} {rest : List Token}
    (h : begins (· = kind) rest = true) (hkind : extending kind = false) :
    Stops extending rest := by
  cases rest with
  | nil => rfl
  | cons t rest =>
    rw [begins_cons, decide_eq_true_eq] at h
    rw [Stops, begins_cons, h, hkind]

theorem acceptIf_of_stops {wanted : Kind → Bool} {s : State} (h : Stops wanted s.rest) :
    Parser.acceptIf wanted s = .ok none s := by
  unfold Parser.acceptIf
  cases hr : s.rest with
  | nil => rfl
  | cons t rest =>
    rw [hr, Stops, begins_cons] at h
    simp [h]

theorem acceptIf_of_wanted {wanted : Kind → Bool} {t : Token} (ht : wanted t.kind = true)
    (rest : List Token) (stop : Token) (n : NodeId) (errors : Array SyntaxError) :
    Parser.acceptIf wanted ⟨t :: rest, stop, n, errors⟩ = .ok (some t) ⟨rest, stop, n, errors⟩ := by
  simp [Parser.acceptIf, ht]

namespace Complete

variable {ts us : List Token} {follow follow' : List Token → Prop} {good good' : α → Prop}
  {good₂ : β → Prop}

theorem mono {p : Parser α} (h : Complete p ts follow good)
    (hfollow : ∀ rest, follow' rest → follow rest) (hgood : ∀ a, good a → good' a) :
    Complete p ts follow' good' := by
  intro n
  obtain ⟨a, n', ha, hp⟩ := h n
  exact ⟨a, n', hgood a ha, fun rest stop errors hrest ↦ hp rest stop errors (hfollow rest hrest)⟩

theorem pure {a : α} (h : good a) : Complete (Pure.pure a : Parser α) [] follow good :=
  fun n ↦ ⟨a, n, h, fun _ _ _ _ ↦ rfl⟩

theorem bind {p : Parser α} {f : α → Parser β} (hp : Complete p ts follow good)
    (hfollow : ∀ rest, follow' rest → follow (us ++ rest))
    (hf : ∀ a, good a → Complete (f a) us follow' good₂) :
    Complete (p >>= f) (ts ++ us) follow' good₂ := by
  intro n
  obtain ⟨a, m, ha, hpa⟩ := hp n
  obtain ⟨b, n', hb, hfa⟩ := hf a ha m
  refine ⟨b, n', hb, fun rest stop errors hrest ↦ ?_⟩
  rw [List.append_assoc, Computation.bind_of_ok (hpa _ stop errors (hfollow rest hrest))]
  exact hfa rest stop errors hrest

/-- A last step that takes no tokens. -/
theorem map {p : Parser α} {f : α → Parser β} (hp : Complete p ts follow good)
    (hf : ∀ a, good a → Complete (f a) [] follow good₂) :
    Complete (p >>= f) ts follow good₂ := by
  have h : Complete (p >>= f) (ts ++ []) follow good₂ := bind hp (fun _ hrest ↦ hrest) hf
  rwa [List.append_nil] at h

theorem freshId {f : NodeId → Parser β} (h : ∀ id, Complete (f id) us follow good₂) :
    Complete (Parser.freshId >>= f) us follow good₂ := by
  intro n
  obtain ⟨b, n', hb, hf⟩ := h n (n + 1)
  exact ⟨b, n', hb, fun rest stop errors hrest ↦ hf rest stop errors hrest⟩

theorem acceptIf_some {wanted : Kind → Bool} {f : Option Token → Parser β} {t : Token}
    (ht : wanted t.kind = true) (h : Complete (f (some t)) us follow good₂) :
    Complete (Parser.acceptIf wanted >>= f) (t :: us) follow good₂ := by
  intro n
  obtain ⟨b, n', hb, hf⟩ := h n
  refine ⟨b, n', hb, fun rest stop errors hrest ↦ ?_⟩
  rw [List.cons_append, Computation.bind_of_ok (acceptIf_of_wanted ht ..)]
  exact hf rest stop errors hrest

theorem acceptIf_none {wanted : Kind → Bool} {f : Option Token → Parser β}
    (hfollow : ∀ rest, follow rest → Stops wanted (us ++ rest))
    (h : Complete (f none) us follow good₂) :
    Complete (Parser.acceptIf wanted >>= f) us follow good₂ := by
  intro n
  obtain ⟨b, n', hb, hf⟩ := h n
  refine ⟨b, n', hb, fun rest stop errors hrest ↦ ?_⟩
  have hstops : Stops wanted (State.rest ⟨us ++ rest, stop, n, errors⟩) := hfollow rest hrest
  rw [Computation.bind_of_ok (acceptIf_of_stops hstops)]
  exact hf rest stop errors hrest

theorem accept_true {kind : Kind} {f : Bool → Parser β} {t : Token} (ht : t.kind = kind)
    (h : Complete (f true) us follow good₂) :
    Complete (Parser.accept kind >>= f) (t :: us) follow good₂ := by
  simp only [Parser.accept, bind_assoc, pure_bind]
  exact acceptIf_some (by simpa using ht) h

theorem accept_false {kind : Kind} {f : Bool → Parser β}
    (hfollow : ∀ rest, follow rest → Stops (· = kind) (us ++ rest))
    (h : Complete (f false) us follow good₂) :
    Complete (Parser.accept kind >>= f) us follow good₂ := by
  simp only [Parser.accept, bind_assoc, pure_bind]
  exact acceptIf_none hfollow h

theorem expect {kind : Kind} {fault : SyntaxFault} {f : Token → Parser β} {t : Token}
    (ht : t.kind = kind) (h : Complete (f t) us follow good₂) :
    Complete (Parser.expect kind fault >>= f) (t :: us) follow good₂ := by
  simp only [Parser.expect, bind_assoc]
  exact acceptIf_some (by simpa using ht) (by simpa using h)

theorem expect_only {kind : Kind} {fault : SyntaxFault} {t : Token} (ht : t.kind = kind) :
    Complete (Parser.expect kind fault) [t] follow (t = ·) := by
  have h : Complete (Parser.expect kind fault >>= Pure.pure) [t] follow (t = ·) :=
    expect ht (pure rfl)
  rwa [bind_pure] at h

theorem check {kind : Kind} {f : Bool → Parser β} {b : Bool}
    (hfollow : ∀ rest, follow rest → begins (· = kind) (us ++ rest) = b)
    (h : Complete (f b) us follow good₂) :
    Complete (Parser.check kind >>= f) us follow good₂ := by
  intro n
  obtain ⟨c, n', hc, hf⟩ := h n
  refine ⟨c, n', hc, fun rest stop errors hrest ↦ ?_⟩
  have hcheck : Parser.check kind ⟨us ++ rest, stop, n, errors⟩ =
      .ok b ⟨us ++ rest, stop, n, errors⟩ := by
    have hbegins := hfollow rest hrest
    cases heq : us ++ rest with
    | nil =>
      rw [heq] at hbegins
      exact hbegins ▸ rfl
    | cons t vs =>
      rw [heq] at hbegins
      exact hbegins ▸ rfl
  rw [Computation.bind_of_ok hcheck]
  exact hf rest stop errors hrest

/-! ### Repetition -/

section Repetition

variable {R : Phrase α} {like : α → β → Prop}

/-- Items are read one after the other, up to a continuation at which `done` holds. -/
theorem manyUntil {done : Parser Bool} {item : Parser β} {test : List Token → Bool} {limit : Nat}
    (hdone : ∀ s, done s = .ok (test s.rest) s)
    (hitem : ∀ us a, R us a → us.length ≤ limit → Complete item us follow (like a))
    (hstart : ∀ us a rest, R us a → test (us ++ rest) = false ∧ follow (us ++ rest))
    (hend : ∀ rest, test rest = true → follow rest) {as : List α} (h : Many R ts as) :
    ∀ rounds, as.length ≤ rounds → ts.length ≤ limit →
      Complete (Parser.manyUntil done item rounds) ts (test · = true)
        (List.Forall₂ like as) := by
  induction h with
  | nil =>
    intro rounds _ _
    cases rounds with
    | zero => exact pure .nil
    | succ rounds =>
      intro n
      refine ⟨[], n, .nil, fun rest stop errors hrest ↦ ?_⟩
      unfold Parser.manyUntil
      rw [Computation.bind_of_ok (hdone _)]
      simp only [List.nil_append, hrest, if_true]
      rfl
  | @cons us vs a as ha has ih =>
    intro rounds hrounds hlimit
    rw [List.length_append] at hlimit
    cases rounds with
    | zero => exact absurd hrounds (Nat.not_succ_le_zero _)
    | succ rounds =>
      have hfirst := hitem us a ha (by omega)
      have hrest := ih rounds (Nat.le_of_succ_le_succ hrounds) (by omega)
      have hboth : Complete (item >>= fun first ↦ Parser.manyUntil done item rounds >>= fun rest ↦
          Pure.pure (first :: rest)) (us ++ vs) (test · = true) (List.Forall₂ like (a :: as)) := by
        refine bind hfirst (fun rest htest ↦ ?_) fun b hb ↦
          map hrest fun bs hbs ↦ pure (.cons hb hbs)
        cases has with
        | nil => exact hend _ htest
        | cons hnext _ => exact List.append_assoc .. ▸ (hstart _ _ _ hnext).2
      intro n
      obtain ⟨bs, n', hbs, hp⟩ := hboth n
      refine ⟨bs, n', hbs, fun rest stop errors htest ↦ ?_⟩
      unfold Parser.manyUntil
      rw [Computation.bind_of_ok (hdone _), List.append_assoc, (hstart us a _ ha).1,
        ← List.append_assoc]
      exact hp rest stop errors htest

theorem limited {fault : SyntaxFault} {item : Parser β} {good : β → Prop} {index : Nat}
    (hindex : index < maxItems) (h : Complete item ts follow good) :
    Complete (Parser.limited fault item index) ts follow good := by
  unfold Parser.limited
  rw [if_neg (Nat.not_le_of_lt hindex)]
  exact h

theorem commaSeparated (fault : SyntaxFault) {item : Parser β} {limit : Nat}
    (hitem : ∀ us a, R us a → us.length ≤ limit → Complete item us follow (like a))
    (hcomma : ∀ t rest, t.kind = .comma → follow (t :: rest)) {as : List α}
    (h : Commas R ts as) :
    ∀ bound index, ts.length ≤ bound → ts.length ≤ limit → index + as.length ≤ maxItems →
      Complete (Parser.commaSeparated (Parser.limited fault item) bound index) ts
        (fun rest ↦ follow rest ∧ begins (· = .comma) rest = false) (List.Forall₂ like as) := by
  induction h with
  | @one us a ha =>
    intro bound index _ hlimit hindex
    have hfirst : Complete (Parser.limited fault item index) us
        (fun rest ↦ follow rest ∧ begins (· = .comma) rest = false) (like a) :=
      (limited (Nat.lt_of_succ_le hindex) (hitem us a ha hlimit)).mono (fun _ hrest ↦ hrest.1)
        fun _ hb ↦ hb
    cases bound with
    | zero => exact map hfirst fun b hb ↦ pure (.cons hb .nil)
    | succ bound =>
      refine map hfirst fun b hb ↦ accept_false (fun rest hrest ↦ hrest.2) ?_
      exact pure (.cons hb .nil)
  | @more us vs comma a as ha hk has ih =>
    intro bound index hbound hlimit hindex
    rw [List.length_append, List.length_cons] at hbound hlimit
    rw [List.length_cons] at hindex
    cases bound with
    | zero => omega
    | succ bound =>
      have hfirst : Complete (Parser.limited fault item index) us follow (like a) :=
        limited (by omega) (hitem us a ha (by omega))
      refine bind hfirst (fun rest _ ↦ hcomma _ _ hk) fun b hb ↦ accept_true hk ?_
      have hrest := ih bound (index + 1) (by omega) (by omega) (by omega)
      exact map hrest fun bs hbs ↦ pure (.cons hb hbs)

theorem listed (fault : SyntaxFault) {item : Parser β} {bound limit : Nat}
    (hitem : ∀ us a, R us a → us.length ≤ limit → Complete item us follow (like a))
    (hcomma : ∀ t rest, t.kind = .comma ∨ t.kind = .rightParen → follow (t :: rest))
    (hstart : ∀ us a rest, R us a → begins (· = .rightParen) (us ++ rest) = false) {as : List α}
    (h : Listed R ts as) (hbound : ts.length ≤ bound) (hlimit : ts.length ≤ limit) :
    Complete (Parser.listed bound fault item) ts (begins (· = .rightParen) · = true)
      (List.Forall₂ like as) := by
  cases h with
  | none =>
    refine check (fun rest hrest ↦ hrest) ?_
    exact pure .nil
  | some h hlength =>
    refine check (b := false) (fun rest _ ↦ ?_) ?_
    · cases h with
      | one h => exact hstart _ _ _ h
      | more h _ _ =>
        rw [List.append_assoc]
        exact hstart _ _ _ h
    · have hcommas := commaSeparated fault hitem
        (fun t rest ht ↦ hcomma t rest (.inl ht)) h bound 0 hbound hlimit
        (by simpa [maxItems] using hlength)
      refine hcommas.mono (fun rest hrest ↦ ?_) fun _ h ↦ h
      cases rest with
      | nil => exact absurd hrest (by simp)
      | cons t rest =>
        have ht : t.kind = .rightParen := by simpa using hrest
        exact ⟨hcomma t rest (.inr ht), by simp [ht]⟩

end Repetition

end Complete

/-! ### Expressions -/

/-- The kinds that go on a call or a property. -/
def extendsCall (kind : Kind) : Bool :=
  kind = .leftParen || kind = .dot

/-- The kinds that go on an operation of some levels. -/
def extendsOperation (levels : List Level) (kind : Kind) : Bool :=
  extendsCall kind || levels.any (·.isOperator kind)

/-- The kinds that go on an expression. -/
def extendsExpression (kind : Kind) : Bool :=
  extendsOperation levels kind || kind = .equal

theorem Stops.mono {extending extending' : Kind → Bool} {rest : List Token}
    (h : Stops extending rest)
    (himp : ∀ kind, extending' kind = true → extending kind = true) : Stops extending' rest := by
  unfold Stops at h ⊢
  cases hb : begins extending' rest with
  | false => rfl
  | true => exact absurd (begins_imp hb himp) (by simp [h])

namespace Complete

theorem chain_of_stops {level : Level} {rest : List Token} (h : Stops level.isOperator rest)
    (operand : Parser Expr) (bound : Nat) (e : Expr) (stop : Token) (n : NodeId)
    (errors : Array SyntaxError) :
    Parser.chain level operand bound e ⟨rest, stop, n, errors⟩ = .ok e ⟨rest, stop, n, errors⟩ := by
  cases bound with
  | zero => rfl
  | succ bound =>
    unfold Parser.chain
    rw [Computation.bind_of_ok (acceptIf_of_stops h)]
    rfl

/-- A chain is read from the left: behind its first operands and operators, as many rounds are used
up as there are operators, and the tree so far is that of the derivation. -/
theorem chain_prefix {level : Level} {operators : List Kind} {R : Phrase Expr}
    {operand : Parser Expr} {limit : Nat} {follow : List Token → Prop}
    (hoperators : ∀ kind ∈ operators, level.isOperator kind = true)
    (hfollow : ∀ op rest, op.kind ∈ operators → follow (op :: rest))
    (hnode : ∀ op {left left' right right' : Expr}, left.Renumbered left' →
      right.Renumbered right' →
      (level.node op left right).Renumbered (level.node op left' right'))
    (hoperand : ∀ us e, R us e → us.length ≤ limit → Complete operand us follow e.Renumbered)
    {ts : List Token} {e : Expr} (h : Chain operators level.node R ts e)
    (hlimit : ts.length ≤ limit) :
    ∀ n, ∃ e' n' count, e.Renumbered e' ∧ count ≤ ts.length ∧
      ∀ bound rest stop errors, follow rest →
        (operand >>= fun left ↦ Parser.chain level operand (bound + count) left)
            ⟨ts ++ rest, stop, n, errors⟩ =
          Parser.chain level operand bound e' ⟨rest, stop, n', errors⟩ := by
  induction h with
  | one h =>
    intro n
    obtain ⟨e', n', he, hp⟩ := hoperand _ _ h hlimit n
    refine ⟨e', n', 0, he, Nat.zero_le _, fun bound rest stop errors hrest ↦ ?_⟩
    rw [Computation.bind_of_ok (hp rest stop errors hrest), Nat.add_zero]
  | @more ts us op left right hleft hop hright ih =>
    intro n
    rw [List.length_append, List.length_cons] at hlimit
    obtain ⟨left', m, count, hl, hcount, hp⟩ := ih (by omega) n
    obtain ⟨right', n', hr, hq⟩ := hoperand us right hright (by omega) m
    refine ⟨level.node op left' right', n', count + 1, hnode op hl hr, ?_, ?_⟩
    · rw [List.length_append, List.length_cons]
      omega
    · intro bound rest stop errors hrest
      have hbound : bound + (count + 1) = bound + 1 + count := by omega
      rw [hbound, List.append_assoc, List.cons_append, hp _ _ _ _ (hfollow op _ hop)]
      conv_lhs => unfold Parser.chain
      rw [Computation.bind_of_ok (acceptIf_of_wanted (hoperators _ hop) ..)]
      exact Computation.bind_of_ok (hq rest stop errors hrest)

/-- A level of operators reads chains of what the tighter levels read. -/
theorem level (level : Level) (operators : List Kind) {tighter : List Level} {R : Phrase Expr}
    {operand : Parser Expr} {bound : Nat}
    (hoperators : ∀ kind ∈ operators, level.isOperator kind = true)
    (hapart : ∀ kind ∈ operators, extendsOperation tighter kind = false)
    (hnode : ∀ op {left left' right right' : Expr}, left.Renumbered left' →
      right.Renumbered right' →
      (level.node op left right).Renumbered (level.node op left' right'))
    (hoperand : ∀ us e, R us e → us.length ≤ bound →
      Complete (Parser.operators bound operand tighter) us (Stops (extendsOperation tighter))
        e.Renumbered)
    (ts : List Token) (e : Expr) (h : Chain operators level.node R ts e)
    (hbound : ts.length ≤ bound) :
    Complete (Parser.operators bound operand (level :: tighter)) ts
      (Stops (extendsOperation (level :: tighter))) e.Renumbered := by
  intro n
  obtain ⟨e', n', count, he, hcount, hp⟩ := chain_prefix hoperators
    (fun op rest hop ↦ hapart _ hop) hnode hoperand h hbound n
  refine ⟨e', n', he, fun rest stop errors hrest ↦ ?_⟩
  have htighter : Stops (extendsOperation tighter) rest :=
    hrest.mono fun kind hkind ↦ by
      simp only [extendsOperation, List.any_cons, Bool.or_eq_true] at hkind ⊢
      exact hkind.imp_right .inr
  have hlevel : Stops level.isOperator rest :=
    hrest.mono fun kind hkind ↦ by simp [extendsOperation, hkind]
  have hsplit := hp (bound - count) rest stop errors htighter
  rw [Nat.sub_add_cancel (by omega)] at hsplit
  calc Parser.operators bound operand (level :: tighter) ⟨ts ++ rest, stop, n, errors⟩
    _ = Parser.chain level (Parser.operators bound operand tighter) (bound - count) e'
        ⟨rest, stop, n', errors⟩ := hsplit
    _ = .ok e' ⟨rest, stop, n', errors⟩ := chain_of_stops hlevel ..

theorem operators {operand : Parser Expr} {bound : Nat}
    (hoperand : ∀ us e, Unary us e → us.length ≤ bound →
      Complete operand us (Stops extendsCall) e.Renumbered) (ts : List Token) (e : Expr)
    (h : LogicOr ts e) (hbound : ts.length ≤ bound) :
    Complete (Parser.operators bound operand levels) ts (Stops (extendsOperation levels))
      e.Renumbered := by
  have hunary : ∀ us e, Unary us e → us.length ≤ bound →
      Complete (Parser.operators bound operand []) us (Stops (extendsOperation []))
        e.Renumbered := by
    intro us e h hlength
    exact (hoperand us e h hlength).mono
      (fun _ hrest ↦ hrest.mono fun kind hkind ↦ by simp [extendsOperation, hkind]) fun _ h ↦ h
  have hfactor := level ⟨fun kind ↦ kind = .slash || kind = .star, .binary⟩ [.slash, .star]
    (by decide) (by decide) (fun _ ↦ .binary rfl) hunary
  have hterm := level ⟨fun kind ↦ kind = .minus || kind = .plus, .binary⟩ [.minus, .plus]
    (by decide) (by decide) (fun _ ↦ .binary rfl)
    fun us e (h : Factor us e) ↦ hfactor us e (by cases h; assumption)
  have hcomparison := level
    ⟨fun kind ↦ kind = .greater || kind = .greaterEqual || kind = .less || kind = .lessEqual,
      .binary⟩
    [.greater, .greaterEqual, .less, .lessEqual] (by decide) (by decide)
    (fun _ ↦ .binary rfl) fun us e (h : Term us e) ↦ hterm us e (by cases h; assumption)
  have hequality := level ⟨fun kind ↦ kind = .bangEqual || kind = .equalEqual, .binary⟩
    [.bangEqual, .equalEqual] (by decide) (by decide) (fun _ ↦ .binary rfl)
    fun us e (h : Comparison us e) ↦ hcomparison us e (by cases h; assumption)
  have hand := level ⟨(· = .andWord), .logical⟩ [.andWord] (by decide)
    (by decide) (fun _ ↦ .logical rfl)
    fun us e (h : Equality us e) ↦ hequality us e (by cases h; assumption)
  have hor := level ⟨(· = .orWord), .logical⟩ [.orWord] (by decide)
    (by decide) (fun _ ↦ .logical rfl)
    fun us e (h : LogicAnd us e) ↦ hand us e (by cases h; assumption)
  obtain ⟨h⟩ := h
  exact hor ts e h hbound

/-- How expressions inside an expression are read. -/
def Nested (nested : Parser Expr) (bound : Nat) : Prop :=
  ∀ us e, Expression us e → us.length ≤ bound →
    Complete nested us (Stops extendsExpression) e.Renumbered

theorem stops_extendsExpression {kind : Kind} {t : Token} (ht : t.kind = kind)
    (hkind : extendsExpression kind = false) (rest : List Token) :
    Stops extendsExpression (t :: rest) :=
  .of_begins (decide_eq_true ht) hkind

theorem primary {nested : Parser Expr} {bound : Nat} (hnested : Nested nested bound)
    {ts : List Token} {e : Expr} (h : Primary ts e) (hbound : ts.length ≤ bound + 1)
    (follow : List Token → Prop) : Complete (Parser.primary nested) ts follow e.Renumbered := by
  cases h with
  | number h => exact acceptIf_some (by simp [h, startsPrimary]) (by
      simp only [primaryAfter, h]; exact pure (.literal _))
  | string h => exact acceptIf_some (by simp [h, startsPrimary]) (by
      simp only [primaryAfter, h]; exact pure (.literal _))
  | trueWord h => exact acceptIf_some (by simp [h, startsPrimary]) (by
      simp only [primaryAfter, h]; exact pure (.literal _))
  | falseWord h => exact acceptIf_some (by simp [h, startsPrimary]) (by
      simp only [primaryAfter, h]; exact pure (.literal _))
  | nilWord h => exact acceptIf_some (by simp [h, startsPrimary]) (by
      simp only [primaryAfter, h]; exact pure (.literal _))
  | this h => exact acceptIf_some (by simp [h, startsPrimary]) (by
      simp only [primaryAfter, h]
      exact freshId fun id ↦ pure (.this trivial rfl))
  | ident h => exact acceptIf_some (by simp [h, startsPrimary]) (by
      simp only [primaryAfter, h]
      exact freshId fun id ↦ pure (.var trivial rfl))
  | @grouping left right us e hleft h hright =>
    refine acceptIf_some (by simp [hleft, startsPrimary]) ?_
    simp only [primaryAfter, hleft]
    have hlength : us.length ≤ bound := by
      simp only [List.length_cons, List.length_append] at hbound
      omega
    refine bind (hnested us e h hlength) (fun rest _ ↦ ?_) fun e' he ↦ expect hright ?_
    · exact stops_extendsExpression hright rfl _
    · exact pure (.grouping he)
  | super hkeyword hdot hmethod =>
    refine acceptIf_some (by simp [hkeyword, startsPrimary]) ?_
    simp only [primaryAfter, hkeyword]
    exact expect hdot (expect hmethod (freshId fun id ↦ pure (.super trivial rfl rfl)))

theorem arguments {nested : Parser Expr} {bound : Nat} (hnested : Nested nested bound)
    {ts : List Token} {es : List Expr} (h : Listed Expression ts es) (hbound : ts.length ≤ bound)
    {right : Token} (hright : right.kind = .rightParen) (follow : List Token → Prop) :
    Complete (Parser.arguments (bound + 1) nested) (ts ++ [right]) follow fun a ↦
      List.Forall₂ Expr.Renumbered es a.1 ∧ a.2 = right := by
  have hlist := listed .tooManyArguments hnested
    (fun t rest ht ↦ ht.elim (stops_extendsExpression · rfl rest)
      (stops_extendsExpression · rfl rest))
    (fun us e rest hus ↦ begins_eq_false_of_begins hus.begins rfl rest) h
    (Nat.le_succ_of_le hbound) hbound
  refine bind hlist (fun rest _ ↦ by simp [hright]) fun es' hes ↦ expect hright ?_
  exact pure ⟨hes, rfl⟩

/-- Calls and properties are read from the left, a round for each. -/
theorem suffixes_prefix {nested : Parser Expr} {bound : Nat} (hnested : Nested nested bound)
    {ts : List Token} {e : Expr} (h : Suffixed Expression Primary ts e)
    (hbound : ts.length ≤ bound + 1) :
    ∀ n, ∃ e' n' count, e.Renumbered e' ∧ count + 1 ≤ ts.length ∧
      ∀ rounds rest stop errors,
        (Parser.primary nested >>= fun e ↦ Parser.suffixes (bound + 1) nested (rounds + count) e)
            ⟨ts ++ rest, stop, n, errors⟩ =
          Parser.suffixes (bound + 1) nested rounds e' ⟨rest, stop, n', errors⟩ := by
  induction h with
  | bare h =>
    intro n
    obtain ⟨e', n', he, hp⟩ := primary hnested h hbound (fun _ ↦ True) n
    refine ⟨e', n', 0, he, length_pos_of_begins h.begins, fun rounds rest stop errors ↦ ?_⟩
    exact Computation.bind_of_ok (hp rest stop errors trivial)
  | @call ts us left right e es h hleft hes hright ih =>
    intro n
    simp only [List.length_append, List.length_cons, List.length_nil] at hbound
    obtain ⟨e', m, count, he, hcount, hp⟩ := ih (by omega) n
    obtain ⟨a, n', ⟨hargs, hparen⟩, hq⟩ :=
      arguments hnested hes (by omega) hright (fun _ ↦ True) m
    refine ⟨.call e' a.2 a.1, n', count + 1, ?_, ?_, ?_⟩
    · rw [hparen]
      exact .call he rfl hargs
    · simp only [List.length_append, List.length_cons]
      omega
    · intro rounds rest stop errors
      have hrounds : rounds + (count + 1) = rounds + 1 + count := by omega
      rw [hrounds, List.append_assoc, List.cons_append, hp]
      conv_lhs => unfold Parser.suffixes
      have haccept : Parser.accept .leftParen ⟨left :: (us ++ [right] ++ rest), stop, m, errors⟩ =
          .ok true ⟨us ++ [right] ++ rest, stop, m, errors⟩ :=
        Computation.bind_of_ok (acceptIf_of_wanted (by simpa using hleft) ..)
      rw [Computation.bind_of_ok haccept]
      exact Computation.bind_of_ok (hq rest stop errors trivial)
  | @property ts dot name e h hdot hname ih =>
    intro n
    simp only [List.length_append, List.length_cons, List.length_nil] at hbound
    obtain ⟨e', m, count, he, hcount, hp⟩ := ih (by omega) n
    refine ⟨.get e' name, m, count + 1, .get he rfl, ?_, ?_⟩
    · simp only [List.length_append, List.length_cons]
      omega
    · intro rounds rest stop errors
      have hrounds : rounds + (count + 1) = rounds + 1 + count := by omega
      rw [hrounds, List.append_assoc, hp]
      conv_lhs => unfold Parser.suffixes
      have hleft : Parser.accept .leftParen ⟨[dot, name] ++ rest, stop, m, errors⟩ =
          .ok false ⟨[dot, name] ++ rest, stop, m, errors⟩ :=
        Computation.bind_of_ok (acceptIf_of_stops (by simp [Stops, hdot]))
      have haccept : Parser.accept .dot ⟨[dot, name] ++ rest, stop, m, errors⟩ =
          .ok true ⟨[name] ++ rest, stop, m, errors⟩ :=
        Computation.bind_of_ok (acceptIf_of_wanted (by simpa using hdot) ..)
      have hexpect : Parser.expect .identifier .expectPropertyName
          ⟨[name] ++ rest, stop, m, errors⟩ = .ok name ⟨rest, stop, m, errors⟩ :=
        Computation.bind_of_ok (acceptIf_of_wanted (by simpa using hname) ..)
      rw [Computation.bind_of_ok hleft, if_neg Bool.false_ne_true, Computation.bind_of_ok haccept,
        if_pos rfl]
      exact Computation.bind_of_ok hexpect

theorem suffixes_of_stops {rest : List Token} (h : Stops extendsCall rest) (bound : Nat)
    (nested : Parser Expr) (rounds : Nat) (e : Expr) (stop : Token) (n : NodeId)
    (errors : Array SyntaxError) :
    Parser.suffixes bound nested rounds e ⟨rest, stop, n, errors⟩ =
      .ok e ⟨rest, stop, n, errors⟩ := by
  cases rounds with
  | zero => rfl
  | succ rounds =>
    have hleft : Parser.accept .leftParen ⟨rest, stop, n, errors⟩ =
        .ok false ⟨rest, stop, n, errors⟩ :=
      Computation.bind_of_ok (acceptIf_of_stops (h.mono fun _ hkind ↦ by
        simp [extendsCall, of_decide_eq_true hkind]))
    have hdot : Parser.accept .dot ⟨rest, stop, n, errors⟩ = .ok false ⟨rest, stop, n, errors⟩ :=
      Computation.bind_of_ok (acceptIf_of_stops (h.mono fun _ hkind ↦ by
        simp [extendsCall, of_decide_eq_true hkind]))
    unfold Parser.suffixes
    rw [Computation.bind_of_ok hleft]
    exact Computation.bind_of_ok hdot

theorem call {nested : Parser Expr} {bound : Nat} (hnested : Nested nested bound)
    {ts : List Token} {e : Expr} (h : Call ts e) (hbound : ts.length ≤ bound + 1) :
    Complete (Parser.primary nested >>= fun e ↦ Parser.suffixes (bound + 1) nested (bound + 1) e) ts
      (Stops extendsCall) e.Renumbered := by
  obtain ⟨h⟩ := h
  intro n
  obtain ⟨e', n', count, he, hcount, hp⟩ := suffixes_prefix hnested h hbound n
  refine ⟨e', n', he, fun rest stop errors hrest ↦ ?_⟩
  have hsplit := hp (bound + 1 - count) rest stop errors
  rw [Nat.sub_add_cancel (by omega)] at hsplit
  calc
    _ = Parser.suffixes (bound + 1) nested (bound + 1 - count) e' ⟨rest, stop, n', errors⟩ := hsplit
    _ = .ok e' ⟨rest, stop, n', errors⟩ := suffixes_of_stops hrest ..

theorem signs {operand : Parser Expr} {limit : Nat}
    (hoperand : ∀ us e, Call us e → us.length ≤ limit →
      Complete operand us (Stops extendsCall) e.Renumbered) :
    ∀ bound ts e, Unary ts e → ts.length ≤ bound → bound ≤ limit →
      Complete (Parser.signs operand bound) ts (Stops extendsCall) e.Renumbered := by
  intro bound
  induction bound with
  | zero =>
    intro ts e h hbound _
    exact absurd (length_pos_of_begins h.begins) (by omega)
  | succ bound ih =>
    intro ts e h hbound hlimit
    cases h with
    | sign hop h =>
      rw [List.length_cons] at hbound
      refine acceptIf_some (by simpa [isSign] using hop) ?_
      exact map (ih _ _ h (by omega) (by omega)) fun e' he ↦ pure (.unary rfl he)
    | call h =>
      refine acceptIf_none (fun rest _ ↦ ?_) (hoperand _ _ h (Nat.le_trans hbound hlimit))
      exact begins_append_eq_false h.begins
        (fun kind hkind ↦ by cases kind <;> first | rfl | simp [startsPrimary] at hkind) rest

theorem operation {nested : Parser Expr} {bound : Nat} (hnested : Nested nested bound)
    {ts : List Token} {e : Expr} (h : LogicOr ts e) (hbound : ts.length ≤ bound + 1) :
    Complete (Parser.operation (bound + 1) nested) ts (Stops (extendsOperation levels))
      e.Renumbered := by
  refine operators (fun us e h hlength ↦ ?_) ts e h hbound
  exact signs (fun us e h hlength ↦ call hnested h hlength) _ us e h hlength (Nat.le_refl _)

/-- What is assigned to is read as an operation first. -/
theorem assignment_of_target {nested : Parser Expr} {bound : Nat} (hnested : Nested nested bound)
    {ts us : List Token} {target value e : Expr} {equals : Token} (htarget : LogicOr ts target)
    (hequals : equals.kind = .equal) (hvalue : Expression us value)
    (hbound : ts.length + us.length ≤ bound)
    (hassign : ∀ target' value', target.Renumbered target' → value.Renumbered value' →
      Complete (Parser.assignTo target' equals value') [] (Stops extendsExpression)
        e.Renumbered) :
    Complete (Parser.assignment (bound + 1) nested) (ts ++ equals :: us) (Stops extendsExpression)
      e.Renumbered := by
  refine bind (operation hnested htarget (by omega)) (fun rest _ ↦ ?_) fun target' ht ↦ ?_
  · rw [List.cons_append, Stops, begins_cons, hequals]
    rfl
  · refine acceptIf_some (by simpa using hequals) ?_
    exact map (hnested us value hvalue (by omega)) fun value' hv ↦ hassign target' value' ht hv

theorem assignment {nested : Parser Expr} {bound : Nat} (hnested : Nested nested bound)
    {ts : List Token} {e : Expr} (h : Expression ts e) (hbound : ts.length ≤ bound + 1) :
    Complete (Parser.assignment (bound + 1) nested) ts (Stops extendsExpression) e.Renumbered := by
  cases h with
  | @assign id name equals us value hname hequals hvalue =>
    rw [List.length_cons, List.length_cons] at hbound
    have htarget : LogicOr [name] (.var 0 name) := Call.logicOr (.mk (.bare (.ident hname)))
    change Complete _ ([name] ++ equals :: us) _ _
    refine assignment_of_target hnested htarget hequals hvalue ?_ ?_
    · rw [List.length_singleton]
      omega
    · rintro target' value' ⟨⟩ hv
      subst_vars
      exact freshId fun id ↦ pure (.assign trivial rfl hv)
  | @set ts us dot name equals object value hobject hdot hname hequals hvalue =>
    have htokens : ts ++ dot :: name :: equals :: us = ts ++ [dot, name] ++ equals :: us := by
      simp
    rw [htokens, List.length_append, List.length_cons] at hbound
    rw [htokens]
    obtain ⟨hobject⟩ := hobject
    refine assignment_of_target hnested (Call.logicOr (.mk (.property hobject hdot hname)))
      hequals hvalue (by omega) ?_
    rintro target' value' ⟨⟩ hv
    subst_vars
    exact pure (.set ‹_› rfl hv)
  | operation h =>
    have htarget : Complete (Parser.operation (bound + 1) nested) ts (Stops extendsExpression)
        e.Renumbered :=
      (operation hnested h hbound).mono
        (fun rest hrest ↦ hrest.mono fun kind hkind ↦ by simp [extendsExpression, hkind])
        fun _ h ↦ h
    refine map htarget fun e' he ↦ acceptIf_none (fun rest hrest ↦ ?_) (pure he)
    exact hrest.mono fun kind hkind ↦ by simp [extendsExpression, of_decide_eq_true hkind]

theorem expression : ∀ bound, Nested (Parser.expression bound) bound
  | 0, _, _, h, hbound => absurd (length_pos_of_begins h.begins) (by omega)
  | bound + 1, _, _, h, hbound => assignment (expression bound) h hbound

end Complete

end Parser

end Lox
