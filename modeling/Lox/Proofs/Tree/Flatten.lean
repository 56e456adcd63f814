import Lox.Tree.Basic
import Mathlib.Data.List.Forall2

/-!
# Flat expressions

An expression is flattened into its tokens from left to right.  Parentheses are not added: where the
tree does not respect how tightly the operators bind, its tokens are those of another tree.
-/

namespace Lox

/-- How tightly a binary operator binds; other kinds have no precedence. -/
def Kind.precedence : Kind → Nat
  | .orWord => 1
  | .andWord => 2
  | .bangEqual | .equalEqual => 3
  | .greater | .greaterEqual | .less | .lessEqual => 4
  | .minus | .plus => 5
  | .slash | .star => 6
  | _ => 0

theorem Kind.precedence_le (kind : Kind) : kind.precedence ≤ 6 := by
  unfold Kind.precedence
  split <;> decide

theorem Kind.ne_endOfInput_of_precedence {kind : Kind} (h : 1 ≤ kind.precedence) :
    kind ≠ .endOfInput := by
  rintro rfl
  cases h

def Literal.kind : Literal → Kind
  | .nil => .nilWord
  | .bool true => .trueWord
  | .bool false => .falseWord
  | .number value => .number value
  | .string text => .string text

/-- A token that no tree keeps, so that only its kind matters. -/
def Token.ofKind (kind : Kind) : Token :=
  ⟨kind, "", 1, 1⟩

/-- Tokens with the same kind, value and, if they are names, text. -/
structure Token.Agrees (t u : Token) : Prop where
  kind : t.kind = u.kind
  lexeme : t.kind = .identifier → t.lexeme = u.lexeme

theorem Token.Agrees.refl (t : Token) : t.Agrees t :=
  ⟨rfl, fun _ ↦ rfl⟩

theorem Token.Agrees.ofKind {kind : Kind} {t : Token} (h : t.kind = kind)
    (hkind : kind ≠ .identifier) : (Token.ofKind kind).Agrees t :=
  ⟨h.symm, fun hname ↦ absurd hname hkind⟩

namespace Expr

/-- How tightly the root of a tree binds: assignments 0, binary operators 1 to 6, signs 7, calls and
properties 8, everything else 9. -/
def rank : Expr → Nat
  | assign .. | set .. => 0
  | logical op .. | binary op .. => op.kind.precedence
  | unary .. => 7
  | call .. | get .. => 8
  | literal .. | grouping .. | var .. | this .. | super .. => 9

mutual

/-- The tokens of an expression from left to right. -/
def flatten : Expr → List Token
  | literal value => [.ofKind value.kind]
  | grouping inner => .ofKind .leftParen :: (inner.flatten ++ [.ofKind .rightParen])
  | unary op operand => op :: operand.flatten
  | binary op left right | logical op left right => left.flatten ++ op :: right.flatten
  | var _ name => [name]
  | assign _ name value => name :: .ofKind .equal :: value.flatten
  | call callee paren arguments =>
    callee.flatten ++ .ofKind .leftParen :: (flattenAll arguments ++ [paren])
  | get object name => object.flatten ++ [.ofKind .dot, name]
  | set object name value =>
    object.flatten ++ .ofKind .dot :: name :: .ofKind .equal :: value.flatten
  | this _ keyword => [keyword]
  | super _ keyword method => [keyword, .ofKind .dot, method]

/-- The tokens of arguments with commas between them. -/
def flattenAll : List Expr → List Token
  | [] => []
  | [e] => e.flatten
  | e :: es => e.flatten ++ .ofKind .comma :: flattenAll es

end

mutual

/-- The levels of the grammar are respected: a left operand binds at least as tightly as its
operator and a right operand more tightly, so that operators of one level group to the left;
assignments group to the right; a sign stands before a sign or a call; and what is called or has a
property is a call or a primary.  A call has at most 255 arguments. -/
def Respects : Expr → Prop
  | literal _ => True
  | grouping inner => inner.Respects
  | unary op operand =>
    (op.kind = .bang ∨ op.kind = .minus) ∧ 7 ≤ operand.rank ∧ operand.Respects
  | binary op left right =>
    3 ≤ op.kind.precedence ∧ op.kind.precedence ≤ left.rank ∧ op.kind.precedence < right.rank ∧
      left.Respects ∧ right.Respects
  | logical op left right =>
    (op.kind = .orWord ∨ op.kind = .andWord) ∧ op.kind.precedence ≤ left.rank ∧
      op.kind.precedence < right.rank ∧ left.Respects ∧ right.Respects
  | var _ name => name.kind = .identifier
  | assign _ name value => name.kind = .identifier ∧ value.Respects
  | call callee paren arguments =>
    paren.kind = .rightParen ∧ 8 ≤ callee.rank ∧ callee.Respects ∧ arguments.length ≤ 255 ∧
      RespectsAll arguments
  | get object name => name.kind = .identifier ∧ 8 ≤ object.rank ∧ object.Respects
  | set object name value =>
    name.kind = .identifier ∧ 8 ≤ object.rank ∧ object.Respects ∧ value.Respects
  | this _ keyword => keyword.kind = .thisWord
  | super _ keyword method => keyword.kind = .superWord ∧ method.kind = .identifier

def RespectsAll : List Expr → Prop
  | [] => True
  | e :: es => e.Respects ∧ RespectsAll es

end

theorem rank_le (e : Expr) : e.rank ≤ 9 := by
  cases e with
  | binary op left right => exact Nat.le_trans op.kind.precedence_le (by decide)
  | logical op left right => exact Nat.le_trans op.kind.precedence_le (by decide)
  | _ => simp [rank]

mutual

theorem kind_of_mem_flatten (e : Expr) (h : e.Respects) :
    ∀ t ∈ e.flatten, t.kind ≠ .endOfInput := by
  have hlast : ∀ {t : Token} {kind : Kind}, t.kind = kind → kind ≠ .endOfInput →
      ∀ u ∈ [t], u.kind ≠ .endOfInput := by
    intro t kind ht hkind u hu
    rw [List.mem_singleton.1 hu, ht]
    exact hkind
  cases e with
  | literal value =>
    rw [flatten]
    refine hlast rfl ?_
    cases value with
    | bool b => cases b <;> exact nofun
    | _ => exact nofun
  | grouping inner =>
    rw [Respects] at h
    rw [flatten, List.forall_mem_cons, List.forall_mem_append]
    exact ⟨nofun, kind_of_mem_flatten inner h, hlast rfl nofun⟩
  | unary op operand =>
    rw [Respects] at h
    rw [flatten, List.forall_mem_cons]
    refine ⟨?_, kind_of_mem_flatten operand h.2.2⟩
    rcases h.1 with hop | hop
    · exact hop ▸ nofun
    · exact hop ▸ nofun
  | binary op left right =>
    rw [Respects] at h
    obtain ⟨hop, -, -, hleft, hright⟩ := h
    rw [flatten, List.forall_mem_append, List.forall_mem_cons]
    exact ⟨kind_of_mem_flatten left hleft, Kind.ne_endOfInput_of_precedence (by omega),
      kind_of_mem_flatten right hright⟩
  | logical op left right =>
    rw [Respects] at h
    obtain ⟨hop, -, -, hleft, hright⟩ := h
    rw [flatten, List.forall_mem_append, List.forall_mem_cons]
    refine ⟨kind_of_mem_flatten left hleft, ?_, kind_of_mem_flatten right hright⟩
    rcases hop with hop | hop
    · exact hop ▸ nofun
    · exact hop ▸ nofun
  | var id name =>
    rw [Respects] at h
    rw [flatten]
    exact hlast h nofun
  | assign id name value =>
    rw [Respects] at h
    rw [flatten, List.forall_mem_cons, List.forall_mem_cons]
    exact ⟨h.1 ▸ nofun, nofun, kind_of_mem_flatten value h.2⟩
  | call callee paren arguments =>
    rw [Respects] at h
    obtain ⟨hparen, -, hcallee, -, harguments⟩ := h
    rw [flatten, List.forall_mem_append, List.forall_mem_cons, List.forall_mem_append]
    exact ⟨kind_of_mem_flatten callee hcallee, nofun, kind_of_mem_flattenAll arguments harguments,
      hlast hparen nofun⟩
  | get object name =>
    rw [Respects] at h
    rw [flatten, List.forall_mem_append, List.forall_mem_cons]
    exact ⟨kind_of_mem_flatten object h.2.2, nofun, hlast h.1 nofun⟩
  | set object name value =>
    rw [Respects] at h
    obtain ⟨hname, -, hobject, hvalue⟩ := h
    rw [flatten, List.forall_mem_append, List.forall_mem_cons, List.forall_mem_cons,
      List.forall_mem_cons]
    exact ⟨kind_of_mem_flatten object hobject, nofun, hname ▸ nofun, nofun,
      kind_of_mem_flatten value hvalue⟩
  | this id keyword =>
    rw [Respects] at h
    rw [flatten]
    exact hlast h nofun
  | super id keyword method =>
    rw [Respects] at h
    rw [flatten, List.forall_mem_cons, List.forall_mem_cons]
    exact ⟨h.1 ▸ nofun, nofun, hlast h.2 nofun⟩

theorem kind_of_mem_flattenAll (es : List Expr) (h : RespectsAll es) :
    ∀ t ∈ flattenAll es, t.kind ≠ .endOfInput := by
  match es, h with
  | [], _ => exact List.forall_mem_nil _
  | [e], h =>
    rw [RespectsAll] at h
    exact kind_of_mem_flatten e h.1
  | e :: e' :: es, h =>
    rw [RespectsAll] at h
    rw [flattenAll, List.forall_mem_append, List.forall_mem_cons]
    · exact ⟨kind_of_mem_flatten e h.1, nofun, kind_of_mem_flattenAll (e' :: es) h.2⟩
    · exact List.cons_ne_nil _ _

end

end Expr

end Lox
