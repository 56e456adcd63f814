import Lox.Proofs.Grammar.Levels
import Lox.Proofs.Parser.Completeness
import Lox.Proofs.Parser.Soundness
import Lox.Token.Scan

/-!
# Reading inverts flattening

In front of a token that cannot go on an expression, the tokens of a tree that respects the levels
of the grammar are read as this tree.  Whatever is read without errors is such a tree, and the
tokens taken are its tokens.
-/

namespace Lox

theorem Parser.extendsExpression_eq_false {kind : Kind} (hoperator : kind.precedence = 0)
    (hequal : kind ≠ .equal) (hparen : kind ≠ .leftParen) (hdot : kind ≠ .dot) :
    Parser.extendsExpression kind = false := by
  cases kind <;> first | rfl | contradiction

/-- The tokens of a tree that respects the levels are read as this tree. -/
theorem readExpression_flatten {e : Expr} (he : e.Respects) {next : Token}
    (hnext : Parser.extendsExpression next.kind = false) (n : NodeId) (rest : List Token) :
    ∃ read, (readExpression n (e.flatten ++ next :: rest)).result = some read ∧
      (readExpression n (e.flatten ++ next :: rest)).errors = [] ∧ e.Renumbered read := by
  have hderived : Grammar.Expression e.flatten e := Grammar.derives_flatten e he (Nat.zero_le _)
  have htokens : (e.flatten ++ next :: rest).takeWhile (·.kind ≠ .endOfInput) =
      e.flatten ++ (next :: rest).takeWhile (·.kind ≠ .endOfInput) := by
    apply List.takeWhile_append_of_pos
    intro t ht
    exact decide_eq_true (e.kind_of_mem_flatten he t ht)
  have hstops : Parser.Stops Parser.extendsExpression
      ((next :: rest).takeWhile (·.kind ≠ .endOfInput)) := by
    rw [List.takeWhile_cons]
    split
    · exact hnext
    · rfl
  have hlength : e.flatten.length ≤
      ((e.flatten ++ next :: rest).takeWhile (·.kind ≠ .endOfInput)).length := by
    rw [htokens, List.length_append]
    exact Nat.le_add_right _ _
  obtain ⟨read, next', hread, hparse⟩ := Parser.Complete.expression _ _ _ hderived hlength n
  have hends := hparse _ (Parser.stopOf (e.flatten ++ next :: rest)) #[] hstops
  rw [← htokens] at hends
  have hreading : readExpression n (e.flatten ++ next :: rest) = ⟨some read, [], next'⟩ := by
    unfold readExpression Parser.State.start
    dsimp only
    rw [hends]
  rw [hreading]
  exact ⟨read, rfl, rfl, hread⟩

/-- What is read without errors respects the levels, and what was taken are its tokens. -/
theorem flatten_of_readExpression {n : NodeId} {tokens : List Token} {e : Expr}
    (hresult : (readExpression n tokens).result = some e)
    (herrors : (readExpression n tokens).errors = []) :
    ∃ taken final, (Parser.State.start n tokens).rest = taken ++ final.rest ∧
      Parser.expression (Parser.State.start n tokens).rest.length (.start n tokens) = .ok e final ∧
      e.Respects ∧ List.Forall₂ Token.Agrees e.flatten taken := by
  obtain ⟨taken, final, htaken, hparse, hderived⟩ := derived_of_readExpression hresult herrors
  obtain ⟨-, hrespects, hagrees⟩ := Grammar.respects_of_derives e (Nat.zero_le _) hderived
  exact ⟨taken, final, htaken, hparse, hrespects, hagrees⟩

/-- Reading expressions inverts flattening.  In front of a token that is no operator, `=`, `(` or
`.`, the tokens of a tree that respects the levels of the grammar are read as this tree, up to
identifiers; and what is read without errors is such a tree, whose tokens are those taken. -/
theorem readExpression_inverts_flatten (n : NodeId) :
    (∀ (e : Expr) (next : Token) (rest : List Token), e.Respects → next.kind.precedence = 0 →
      next.kind ≠ .equal → next.kind ≠ .leftParen → next.kind ≠ .dot →
        ∃ read, (readExpression n (e.flatten ++ next :: rest)).result = some read ∧
          (readExpression n (e.flatten ++ next :: rest)).errors = [] ∧ e.Renumbered read) ∧
      ∀ (tokens : List Token) (e : Expr), (readExpression n tokens).result = some e →
        (readExpression n tokens).errors = [] →
          ∃ taken final, (Parser.State.start n tokens).rest = taken ++ final.rest ∧
            Parser.expression (Parser.State.start n tokens).rest.length (.start n tokens) =
              .ok e final ∧
            e.Respects ∧ List.Forall₂ Token.Agrees e.flatten taken := by
  constructor
  · intro e next rest he hoperator hequal hparen hdot
    have hnext := Parser.extendsExpression_eq_false hoperator hequal hparen hdot
    exact readExpression_flatten he hnext n rest
  · intro tokens e hresult herrors
    exact flatten_of_readExpression hresult herrors

/-- The tree of `a(c).b = c or -a * b` is read back from its tokens, and `a = b.c = -d` is read as a
tree that respects the levels. -/
theorem readExpression_inverts_flatten_set :
    (∃ read, (readExpression 0 ((Expr.set
          (.call (.var 0 ⟨.identifier, "a", 1, 1⟩) ⟨.rightParen, ")", 1, 4⟩
            [.var 0 ⟨.identifier, "c", 1, 3⟩])
          ⟨.identifier, "b", 1, 6⟩
          (.logical ⟨.orWord, "or", 1, 12⟩ (.var 0 ⟨.identifier, "c", 1, 10⟩)
            (.binary ⟨.star, "*", 1, 18⟩
              (.unary ⟨.minus, "-", 1, 15⟩ (.var 0 ⟨.identifier, "a", 1, 16⟩))
              (.var 0 ⟨.identifier, "b", 1, 20⟩)))).flatten ++
        [⟨.semicolon, ";", 1, 21⟩, ⟨.endOfInput, "", 1, 22⟩])).result = some read) ∧
      ∃ e, (readExpression 0 (tokens "a = b.c = -d")).result = some e ∧ e.Respects := by
  constructor
  · have hinverts := fun e ↦ (readExpression_inverts_flatten 0).1 e ⟨.semicolon, ";", 1, 21⟩
      [⟨.endOfInput, "", 1, 22⟩]
    refine (hinverts _ ?_ rfl nofun nofun nofun).imp fun read hread ↦ hread.1
    simp [Expr.Respects, Expr.RespectsAll, Expr.rank, Kind.precedence]
  · have hread : (readExpression 0 (tokens "a = b.c = -d")).result.isSome = true ∧
        (readExpression 0 (tokens "a = b.c = -d")).errors = [] := by
      decide +kernel
    obtain ⟨e, he⟩ := Option.isSome_iff_exists.1 hread.1
    obtain ⟨taken, final, -, -, hrespects, -⟩ :=
      (readExpression_inverts_flatten 0).2 _ e he hread.2
    exact ⟨e, he, hrespects⟩

end Lox
