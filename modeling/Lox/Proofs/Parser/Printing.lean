import Lox.Proofs.Grammar.Kept
import Lox.Proofs.Parser.Soundness
import Lox.Proofs.Token.Numbers

/-!
# The prefix form is unambiguous

Expressions that are read without errors, have no strings in them and are printed alike are the same
up to what is not printed (`bare_eq_of_print_eq`).  Only strings can be mistaken: they are printed
without quotes.
-/

namespace Lox

/-- Neither a string nor a number without value. -/
def Literal.Plain : Literal → Prop
  | nil | bool _ => True
  | number value => value.value?.isSome = true
  | string _ => False

/-- A plain literal is legible if its value comes from a token. -/
theorem Literal.Plain.legible {value : Literal} {text : String} (h : value.Plain)
    (hscans : value.kind.Scans text) : value.Legible := by
  match value with
  | .nil | .bool true | .bool false => exact ⟨by decide, fun _ ↦ nofun⟩
  | .number n =>
    obtain ⟨v, hvalue⟩ := Option.isSome_iff_exists.1 h
    exact ⟨Number.scans_literal hvalue (Number.toNat_bits_of_scans hscans), fun _ ↦ nofun⟩
  | .string text => exact absurd h id

section Reading

variable {source : String} {n : NodeId} {e : Expr}

/-- What is read from a source without errors and has plain literals is legible. -/
theorem legible_of_readExpression (hresult : (readExpression n (tokens source)).result = some e)
    (herrors : (readExpression n (tokens source)).errors = [])
    (hplain : ∀ l ∈ e.literals, l.Plain) :
    e.Respects ∧ (∀ t ∈ e.tokens, t.Legible) ∧ ∀ l ∈ e.literals, l.Legible := by
  obtain ⟨taken, final, htaken, -, hderived⟩ := derived_of_readExpression hresult herrors
  obtain ⟨-, hrespects, -⟩ := Grammar.respects_of_derives e (Nat.zero_le _) hderived
  have hkept := Grammar.kept_of_derives e (Nat.zero_le _) hderived
  have hscans (t : Token) (ht : t ∈ taken) : t.Legible := by
    have hrest : t ∈ (tokens source).takeWhile (·.kind ≠ .endOfInput) := by
      rw [show (tokens source).takeWhile _ = taken ++ final.rest from htaken]
      exact List.mem_append_left _ ht
    apply scans_of_mem_tokens ((List.takeWhile_sublist _).subset hrest)
    simpa using List.mem_takeWhile_imp hrest
  refine ⟨hrespects, fun t ht ↦ hscans t (hkept.token t ht), fun l hl ↦ ?_⟩
  obtain ⟨t, ht, hkind⟩ := hkept.literal l hl
  have hlegible := hscans t ht
  rw [Token.Legible, hkind] at hlegible
  exact (hplain l hl).legible hlegible

end Reading

/-- Expressions without strings that are printed alike are the same up to identifiers, places and
closing parentheses. -/
theorem print_determines_expression {source source' : String} {n n' : NodeId} {e e' : Expr}
    (hresult : (readExpression n (tokens source)).result = some e)
    (herrors : (readExpression n (tokens source)).errors = [])
    (hresult' : (readExpression n' (tokens source')).result = some e')
    (herrors' : (readExpression n' (tokens source')).errors = [])
    (hplain : ∀ l ∈ e.literals, l.Plain) (hplain' : ∀ l ∈ e'.literals, l.Plain)
    (hprint : e.print = e'.print) : e.bare = e'.bare := by
  obtain ⟨hrespects, htokens, hliterals⟩ := legible_of_readExpression hresult herrors hplain
  obtain ⟨hrespects', htokens', hliterals'⟩ := legible_of_readExpression hresult' herrors' hplain'
  exact Expr.bare_eq_of_print_eq hrespects hrespects' htokens htokens' hliterals hliterals' hprint

/-- `a.b = -c(1, d)` in two layouts. -/
theorem print_determines_expression_set :
    ∃ e e', (readExpression 0 (tokens "a.b = -c(1, d)")).result = some e ∧
      (readExpression 7 (tokens "a\n.b=- c( 1.0,d )")).result = some e' ∧
      e.print = e'.print ∧ e.bare = e'.bare := by
  have hread : (readExpression 0 (tokens "a.b = -c(1, d)")).result.isSome = true ∧
      (readExpression 7 (tokens "a\n.b=- c( 1.0,d )")).result.isSome = true := by
    decide +kernel
  have herrors : (readExpression 0 (tokens "a.b = -c(1, d)")).errors = [] ∧
      (readExpression 7 (tokens "a\n.b=- c( 1.0,d )")).errors = [] := by
    decide +kernel
  obtain ⟨e, he⟩ := Option.isSome_iff_exists.1 hread.1
  obtain ⟨e', he'⟩ := Option.isSome_iff_exists.1 hread.2
  have hfaces : (readExpression 0 (tokens "a.b = -c(1, d)")).result.map
        (fun e ↦ (e.print, e.literals)) =
          some ("(.= a b (- (call c 1.0 d)))", [.number ⟨0x3ff0000000000000⟩]) ∧
      (readExpression 7 (tokens "a\n.b=- c( 1.0,d )")).result.map
        (fun e ↦ (e.print, e.literals)) =
          some ("(.= a b (- (call c 1.0 d)))", [.number ⟨0x3ff0000000000000⟩]) := by
    decide +kernel
  rw [he, he'] at hfaces
  obtain ⟨hprint, hliterals⟩ := Prod.mk.inj (Option.some.inj hfaces.1)
  obtain ⟨hprint', hliterals'⟩ := Prod.mk.inj (Option.some.inj hfaces.2)
  have hone : ∀ l ∈ [Literal.number ⟨0x3ff0000000000000⟩], l.Plain := by
    intro l hl
    rw [List.mem_singleton.1 hl]
    show Option.isSome _ = true
    decide +kernel
  have hsame : e.print = e'.print := by rw [hprint, hprint']
  exact ⟨e, e', he, he', hsame, print_determines_expression he herrors.1 he' herrors.2
    (by rwa [hliterals]) (by rwa [hliterals']) hsame⟩

end Lox
