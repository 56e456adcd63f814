import Lox.Number.Text
import Lox.Proofs.Number.Shortest

/-!
# Numerals

A numeral is a run of digits, or two of them with a point in between.  The texts of finite numbers
without exponent are numerals, and each spells a rational in the neighbourhood of its number
(`spells_literal`, `spells_display`).
-/

namespace Lox

namespace Number

/-- Digits, perhaps with a point among them, that spell a rational. -/
inductive Spells : List Char → ℚ → Prop
  | whole {digits : List Char} {x : ℚ} (hne : digits ≠ [])
      (hdigits : ∀ c ∈ digits, c.isDigit = true) (hvalue : x = digitsValue digits) :
      Spells digits x
  | point {whole fraction : List Char} {x : ℚ} (hwhole : whole ≠ []) (hfraction : fraction ≠ [])
      (hdigits : ∀ c ∈ whole ++ fraction, c.isDigit = true)
      (hvalue : x = digitsValue (whole ++ fraction) / 10 ^ fraction.length) :
      Spells (whole ++ '.' :: fraction) x

theorem digitsValue_toDigits (n : Nat) : digitsValue (Nat.toDigits 10 n) = n :=
  Nat.ofDigitChars_ten_toDigits

theorem digitsValue_append_zeros (digits : List Char) (k : Nat) :
    digitsValue (digits ++ List.replicate k '0') = 10 ^ k * digitsValue digits := by
  calc digitsValue (digits ++ List.replicate k '0')
    _ = Nat.ofDigitChars 10 (List.replicate k '0') (digitsValue digits) :=
      Nat.ofDigitChars_append 0
    _ = 10 ^ k * digitsValue digits := Nat.ofDigitChars_replicate_zero

theorem digitsValue_zeros_append (k : Nat) (digits : List Char) :
    digitsValue (List.replicate k '0' ++ digits) = digitsValue digits := by
  calc digitsValue (List.replicate k '0' ++ digits)
    _ = Nat.ofDigitChars 10 digits (digitsValue (List.replicate k '0')) :=
      Nat.ofDigitChars_append 0
    _ = Nat.ofDigitChars 10 digits (10 ^ k * 0) :=
      congrArg _ Nat.ofDigitChars_replicate_zero
    _ = digitsValue digits := rfl

theorem isDigit_of_mem_zeros {k : Nat} {c : Char} (hc : c ∈ List.replicate k '0') :
    c.isDigit = true := by
  rw [List.eq_of_mem_replicate hc]
  decide

section Decimals

variable (d : Decimal)

theorem isDigit_digitChars {c : Char} (hc : c ∈ d.digitChars) : c.isDigit = true :=
  Nat.isDigit_of_mem_toDigits (by decide) (by decide) hc

theorem spells_positional : Spells d.positional.toList d.value := by
  have hdigits := fun c ↦ isDigit_digitChars (c := c) d
  have hvalue : digitsValue d.digitChars = d.digits := digitsValue_toDigits d.digits
  have hpoint : d.point = d.digitChars.length + d.exponent := rfl
  have hne : d.digitChars ≠ [] := Nat.toDigits_ne_nil
  unfold Decimal.positional
  dsimp only
  split
  case isTrue hexponent =>
    rw [String.toList_ofList]
    apply Spells.whole
    · exact List.append_ne_nil_of_left_ne_nil hne _
    · intro c hc
      exact (List.mem_append.1 hc).elim (hdigits c) isDigit_of_mem_zeros
    · rw [digitsValue_append_zeros, hvalue, Decimal.value]
      obtain ⟨k, hk⟩ := Int.eq_ofNat_of_zero_le hexponent
      rw [hk, Int.toNat_natCast, zpow_natCast, mul_comm]
      push_cast
      rfl
  case isFalse hexponent =>
    obtain ⟨k, hk⟩ : ∃ k : Nat, d.exponent = -k := ⟨d.exponent.natAbs, by omega⟩
    have hdecimal : d.value = digitsValue d.digitChars / 10 ^ k := by
      rw [hvalue, Decimal.value, hk, zpow_neg, zpow_natCast, div_eq_mul_inv]
    split
    case isTrue hinside =>
      rw [String.toList_ofList]
      have hlength : (d.digitChars.drop d.point.toNat).length = k := by
        rw [List.length_drop]
        omega
      apply Spells.point
      · rw [← List.length_pos_iff, List.length_take]
        omega
      · rw [← List.length_pos_iff, hlength]
        omega
      · rwa [List.take_append_drop]
      · rw [List.take_append_drop, hlength, hdecimal]
    case isFalse hbefore =>
      rw [String.toList_ofList]
      obtain ⟨zeros, hzeros⟩ : ∃ zeros : Nat, (-d.point).toNat = zeros := ⟨_, rfl⟩
      rw [hzeros]
      have hfraction : (List.replicate zeros '0' ++ d.digitChars).length = k := by
        rw [List.length_append, List.length_replicate]
        omega
      have hspelt : digitsValue (['0'] ++ (List.replicate zeros '0' ++ d.digitChars)) =
          digitsValue d.digitChars := by
        calc digitsValue (['0'] ++ (List.replicate zeros '0' ++ d.digitChars))
          _ = digitsValue (List.replicate (zeros + 1) '0' ++ d.digitChars) := by
            rw [← List.append_assoc, List.singleton_append, ← List.replicate_succ]
          _ = digitsValue d.digitChars := digitsValue_zeros_append ..
      refine Spells.point (List.cons_ne_nil '0' []) (List.append_ne_nil_of_right_ne_nil _ hne) ?_ ?_
      · intro c hc
        rcases List.mem_append.1 hc with hzero | hc
        · exact isDigit_of_mem_zeros (k := 1) hzero
        · exact (List.mem_append.1 hc).elim isDigit_of_mem_zeros (hdigits c)
      · rw [List.append_eq, hspelt, hfraction, hdecimal]

end Decimals

section Texts

variable {n : Number} {significand scale : Nat}

theorem spells_repr (w : Nat) : Spells (Nat.repr w).toList w := by
  rw [Nat.repr_eq_ofList_toDigits, String.toList_ofList]
  refine Spells.whole Nat.toDigits_ne_nil (fun c hc ↦ ?_) (by rw [digitsValue_toDigits])
  exact Nat.isDigit_of_mem_toDigits (by decide) (by decide) hc

theorem spells_repr_point (w : Nat) : Spells (Nat.repr w ++ ".0").toList w := by
  have hpoint : (".0" : String).toList = ['.', '0'] := by decide
  rw [Nat.repr_eq_ofList_toDigits, String.toList_append, String.toList_ofList, hpoint]
  refine Spells.point Nat.toDigits_ne_nil (List.cons_ne_nil '0' []) ?_ ?_
  · intro c hc
    rcases List.mem_append.1 hc with hc | hzero
    · exact Nat.isDigit_of_mem_toDigits (by decide) (by decide) hc
    · exact isDigit_of_mem_zeros (k := 1) hzero
  · have hvalue : digitsValue (Nat.toDigits 10 w ++ ['0']) = 10 * w := by
      rw [← List.replicate_one, digitsValue_append_zeros, digitsValue_toDigits, Nat.pow_one]
    rw [hvalue]
    simp

/-- The exact value of a number lies in its neighbourhood. -/
theorem contains_of_mul_unit_eq {x : ℚ}
    (hx : x * Neighbourhood.unit = (neighbourhood significand scale).value) :
    (neighbourhood significand scale).Contains x := by
  constructor
  · rw [hx]
    exact_mod_cast Nat.mul_le_mul_right _ (Nat.sub_le _ _)
  · rw [hx]
    exact_mod_cast neighbourhood_lt_high.le
  · intro hopen
    have hodd : significand % 2 ≠ 0 := of_decide_eq_false hopen
    rw [hx]
    constructor
    · exact_mod_cast neighbourhood_low_lt (by omega)
    · exact_mod_cast neighbourhood_lt_high

theorem contains_wholePart (hintegral : isIntegral significand scale = true) :
    (neighbourhood significand scale).Contains (wholePart significand scale) := by
  apply contains_of_mul_unit_eq
  have hdvd := Nat.dvd_of_mod_eq_zero (of_decide_eq_true hintegral)
  have hmul : wholePart significand scale * Neighbourhood.unit =
      (neighbourhood significand scale).value := by
    calc wholePart significand scale * Neighbourhood.unit
      _ = 4 * (wholePart significand scale * pow2 1074) := by
        rw [Neighbourhood.unit_eq, Nat.mul_left_comm]
      _ = 4 * (significand * pow2 scale) := by rw [wholePart, Nat.div_mul_cancel hdvd]
      _ = (neighbourhood significand scale).value := by
        rw [← Nat.mul_assoc]
        rfl
  exact_mod_cast hmul

theorem contains_shortest_of_not_integral (hfits : Fits significand scale)
    (hfraction : ¬isIntegral significand scale = true) (tie : Tie) :
    (neighbourhood significand scale).Contains (shortest tie significand scale).value := by
  apply contains_shortest hfits
  apply Nat.pos_of_ne_zero
  rintro rfl
  apply hfraction
  rw [isIntegral, Nat.zero_mul, Nat.zero_mod]
  rfl

/-- The text of a literal spells a rational that rounds to the number. -/
theorem spells_literal (hshape : n.shape = .finite false significand scale)
    (hfits : Fits significand scale) :
    ∃ x, Spells n.literal.toList x ∧ (neighbourhood significand scale).Contains x := by
  by_cases hintegral : isIntegral significand scale = true
  · rw [literal_of_isIntegral hshape hintegral, Bool.false_and, signText, if_neg Bool.false_ne_true,
      String.empty_append]
    exact ⟨_, spells_repr_point _, contains_wholePart hintegral⟩
  · simp only [literal, hshape, signText, hintegral, Bool.false_eq_true, if_false,
      String.empty_append]
    exact ⟨_, spells_positional _, contains_shortest_of_not_integral hfits hintegral _⟩

/-- The text of a printed number without exponent spells a rational that rounds to the number. -/
theorem spells_display (hshape : n.shape = .finite false significand scale)
    (hfits : Fits significand scale)
    (hplain : isIntegral significand scale = true → wholePart significand scale < pow10 21) :
    ∃ x, Spells n.display.toList x ∧ (neighbourhood significand scale).Contains x := by
  simp only [display, hshape, signText, Bool.false_eq_true, if_false, String.empty_append]
  split
  case isTrue hintegral =>
    rw [if_pos (hplain hintegral)]
    exact ⟨_, spells_repr _, contains_wholePart hintegral⟩
  case isFalse hfraction =>
    exact ⟨_, spells_positional _, contains_shortest_of_not_integral hfits hfraction _⟩

end Texts

end Number

end Lox
