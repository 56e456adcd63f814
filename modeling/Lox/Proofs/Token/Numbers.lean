import Mathlib.Tactic.IntervalCases
import Lox.Proofs.Number.Numerals
import Lox.Proofs.Token.Alone
import Lox.Value

/-!
# Printed numbers are scanned again

A numeral is scanned as one number token, whose value is the number nearest to what the numeral
spells.  The text of a number spells a rational in the neighbourhood of the number, so it is scanned
as that very number (`scan_text_of_number`).
-/

namespace Lox

namespace Segment

theorem opening_of_isDigit {c : Char} (hc : c.isDigit = true) : opening c = .number := by
  obtain ⟨hlow, hhigh⟩ : 48 ≤ c.toNat ∧ c.toNat ≤ 57 := by
    simpa [Char.isDigit, UInt32.le_iff_toNat_le] using hc
  rw [← Char.ofNat_toNat c]
  generalize c.toNat = code at hlow hhigh
  interval_cases code <;> rfl

theorem takeWhile_isDigit {digits : List Char} (h : ∀ c ∈ digits, c.isDigit = true) :
    digits.takeWhile Char.isDigit = digits :=
  List.takeWhile_eq_self_iff.2 h

theorem dropWhile_isDigit {digits : List Char} (h : ∀ c ∈ digits, c.isDigit = true) :
    digits.dropWhile Char.isDigit = [] :=
  List.dropWhile_eq_nil_iff.2 h

theorem segments_of_spells {text : List Char} {x : ℚ} (h : Number.Spells text x) :
    ∃ whole fraction : List Char,
      x = Number.digitsValue (whole ++ fraction) / 10 ^ fraction.length ∧
        segments text = [⟨.token (.number (.ofDigits whole fraction)), text⟩] := by
  cases h with
  | whole hne hdigits hvalue =>
    obtain ⟨c, rest, rfl⟩ := List.exists_cons_of_ne_nil hne
    obtain ⟨hc, hrest⟩ := List.forall_mem_cons.1 hdigits
    refine ⟨c :: rest, [], by rw [hvalue, List.append_nil]; simp, ?_⟩
    have hend : rest.dropWhile Char.isDigit = [] := dropWhile_isDigit hrest
    rw [segments_cons, next_eq, opening_of_isDigit hc]
    dsimp only
    rw [number_of_no_point (by rw [hend]; exact nofun), takeWhile_isDigit hrest, hend]
    rfl
  | point hwhole hfraction hdigits hvalue =>
    rename_i whole fraction
    obtain ⟨hwholeDigits, hfractionDigits⟩ := List.forall_mem_append.1 hdigits
    obtain ⟨c, rest, rfl⟩ := List.exists_cons_of_ne_nil hwhole
    obtain ⟨d, more, rfl⟩ := List.exists_cons_of_ne_nil hfraction
    obtain ⟨hc, hrest⟩ := List.forall_mem_cons.1 hwholeDigits
    obtain ⟨hd, hmore⟩ := List.forall_mem_cons.1 hfractionDigits
    refine ⟨_, _, hvalue, ?_⟩
    have hafter : (rest ++ '.' :: d :: more).dropWhile Char.isDigit = '.' :: d :: more := by
      rw [dropWhile_append_stop (by decide), dropWhile_isDigit hrest]
      rfl
    rw [List.cons_append, segments_cons, next_eq, opening_of_isDigit hc]
    dsimp only
    rw [number_of_point hafter hd, takeWhile_append_stop (by decide), takeWhile_isDigit hrest,
      takeWhile_isDigit hmore, dropWhile_isDigit hmore]
    rfl

end Segment

namespace Number

variable {n : Number} {significand scale : Nat}

/-- A numeral is scanned as the number in whose neighbourhood it lies. -/
theorem scans_of_spells {text : String} {x : ℚ}
    (hshape : n.shape = .finite false significand scale) (hspells : Spells text.toList x)
    (hcontains : (neighbourhood significand scale).Contains x) :
    Kind.Scans (.number n) text := by
  obtain ⟨whole, fraction, rfl, hsegments⟩ := Segment.segments_of_spells hspells
  have hten : 0 < pow10 fraction.length := Nat.pow_pos (by decide)
  have hnearest : ofDigits whole fraction = n := by
    apply nearest_eq hshape hten
    exact_mod_cast hcontains
  rw [Kind.Scans, hsegments, hnearest]

/-- The rational that a finite number stands for. -/
def value? (n : Number) : Option ℚ :=
  match n.shape with
  | .finite negative significand scale =>
    let magnitude : ℚ := (significand * pow2 scale : Nat) / (pow2 1074 : Nat)
    some (if negative then -magnitude else magnitude)
  | _ => none

theorem shape_of_value? {v : ℚ} (hvalue : n.value? = some v) (hsign : n.bits.toNat < pow2 63) :
    ∃ significand scale, n.shape = .finite false significand scale ∧
      v = (significand * pow2 scale : Nat) / (pow2 1074 : Nat) := by
  unfold value? at hvalue
  split at hvalue
  case h_1 negative significand scale hshape =>
    obtain ⟨-, -, hnegative⟩ := fits_of_shape hshape
    obtain rfl : negative = false := by
      rw [hnegative]
      exact decide_eq_false (Nat.not_le.2 hsign)
    exact ⟨significand, scale, hshape, (Option.some.inj hvalue).symm⟩
  case h_2 => cases hvalue

theorem eq_wholePart_of_isIntegral (hintegral : isIntegral significand scale = true) :
    ((significand * pow2 scale : Nat) : ℚ) / (pow2 1074 : Nat) = wholePart significand scale := by
  have hpow : pow2 1074 ≠ 0 := by decide +kernel
  have hdvd := Nat.dvd_of_mod_eq_zero (of_decide_eq_true hintegral)
  rw [div_eq_iff (Nat.cast_ne_zero.2 hpow), ← Nat.cast_mul, wholePart, Nat.div_mul_cancel hdvd]

theorem scans_literal {v : ℚ} (hvalue : n.value? = some v) (hsign : n.bits.toNat < pow2 63) :
    Kind.Scans (.number n) n.literal := by
  obtain ⟨significand, scale, hshape, -⟩ := shape_of_value? hvalue hsign
  obtain ⟨hfits, -, -⟩ := fits_of_shape hshape
  obtain ⟨x, hspells, hcontains⟩ := spells_literal hshape hfits
  exact scans_of_spells hshape hspells hcontains

theorem toNat_bits_of_scans {text : String} (h : Kind.Scans (.number n) text) :
    n.bits.toNat < pow2 63 := by
  obtain ⟨whole, fraction, rfl⟩ := h.ofDigits
  exact toNat_bits_nearest _ _

/-- The literal text of a finite number without sign is scanned as one token of that number; so is
its printed text, of an integer only where that has no exponent. -/
theorem scan_text_of_number {v : ℚ} (hvalue : n.value? = some v) (hsign : n.bits.toNat < pow2 63) :
    scan n.literal = [.token ⟨.number n, n.literal, 1, 1⟩,
        .token (Item.endToken (Position.start.after n.literal.toList))] ∧
      (((∃ z : ℤ, v = z) → v < 10 ^ 21) →
        scan (Value.number n).display = [.token ⟨.number n, (Value.number n).display, 1, 1⟩,
          .token (Item.endToken (Position.start.after (Value.number n).display.toList))]) := by
  refine ⟨(scans_literal hvalue hsign).scan_eq, ?_⟩
  obtain ⟨significand, scale, hshape, rfl⟩ := shape_of_value? hvalue hsign
  obtain ⟨hfits, -, -⟩ := fits_of_shape hshape
  intro hplain
  have hwhole (hintegral : isIntegral significand scale = true) :
      wholePart significand scale < pow10 21 := by
    have hexact := eq_wholePart_of_isIntegral hintegral
    have hlt := hplain ⟨wholePart significand scale, by rw [hexact]; rfl⟩
    rw [hexact] at hlt
    exact_mod_cast hlt
  obtain ⟨x, hspells, hcontains⟩ := spells_display hshape hfits hwhole
  exact (scans_of_spells hshape hspells hcontains).scan_eq

theorem scan_text_of_two_and_a_half :
    let n : Number := ⟨0x4004000000000000⟩
    n.value? = some (5 / 2) ∧ n.literal = "2.5" ∧
      scan n.literal = [.token ⟨.number n, n.literal, 1, 1⟩,
        .token (Item.endToken (Position.start.after n.literal.toList))] ∧
      scan (Value.number n).display = [.token ⟨.number n, (Value.number n).display, 1, 1⟩,
        .token (Item.endToken (Position.start.after (Value.number n).display.toList))] := by
  have hvalue : (⟨0x4004000000000000⟩ : Number).value? = some (5 / 2) := by decide +kernel
  obtain ⟨hliteral, hdisplay⟩ := scan_text_of_number hvalue (by decide +kernel)
  refine ⟨hvalue, by decide +kernel, hliteral, hdisplay fun _ ↦ by norm_num⟩

end Number

end Lox
