import Mathlib.Algebra.Order.Field.Rat
import Mathlib.Tactic.Linarith
import Mathlib.Tactic.Ring
import Lox.Number.Rounding
import Lox.Number.Shortest

/-!
# Rounding to the nearest number

Every quotient in the neighbourhood of a number is rounded to that number (`nearestWord_eq`).  Just
below a power of two the scale of the quotient is one less than that of the number, and the rounded
significand carries into the exponent.
-/

namespace Lox

/-- A quotient is rounded to an integer at most a half away, and at a distance of one half only to
an even one. -/
theorem roundDiv_eq {a b q : Nat} (hb : 0 < b) (hlow : 2 * q * b ≤ 2 * a + b)
    (hhigh : 2 * a ≤ (2 * q + 1) * b)
    (hodd : q % 2 = 1 → 2 * q * b < 2 * a + b ∧ 2 * a < (2 * q + 1) * b) : roundDiv a b = q := by
  have hdivision := Nat.div_add_mod a b
  have hremainder := Nat.mod_lt a hb
  unfold roundDiv
  dsimp only
  generalize a / b = quotient at *
  generalize a % b = remainder at *
  have hle : quotient ≤ q := by
    by_contra hlt
    have hmul := Nat.mul_le_mul_right b (Nat.not_le.1 hlt)
    nlinarith
  have hge : q ≤ quotient + 1 := by
    by_contra hlt
    have hmul := Nat.mul_le_mul_right b (Nat.not_le.1 hlt)
    nlinarith
  obtain rfl | rfl : q = quotient ∨ q = quotient + 1 := by omega
  · have hhalf : 2 * remainder ≤ b := by nlinarith
    have hstrict : q % 2 = 1 → 2 * remainder < b := fun h ↦ by nlinarith [(hodd h).2]
    split
    · rfl
    · split <;> omega
  · have hhalf : b ≤ 2 * remainder := by nlinarith
    have hstrict : (quotient + 1) % 2 = 1 → b < 2 * remainder := fun h ↦ by nlinarith [(hodd h).1]
    split
    · omega
    · split <;> omega

theorem mul_pow2_succ (b k : Nat) : b * pow2 (k + 1) = 2 * (b * pow2 k) := by
  rw [Nat.mul_left_comm, Nat.mul_comm 2]
  rfl

namespace Number

/-- The scale of a quotient, from the power of two just below it. -/
theorem log2_sub_eq {units k : Nat} (hlow : 0 < k → 2 ^ (52 + k) ≤ units)
    (hhigh : units < 2 ^ (53 + k)) : units.log2 - 52 = k := by
  rcases Nat.eq_zero_or_pos k with rfl | hk
  · rcases Nat.eq_zero_or_pos units with rfl | hunits
    · rfl
    · have hlt := (Nat.log2_lt hunits.ne').2 hhigh
      omega
  · have hunits : units ≠ 0 := ((Nat.two_pow_pos _).trans_le (hlow hk)).ne'
    have heq := (Nat.log2_eq_iff hunits).2 ⟨hlow hk, by rwa [show 52 + k + 1 = 53 + k by omega]⟩
    omega

/-- The word that a quotient is rounded to, once its scale is known. -/
theorem nearestWord_of_scale {a b k q : Nat} (hb : 0 < b)
    (hlow : 0 < k → pow2 52 * (b * pow2 k) ≤ a * pow2 1074)
    (hhigh : a * pow2 1074 < pow2 53 * (b * pow2 k))
    (hround : roundDiv (a * pow2 1074) (b * pow2 k) = q) (hword : k + 2 ≤ 2047)
    (hq : q ≤ pow2 53) : nearestWord a b = k * pow2 52 + q := by
  have hscale : (a * pow2 1074 / b).log2 - 52 = k := by
    apply log2_sub_eq
    · intro hk
      apply (Nat.le_div_iff_mul_le hb).2
      calc 2 ^ (52 + k) * b = pow2 52 * (b * pow2 k) := by
            rw [Nat.pow_add, Nat.mul_comm b, Nat.mul_assoc]
            rfl
        _ ≤ a * pow2 1074 := hlow hk
    · apply (Nat.div_lt_iff_lt_mul hb).2
      calc a * pow2 1074 < pow2 53 * (b * pow2 k) := hhigh
        _ = 2 ^ (53 + k) * b := by
            rw [Nat.pow_add, Nat.mul_comm b, Nat.mul_assoc]
            rfl
  unfold nearestWord
  dsimp only
  rw [hscale, hround, Nat.min_eq_left]
  have hpow : pow2 53 = 2 * pow2 52 := rfl
  calc k * pow2 52 + q ≤ (k + 2) * pow2 52 := by rw [Nat.add_mul]; omega
    _ ≤ 2047 * pow2 52 := Nat.mul_le_mul_right _ hword

namespace Neighbourhood

/-- The rationals of a neighbourhood; its ends are among them if it is closed. -/
structure Contains (n : Neighbourhood) (x : ℚ) : Prop where
  low_le : (n.low : ℚ) ≤ x * unit
  le_high : x * unit ≤ n.high
  strict : n.closed = false → (n.low : ℚ) < x * unit ∧ x * unit < n.high

theorem unit_eq : unit = 4 * pow2 1074 := by
  decide +kernel

/-- Containment of a quotient, with the denominator multiplied out. -/
theorem Contains.of_div {n : Neighbourhood} {a b : Nat} (hb : 0 < b)
    (h : n.Contains ((a : ℚ) / b)) :
    n.low * b ≤ 4 * (a * pow2 1074) ∧ 4 * (a * pow2 1074) ≤ n.high * b ∧
      (n.closed = false →
        n.low * b < 4 * (a * pow2 1074) ∧ 4 * (a * pow2 1074) < n.high * b) := by
  have hb' : (0 : ℚ) < b := Nat.cast_pos.2 hb
  have hscaled : (a : ℚ) / b * unit * b = (4 * (a * pow2 1074) : Nat) := by
    rw [mul_right_comm, div_mul_cancel₀ _ hb'.ne', unit_eq]
    push_cast
    ring
  have hle {x y : ℚ} (hxy : x ≤ y) : x * b ≤ y * b := mul_le_mul_of_nonneg_right hxy hb'.le
  have hlt {x y : ℚ} (hxy : x < y) : x * b < y * b := mul_lt_mul_of_pos_right hxy hb'
  refine ⟨?_, ?_, fun hopen ↦ ⟨?_, ?_⟩⟩
  · exact_mod_cast hscaled ▸ hle h.low_le
  · exact_mod_cast hscaled ▸ hle h.le_high
  · exact_mod_cast hscaled ▸ hlt (h.strict hopen).1
  · exact_mod_cast hscaled ▸ hlt (h.strict hopen).2

end Neighbourhood

/-- A significand and a scale that a finite number can have: only at the least scale the significand
has fewer than 53 bits. -/
structure Fits (significand scale : Nat) : Prop where
  lt : significand < pow2 53
  le_of_pos : 0 < scale → pow2 52 ≤ significand
  scale_le : scale ≤ 2045

section Nearest

variable {significand scale a b : Nat}

/-- Containment in the neighbourhood of a number in steps of `2 ^ scale / 2 ^ 1074`, without
subtraction. -/
theorem bounds_of_contains (hb : 0 < b)
    (hcontains : (neighbourhood significand scale).Contains ((a : ℚ) / b)) :
    let units := a * pow2 1074
    let step := b * pow2 scale
    let gap := if significand = pow2 52 ∧ 0 < scale then 1 else 2
    4 * (significand * step) ≤ 4 * units + gap * step ∧
      4 * units ≤ 4 * (significand * step) + 2 * step ∧
        (significand % 2 = 1 → 4 * (significand * step) < 4 * units + 2 * step ∧
          4 * units < 4 * (significand * step) + 2 * step) := by
  obtain ⟨hlow, hhigh, hstrict⟩ := hcontains.of_div hb
  have heven : pow2 52 % 2 = 0 := rfl
  have hswap (x : Nat) : x * pow2 scale * b = x * (b * pow2 scale) := by
    rw [Nat.mul_assoc, Nat.mul_comm _ b]
  simp only [neighbourhood, hswap] at hlow hhigh
  simp only [neighbourhood, decide_eq_false_iff_not, Nat.mod_two_not_eq_zero, hswap] at hstrict
  dsimp only
  generalize a * pow2 1074 = units at *
  generalize b * pow2 scale = step at *
  simp only [Nat.sub_mul, Nat.add_mul, Nat.mul_assoc] at hlow hhigh hstrict
  refine ⟨by omega, hhigh, fun hodd ↦ ?_⟩
  obtain ⟨hlow, hhigh⟩ := hstrict hodd
  rw [if_neg (by omega)] at hlow
  omega

/-- At its own scale a quotient is rounded to the significand in whose neighbourhood it lies. -/
theorem roundDiv_of_contains (hb : 0 < b)
    (hcontains : (neighbourhood significand scale).Contains ((a : ℚ) / b)) :
    roundDiv (a * pow2 1074) (b * pow2 scale) = significand := by
  obtain ⟨hlow, hhigh, hstrict⟩ := bounds_of_contains hb hcontains
  have hstep : 0 < b * pow2 scale := Nat.mul_pos hb (Nat.two_pow_pos scale)
  have hgap : (if significand = pow2 52 ∧ 0 < scale then 1 else 2) ≤ 2 := by split <;> omega
  have hmul := Nat.mul_le_mul_right (b * pow2 scale) hgap
  apply roundDiv_eq hstep
  · rw [Nat.mul_assoc]
    omega
  · rw [Nat.add_mul, Nat.mul_assoc]
    omega
  · intro hodd
    have hstrict := hstrict hodd
    rw [Nat.add_mul, Nat.mul_assoc]
    omega

/-- A quotient below the least one of its scale is rounded to the next power of two. -/
theorem roundDiv_of_lt (hb : 0 < b) (hle : pow2 52 ≤ significand)
    (hcontains : (neighbourhood significand (scale + 1)).Contains ((a : ℚ) / b))
    (hlt : a * pow2 1074 < pow2 52 * (b * pow2 (scale + 1))) :
    significand = pow2 52 ∧ pow2 52 * (b * pow2 scale) ≤ a * pow2 1074 ∧
      roundDiv (a * pow2 1074) (b * pow2 scale) = pow2 53 := by
  obtain ⟨hlow, -, -⟩ := bounds_of_contains hb hcontains
  have hstep : 0 < b * pow2 scale := Nat.mul_pos hb (Nat.two_pow_pos scale)
  rw [mul_pow2_succ b scale] at hlow hlt
  generalize a * pow2 1074 = units at *
  generalize b * pow2 scale = step at *
  obtain rfl | hgt := Nat.eq_or_lt_of_le hle
  · rw [if_pos ⟨rfl, Nat.succ_pos _⟩] at hlow
    refine ⟨rfl, ?_, roundDiv_eq hstep ?_ ?_ (fun hodd ↦ absurd hodd (by decide))⟩
    all_goals norm_num [pow2] at hlow hlt ⊢; omega
  · rw [if_neg (by omega)] at hlow
    have hmul := Nat.mul_le_mul_right (2 * step) hgt
    rw [Nat.succ_mul] at hmul
    omega

/-- A quotient in the neighbourhood of a number is rounded to that number. -/
theorem nearestWord_eq (hfits : Fits significand scale) (hb : 0 < b)
    (hcontains : (neighbourhood significand scale).Contains ((a : ℚ) / b)) :
    nearestWord a b = scale * pow2 52 + significand := by
  have hscale := hfits.scale_le
  have heven : pow2 53 = 2 * pow2 52 := rfl
  by_cases hlow : 0 < scale → pow2 52 * (b * pow2 scale) ≤ a * pow2 1074
  · refine nearestWord_of_scale hb hlow ?_ (roundDiv_of_contains hb hcontains) (by omega)
      hfits.lt.le
    obtain ⟨-, hhigh, -⟩ := bounds_of_contains hb hcontains
    have hmul := Nat.mul_le_mul_right (b * pow2 scale) hfits.lt
    have hstep : 0 < b * pow2 scale := Nat.mul_pos hb (Nat.two_pow_pos scale)
    rw [Nat.succ_mul] at hmul
    omega
  · obtain ⟨hpos, hlt⟩ := Classical.not_imp.1 hlow
    cases scale with
    | zero => cases hpos
    | succ below =>
      obtain ⟨rfl, hle, hround⟩ :=
        roundDiv_of_lt hb (hfits.le_of_pos hpos) hcontains (Nat.not_le.1 hlt)
      have hcarry : pow2 52 * (b * pow2 (below + 1)) = pow2 53 * (b * pow2 below) := by
        rw [mul_pow2_succ b below, heven, Nat.mul_left_comm, Nat.mul_assoc]
      have hhigh := (Nat.not_le.1 hlt).trans_eq hcarry
      rw [nearestWord_of_scale hb (fun _ ↦ hle) hhigh hround (by omega) le_rfl, heven, Nat.add_mul]
      omega

end Nearest

section Shape

variable {n : Number} {negative : Bool} {significand scale a b : Nat}

/-- The pattern of a finite number, put together again from what it was decoded to. -/
theorem fits_of_shape (hshape : n.shape = .finite negative significand scale) :
    Fits significand scale ∧
      n.bits.toNat % pow2 63 = scale * pow2 52 + significand ∧
        negative = decide (pow2 63 ≤ n.bits.toNat) := by
  have hword := n.bits.toNat_lt
  unfold shape at hshape
  have hfits (s k : Nat) (hs : s < 2 ^ 53) (hk : 0 < k → 2 ^ 52 ≤ s) (hle : k ≤ 2045) : Fits s k :=
    ⟨hs, hk, hle⟩
  simp only [pow2, Nat.pow_eq] at hshape hword ⊢
  generalize n.bits.toNat = word at *
  norm_num at hshape hword hfits ⊢
  split at hshape
  · split at hshape <;> cases hshape
  · split at hshape
    · cases hshape
      exact ⟨hfits _ _ (by omega) nofun (by omega), by omega, rfl⟩
    · cases hshape
      exact ⟨hfits _ _ (by omega) (by omega) (by omega), by omega, rfl⟩

/-- A quotient in the neighbourhood of a number without sign is rounded to that number. -/
theorem nearest_eq (hshape : n.shape = .finite false significand scale) (hb : 0 < b)
    (hcontains : (neighbourhood significand scale).Contains ((a : ℚ) / b)) : nearest a b = n := by
  obtain ⟨hfits, hword, hsign⟩ := fits_of_shape hshape
  have hlt : n.bits.toNat < pow2 63 := Nat.not_le.1 (of_decide_eq_false hsign.symm)
  rw [Nat.mod_eq_of_lt hlt] at hword
  calc nearest a b
    _ = ⟨.ofNat n.bits.toNat⟩ := by rw [nearest, nearestWord_eq hfits hb hcontains, ← hword]
    _ = n := congrArg Number.mk UInt64.ofNat_toNat

theorem toNat_bits_nearest (a b : Nat) : (nearest a b).bits.toNat < pow2 63 := by
  have hle : nearestWord a b ≤ 2047 * pow2 52 := Nat.min_le_right _ _
  calc (nearest a b).bits.toNat ≤ nearestWord a b := by
        rw [nearest, UInt64.toNat_ofNat']
        exact Nat.mod_le _ _
    _ ≤ 2047 * pow2 52 := hle
    _ < pow2 63 := by decide

end Shape

end Number

end Lox
