import Mathlib.Tactic.FieldSimp
import Lox.Proofs.Number.Rounding

/-!
# The shortest decimal rounds back

Whatever grid the search stops at, the point that it takes lies in the neighbourhood of the number.
It stops at the latest at seventeen digits: there the step of the grid is less than the width of the
neighbourhood, so that one of the two grid points next to the number lies in it
(`contains_shortest`).
-/

namespace Lox

theorem digitCount_pos {n : Nat} (hn : 0 < n) : 0 < digitCount n := by
  rw [digitCount, if_neg hn.ne']
  exact Nat.length_toDigits_pos

theorem lt_pow10_digitCount (n : Nat) : n < 10 ^ digitCount n := by
  rcases Nat.eq_zero_or_pos n with rfl | hn
  · exact Nat.one_pos
  · have hpos := digitCount_pos hn
    rw [digitCount, if_neg hn.ne'] at hpos ⊢
    exact (Nat.length_toDigits_le_iff (by decide) hpos).1 le_rfl

theorem pow10_le_of_digitCount {n : Nat} (hn : 0 < n) : 10 ^ (digitCount n - 1) ≤ n := by
  rw [digitCount, if_neg hn.ne']
  rcases Nat.eq_zero_or_pos ((Nat.toDigits 10 n).length - 1) with hlength | hlength
  · rw [hlength]
    exact hn
  · by_contra hlt
    have hle := (Nat.length_toDigits_le_iff (by decide) hlength).2 (Nat.not_le.1 hlt)
    omega

/-- The rational that a decimal stands for. -/
def Decimal.value (d : Decimal) : ℚ :=
  d.digits * 10 ^ d.exponent

/-- A zero at the end of the digits can go into the exponent. -/
theorem Decimal.value_of_mod_eq_zero {d : Decimal} (h : d.digits % 10 = 0) :
    Decimal.value ⟨d.digits / 10, d.exponent + 1⟩ = d.value := by
  have hdigits : ((d.digits / 10 : Nat) : ℚ) * 10 = d.digits := by
    exact_mod_cast Nat.div_mul_cancel (Nat.dvd_of_mod_eq_zero h)
  rw [Decimal.value, Decimal.value, zpow_add_one₀ (by norm_num), ← hdigits]
  ring

namespace Number

/-- A positive quotient is at least the power of ten below its decimal point. -/
theorem zpow_decimalPoint_le {a b : Nat} (ha : 0 < a) (hb : 0 < b) :
    (10 : ℚ) ^ (decimalPoint a b - 1) ≤ (a : ℚ) / b := by
  have ha' : (0 : ℚ) < a := Nat.cast_pos.2 ha
  have hb' : (0 : ℚ) < b := Nat.cast_pos.2 hb
  unfold decimalPoint
  split
  case isTrue hle =>
    have hquotient := Nat.div_pos hle hb
    have hcount := digitCount_pos hquotient
    rw [show (digitCount (a / b) : ℤ) - 1 = (digitCount (a / b) - 1 : Nat) by omega, zpow_natCast,
      le_div_iff₀ hb']
    exact_mod_cast (Nat.le_div_iff_mul_le hb).1 (pow10_le_of_digitCount hquotient)
  case isFalse hlt =>
    have hbound := lt_pow10_digitCount ((b - 1) / a)
    rw [Nat.div_lt_iff_lt_mul ha] at hbound
    rw [sub_sub_cancel_left, zpow_neg, zpow_natCast, le_div_iff₀ hb',
      inv_mul_le_iff₀ (by positivity)]
    exact_mod_cast (show b ≤ _ by omega)

namespace Neighbourhood

theorem grid_step_div_stretch (exponent : ℤ) :
    ((grid exponent).step : ℚ) / (grid exponent).stretch = unit * 10 ^ exponent := by
  unfold grid
  split
  case isTrue hnonneg =>
    obtain ⟨k, rfl⟩ := Int.eq_ofNat_of_zero_le hnonneg
    simp only [pow10, Int.toNat_natCast, Nat.pow_eq, Nat.cast_mul, Nat.cast_pow, Nat.cast_ofNat,
      Nat.cast_one, div_one, zpow_natCast]
  case isFalse hneg =>
    obtain ⟨k, hk⟩ := Int.eq_ofNat_of_zero_le (show 0 ≤ -exponent by omega)
    obtain rfl : exponent = -k := by omega
    simp only [pow10, neg_neg, Int.toNat_natCast, Nat.pow_eq, Nat.cast_pow, Nat.cast_ofNat,
      div_eq_mul_inv, zpow_neg, zpow_natCast]

theorem unit_pos : 0 < unit := by
  decide +kernel

theorem grid_step_pos (exponent : ℤ) : 0 < (grid exponent).step := by
  unfold grid
  split <;> dsimp only
  · exact Nat.mul_pos unit_pos (Nat.pow_pos (by decide))
  · exact unit_pos

theorem grid_stretch_pos (exponent : ℤ) : 0 < (grid exponent).stretch := by
  unfold grid
  split
  · exact Nat.one_pos
  · exact Nat.pow_pos (by decide)

variable {n : Neighbourhood} {point : Nat} {exponent : ℤ}

/-- A hit of a grid is a decimal in the neighbourhood. -/
theorem contains_of_hits (hhits : (grid exponent).hits n point = true) :
    n.Contains (Decimal.value ⟨point, exponent⟩) := by
  have hstretch : (0 : ℚ) < (grid exponent).stretch := Nat.cast_pos.2 (grid_stretch_pos exponent)
  have hvalue : Decimal.value ⟨point, exponent⟩ * unit =
      (point * (grid exponent).step : Nat) / (grid exponent).stretch := by
    rw [Nat.cast_mul, mul_div_assoc, grid_step_div_stretch, Decimal.value]
    ring
  unfold Grid.hits at hhits
  split at hhits
  case isTrue hclosed =>
    obtain ⟨hlow, hhigh⟩ := of_decide_eq_true hhits
    constructor
    · rw [hvalue, le_div_iff₀ hstretch]
      exact_mod_cast hlow
    · rw [hvalue, div_le_iff₀ hstretch]
      exact_mod_cast hhigh
    · exact fun hopen ↦ absurd (hclosed.symm.trans hopen) (by decide)
  case isFalse hopen =>
    obtain ⟨hlow, hhigh⟩ := of_decide_eq_true hhits
    have hstrict : (n.low : ℚ) < Decimal.value ⟨point, exponent⟩ * unit ∧
        Decimal.value ⟨point, exponent⟩ * unit < n.high := by
      rw [hvalue, lt_div_iff₀ hstretch, div_lt_iff₀ hstretch]
      constructor
      · exact_mod_cast hlow
      · exact_mod_cast hhigh
    exact ⟨hstrict.1.le, hstrict.2.le, fun _ ↦ hstrict⟩

theorem hits_of_nearest? {g : Grid} {tie : Tie} (h : g.nearest? n tie = some point) :
    g.hits n point = true := by
  unfold Grid.nearest? at h
  dsimp only at h
  split at h
  case h_1 hbelow habove =>
    cases h
    split <;> assumption
  case h_2 hbelow habove => cases h; exact hbelow
  case h_3 hbelow habove => cases h; exact habove
  case h_4 hbelow habove => cases h

theorem not_hits_of_nearest? {g : Grid} {tie : Tie} (h : g.nearest? n tie = none) :
    g.hits n (g.floor n) = false ∧ g.hits n (g.floor n + 1) = false := by
  unfold Grid.nearest? at h
  dsimp only at h
  split at h
  case h_4 hbelow habove => exact ⟨hbelow, habove⟩
  all_goals cases h

/-- A point of a grid that is no hit does not lie strictly inside the neighbourhood. -/
theorem outside_of_not_hits {g : Grid} (h : g.hits n point = false) :
    point * g.step ≤ n.low * g.stretch ∨ n.high * g.stretch ≤ point * g.step := by
  unfold Grid.hits at h
  split at h
  · have hout := of_decide_eq_false h
    omega
  · have hout := of_decide_eq_false h
    omega

/-- A grid without a hit is at least as coarse as the neighbourhood is wide. -/
theorem width_le_step {g : Grid} {tie : Tie} (hlow : n.low < n.value) (hhigh : n.value < n.high)
    (hstep : 0 < g.step) (hstretch : 0 < g.stretch) (h : g.nearest? n tie = none) :
    n.high * g.stretch ≤ g.step + n.low * g.stretch := by
  obtain ⟨hbelow, habove⟩ := not_hits_of_nearest? h
  have hlow := Nat.mul_lt_mul_of_pos_right hlow hstretch
  have hhigh := Nat.mul_lt_mul_of_pos_right hhigh hstretch
  -- The number lies between the two points of the grid that the search looks at.
  have hle : g.floor n * g.step ≤ n.value * g.stretch := Nat.div_mul_le_self _ _
  have hlt : n.value * g.stretch < (g.floor n + 1) * g.step := by
    rw [Nat.mul_comm _ g.step]
    exact Nat.lt_mul_div_succ _ hstep
  have hbelow := outside_of_not_hits hbelow
  have habove := outside_of_not_hits habove
  rw [Nat.add_mul, Nat.one_mul] at hlt habove
  omega

/-- The step of the grid for seventeen digits, against the number itself. -/
theorem step_le_value {k : Nat} (hvalue : 0 < n.value)
    (hexponent : exponent = decimalPoint n.value unit - (k + 1)) :
    10 ^ k * (grid exponent).step ≤ n.value * (grid exponent).stretch := by
  have hstretch : (0 : ℚ) < (grid exponent).stretch := Nat.cast_pos.2 (grid_stretch_pos exponent)
  have hpoint := zpow_decimalPoint_le hvalue unit_pos
  rw [le_div_iff₀ (Nat.cast_pos.2 unit_pos)] at hpoint
  have hsum : (k : ℤ) + exponent = decimalPoint n.value unit - 1 := by omega
  have hstep : (10 ^ k * (grid exponent).step : ℚ) / (grid exponent).stretch ≤ n.value := by
    calc (10 ^ k * (grid exponent).step : ℚ) / (grid exponent).stretch
        = 10 ^ (k : ℤ) * 10 ^ exponent * unit := by
          rw [mul_div_assoc, grid_step_div_stretch, zpow_natCast]
          ring
      _ = 10 ^ (decimalPoint n.value unit - 1) * unit := by
          rw [← zpow_add₀ (by norm_num), hsum]
      _ ≤ n.value := hpoint
  rw [div_le_iff₀ hstretch] at hstep
  exact_mod_cast hstep

end Neighbourhood

/-- What the search for the shortest decimal finds lies in the neighbourhood. -/
theorem contains_of_findSome? {n : Neighbourhood} {tie : Tie} {counts : List Nat}
    {decimal : Decimal} (h : counts.findSome? (n.withDigits? tie) = some decimal) :
    n.Contains decimal.value := by
  obtain ⟨count, -, hcount⟩ := List.exists_of_findSome?_eq_some h
  obtain ⟨point, hpoint, rfl⟩ := Option.map_eq_some_iff.1 hcount
  exact Neighbourhood.contains_of_hits (Neighbourhood.hits_of_nearest? hpoint)

section Shortest

variable {significand scale : Nat}

theorem neighbourhood_low_lt (hpos : 0 < significand) :
    (neighbourhood significand scale).low < (neighbourhood significand scale).value := by
  apply Nat.mul_lt_mul_of_pos_right _ (Nat.two_pow_pos scale)
  split <;> omega

theorem neighbourhood_lt_high :
    (neighbourhood significand scale).value < (neighbourhood significand scale).high :=
  Nat.mul_lt_mul_of_pos_right (by omega) (Nat.two_pow_pos scale)

/-- A number is less than `10 ^ 16` times the width of its neighbourhood. -/
theorem value_lt_width (hfits : Fits significand scale) (hpos : 0 < significand) :
    (neighbourhood significand scale).value + 10 ^ 16 * (neighbourhood significand scale).low <
      10 ^ 16 * (neighbourhood significand scale).high := by
  have hlt := hfits.lt
  unfold neighbourhood
  simp only [← Nat.mul_assoc, ← Nat.add_mul]
  apply Nat.mul_lt_mul_of_pos_right _ (Nat.two_pow_pos scale)
  norm_num [pow2] at hlt ⊢
  split <;> omega

/-- On the grid for seventeen digits there is always a hit. -/
theorem withDigits?_ne_none (hfits : Fits significand scale) (hpos : 0 < significand) (tie : Tie) :
    (neighbourhood significand scale).withDigits? tie 17 ≠ none := by
  intro hnone
  have hmiss := Option.map_eq_none_iff.1 hnone
  have hbroad := value_lt_width hfits hpos
  have hlow : (neighbourhood significand scale).low < (neighbourhood significand scale).value :=
    neighbourhood_low_lt hpos
  have hhigh : (neighbourhood significand scale).value < (neighbourhood significand scale).high :=
    neighbourhood_lt_high
  generalize neighbourhood significand scale = n at *
  generalize hexponent : decimalPoint n.value Neighbourhood.unit - (17 : Nat) = exponent at *
  have hstretch := Neighbourhood.grid_stretch_pos exponent
  have hwidth := Neighbourhood.width_le_step hlow hhigh (Neighbourhood.grid_step_pos exponent)
    hstretch hmiss
  have hfine := Neighbourhood.step_le_value (k := 16) (Nat.zero_lt_of_lt hlow) hexponent.symm
  generalize Neighbourhood.grid exponent = g at *
  have hbroad := Nat.mul_lt_mul_of_pos_right hbroad hstretch
  rw [Nat.add_mul, Nat.mul_assoc, Nat.mul_assoc] at hbroad
  omega

/-- The shortest decimal of a positive number lies in its neighbourhood. -/
theorem contains_shortest (hfits : Fits significand scale) (hpos : 0 < significand) (tie : Tie) :
    (neighbourhood significand scale).Contains (shortest tie significand scale).value := by
  obtain ⟨decimal, hdecimal⟩ := Option.ne_none_iff_exists'.1 (withDigits?_ne_none hfits hpos tie)
  have hfound : ((List.range' 1 17).findSome?
      ((neighbourhood significand scale).withDigits? tie)).isSome = true :=
    List.findSome?_isSome_iff.2 ⟨17, by decide, by rw [hdecimal]; rfl⟩
  obtain ⟨decimal, hdecimal⟩ := Option.isSome_iff_exists.1 hfound
  have hcontains := contains_of_findSome? hdecimal
  rw [shortest, Neighbourhood.shortest, hdecimal, Option.getD_some]
  split
  case isTrue hzero => rwa [Decimal.value_of_mod_eq_zero hzero]
  case isFalse => exact hcontains

end Shortest

end Number

end Lox
