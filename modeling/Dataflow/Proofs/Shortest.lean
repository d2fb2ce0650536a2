import Dataflow.Decimal.Shortest
import Dataflow.Proofs.Rounding

/-!
# Shortest decimals read back

Every decimal that is tried for a double is compared with the interval of the numbers that are
rounded to it, so the one that is taken is among them. Seventeen digits make a grid that is finer
than any such interval, so there is one that is taken.
-/

namespace Dataflow.Decimal

open Binary (leadingWeight)

/-! ## Decimal places -/

theorem pow_le_of_length_toDigits {n : ℕ} (h : n ≠ 0) :
    10 ^ ((Nat.toDigits 10 n).length - 1) ≤ n := by
  by_cases hone : (Nat.toDigits 10 n).length - 1 = 0
  · rw [hone]
    exact Nat.one_le_iff_ne_zero.mpr h
  · by_contra hlt
    have := (Nat.length_toDigits_le_iff (by decide) (Nat.pos_of_ne_zero hone)).mpr (not_le.mp hlt)
    omega

theorem lt_pow_length_toDigits (n : ℕ) : n < 10 ^ (Nat.toDigits 10 n).length :=
  (Nat.length_toDigits_le_iff (by decide) Nat.length_toDigits_pos).mp le_rfl

namespace Binary

variable {b : Binary}

/-- The integer part is that of the quotient that the shifts make. -/
theorem floor_eq_div (b : Binary) :
    b.floor = b.significand * 2 ^ b.exponent.toNat / 2 ^ (-b.exponent).toNat := by
  rw [floor, Nat.shiftRight_eq_div_pow, Nat.shiftLeft_eq]

theorem value_eq_div (b : Binary) :
    b.value = (b.significand * 2 ^ b.exponent.toNat : ℕ) / (2 ^ (-b.exponent).toNat : ℕ) := by
  rw [value, zpow_eq_div_pow two_ne_zero b.exponent, ← mul_div_assoc]
  push_cast
  rfl

theorem floor_le_value (b : Binary) : (b.floor : ℚ) ≤ b.value := by
  rw [floor_eq_div, value_eq_div]
  exact Nat.cast_div_le

theorem value_of_floor_eq_zero (hpos : 0 < b.significand) (h : b.floor = 0) :
    b.value = b.significand / 2 ^ (-b.exponent).toNat := by
  have hnegative : b.exponent.toNat = 0 := by
    by_contra hpositive
    have hzero : (-b.exponent).toNat = 0 := by omega
    rw [floor, hzero, Nat.shiftRight_zero, Nat.shiftLeft_eq, mul_eq_zero] at h
    rcases h with h | h
    · omega
    · exact absurd h (Nat.two_pow_pos _).ne'
  rw [value, zpow_eq_div_pow two_ne_zero b.exponent, hnegative, pow_zero, mul_one_div]

theorem least_le_value (hpos : 0 < b.significand) (h : -1074 ≤ b.exponent) :
    (2 : ℚ) ^ (-1074 : ℤ) ≤ b.value := by
  have hm : (1 : ℚ) ≤ b.significand := by exact_mod_cast hpos
  calc (2 : ℚ) ^ (-1074 : ℤ) ≤ 2 ^ b.exponent := zpow_le_zpow_right₀ one_le_two h
    _ ≤ b.value := le_mul_of_one_le_left (by positivity) hm

end Binary

namespace Shortest

open Binary

variable {b : Binary} {scale : ℤ} {t : ℕ}

/-- The leading place is not above the number. -/
theorem leadingPlace_le (hpos : 0 < b.significand) (hleast : -1074 ≤ b.exponent) :
    (10 : ℚ) ^ leadingPlace b ≤ b.value := by
  by_cases hfloor : b.floor = 0
  · simp only [leadingPlace, if_pos hfloor]
    split
    · next j hj =>
      have hden : 1 <<< (-b.exponent).toNat ≤ b.significand * 10 ^ (j + 1) := by
        simpa using List.find?_some hj
      rw [Nat.one_shiftLeft] at hden
      have hcast : (2 : ℚ) ^ (-b.exponent).toNat ≤ b.significand * 10 ^ (j + 1) := by
        exact_mod_cast hden
      rw [value_of_floor_eq_zero hpos hfloor, le_div_iff₀ (by positivity), zpow_neg,
        inv_mul_le_iff₀ (by positivity), mul_comm]
      exact_mod_cast hcast
    · -- No place was found among those of the doubles, so it is the one below them.
      have hpow : 2 ^ 1074 ≤ 10 ^ 324 := by decide +kernel
      refine le_trans ?_ (least_le_value hpos hleast)
      rw [zpow_neg, zpow_neg]
      exact inv_anti₀ (by positivity) (by exact_mod_cast hpow)
  · simp only [leadingPlace, if_neg hfloor]
    refine le_trans ?_ b.floor_le_value
    have hlength := Nat.length_toDigits_pos (b := 10) (n := b.floor)
    have hexponent : ((Nat.toDigits 10 b.floor).length : ℤ) - 1 =
        ((Nat.toDigits 10 b.floor).length - 1 : ℕ) := by omega
    rw [hexponent, zpow_natCast]
    exact_mod_cast pow_le_of_length_toDigits hfloor

/-! ## Grids -/

/-- A bracket holds the bounds of the interval and the number itself, all measured alike. -/
theorem exists_unit (hpos : 0 < b.significand) (scale : ℤ) :
    ∃ u : ℚ, 0 < u ∧ ((bracket b scale).low : ℚ) = b.low * u ∧
      ((bracket b scale).mid : ℚ) = b.value * u ∧ ((bracket b scale).high : ℚ) = b.high * u ∧
      ((bracket b scale).den : ℚ) = 10 ^ scale * u := by
  have htwo := zpow_eq_div_pow (a := 2) two_ne_zero (b.exponent - 2)
  have hten := zpow_eq_div_pow (a := 10) (by norm_num) scale
  have hup : ((10 ^ (-scale).toNat <<< (b.exponent - 2).toNat : ℕ) : ℚ) =
      b.quarter * (10 ^ (-scale).toNat * 2 ^ (-(b.exponent - 2)).toNat) := by
    rw [quarter, htwo, Nat.shiftLeft_eq]
    push_cast
    field_simp
  have hcut : (if b.narrowBelow = true then 1 else 2) ≤ 4 * b.significand := by
    split <;> omega
  refine ⟨10 ^ (-scale).toNat * 2 ^ (-(b.exponent - 2)).toNat, by positivity, ?_, ?_, ?_, ?_⟩
  · simp only [bracket, Nat.pow_eq, Nat.cast_mul, hup, low]
    push_cast [hcut]
    ring
  · simp only [bracket, Nat.pow_eq, Nat.cast_mul, hup, value, two_zpow_exponent]
    push_cast
    ring
  · simp only [bracket, Nat.pow_eq, Nat.cast_mul, hup, high]
    push_cast
    ring
  · simp only [bracket, Nat.pow_eq, Nat.shiftLeft_eq, hten]
    push_cast
    field_simp

section Unit

variable {m n : ℕ} {x y u : ℚ}

/-- Numbers measured in one unit compare as their measures do. -/
theorem le_iff_of_unit (hu : 0 < u) (hm : (m : ℚ) = x * u) (hn : (n : ℚ) = y * u) :
    m ≤ n ↔ x ≤ y := by
  have hcast : (m : ℚ) ≤ n ↔ m ≤ n := Nat.cast_le
  rw [← hcast, hm, hn, mul_le_mul_iff_left₀ hu]

theorem lt_iff_of_unit (hu : 0 < u) (hm : (m : ℚ) = x * u) (hn : (n : ℚ) = y * u) :
    m < n ↔ x < y := by
  rw [← not_le, ← not_le, le_iff_of_unit hu hn hm]

end Unit

/-- A grid point is accepted exactly if it is rounded to the double. -/
theorem holds_iff (hpos : 0 < b.significand) :
    (bracket b scale).holds t = true ↔ b.Attracts (t * 10 ^ scale) := by
  obtain ⟨u, hu, hlow, -, hhigh, hden⟩ := exists_unit hpos scale
  have hpoint : ((t * (bracket b scale).den : ℕ) : ℚ) = t * 10 ^ scale * u := by
    rw [Nat.cast_mul, hden, mul_assoc]
  have hclosed : (bracket b scale).closed = (b.significand % 2 == 0) := rfl
  simp only [Bracket.holds, hclosed, beq_iff_eq, le_iff_of_unit hu hlow hpoint,
    le_iff_of_unit hu hpoint hhigh, lt_iff_of_unit hu hlow hpoint, lt_iff_of_unit hu hpoint hhigh]
  split
  · next heven =>
    simp only [Bool.and_eq_true, decide_eq_true_eq]
    exact ⟨fun h => ⟨h.1, h.2, fun _ => heven⟩, fun h => ⟨h.low_le, h.le_high⟩⟩
  · next hodd =>
    simp only [Bool.and_eq_true, decide_eq_true_eq]
    refine ⟨fun h => .of_lt h.1 h.2, fun h => ⟨?_, ?_⟩⟩
    · exact lt_of_le_of_ne h.low_le fun heq => hodd (h.even (.inl heq.symm))
    · exact lt_of_le_of_ne h.le_high fun heq => hodd (h.even (.inr heq))

theorem Bracket.holds_of_nearest? {r : Bracket} (h : r.nearest? = some t) : r.holds t = true := by
  simp only [Bracket.nearest?] at h
  split at h
  · next hbelow habove =>
    obtain rfl := Option.some.inj h
    split <;> assumption
  · next hbelow _ =>
    exact Option.some.inj h ▸ hbelow
  · next _ habove =>
    exact Option.some.inj h ▸ habove
  · cases h

theorem Bracket.exists_nearest? {r : Bracket}
    (h : r.holds (r.mid / r.den) = true ∨ r.holds (r.mid / r.den + 1) = true) :
    ∃ t, r.nearest? = some t := by
  simp only [Bracket.nearest?]
  split
  · exact ⟨_, rfl⟩
  · exact ⟨_, rfl⟩
  · exact ⟨_, rfl⟩
  · next hbelow habove =>
    rw [hbelow, habove] at h
    exact (h.elim Bool.false_ne_true Bool.false_ne_true).elim

/-- With seventeen digits from its leading place on, the grid is fine enough that one of the two
neighbours of a number is rounded to it. -/
theorem exists_nearest_of_seventeen (hb : b.Canonical)
    (hplace : (10 : ℚ) ^ (scale + 16) ≤ b.value) : ∃ t, (bracket b scale).nearest? = some t := by
  have hpos := hb.pos
  have hq := b.quarter_pos
  have hgrid : (0 : ℚ) < 10 ^ scale := by positivity
  have hvalue : 0 ≤ b.value / 10 ^ scale := by
    rw [value]
    positivity
  have hfloor : (bracket b scale).mid / (bracket b scale).den = ⌊b.value / 10 ^ scale⌋₊ := by
    obtain ⟨u, hu, -, hmid, -, hden⟩ := exists_unit hpos scale
    have hfloor := Nat.floor_div_eq_div (K := ℚ) (bracket b scale).mid (bracket b scale).den
    rw [← hfloor, hmid, hden, mul_div_mul_right _ _ hu.ne']
  refine Bracket.exists_nearest? ?_
  rw [hfloor, holds_iff hpos, holds_iff hpos]
  have hbelow := (le_div_iff₀ hgrid).mp (Nat.floor_le hvalue)
  have habove := (div_lt_iff₀ hgrid).mp (Nat.lt_floor_add_one (b.value / 10 ^ scale))
  push_cast
  generalize (⌊b.value / 10 ^ scale⌋₊ : ℚ) = t at hbelow habove ⊢
  rw [zpow_add₀ (by norm_num)] at hplace
  by_cases hnarrow : b.narrowBelow = true
  · -- The step to the number above is shorter than the way to its bound.
    have hstep : (10 : ℚ) ^ scale < 2 * b.quarter := by
      rw [value, two_zpow_exponent, (hb.narrowBelow.mp hnarrow).1] at hplace
      norm_num [leadingWeight] at hplace
      linarith
    refine .inr (.of_lt ?_ ?_)
    · rw [low_eq, if_pos hnarrow]
      linarith
    · rw [high_eq]
      linarith
  · -- The step is shorter than the interval, so one of the two ways is within half of it.
    have hstep : (10 : ℚ) ^ scale < 4 * b.quarter := by
      have hm : (b.significand : ℚ) < 2 ^ 53 := by exact_mod_cast hb.lt
      have hlt := mul_lt_mul_of_pos_right hm hq
      rw [value, two_zpow_exponent] at hplace
      norm_num at hplace hlt
      linarith
    rcases lt_or_ge (b.value - t * 10 ^ scale) (2 * b.quarter) with hnear | hfar
    · refine .inl (.of_lt ?_ ?_)
      · rw [low_eq, if_neg hnarrow]
        linarith
      · rw [high_eq]
        linarith
    · refine .inr (.of_lt ?_ ?_)
      · rw [low_eq, if_neg hnarrow]
        linarith
      · rw [high_eq]
        linarith

/-! ## The result -/

theorem trim_value (fuel : ℕ) (d : Shortest) :
    ((trim fuel d).digits * 10 ^ (trim fuel d).scale : ℚ) = d.digits * 10 ^ d.scale := by
  induction fuel generalizing d with
  | zero => rfl
  | succ fuel ih =>
    rw [trim]
    split
    · next hzero =>
      obtain ⟨k, hk⟩ := Nat.dvd_of_mod_eq_zero hzero.2
      rw [ih, hk, Nat.mul_div_cancel_left k (by decide), zpow_add₀ (by norm_num)]
      push_cast
      ring
    · rfl

/-- The shortest decimal is rounded to the double that it is made for. -/
theorem attracts_ofBinary (hb : b.Canonical) :
    b.Attracts ((ofBinary b).digits * 10 ^ (ofBinary b).scale) := by
  simp only [ofBinary]
  split
  · next d hd =>
    obtain ⟨n, -, hn⟩ := List.exists_of_findSome?_eq_some hd
    obtain ⟨t, ht, rfl⟩ := Option.map_eq_some_iff.mp hn
    rw [trim_value]
    exact (holds_iff hb.pos).mp (Bracket.holds_of_nearest? ht)
  · next hnone =>
    -- Not even the grid of seventeen digits would have a point that reads back.
    have hplace : (10 : ℚ) ^ (leadingPlace b + 1 - 17 + 16) ≤ b.value := by
      rw [show leadingPlace b + 1 - 17 + 16 = leadingPlace b by omega]
      exact leadingPlace_le hb.pos hb.least
    obtain ⟨t, ht⟩ := exists_nearest_of_seventeen hb hplace
    have hgrid := List.findSome?_eq_none_iff.mp hnone 17 (by decide)
    cases (Option.map_eq_none_iff.mp hgrid).symm.trans ht

end Shortest

end Dataflow.Decimal
