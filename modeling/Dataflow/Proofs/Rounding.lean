import Dataflow.Proofs.Doubles

/-!
# Rounding exact numbers to doubles

Every finite double other than zero is nearest to the numbers of an interval around it, whose bounds
lie halfway to its neighbours. A positive number in that interval is rounded to that double,
whatever quotient it is written as.
-/

namespace Dataflow.Decimal

open Binary (leadingWeight)

/-! ## Scaling -/

theorem zpow_eq_div_pow {a : ℚ} (ha : a ≠ 0) (z : ℤ) : a ^ z = a ^ z.toNat / a ^ (-z).toNat := by
  rw [← zpow_natCast, ← zpow_natCast, ← zpow_sub₀ ha]
  congr 1
  omega

variable {num den k : ℕ} {x r : ℚ}

/-- Shifting one of the two sides divides the quotient by a power of two. -/
theorem shifted_ratio (num den : ℕ) (z : ℤ) :
    ((num <<< (-z).toNat : ℕ) : ℚ) / (den <<< z.toNat : ℕ) = num / den / 2 ^ z := by
  rw [zpow_eq_div_pow two_ne_zero z, Nat.shiftLeft_eq, Nat.shiftLeft_eq]
  push_cast
  field_simp

/-! ## Quotients -/

/-- `k` is the whole number nearest to `x`, and the even one if there are two. -/
structure Nearest (k : ℕ) (x : ℚ) : Prop where
  low_le : k - 1 / 2 ≤ x
  le_high : x ≤ k + 1 / 2
  even : x = k - 1 / 2 ∨ x = k + 1 / 2 → k % 2 = 0

theorem Nearest.eq {j : ℕ} (hj : Nearest j x) (hk : Nearest k x) : j = k := by
  wlog hlt : j < k generalizing j k with hwlog
  · rcases (not_lt.mp hlt).eq_or_lt with heq | hgt
    · exact heq.symm
    · exact (hwlog hk hj hgt).symm
  -- Only the middle between two neighbours is nearest to both, and one of them is odd.
  have hcast : (j + 1 : ℚ) ≤ k := by exact_mod_cast hlt
  have hxj : x = j + 1 / 2 := by linarith [hj.le_high, hk.low_le]
  have hxk : x = k - 1 / 2 := by linarith [hj.le_high, hk.low_le]
  have hnext : k = j + 1 := by exact_mod_cast (by linarith : (k : ℚ) = j + 1)
  have hevenj := hj.even (.inr hxj)
  have hevenk := hk.even (.inl hxk)
  omega

theorem nearest_self (k : ℕ) : Nearest k k :=
  ⟨by linarith, by linarith, fun h => by rcases h with h | h <;> linarith⟩

theorem nearest_roundDiv (num : ℕ) (hd : 0 < den) : Nearest (roundDiv num den) (num / den) := by
  have hden : (0 : ℚ) < den := Nat.cast_pos.mpr hd
  have hsplit : (num / den : ℚ) = (num / den : ℕ) + (num % den : ℕ) / den := by
    rw [add_comm, div_add' _ _ _ hden.ne', add_comm]
    exact congrArg (· / (den : ℚ)) (by exact_mod_cast (Nat.div_add_mod' num den).symm)
  have hmod : ((num % den : ℕ) : ℚ) / den < 1 := by
    rw [div_lt_one hden]
    exact_mod_cast Nat.mod_lt num hd
  have hnonneg : 0 ≤ ((num % den : ℕ) : ℚ) / den := by positivity
  -- The fraction of the quotient decides, and on a tie the parity of its integer part.
  rw [hsplit, roundDiv]
  rcases Nat.lt_trichotomy (2 * (num % den)) den with hlt | htie | hgt
  · have hhalf : ((num % den : ℕ) : ℚ) / den < 1 / 2 := by
      rw [div_lt_div_iff₀ hden two_pos, mul_comm, one_mul]
      exact_mod_cast hlt
    rw [if_pos (.inl hlt)]
    refine ⟨by linarith, by linarith, fun h => ?_⟩
    rcases h with h | h <;> linarith
  · have hhalf : ((num % den : ℕ) : ℚ) / den = 1 / 2 := by
      rw [div_eq_div_iff hden.ne' two_ne_zero, mul_comm, one_mul]
      exact_mod_cast htie
    rw [hhalf]
    by_cases heven : num / den % 2 = 0
    · rw [if_pos (.inr ⟨htie, heven⟩)]
      exact ⟨by linarith, le_rfl, fun _ => heven⟩
    · rw [if_neg (by omega)]
      refine ⟨?_, ?_, fun _ => by omega⟩ <;> push_cast <;> linarith
  · have hhalf : 1 / 2 < ((num % den : ℕ) : ℚ) / den := by
      rw [div_lt_div_iff₀ two_pos hden, mul_comm (_ : ℚ) 2, one_mul]
      exact_mod_cast hgt
    rw [if_neg (by omega)]
    refine ⟨?_, ?_, fun h => ?_⟩
    · push_cast
      linarith
    · push_cast
      linarith
    · push_cast at h
      rcases h with h | h <;> linarith

theorem roundDiv_eq (hd : 0 < den) (h : Nearest k (num / den)) : roundDiv num den = k :=
  (nearest_roundDiv num hd).eq h

/-- The leading binary digit is where the logarithm says. -/
theorem leadingBit_eq_log (hn : 0 < num) (hd : 0 < den) :
    leadingBit num den = Int.log 2 (num / den : ℚ) := by
  have hnum : (0 : ℚ) < num := Nat.cast_pos.mpr hn
  have hden : (0 : ℚ) < den := Nat.cast_pos.mpr hd
  have hnlow : (2 : ℚ) ^ (num.log2 : ℤ) ≤ num := by
    exact_mod_cast Nat.log2_self_le hn.ne'
  have hnhigh : (num : ℚ) < 2 ^ (num.log2 + 1 : ℤ) := by
    exact_mod_cast Nat.lt_log2_self (n := num)
  have hdlow : (2 : ℚ) ^ (den.log2 : ℤ) ≤ den := by
    exact_mod_cast Nat.log2_self_le hd.ne'
  have hdhigh : (den : ℚ) < 2 ^ (den.log2 + 1 : ℤ) := by
    exact_mod_cast Nat.lt_log2_self (n := den)
  have hpos : (0 : ℚ) < num / den := by positivity
  -- The logarithm is the difference of the leading digits, or one less.
  have hlow : (num.log2 : ℤ) - den.log2 - 1 ≤ Int.log 2 (num / den : ℚ) := by
    rw [← Int.zpow_le_iff_le_log one_lt_two hpos, Nat.cast_two, sub_sub, zpow_sub₀ two_ne_zero]
    exact div_le_div₀ hnum.le hnlow hden hdhigh.le
  have hhigh : Int.log 2 (num / den : ℚ) < (num.log2 : ℤ) - den.log2 + 1 := by
    rw [← Int.lt_zpow_iff_log_lt one_lt_two hpos, Nat.cast_two, sub_add_eq_add_sub,
      zpow_sub₀ two_ne_zero]
    exact div_lt_div₀ hnhigh hdlow (by positivity) (by positivity)
  -- A shift of either side compares the quotient with a power of two.
  have hshift (z : ℤ) : den <<< z.toNat ≤ num <<< (-z).toNat ↔ z ≤ Int.log 2 (num / den : ℚ) := by
    have hshifted : 0 < ((den <<< z.toNat : ℕ) : ℚ) := by
      rw [Nat.shiftLeft_eq]
      positivity
    have hcast : ((den <<< z.toNat : ℕ) : ℚ) ≤ (num <<< (-z).toNat : ℕ) ↔
      den <<< z.toNat ≤ num <<< (-z).toNat := Nat.cast_le
    rw [← Int.zpow_le_iff_le_log one_lt_two hpos, Nat.cast_two, ← hcast, ← one_le_div hshifted,
      shifted_ratio, one_le_div (by positivity)]
  simp only [leadingBit, hshift]
  split <;> omega

/-! ## The interval of a double -/

namespace Binary

/-- What a positive finite double is taken apart into. -/
structure Canonical (b : Binary) : Prop extends Double.Significand b.significand b.exponent where
  pos : 0 < b.significand
  narrowBelow : b.narrowBelow = true ↔ b.significand = leadingWeight ∧ -1074 < b.exponent

variable (b : Binary)

/-- The double as a rational number. -/
def value : ℚ := b.significand * 2 ^ b.exponent

/-- A quarter of the last digit of the significand. -/
def quarter : ℚ := 2 ^ (b.exponent - 2)

/-- The middle between the double and the next smaller one. -/
def low : ℚ := (4 * b.significand - if b.narrowBelow then 1 else 2) * b.quarter

/-- The middle between the double and the next larger one. -/
def high : ℚ := (4 * b.significand + 2) * b.quarter

/-- `r` is rounded to the double `b`. -/
structure Attracts (r : ℚ) : Prop where
  low_le : b.low ≤ r
  le_high : r ≤ b.high
  even : r = b.low ∨ r = b.high → b.significand % 2 = 0

theorem quarter_pos : 0 < b.quarter := by
  unfold quarter
  positivity

theorem two_zpow_exponent_add (z : ℤ) : (2 : ℚ) ^ (b.exponent + z) = 2 ^ (z + 2) * b.quarter := by
  rw [quarter, ← zpow_add₀ two_ne_zero]
  congr 1
  omega

theorem two_zpow_exponent : (2 : ℚ) ^ b.exponent = 4 * b.quarter := by
  have hunit := b.two_zpow_exponent_add 0
  norm_num at hunit
  exact hunit

theorem low_eq : b.low = b.value - (if b.narrowBelow then 1 else 2) * b.quarter := by
  rw [low, value, two_zpow_exponent]
  ring

theorem high_eq : b.high = b.value + 2 * b.quarter := by
  rw [high, value, two_zpow_exponent]
  ring

variable {b}

/-! ### What is attracted -/

theorem Attracts.of_lt (hlow : b.low < r) (hhigh : r < b.high) : b.Attracts r :=
  ⟨hlow.le, hhigh.le, fun h => by rcases h with h | h <;> linarith⟩

theorem attracts_value (b : Binary) : b.Attracts b.value := by
  have hq := b.quarter_pos
  refine .of_lt ?_ ?_
  · rw [low_eq]
    split <;> linarith
  · rw [high_eq]
    linarith

theorem Attracts.pos (hb : b.Canonical) (h : b.Attracts r) : 0 < r := by
  refine lt_of_lt_of_le (mul_pos ?_ b.quarter_pos) h.low_le
  have hm : (1 : ℚ) ≤ b.significand := by exact_mod_cast hb.pos
  split <;> linarith

/-- Everything that is attracted is within half a last digit. -/
theorem Attracts.within_half (h : b.Attracts r) : Nearest b.significand (r / 2 ^ b.exponent) := by
  have hq := b.quarter_pos
  have hhigh := h.le_high
  have hlow : (4 * b.significand - 2) * b.quarter ≤ b.low := by
    refine mul_le_mul_of_nonneg_right ?_ hq.le
    split <;> linarith
  rw [high] at hhigh
  rw [two_zpow_exponent]
  refine ⟨?_, ?_, fun heq => ?_⟩
  · rw [le_div_iff₀ (by positivity)]
    linarith [h.low_le]
  · rw [div_le_iff₀ (by positivity)]
    linarith
  · rw [div_eq_iff (by positivity), div_eq_iff (by positivity)] at heq
    refine h.even (heq.imp (fun heq => le_antisymm ?_ h.low_le) fun heq => ?_)
    · linarith
    · rw [high, heq]
      ring

theorem Attracts.lt_next_binade (hb : b.Canonical) (h : b.Attracts r) :
    r < 2 ^ (b.exponent + 53) := by
  have hm : (b.significand + 1 : ℚ) ≤ 2 ^ 53 := by exact_mod_cast hb.lt
  rw [two_zpow_exponent_add]
  refine h.le_high.trans_lt (mul_lt_mul_of_pos_right ?_ b.quarter_pos)
  norm_num at hm ⊢
  linarith

/-- Only the least double of a binade attracts numbers below that binade, and only some that are
right below it. -/
theorem Attracts.below_binade (hb : b.Canonical) (h : b.Attracts r) (hleast : b.exponent ≠ -1074)
    (hbelow : r < 2 ^ (b.exponent + 52)) :
    b.narrowBelow = true ∧ 2 ^ (b.exponent + 51) ≤ r := by
  have hm : b.significand ≤ leadingWeight := by
    have hlt := h.within_half.low_le.trans_lt (div_lt_div_of_pos_right hbelow (by positivity))
    rw [zpow_add₀ two_ne_zero, mul_div_cancel_left₀ _ (by positivity)] at hlt
    norm_num at hlt
    have hweight : (leadingWeight : ℚ) = 4503599627370496 := by norm_num [leadingWeight]
    have hcast : (b.significand : ℚ) < leadingWeight + 1 := by
      rw [hweight]
      linarith
    exact Nat.le_of_lt_succ (by exact_mod_cast hcast)
  have hnarrow : b.narrowBelow = true :=
    hb.narrowBelow.mpr ⟨hm.antisymm (hb.leading.resolve_left hleast),
      lt_of_le_of_ne hb.least (Ne.symm hleast)⟩
  refine ⟨hnarrow, le_trans ?_ h.low_le⟩
  rw [two_zpow_exponent_add, low, if_pos hnarrow, (hb.narrowBelow.mp hnarrow).1]
  refine mul_le_mul_of_nonneg_right ?_ b.quarter_pos.le
  norm_num [leadingWeight]

end Binary

/-! ## The last place -/

/-- The exponent of the last digit that rounding leaves. -/
def lastPlace (r : ℚ) : ℤ := max (Int.log 2 r - 52) (-1074)

namespace Binary

variable {b : Binary}

/-- Rounding leaves the digits of the double that attracts, or one more for the numbers right below
a power of two. -/
theorem Attracts.lastPlace_eq (hb : b.Canonical) (h : b.Attracts r) :
    lastPlace r = b.exponent ∨
      b.narrowBelow = true ∧ r < 2 ^ (b.exponent + 52) ∧ lastPlace r = b.exponent - 1 := by
  have hle (z : ℤ) : (2 : ℚ) ^ z ≤ r ↔ z ≤ Int.log 2 r := by
    exact_mod_cast Int.zpow_le_iff_le_log one_lt_two (h.pos hb)
  have hlt (z : ℤ) : r < 2 ^ z ↔ Int.log 2 r < z := by
    exact_mod_cast Int.lt_zpow_iff_log_lt one_lt_two (h.pos hb)
  -- The powers of two around the number fix its logarithm; the rest is about exponents.
  have htop := (hlt _).mp (h.lt_next_binade hb)
  have hleast := hb.least
  rw [lastPlace]
  by_cases hsub : b.exponent = -1074
  · omega
  rcases le_or_gt (2 ^ (b.exponent + 52)) r with hsame | hbelow
  · rw [hle] at hsame
    omega
  · obtain ⟨hnarrow, hbinade⟩ := h.below_binade hb hsub hbelow
    have hlog := (hlt _).mp hbelow
    rw [hle] at hbinade
    exact .inr ⟨hnarrow, hbelow, by omega⟩

/-- What rounding leaves is the significand of the double, or a power of two that carries into the
next exponent. -/
theorem Attracts.exists_nearest (hb : b.Canonical) (h : b.Attracts r) :
    ∃ k, Nearest k (r / 2 ^ lastPlace r) ∧
      (lastPlace r + 1074) * leadingWeight + k = Double.magnitude b.significand b.exponent := by
  rcases h.lastPlace_eq hb with hsame | ⟨hnarrow, hbelow, hlast⟩
  · refine ⟨b.significand, ?_, by rw [hsame, Double.magnitude]⟩
    rw [hsame]
    exact h.within_half
  · have hm := (hb.narrowBelow.mp hnarrow).1
    refine ⟨2 * leadingWeight, ?_, ?_⟩
    · -- The number lies between the middle to the next smaller double and the power of two.
      have hunit : (2 : ℚ) ^ (b.exponent - 1) = 2 * b.quarter := by
        rw [zpow_sub_one₀ two_ne_zero, two_zpow_exponent]
        ring
      have hq := b.quarter_pos
      have hlow := h.low_le
      rw [low, if_pos hnarrow, hm] at hlow
      rw [two_zpow_exponent_add] at hbelow
      rw [hlast, hunit]
      norm_num [leadingWeight] at hlow hbelow
      refine ⟨?_, ?_, fun _ => by decide⟩
      · rw [le_div_iff₀ (by positivity)]
        norm_num [leadingWeight]
        linarith
      · rw [div_le_iff₀ (by positivity)]
        norm_num [leadingWeight]
        linarith
    · rw [hlast, Double.magnitude, hm]
      push_cast
      ring

end Binary

/-! ## The nearest double -/

/-- Whatever quotient it is written as, a number is rounded to the double that attracts it. -/
theorem toBits_nearestDouble {b : Binary} (hb : b.Canonical) (hd : 0 < den)
    (h : b.Attracts (num / den)) :
    ((nearestDouble num den).toBits.toNat : ℤ) =
      Double.magnitude b.significand b.exponent := by
  have hn : 0 < num := by
    refine Nat.pos_of_ne_zero fun hzero => ?_
    have hpos := h.pos hb
    rw [hzero, Nat.cast_zero, zero_div] at hpos
    exact hpos.false
  obtain ⟨k, hk, hmagnitude⟩ := h.exists_nearest hb
  have hlast : max (leadingBit num den - 52) (-1074) = lastPlace (num / den) := by
    rw [leadingBit_eq_log hn hd, lastPlace]
  have hround : roundDiv (num <<< (-lastPlace (num / den)).toNat)
      (den <<< (lastPlace (num / den)).toNat) = k := by
    refine roundDiv_eq ?_ (shifted_ratio num den _ ▸ hk)
    rw [Nat.shiftLeft_eq]
    positivity
  have hbits : (((lastPlace (num / den) + 1074).toNat * leadingWeight + k : ℕ) : ℤ) =
      Double.magnitude b.significand b.exponent := by
    have hleast : -1074 ≤ lastPlace (num / den) := le_max_right _ _
    rw [← hmagnitude]
    push_cast
    rw [Int.toNat_of_nonneg (by omega)]
  have hfinite := Double.magnitude_lt_infinity hb.toSignificand
  simp only [nearestDouble, if_neg hn.ne', hlast, hround]
  rw [← hbits] at hfinite ⊢
  generalize (lastPlace (num / den) + 1074).toNat * leadingWeight + k = bits at hfinite ⊢
  -- No finite double is cut off at infinity.
  have hle : bits ≤ Single.infinity := by exact_mod_cast hfinite.le
  have hmin : min bits (2047 * leadingWeight) = bits := Nat.min_eq_left hle
  rw [hmin, Single.toBits_ofBits_ofNat hle]

/-! ## Doubles taken apart -/

namespace Binary

variable {x : Float}

theorem magnitude_ofFloat (x : Float) :
    Double.magnitude (ofFloat x).significand (ofFloat x).exponent =
      (x.toBits.toNat % Single.signWeight : ℕ) := by
  have hbiased : x.toBits.toNat % Single.signWeight =
      x.toBits.toNat / leadingWeight % 2048 * leadingWeight + x.toBits.toNat % leadingWeight := by
    simp only [Single.signWeight, leadingWeight]
    omega
  rw [hbiased]
  simp only [ofFloat, Double.magnitude]
  split
  · next hzero =>
    rw [hzero]
    simp
  · push_cast
    ring

theorem canonical_ofFloat (hx : x.isFinite = true) (hpos : 0 < (ofFloat x).significand) :
    (ofFloat x).Canonical := by
  have hlt : x.toBits.toNat / leadingWeight % 2048 < 2047 := by
    have := Double.isFinite_iff_magnitude.mp hx
    simp only [Single.signWeight, Single.infinity, leadingWeight] at *
    omega
  have hfraction : x.toBits.toNat % leadingWeight < leadingWeight := Nat.mod_lt _ (by decide)
  simp only [ofFloat] at hpos ⊢
  generalize x.toBits.toNat / leadingWeight % 2048 = biased at hpos hlt ⊢
  generalize x.toBits.toNat % leadingWeight = fraction at hpos hfraction ⊢
  -- The fields are numbers now. Without an exponent there is no leading bit.
  by_cases hzero : biased = 0
  · rw [if_pos hzero] at hpos ⊢
    refine ⟨⟨le_rfl, ?_, ?_, .inl rfl⟩, hpos, by simp⟩
    · dsimp only
      decide
    · dsimp only
      omega
  · rw [if_neg hzero]
    refine ⟨⟨?_, ?_, ?_, .inr (Nat.le_add_right _ _)⟩, ?_, ?_⟩
    · dsimp only
      omega
    · dsimp only
      omega
    · dsimp only
      omega
    · exact Nat.add_pos_left (by decide) _
    · simp only [Bool.and_eq_true, beq_iff_eq, decide_eq_true_eq]
      omega

end Binary

/-- A double is what a number that it attracts is rounded to, apart from the sign. -/
theorem toBits_nearestDouble_ofFloat {x : Float} (hx : x.isFinite = true)
    (hpos : 0 < (Binary.ofFloat x).significand) (hd : 0 < den)
    (h : (Binary.ofFloat x).Attracts (num / den)) :
    (nearestDouble num den).toBits.toNat = x.toBits.toNat % Single.signWeight := by
  have hbits := toBits_nearestDouble (Binary.canonical_ofFloat hx hpos) hd h
  rw [Binary.magnitude_ofFloat] at hbits
  exact_mod_cast hbits

end Dataflow.Decimal
