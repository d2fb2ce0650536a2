import Dataflow.Scalar.Single
import Mathlib

/-!
# Rounding to single precision

A double that has been rounded to single precision is not changed by rounding it again: its
significand ends in as many zeros as a single asks for, also where the rounding carried into the
exponent.
-/

namespace Dataflow

/-! ## Quotients -/

namespace Decimal

theorem roundDiv_mul {den : Nat} (h : 0 < den) (k : Nat) : roundDiv (k * den) den = k := by
  have hq : k * den / den = k := Nat.mul_div_cancel k h
  have hr : k * den % den = 0 := Nat.mul_mod_left k den
  simp [roundDiv, hq, hr, h]

theorem le_roundDiv {num den k : Nat} (hd : 0 < den) (h : k * den ≤ num) :
    k ≤ roundDiv num den := by
  have hq : k ≤ num / den := (Nat.le_div_iff_mul_le hd).mpr h
  simp only [roundDiv]
  split <;> omega

theorem roundDiv_le {num den k : Nat} (hd : 0 < den) (h : num ≤ k * den) :
    roundDiv num den ≤ k := by
  rcases h.eq_or_lt with rfl | hlt
  · exact (roundDiv_mul hd k).le
  · have hq : num / den < k := (Nat.div_lt_iff_lt_mul hd).mpr hlt
    simp only [roundDiv]
    split <;> omega

theorem roundDiv_mono {m n : Nat} (den : Nat) (h : m ≤ n) :
    roundDiv m den ≤ roundDiv n den := by
  have hquotient : m / den ≤ n / den := Nat.div_le_div_right h
  have hm := Nat.div_add_mod m den
  have hn := Nat.div_add_mod n den
  rcases hquotient.eq_or_lt with heq | hlt
  · rw [heq] at hm
    simp only [roundDiv, heq]
    split <;> split <;> omega
  · simp only [roundDiv]
    split <;> split <;> omega

theorem roundDiv_eq_zero {num den : Nat} (h : 2 * num < den) : roundDiv num den = 0 := by
  have hq : num / den = 0 := Nat.div_eq_of_lt (by omega)
  have hr : num % den = num := Nat.mod_eq_of_lt (by omega)
  simp [roundDiv, hq, hr, h]

end Decimal

namespace Single

open Decimal (roundDiv)
open Decimal.Binary (leadingWeight)

/-! ## Significands -/

theorem dvd_roundTo (unit n : Nat) : unit ∣ roundTo unit n := ⟨_, Nat.mul_comm ..⟩

theorem roundTo_of_dvd {unit n : Nat} (hu : 0 < unit) (h : unit ∣ n) : roundTo unit n = n := by
  obtain ⟨k, rfl⟩ := h
  rw [roundTo, Nat.mul_comm unit k, Decimal.roundDiv_mul hu]

theorem le_roundTo {unit n lo : Nat} (hu : 0 < unit) (hd : unit ∣ lo) (h : lo ≤ n) :
    lo ≤ roundTo unit n := by
  obtain ⟨k, rfl⟩ := hd
  rw [roundTo, Nat.mul_comm unit k]
  exact Nat.mul_le_mul_right _ (Decimal.le_roundDiv hu (Nat.mul_comm unit k ▸ h))

theorem roundTo_le {unit n hi : Nat} (hu : 0 < unit) (hd : unit ∣ hi) (h : n ≤ hi) :
    roundTo unit n ≤ hi := by
  obtain ⟨k, rfl⟩ := hd
  rw [roundTo, Nat.mul_comm unit k]
  exact Nat.mul_le_mul_right _ (Decimal.roundDiv_le hu (Nat.mul_comm unit k ▸ h))

/-- A unit that is small enough to leave a normal significand its leading digit. -/
theorem unit_dvd {e : Nat} (h : dropped e ≤ 52) : 2 ^ dropped e ∣ leadingWeight :=
  Nat.pow_dvd_pow 2 h

/-- A significand rounds to nothing, to the power of two above it, or within its own binade. -/
theorem significand_cases {e f : Nat} (hf : f < leadingWeight) :
    significand e f = 0 ∨ (significand e f = 2 * leadingWeight ∧ dropped e ≤ 53) ∨
      (leadingWeight ≤ significand e f ∧ significand e f < 2 * leadingWeight ∧
        dropped e ≤ 52) := by
  have hu : 0 < 2 ^ dropped e := Nat.two_pow_pos _
  rcases Nat.lt_or_ge 53 (dropped e) with hlarge | hd
  · -- Half of the unit is already the next power of two.
    refine .inl ?_
    have hunit : 2 ^ 54 ≤ 2 ^ dropped e := Nat.pow_le_pow_right (by omega) hlarge
    have hround : roundDiv (leadingWeight + f) (2 ^ dropped e) = 0 :=
      Decimal.roundDiv_eq_zero (by simp only [leadingWeight] at *; omega)
    simp [significand, roundTo, hround]
  have htwo : 2 ^ dropped e ∣ 2 * leadingWeight := by
    have : 2 * leadingWeight = 2 ^ 53 := rfl
    exact this ▸ Nat.pow_dvd_pow 2 hd
  have hle : significand e f ≤ 2 * leadingWeight := roundTo_le hu htwo (by omega)
  rcases hd.eq_or_lt with h53 | hlt
  · -- The unit is the next power of two itself.
    obtain ⟨k, hk⟩ : 2 ^ 53 ∣ significand e f := h53 ▸ dvd_roundTo _ _
    have : 2 * leadingWeight = 2 ^ 53 := rfl
    rcases Nat.lt_or_ge 0 k with hpos | hzero
    · exact .inr (.inl ⟨by omega, hd⟩)
    · exact .inl (by omega)
  · have hge : leadingWeight ≤ significand e f :=
      le_roundTo hu (unit_dvd (by omega)) (Nat.le_add_right _ _)
    rcases hle.eq_or_lt with heq | hlow
    · exact .inr (.inl ⟨heq, hd⟩)
    · exact .inr (.inr ⟨hge, hlow, by omega⟩)

/-! ## Magnitudes -/

variable {m : Nat}

theorem magnitude_of_infinity_le (h : infinity ≤ m) : magnitude m = m := by
  simp [magnitude, h]

theorem magnitude_zero : magnitude 0 = 0 := by decide

/-- A pattern whose significand has no digits to drop is a single. -/
theorem magnitude_exact {e f : Nat} (hf : f < leadingWeight) (he : 0 < e)
    (hb : e * leadingWeight + f < beyond) (hd : 2 ^ dropped e ∣ leadingWeight + f) :
    magnitude (e * leadingWeight + f) = e * leadingWeight + f := by
  have hdiv : (e * leadingWeight + f) / leadingWeight = e := by
    simp only [leadingWeight] at *; omega
  have hmod : (e * leadingWeight + f) % leadingWeight = f := by
    simp only [leadingWeight] at *; omega
  have hsig : significand e f = leadingWeight + f :=
    roundTo_of_dvd (Nat.two_pow_pos _) hd
  have hfin : ¬ infinity ≤ e * leadingWeight + f := by
    simp only [infinity, beyond, leadingWeight] at *; omega
  have hsum : (e - 1) * leadingWeight + (leadingWeight + f) = e * leadingWeight + f := by
    simp only [leadingWeight] at *; omega
  have hnot : ¬ (e = 0 ∨ leadingWeight + f = 0) := by simp only [leadingWeight]; omega
  simp only [magnitude, hdiv, hmod, hsig, hsum]
  rw [if_neg hfin, if_neg hnot, if_neg (by omega)]

/-- A magnitude rounds to zero, to infinity or to the pattern of a single. -/
theorem magnitude_cases (m : Nat) :
    magnitude m = 0 ∨ infinity ≤ magnitude m ∨
      ∃ e f, magnitude m = e * leadingWeight + f ∧ f < leadingWeight ∧ 0 < e ∧
        e * leadingWeight + f < beyond ∧ 2 ^ dropped e ∣ leadingWeight + f := by
  by_cases hfinite : infinity ≤ m
  · exact .inr (.inl (by rwa [magnitude_of_infinity_le hfinite]))
  generalize he : m / leadingWeight = e
  generalize hf : m % leadingWeight = f
  have hlt : f < leadingWeight := hf ▸ Nat.mod_lt _ (by decide)
  by_cases hzero : e = 0 ∨ significand e f = 0
  · exact .inl (by simp only [magnitude, he, hf, hfinite, hzero, if_true, if_false])
  by_cases hover : beyond ≤ (e - 1) * leadingWeight + significand e f
  · refine .inr (.inl (le_of_eq ?_))
    simp only [magnitude, he, hf, hfinite, hzero, hover, if_true, if_false]
  refine .inr (.inr ?_)
  have hm : magnitude m = (e - 1) * leadingWeight + significand e f := by
    simp only [magnitude, he, hf, hfinite, hzero, hover, if_false]
  rw [hm]
  obtain ⟨hpos, hsignificand⟩ := not_or.mp hzero
  -- What is left is finite, and the significand tells which binade it is in.
  rcases significand_cases (e := e) hlt with h | ⟨h, hd⟩ | ⟨hge, hle, hd⟩
  · exact absurd h hsignificand
  · -- The next power of two, whose own digits are all zero.
    have hcarry : (e - 1) * leadingWeight + significand e f = (e + 1) * leadingWeight + 0 := by
      simp only [h, leadingWeight] at *; omega
    refine ⟨e + 1, 0, hcarry, by decide, by omega, by omega, unit_dvd ?_⟩
    simp only [dropped] at *; omega
  · obtain ⟨f', hf'⟩ := Nat.exists_eq_add_of_le hge
    have hsame : (e - 1) * leadingWeight + significand e f = e * leadingWeight + f' := by
      simp only [hf', leadingWeight] at *; omega
    exact ⟨e, f', hsame, by omega, by omega, by omega, hf' ▸ dvd_roundTo _ _⟩

theorem magnitude_magnitude (m : Nat) : magnitude (magnitude m) = magnitude m := by
  obtain h | h | ⟨e, f, h, hf, he, hbeyond, hd⟩ := magnitude_cases m
  · rw [h, magnitude_zero]
  · exact magnitude_of_infinity_le h
  · rw [h, magnitude_exact hf he hbeyond hd]

theorem magnitude_le_infinity (h : m < infinity) : magnitude m ≤ infinity := by
  simp only [magnitude, if_neg (Nat.not_le.mpr h)]
  split
  · exact Nat.zero_le _
  · split
    · exact le_rfl
    · simp only [beyond, infinity, leadingWeight] at *; omega

/-! ## Bit patterns -/

section Pattern

open Float.Model Float.Model.UnpackedFloat

theorem exponent_toNat (b : UInt64) :
    (@unpackExponent Format.binary64 b.toBitVec).toNat = b.toNat / 2 ^ 52 % 2 ^ 11 := by
  change (b.toNat >>> 52) % 2 ^ 11 = _
  rw [Nat.shiftRight_eq_div_pow]

theorem mantissa_toNat (b : UInt64) :
    (@unpackMantissa Format.binary64 b.toBitVec).toNat = b.toNat % 2 ^ 52 := by
  change (b.toNat >>> 0) % 2 ^ 52 = _
  rw [Nat.shiftRight_zero]

/-- A pattern that is no NaN is the pattern of the double that it stands for. -/
theorem toBits_ofBits {b : UInt64} (h : b.toNat % signWeight ≤ infinity) :
    (Float.ofBits b).toBits = b := by
  have hnan : @isNaNBits Format.binary64 b.toBitVec = false := by
    simp only [isNaNBits, decide_eq_false_iff_not, not_and, not_not]
    intro hexp
    have he : b.toNat / 2 ^ 52 % 2 ^ 11 = 2047 := by
      rw [← exponent_toNat, hexp]; rfl
    refine BitVec.eq_of_toNat_eq ?_
    rw [mantissa_toNat]
    change b.toNat % 2 ^ 52 = 0
    simp only [signWeight, infinity, leadingWeight] at h
    omega
  have hpack : UnpackedFloat.pack Format.binary64
      (UnpackedFloat.unpack Format.binary64 b.toBitVec) = b.toBitVec := by
    rw [pack_unpack]
    simp [hnan]
  exact congrArg UInt64.ofBitVec hpack

theorem toBits_ofBits_ofNat {n : Nat} (h : n ≤ infinity) :
    (Float.ofBits (UInt64.ofNat n)).toBits.toNat = n := by
  have hsign : n < signWeight := h.trans_lt (by decide)
  have hnat : (UInt64.ofNat n).toNat = n := UInt64.toNat_ofNat_of_lt' (hsign.trans (by decide))
  rw [toBits_ofBits, hnat]
  rw [hnat, Nat.mod_eq_of_lt hsign]
  exact h

end Pattern

/-- The sign of a double in front of the magnitude of another number. -/
theorem toNat_ofNat_signed (x : Float) {m : Nat} (hm : m ≤ infinity) :
    (UInt64.ofNat (x.toBits.toNat / signWeight * signWeight + m)).toNat =
      x.toBits.toNat / signWeight * signWeight + m := by
  refine UInt64.toNat_ofNat_of_lt' ?_
  have := x.toBits.toNat_lt
  simp only [infinity, leadingWeight, signWeight, UInt64.size] at *
  omega

theorem toBits_round {x : Float} (h : x.toBits.toNat % signWeight < infinity) :
    (round x).toBits.toNat =
      x.toBits.toNat / signWeight * signWeight + magnitude (x.toBits.toNat % signWeight) := by
  have hle := magnitude_le_infinity h
  have hbits := toNat_ofNat_signed x hle
  rw [round, toBits_ofBits, hbits]
  rw [hbits]
  simp only [infinity, leadingWeight, signWeight] at *
  omega

/-- Infinities and NaN are not rounded. -/
theorem round_of_infinity_le {x : Float} (h : infinity ≤ x.toBits.toNat % signWeight) :
    round x = x := by
  simp only [round]
  rw [magnitude_of_infinity_le h, Nat.div_add_mod', UInt64.ofNat_toNat, Float.ofBits_toBits]

theorem round_round (x : Float) : round (round x) = round x := by
  rcases Nat.lt_or_ge (x.toBits.toNat % signWeight) infinity with hfinite | hinfinite
  · have hbits := toBits_round hfinite
    have hle := magnitude_le_infinity hfinite
    have hsign : (round x).toBits.toNat / signWeight = x.toBits.toNat / signWeight := by
      simp only [infinity, leadingWeight, signWeight] at *
      omega
    have hmagnitude : (round x).toBits.toNat % signWeight =
        magnitude (x.toBits.toNat % signWeight) := by
      simp only [infinity, leadingWeight, signWeight] at *
      omega
    simp only [round] at hsign hmagnitude ⊢
    rw [hsign, hmagnitude, magnitude_magnitude]
  · rw [round_of_infinity_le hinfinite, round_of_infinity_le hinfinite]

end Single

end Dataflow
