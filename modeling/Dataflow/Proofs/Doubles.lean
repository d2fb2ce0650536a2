import Dataflow.Proofs.Single
import Dataflow.Scalar.Number

/-!
# The order of doubles

The doubles other than NaN are ordered as their bit patterns are, read as a sign and a magnitude.
A word that is rounded to a double keeps its place among the others, though it may come to share it
with them. It has it for itself as long as its magnitude is at most 2^53.
-/

namespace Dataflow

namespace Double

open Float.Model
open Decimal.Binary (leadingWeight)
open Single (signWeight infinity)

/-! ## Unpacked doubles -/

section Unpacked

/-- The magnitude of a finite double, as it stands in the bit pattern. -/
def magnitude (m : Nat) (e : Int) : Int := (e + 1074) * leadingWeight + m

/-- The magnitude with the sign in front of it. -/
def unpackedPlace : UnpackedFloat → Int
  | .notANumber => 0
  | .zero _ => 0
  | .infinity s => s.apply infinity
  | .finite s m e _ => s.apply (magnitude m e)

/-- The significand of a finite double has its leading digit, unless the exponent is the least. -/
structure Significand (m : Nat) (e : Int) : Prop where
  least : -1074 ≤ e
  greatest : e ≤ 971
  lt : m < 2 * leadingWeight
  leading : e = -1074 ∨ leadingWeight ≤ m

/-- What the pattern of a double other than NaN unpacks to. -/
def Canonical : UnpackedFloat → Prop
  | .notANumber => False
  | .zero _ => True
  | .infinity _ => True
  | .finite _ m e _ => Significand m e

variable {m₁ m₂ : Nat} {e₁ e₂ : Int}

theorem magnitude_pos (h : Significand m₁ e₁) (hpos : 0 < m₁) : 0 < magnitude m₁ e₁ := by
  have := h.least
  simp only [magnitude, leadingWeight]
  omega

theorem magnitude_lt_infinity (h : Significand m₁ e₁) : magnitude m₁ e₁ < infinity := by
  have := h.greatest
  have := h.lt
  simp only [magnitude, infinity, leadingWeight] at *
  omega

/-- Finite doubles stand between the infinities. -/
theorem apply_magnitude_bounds (h : Significand m₁ e₁) (hpos : 0 < m₁) (s : UnpackedFloat.Sign) :
    -(infinity : Int) < s.apply (magnitude m₁ e₁) ∧ s.apply (magnitude m₁ e₁) < infinity := by
  have hpos := magnitude_pos h hpos
  have hlt := magnitude_lt_infinity h
  cases s <;> simp only [UnpackedFloat.Sign.apply] <;> omega

theorem natAbs_unpackedPlace_le {u : UnpackedFloat} (h : Canonical u) :
    (unpackedPlace u).natAbs ≤ infinity := by
  cases u with
  | notANumber => exact h.elim
  | zero s => exact Nat.zero_le _
  | infinity s => cases s <;> decide
  | finite s m e hm =>
    obtain ⟨hlo, hhi⟩ := apply_magnitude_bounds h hm s
    rw [unpackedPlace]
    omega

/-- A greater exponent outweighs every significand. -/
theorem magnitude_lt_of_exponent_lt (h₁ : Significand m₁ e₁) (h₂ : Significand m₂ e₂)
    (h : e₁ < e₂) : magnitude m₁ e₁ < magnitude m₂ e₂ := by
  have := h₁.least
  have := h₁.lt
  have := h₂.leading
  simp only [magnitude, leadingWeight] at *
  omega

theorem compare_magnitude (h₁ : Significand m₁ e₁) (h₂ : Significand m₂ e₂) :
    (compare e₁ e₂).then (compare m₁ m₂) = compare (magnitude m₁ e₁) (magnitude m₂ e₂) := by
  rcases Int.lt_trichotomy e₁ e₂ with hlt | rfl | hgt
  · rw [compare_lt_iff_lt.mpr hlt, compare_lt_iff_lt.mpr (magnitude_lt_of_exponent_lt h₁ h₂ hlt)]
    rfl
  · rw [compare_eq_iff_eq.mpr rfl, Ordering.eq_then]
    rcases Nat.lt_trichotomy m₁ m₂ with hlt | rfl | hgt
    · rw [compare_lt_iff_lt.mpr hlt, compare_lt_iff_lt.mpr]
      exact Int.add_lt_add_left (Int.ofNat_lt.mpr hlt) _
    · rw [compare_eq_iff_eq.mpr rfl, compare_eq_iff_eq.mpr rfl]
    · rw [compare_gt_iff_gt.mpr hgt, compare_gt_iff_gt.mpr]
      exact Int.add_lt_add_left (Int.ofNat_lt.mpr hgt) _
  · rw [compare_gt_iff_gt.mpr hgt, compare_gt_iff_gt.mpr (magnitude_lt_of_exponent_lt h₂ h₁ hgt)]
    rfl

variable {a b : Int}

theorem some_lt (h : a < b) : some Ordering.lt = some (compare a b) := by
  rw [compare_lt_iff_lt.mpr h]

theorem some_gt (h : b < a) : some Ordering.gt = some (compare a b) := by
  rw [compare_gt_iff_gt.mpr h]

theorem swap_compare : (compare a b).swap = compare (-a) (-b) := by
  rcases Int.lt_trichotomy a b with hlt | rfl | hgt
  · rw [compare_lt_iff_lt.mpr hlt, compare_gt_iff_gt.mpr (Int.neg_lt_neg hlt)]
    rfl
  · rw [compare_eq_iff_eq.mpr rfl, compare_eq_iff_eq.mpr rfl]
    rfl
  · rw [compare_gt_iff_gt.mpr hgt, compare_lt_iff_lt.mpr (Int.neg_lt_neg hgt)]
    rfl

theorem compare_finite {s t : UnpackedFloat.Sign} {hm₁ : 0 < m₁} {hm₂ : 0 < m₂}
    (h₁ : Significand m₁ e₁) (h₂ : Significand m₂ e₂) :
    UnpackedFloat.compare (.finite s m₁ e₁ hm₁) (.finite t m₂ e₂ hm₂) =
      some (compare (s.apply (magnitude m₁ e₁)) (t.apply (magnitude m₂ e₂))) := by
  have hpos₁ := magnitude_pos h₁ hm₁
  have hpos₂ := magnitude_pos h₂ hm₂
  cases s with
  | negative =>
    cases t with
    | negative =>
      refine congrArg some ?_
      rw [compare_magnitude h₁ h₂]
      exact swap_compare
    | positive => exact some_lt (by simp only [UnpackedFloat.Sign.apply]; omega)
  | positive =>
    cases t with
    | negative => exact some_gt (by simp only [UnpackedFloat.Sign.apply]; omega)
    | positive => exact congrArg some (compare_magnitude h₁ h₂)

theorem compare_canonical {u v : UnpackedFloat} (hu : Canonical u) (hv : Canonical v) :
    u.compare v = some (compare (unpackedPlace u) (unpackedPlace v)) := by
  -- Only two finite numbers are compared by their magnitudes; otherwise the kinds and signs tell.
  cases u with
  | notANumber => exact hu.elim
  | zero s =>
    cases v with
    | notANumber => exact hv.elim
    | zero t => rfl
    | infinity t => cases t <;> rfl
    | finite t m e hm =>
      have hpos := magnitude_pos hv hm
      cases t with
      | negative => exact some_gt (Int.neg_neg_of_pos hpos)
      | positive => exact some_lt hpos
  | infinity s =>
    cases v with
    | notANumber => exact hv.elim
    | zero t => cases s <;> rfl
    | infinity t => cases s <;> cases t <;> rfl
    | finite t m e hm =>
      obtain ⟨hlo, hhi⟩ := apply_magnitude_bounds hv hm t
      cases s with
      | negative => exact some_lt hlo
      | positive => exact some_gt hhi
  | finite s m e hm =>
    cases v with
    | notANumber => exact hv.elim
    | zero t =>
      have hpos := magnitude_pos hu hm
      cases s with
      | negative => exact some_lt (Int.neg_neg_of_pos hpos)
      | positive => exact some_gt hpos
    | infinity t =>
      obtain ⟨hlo, hhi⟩ := apply_magnitude_bounds hu hm s
      cases t with
      | negative => exact some_gt hlo
      | positive => exact some_lt hhi
    | finite t m' e' hm' => exact compare_finite hu hv

/-! ## Patterns -/

/-- The place of a double: the magnitude in its bit pattern, with the sign in front of it. Both
zeros stand at the place 0. -/
def place (x : Float) : Int :=
  let bits := x.toBits.toNat
  if bits < signWeight then bits else -(bits % signWeight : Nat)

theorem sign_ofBitVec (b : UInt64) :
    UnpackedFloat.Sign.ofBitVec (@UnpackedFloat.unpackSign Format.binary64 b.toBitVec) =
      if b.toNat < signWeight then .positive else .negative := by
  have hsign : (@UnpackedFloat.unpackSign Format.binary64 b.toBitVec).toNat =
      b.toNat / 2 ^ 63 % 2 ^ 1 := by
    change (b.toNat >>> 63) % 2 ^ 1 = _
    rw [Nat.shiftRight_eq_div_pow]
  have hlt := b.toNat_lt
  refine if_congr ?_ rfl rfl
  rw [← BitVec.toNat_inj, hsign, BitVec.toNat_ofNat, signWeight]
  omega

theorem apply_sign (b : UInt64) :
    (UnpackedFloat.Sign.ofBitVec (@UnpackedFloat.unpackSign Format.binary64 b.toBitVec)).apply
      (b.toNat % signWeight : Nat) =
        if b.toNat < signWeight then (b.toNat : Int) else -(b.toNat % signWeight : Nat) := by
  rw [sign_ofBitVec]
  split
  · next h => rw [Nat.mod_eq_of_lt h]; rfl
  · rfl

/-- The magnitude in a pattern is made up of its exponent and its mantissa. -/
theorem mod_signWeight (b : UInt64) :
    b.toNat % signWeight =
      (@UnpackedFloat.unpackExponent Format.binary64 b.toBitVec).toNat * leadingWeight +
        (@UnpackedFloat.unpackMantissa Format.binary64 b.toBitVec).toNat := by
  rw [Single.exponent_toNat, Single.mantissa_toNat]
  simp only [signWeight, leadingWeight]
  omega

/-- A pattern is that of NaN, or its magnitude is found again in the parts that it is taken apart
into. -/
theorem unpack_cases (b : UInt64) :
    let u := UnpackedFloat.unpack Format.binary64 b.toBitVec
    u = .notANumber ∨ Canonical u ∧ unpackedPlace u =
      (UnpackedFloat.Sign.ofBitVec (@UnpackedFloat.unpackSign Format.binary64 b.toBitVec)).apply
        (b.toNat % signWeight : Nat) := by
  rw [mod_signWeight]
  dsimp only
  fun_cases UnpackedFloat.unpack Format.binary64 b.toBitVec with
  | case1 mantissa exponent signVec sign hall hnone =>
    -- An infinity.
    have hall : exponent.toNat = 2047 := congrArg BitVec.toNat hall
    have hnone : mantissa.toNat = 0 := congrArg BitVec.toNat hnone
    refine .inr ⟨trivial, congrArg sign.apply (congrArg Nat.cast ?_)⟩
    change infinity = exponent.toNat * leadingWeight + mantissa.toNat
    rw [hall, hnone]
    rfl
  | case2 mantissa exponent hall hsome => exact .inl rfl
  | case3 mantissa exponent signVec sign hall hleast hnone =>
    -- A zero.
    have hleast : exponent.toNat = 0 := congrArg BitVec.toNat hleast
    have hnone : mantissa.toNat = 0 := congrArg BitVec.toNat hnone
    refine .inr ⟨trivial, ?_⟩
    change 0 = sign.apply (exponent.toNat * leadingWeight + mantissa.toNat : Nat)
    rw [hleast, hnone]
    cases sign <;> rfl
  | case4 mantissa exponentVec exponent signVec sign hall hleast hsome =>
    -- The least exponent, where no leading bit stands in front of the mantissa.
    have hleast : exponentVec.toNat = 0 := congrArg BitVec.toNat hleast
    have hexp : exponent + 1 = -1074 := by
      simp only [exponent, hleast]
      rfl
    have hlt : mantissa.toNat < leadingWeight := mantissa.isLt
    refine .inr ⟨⟨hexp.ge, ?_, ?_, .inl hexp⟩, congrArg sign.apply ?_⟩
    · rw [hexp]
      decide
    · omega
    · change _ = ((exponentVec.toNat * leadingWeight + mantissa.toNat : Nat) : Int)
      rw [magnitude, hexp, hleast]
      simp
  | case5 mantissa exponentVec exponent signVec sign hall hleast =>
    -- Any other exponent, with the leading bit in front of the mantissa.
    have hall : exponentVec.toNat ≠ 2047 := fun h => hall (BitVec.eq_of_toNat_eq h)
    have hleast : exponentVec.toNat ≠ 0 := fun h => hleast (BitVec.eq_of_toNat_eq h)
    have hexp : exponent = (exponentVec.toNat : Int) - 1075 := rfl
    have hlt : mantissa.toNat < leadingWeight := mantissa.isLt
    have hgreatest : exponentVec.toNat < 2048 := exponentVec.isLt
    have hsignificand : (1#1 ++ mantissa).toNat = leadingWeight + mantissa.toNat := by
      rw [BitVec.toNat_append, BitVec.toNat_ofNat]
      exact (Nat.two_pow_add_eq_or_of_lt mantissa.isLt 1).symm
    refine .inr ⟨⟨?_, ?_, ?_, .inr ?_⟩, congrArg sign.apply ?_⟩
    · omega
    · omega
    · omega
    · omega
    · change _ = ((exponentVec.toNat * leadingWeight + mantissa.toNat : Nat) : Int)
      rw [magnitude, hsignificand, hexp]
      simp only [leadingWeight]
      omega

theorem canonical_unpack {x : Float} (h : x.isNaN = false) :
    Canonical x.toModel.unpack ∧ unpackedPlace x.toModel.unpack = place x := by
  rcases unpack_cases x.toBits with hnan | ⟨hcanonical, hplace⟩
  · have htrue : x.toModel.unpack.isNaN = true := congrArg UnpackedFloat.isNaN hnan
    exact absurd (htrue.symm.trans h) (by decide)
  · exact ⟨hcanonical, hplace.trans (apply_sign x.toBits)⟩

end Unpacked

/-! ## The order -/

section Order

variable {x y : Float}

theorem compare_eq_place (hx : x.isNaN = false) (hy : y.isNaN = false) :
    x.toModel.compare y.toModel = some (compare (place x) (place y)) := by
  obtain ⟨hxcanonical, hxplace⟩ := canonical_unpack hx
  obtain ⟨hycanonical, hyplace⟩ := canonical_unpack hy
  rw [← hxplace, ← hyplace]
  exact compare_canonical hxcanonical hycanonical

theorem lt_iff_compare : x < y ↔ x.toModel.compare y.toModel = some .lt := by
  have hlt : x < y ↔ (x.toModel.compare y.toModel == some .lt) = true :=
    decide_eq_true_iff
  rw [hlt, beq_iff_eq]

theorem beq_iff_compare : (x == y) = true ↔ x.toModel.compare y.toModel = some .eq := by
  have hbeq : (x == y) = true ↔ (x.toModel.compare y.toModel == some .eq) = true := Iff.rfl
  rw [hbeq, beq_iff_eq]

/-- Doubles other than NaN are ordered by their places. -/
theorem lt_iff_place (hx : x.isNaN = false) (hy : y.isNaN = false) :
    x < y ↔ place x < place y := by
  rw [lt_iff_compare, compare_eq_place hx hy, Option.some.injEq, compare_lt_iff_lt]

theorem beq_iff_place (hx : x.isNaN = false) (hy : y.isNaN = false) :
    (x == y) = true ↔ place x = place y := by
  rw [beq_iff_compare, compare_eq_place hx hy, Option.some.injEq, compare_eq_iff_eq]

theorem compare?_eq_place (hx : x.isNaN = false) (hy : y.isNaN = false) :
    compare? x y = some (compare (place x) (place y)) := by
  simp only [compare?, gt_iff_lt, lt_iff_place hx hy, lt_iff_place hy hx, beq_iff_place hx hy]
  rcases Int.lt_trichotomy (place x) (place y) with hlt | heq | hgt
  · rw [if_pos hlt, compare_lt_iff_lt.mpr hlt]
  · rw [if_neg heq.not_lt, if_pos heq, compare_eq_iff_eq.mpr heq]
  · rw [if_neg hgt.not_gt, if_neg hgt.ne', if_pos hgt, compare_gt_iff_gt.mpr hgt]

theorem unpack_of_isNaN (h : x.isNaN = true) : x.toModel.unpack = .notANumber := by
  have hunpacked : x.toModel.unpack.isNaN = true := h
  cases hx : x.toModel.unpack with
  | notANumber => rfl
  | _ =>
    rw [hx] at hunpacked
    cases hunpacked

/-- NaN has no order with any double. -/
theorem compare?_of_isNaN (h : x.isNaN = true ∨ y.isNaN = true) : compare? x y = none := by
  have hnone : x.toModel.compare y.toModel = none ∧ y.toModel.compare x.toModel = none := by
    rw [Float.Model.compare, Float.Model.compare]
    rcases h with h | h
    · rw [unpack_of_isNaN h]
      cases y.toModel.unpack <;> exact ⟨rfl, rfl⟩
    · rw [unpack_of_isNaN h]
      cases x.toModel.unpack <;> exact ⟨rfl, rfl⟩
  simp [compare?, lt_iff_compare, beq_iff_compare, hnone]

end Order

/-! ## Signs -/

section Signs

variable {x : Float}

theorem isNaN_of_magnitude_le (h : x.toBits.toNat % signWeight ≤ infinity) : x.isNaN = false := by
  rw [Float.isNaN_eq_decide_eq_nan, decide_eq_false_iff_not]
  rintro rfl
  exact absurd h (by decide +kernel)

theorem natAbs_place (x : Float) : (place x).natAbs = x.toBits.toNat % signWeight := by
  simp only [place]
  split
  · next hx => rw [Int.natAbs_natCast, Nat.mod_eq_of_lt hx]
  · rw [Int.natAbs_neg, Int.natAbs_natCast]

theorem magnitude_le_of_isNaN (h : x.isNaN = false) : x.toBits.toNat % signWeight ≤ infinity := by
  obtain ⟨hcanonical, hplace⟩ := canonical_unpack h
  rw [← natAbs_place, ← hplace]
  exact natAbs_unpackedPlace_le hcanonical

/-- The finite doubles are those whose magnitude is below that of infinity. -/
theorem isFinite_iff_magnitude : x.isFinite = true ↔ x.toBits.toNat % signWeight < infinity := by
  have hmodel : x.isFinite = x.toModel.unpack.isFinite := rfl
  rw [hmodel]
  cases hnan : x.isNaN with
  | true =>
    rw [unpack_of_isNaN hnan]
    refine iff_of_false Bool.false_ne_true fun hlt => ?_
    exact Bool.false_ne_true ((isNaN_of_magnitude_le hlt.le).symm.trans hnan)
  | false =>
    obtain ⟨hcanonical, hplace⟩ := canonical_unpack hnan
    rw [← natAbs_place, ← hplace]
    cases hu : x.toModel.unpack with
    | notANumber => exact (hu ▸ hcanonical).elim
    | zero s =>
      have hzero : 0 < infinity := by decide
      exact iff_of_true rfl hzero
    | infinity s =>
      refine iff_of_false Bool.false_ne_true ?_
      cases s <;> decide
    | finite s m e hm =>
      obtain ⟨hlo, hhi⟩ := apply_magnitude_bounds (hu ▸ hcanonical) hm s
      refine iff_of_true rfl ?_
      rw [unpackedPlace]
      omega

theorem toNat_packComponents (s : UnpackedFloat.Sign) (e : BitVec 11) (m : BitVec 52) :
    (UnpackedFloat.packComponents Format.binary64 s e m).toNat =
      s.toBitVec.toNat * signWeight + (e.toNat * leadingWeight + m.toNat) := by
  have he : e.toNat < 2 ^ 11 := e.isLt
  have hm : m.toNat < 2 ^ 52 := m.isLt
  have htoNat : (UnpackedFloat.packComponents Format.binary64 s e m).toNat =
      (s.toBitVec.toNat <<< 11 + e.toNat) <<< 52 + m.toNat := by
    rw [Nat.shiftLeft_add_eq_or_of_lt hm, Nat.shiftLeft_add_eq_or_of_lt he,
      ← BitVec.toNat_append, ← BitVec.toNat_append]
    rfl
  rw [htoNat, Nat.shiftLeft_eq, Nat.shiftLeft_eq, signWeight, leadingWeight]
  omega

/-- Only the sign of the pattern is another when the sign of the number is. -/
theorem pack_neg {u : UnpackedFloat} (h : Canonical u) :
    ∃ s e m, UnpackedFloat.pack Format.binary64 u = UnpackedFloat.packComponents _ s e m ∧
      UnpackedFloat.pack Format.binary64 u.neg = UnpackedFloat.packComponents _ (-s) e m := by
  cases u with
  | notANumber => exact h.elim
  | zero s => exact ⟨s, _, _, rfl, rfl⟩
  | infinity s => exact ⟨s, _, _, rfl, rfl⟩
  | finite s m e hm =>
    simp only [UnpackedFloat.neg, UnpackedFloat.pack]
    split
    · exact ⟨s, _, _, rfl, rfl⟩
    · split <;> exact ⟨s, _, _, rfl, rfl⟩

/-- The pattern of the opposite number has the same magnitude and the other sign. -/
theorem toBits_neg (h : x.isNaN = false) :
    (-x).toBits.toNat % signWeight = x.toBits.toNat % signWeight ∧
      ((-x).toBits.toNat < signWeight ↔ ¬ x.toBits.toNat < signWeight) := by
  obtain ⟨s, e, m, hpack, hneg⟩ := pack_neg (canonical_unpack h).1
  have hx : x.toBits.toBitVec = UnpackedFloat.packComponents _ s e m :=
    (UnpackedFloat.pack_unpack_of_valid x.toModel.valid).symm.trans hpack
  have hnegx : (-x).toBits.toBitVec = UnpackedFloat.packComponents _ (-s) e m := hneg
  have hnat := (congrArg BitVec.toNat hx).trans (toNat_packComponents s e m)
  have hnegnat := (congrArg BitVec.toNat hnegx).trans (toNat_packComponents (-s) e m)
  have hlt : e.toNat * leadingWeight + m.toNat < signWeight := by
    have he : e.toNat < 2 ^ 11 := e.isLt
    have hm : m.toNat < 2 ^ 52 := m.isLt
    simp only [signWeight, leadingWeight]
    omega
  rw [UInt64.toNat_toBitVec] at hnat hnegnat
  rw [hnat, hnegnat]
  cases s <;> simp [UnpackedFloat.Sign.toBitVec, hlt]

/-- The opposite number stands on the other side of the zeros, equally far away. -/
theorem place_neg (h : x.isNaN = false) : (-x).isNaN = false ∧ place (-x) = -place x := by
  obtain ⟨hmagnitude, hsign⟩ := toBits_neg h
  refine ⟨isNaN_of_magnitude_le (hmagnitude ▸ magnitude_le_of_isNaN h), ?_⟩
  simp only [place, hmagnitude, hsign]
  by_cases hx : x.toBits.toNat < signWeight
  · rw [if_neg (not_not.mpr hx), if_pos hx, Nat.mod_eq_of_lt hx]
  · rw [if_pos hx, if_neg hx, Int.neg_neg, ← hmagnitude, Nat.mod_eq_of_lt (hsign.mpr hx)]

/-- A magnitude with the sign of `x` in front of it, if it is the magnitude of `x`. -/
theorem signed_eq {y : Float} (hx : x.isNaN = false)
    (h : y.toBits.toNat = x.toBits.toNat % signWeight) :
    (if Decimal.isNegative x then -y else y) = x := by
  have hle := magnitude_le_of_isNaN hx
  have hlt : x.toBits.toNat % signWeight < signWeight := Nat.mod_lt _ (by decide)
  have hnegative : Decimal.isNegative x = true ↔ ¬ x.toBits.toNat < signWeight := by
    rw [Decimal.isNegative, decide_eq_true_iff, UInt64.le_iff_toNat_le, not_lt]
    rfl
  have hy : y.isNaN = false := by
    refine isNaN_of_magnitude_le ?_
    rw [h, Nat.mod_mod]
    exact hle
  rw [← Float.toBits_inj, ← UInt64.toNat_inj]
  split
  · next hneg =>
    obtain ⟨hmagnitude, hsign⟩ := toBits_neg hy
    have hxlt := x.toBits.toNat_lt
    have hylt := (-y).toBits.toNat_lt
    rw [hnegative] at hneg
    rw [h] at hmagnitude hsign
    simp only [signWeight] at *
    omega
  · next hneg =>
    rw [hnegative, not_not] at hneg
    rw [h, Nat.mod_eq_of_lt hneg]

end Signs

end Double

namespace Word

open Decimal (roundDiv leadingBit nearestDouble)
open Decimal.Binary (leadingWeight)
open Double (place)
open Single (signWeight infinity)

/-! ## Patterns of whole numbers -/

variable {m n : Nat}

/-- The significand of the double nearest to a whole number. -/
def significand (n : Nat) : Nat := roundDiv (n <<< (52 - n.log2)) (1 <<< (n.log2 - 52))

/-- The bit pattern of the double nearest to a whole number. -/
def pattern (n : Nat) : Nat :=
  if n = 0 then 0 else (n.log2 + 1022) * leadingWeight + significand n

theorem leadingBit_one (h : n ≠ 0) : leadingBit n 1 = n.log2 := by
  have hlog : (n.log2 : Int) - (1 : Nat).log2 = n.log2 := Int.sub_zero _
  have hle : 1 <<< n.log2 ≤ n := by
    rw [Nat.one_shiftLeft]
    exact Nat.log2_self_le h
  have hzero : (-(n.log2 : Int)).toNat = 0 := by omega
  simp only [leadingBit]
  rw [hlog, Int.toNat_natCast, hzero, Nat.shiftLeft_zero, if_pos hle]

/-- Shifted left or right, a whole number has its leading digit where a significand has it. -/
theorem shift_bounds (h : n ≠ 0) :
    leadingWeight * (1 <<< (n.log2 - 52)) ≤ n <<< (52 - n.log2) ∧
      n <<< (52 - n.log2) < 2 * leadingWeight * (1 <<< (n.log2 - 52)) := by
  have hle := Nat.log2_self_le h
  have hlt := Nat.lt_log2_self (n := n)
  have hpow : 2 ^ n.log2 * 2 ^ (52 - n.log2) = leadingWeight * 2 ^ (n.log2 - 52) := by
    rw [show leadingWeight = 2 ^ 52 from rfl, ← Nat.pow_add, ← Nat.pow_add]
    congr 1
    omega
  rw [Nat.one_shiftLeft, Nat.shiftLeft_eq, Nat.mul_assoc, ← hpow]
  constructor
  · exact Nat.mul_le_mul_right _ hle
  · rw [← Nat.mul_assoc, ← Nat.pow_succ']
    exact Nat.mul_lt_mul_of_pos_right hlt (Nat.two_pow_pos _)

theorem unit_pos (n : Nat) : 0 < 1 <<< (n.log2 - 52) := by
  rw [Nat.one_shiftLeft]
  exact Nat.two_pow_pos _

theorem le_significand (h : n ≠ 0) : leadingWeight ≤ significand n :=
  Decimal.le_roundDiv (unit_pos n) (shift_bounds h).1

theorem significand_le (h : n ≠ 0) : significand n ≤ 2 * leadingWeight :=
  Decimal.roundDiv_le (unit_pos n) (shift_bounds h).2.le

theorem pattern_lt (h : n < 2 ^ 64) : pattern n < infinity := by
  unfold pattern
  split
  · decide
  · next hne =>
    have hlog : n.log2 < 64 := (Nat.log2_lt hne).mpr h
    have hle := significand_le hne
    simp only [leadingWeight, infinity] at *
    omega

theorem nearestDouble_one (h : n < 2 ^ 64) :
    nearestDouble n 1 = Float.ofBits (UInt64.ofNat (pattern n)) := by
  have hlt := pattern_lt h
  by_cases hne : n = 0
  · subst hne
    decide +kernel
  · have hexp : max (leadingBit n 1 - 52) (-1074) = (n.log2 : Int) - 52 := by
      rw [leadingBit_one hne]
      omega
    have hleft : (-((n.log2 : Int) - 52)).toNat = 52 - n.log2 := by omega
    have hright : ((n.log2 : Int) - 52).toNat = n.log2 - 52 := by omega
    have hbiased : ((n.log2 : Int) - 52 + 1074).toNat = n.log2 + 1022 := by omega
    have hpattern : (n.log2 + 1022) * leadingWeight +
        roundDiv (n <<< (52 - n.log2)) (1 <<< (n.log2 - 52)) = pattern n := by
      rw [pattern, if_neg hne, significand]
    simp only [nearestDouble, if_neg hne, hexp, hleft, hright, hbiased, hpattern]
    exact congrArg (fun bits => Float.ofBits (UInt64.ofNat bits)) (Nat.min_eq_left hlt.le)

theorem toBits_nearestDouble (h : n < 2 ^ 64) : (nearestDouble n 1).toBits.toNat = pattern n := by
  rw [nearestDouble_one h]
  exact Single.toBits_ofBits_ofNat (pattern_lt h).le

/-! ## Order -/

theorem log2_mono (h : m ≤ n) : m.log2 ≤ n.log2 := by
  rw [Nat.log2_eq_log_two, Nat.log2_eq_log_two]
  exact Nat.log_mono_right h

theorem pattern_mono (h : m ≤ n) : pattern m ≤ pattern n := by
  by_cases hm : m = 0
  · rw [hm]
    exact Nat.zero_le _
  · have hn : n ≠ 0 := by omega
    rw [pattern, pattern, if_neg hm, if_neg hn]
    rcases (log2_mono h).eq_or_lt with heq | hlt
    · rw [significand, significand, heq]
      refine Nat.add_le_add_left (Decimal.roundDiv_mono _ ?_) _
      rw [Nat.shiftLeft_eq, Nat.shiftLeft_eq]
      exact Nat.mul_le_mul_right _ h
    · have hle := significand_le hm
      have hge := le_significand hn
      simp only [leadingWeight] at *
      omega

theorem log2_le_of_lt (h : n < 2 ^ 53) : n.log2 ≤ 52 := by
  by_cases hn : n = 0
  · rw [hn]
    decide
  · exact Nat.le_of_lt_succ ((Nat.log2_lt hn).mpr h)

/-- Below 2^53, a whole number is not rounded. -/
theorem significand_of_lt (h : n < 2 ^ 53) : significand n = n <<< (52 - n.log2) := by
  have hround := Decimal.roundDiv_mul Nat.one_pos (n <<< (52 - n.log2))
  rw [Nat.mul_one] at hround
  rw [significand, Nat.sub_eq_zero_of_le (log2_le_of_lt h)]
  exact hround

theorem pattern_strictMono (hn : n ≤ 2 ^ 53) (h : m < n) : pattern m < pattern n := by
  have hm : m < 2 ^ 53 := Nat.lt_of_lt_of_le h hn
  have hn0 : n ≠ 0 := by omega
  have hge := le_significand hn0
  by_cases hm0 : m = 0
  · rw [pattern, pattern, if_pos hm0, if_neg hn0]
    simp only [leadingWeight] at *
    omega
  · rw [pattern, pattern, if_neg hm0, if_neg hn0]
    rcases (log2_mono h.le).eq_or_lt with heq | hlt
    · have hn53 : n < 2 ^ 53 := by
        rw [← Nat.log2_lt hn0, ← heq]
        exact Nat.lt_succ_of_le (log2_le_of_lt hm)
      rw [significand_of_lt hm, significand_of_lt hn53, heq, Nat.shiftLeft_eq, Nat.shiftLeft_eq]
      refine Nat.add_lt_add_left ?_ _
      exact Nat.mul_lt_mul_of_pos_right h (Nat.two_pow_pos _)
    · have hle := (shift_bounds hm0).2
      rw [Nat.sub_eq_zero_of_le (log2_le_of_lt hm), Nat.shiftLeft_zero, Nat.mul_one,
        ← significand_of_lt hm] at hle
      simp only [leadingWeight] at *
      omega

/-! ## Words -/

variable {a b : Int64}

theorem natAbs_lt (a : Int64) : a.toInt.natAbs < 2 ^ 64 := by
  have := a.toInt_lt
  have := a.le_toInt
  omega

theorem isNaN_nearestDouble (h : n < 2 ^ 64) : (nearestDouble n 1).isNaN = false := by
  refine Double.isNaN_of_magnitude_le ?_
  rw [toBits_nearestDouble h]
  exact (Nat.mod_le _ _).trans (pattern_lt h).le

theorem place_nearestDouble (h : n < 2 ^ 64) : place (nearestDouble n 1) = pattern n := by
  simp only [place, toBits_nearestDouble h]
  exact if_pos ((pattern_lt h).trans (by decide))

theorem toFloat_spec (a : Int64) : (toFloat a).isNaN = false ∧ place (toFloat a) =
    if a.toInt < 0 then -(pattern a.toInt.natAbs : Int) else pattern a.toInt.natAbs := by
  have hnat := natAbs_lt a
  have hnan := isNaN_nearestDouble hnat
  have hplace := place_nearestDouble hnat
  have hneg : a < 0 ↔ a.toInt < 0 := Int64.lt_iff_toInt_lt
  rw [toFloat]
  by_cases ha : a.toInt < 0
  · rw [if_pos (hneg.mpr ha), if_pos ha, ← hplace]
    exact Double.place_neg hnan
  · rw [if_neg (mt hneg.mp ha), if_neg ha]
    exact ⟨hnan, hplace⟩

/-- Words keep their order, but may come to share a place. -/
theorem place_toFloat_mono (h : a ≤ b) : place (toFloat a) ≤ place (toFloat b) := by
  rw [(toFloat_spec a).2, (toFloat_spec b).2]
  have hle : a.toInt ≤ b.toInt := Int64.le_iff_toInt_le.mp h
  split
  · split
    · have := pattern_mono (m := b.toInt.natAbs) (n := a.toInt.natAbs) (by omega)
      omega
    · omega
  · rw [if_neg (by omega)]
    have := pattern_mono (m := a.toInt.natAbs) (n := b.toInt.natAbs) (by omega)
    omega

theorem place_toFloat_lt (ha : a.toInt.natAbs ≤ 2 ^ 53) (hb : b.toInt.natAbs ≤ 2 ^ 53)
    (h : a.toInt < b.toInt) : place (toFloat a) < place (toFloat b) := by
  rw [(toFloat_spec a).2, (toFloat_spec b).2]
  by_cases hneg : a.toInt < 0
  · rw [if_pos hneg]
    have hpos := pattern_strictMono ha (Int.natAbs_pos.mpr hneg.ne)
    split
    · have := pattern_strictMono ha (m := b.toInt.natAbs) (by omega)
      omega
    · omega
  · rw [if_neg hneg, if_neg (by omega)]
    have := pattern_strictMono hb (m := a.toInt.natAbs) (by omega)
    omega

/-- Up to 2^53 in magnitude, words have their places for themselves. -/
theorem place_toFloat_inj (ha : a.toInt.natAbs ≤ 2 ^ 53) (hb : b.toInt.natAbs ≤ 2 ^ 53)
    (h : place (toFloat a) = place (toFloat b)) : a = b := by
  rcases Int.lt_trichotomy a.toInt b.toInt with hlt | heq | hgt
  · exact absurd h (place_toFloat_lt ha hb hlt).ne
  · exact Int64.toInt_inj.mp heq
  · exact absurd h (place_toFloat_lt hb ha hgt).ne'

end Word

end Dataflow
