import Dataflow.Proofs.Maxima
import Mathlib.Data.Int.ModEq
import Mathlib.Data.Rat.Floor

/-!
# Arithmetic of words

Every operator on words comes to the exact result modulo 2^64, and only a division by zero is
refused. The quotient is rounded down, though it is made from one that is rounded toward zero.
-/

namespace Dataflow

namespace Word

variable {a b : Int64}

/-! ## Words as whole numbers -/

theorem toInt_ofInt_modEq (x : Int) : (Int64.ofInt x).toInt ≡ x [ZMOD 2 ^ 64] := by
  rw [Int64.toInt_ofInt]
  exact Int.bmod_emod

theorem lt_zero_iff : a < 0 ↔ a.toInt < 0 := Int64.lt_iff_toInt_lt

theorem max_eq_ofInt (a b : Int64) :
    (if a < b then b else a) = Int64.ofInt (max a.toInt b.toInt) := by
  simp only [Int64.lt_iff_toInt_lt]
  split
  · next h => rw [max_eq_right h.le, Int64.ofInt_toInt]
  · next h => rw [max_eq_left (not_lt.mp h), Int64.ofInt_toInt]

/-- The least word has no opposite, and stays what it is. -/
theorem abs_eq_ofInt (a : Int64) : abs a = Int64.ofInt |a.toInt| := by
  simp only [abs, lt_zero_iff]
  split
  · next h => rw [abs_of_neg h, Int64.ofInt_neg, Int64.ofInt_toInt]
  · next h => rw [abs_of_nonneg (not_lt.mp h), Int64.ofInt_toInt]

theorem sign_eq_ofInt (a : Int64) : sign a = Int64.ofInt a.toInt.sign := by
  simp only [sign, lt_zero_iff, ← Int64.toInt_inj, Int64.toInt_zero]
  rcases Int.lt_trichotomy a.toInt 0 with h | h | h
  · rw [if_pos h, Int.sign_eq_neg_one_of_neg h]
    rfl
  · rw [if_neg h.not_lt, if_pos h, h]
    rfl
  · rw [if_neg h.not_gt, if_neg h.ne', Int.sign_eq_one_of_pos h]
    rfl

/-! ## Division -/

theorem floor_div_eq_fdiv (p q : Int) : ⌊(p / q : ℚ)⌋ = p.fdiv q := by
  rcases Int.le_total 0 q with hq | hq
  · lift q to ℕ using hq
    rw [Int.fdiv_eq_ediv_of_nonneg p (Int.natCast_nonneg q)]
    exact Rat.floor_intCast_div_natCast p q
  · obtain ⟨n, rfl⟩ := Int.exists_eq_neg_ofNat hq
    rw [← Int.neg_fdiv_neg, Int.neg_neg, Int.fdiv_eq_ediv_of_nonneg (-p) (Int.natCast_nonneg n),
      ← Rat.floor_intCast_div_natCast]
    push_cast
    rw [div_neg, neg_div]

/-- A quotient that is rounded toward zero is one too large if a part of the divisor, of the other
sign than the divisor, remains. -/
theorem fdiv_eq_tdiv_sub {p q : Int} (hq : q ≠ 0) :
    p.fdiv q = p.tdiv q - if p.tmod q ≠ 0 ∧ (p < 0) ≠ (q < 0) then 1 else 0 := by
  simp only [Int.fdiv_eq_tdiv, Int.dvd_iff_tmod_eq_zero]
  rcases Int.lt_or_gt_of_ne hq with h | h
  · simp only [Int.sign_eq_neg_one_of_neg h, ne_eq, eq_iff_iff, iff_true_right h]
    split_ifs <;> omega
  · simp only [Int.sign_eq_one_of_pos h, ne_eq, eq_iff_iff, iff_false_right h.not_gt]
    split_ifs <;> omega

theorem floorDiv_eq_floor (h : b.toInt ≠ 0) :
    floorDiv a b = .ok (Int64.ofInt ⌊(a.toInt / b.toInt : ℚ)⌋) := by
  have hb : b ≠ 0 := fun hb => h (Int64.toInt_inj.mpr hb)
  have hquotient : a / b = Int64.ofInt (a.toInt.tdiv b.toInt) := by
    rw [← Int64.toInt_inj, Int64.toInt_div, Int64.toInt_ofInt]
  have hremainder : a % b ≠ 0 ↔ a.toInt.tmod b.toInt ≠ 0 := by
    rw [Ne, ← Int64.toInt_inj, Int64.toInt_mod, Int64.toInt_zero]
  rw [floor_div_eq_fdiv, fdiv_eq_tdiv_sub h, floorDiv, if_neg hb]
  simp only [hquotient, hremainder, lt_zero_iff]
  split
  · rw [Int64.ofInt_sub]
    rfl
  · rw [Int.sub_zero]

end Word

/-! ## Operators -/

/-- The outcome is the word that is congruent to the whole number `x` modulo 2^64. -/
def Wraps (x : Int) (outcome : Except Fault Scalar) : Prop :=
  ∃ r : Int64, outcome = .ok (.int r) ∧ r.toInt ≡ x [ZMOD 2 ^ 64]

namespace Scalar

variable {s t : Scalar} {a b : Int64} {x : Int}

theorem wraps_arithmetic {op : Arithmetic} (hs : s.word? = some a) (ht : t.word? = some b)
    (h : op.onWords? a b = .ok (some (Int64.ofInt x))) :
    Wraps x ((BinaryOp.arithmetic op).apply s t) := by
  refine ⟨_, ?_, Word.toInt_ofInt_modEq x⟩
  rw [BinaryOp.apply_arithmetic, op.apply_of_ofValue (ofValue_of_word hs) (ofValue_of_word ht),
    Arithmetic.onNumbers, h]
  rfl

theorem wraps_unary {op : UnaryOp} (hs : s.word? = some a)
    (h : op.onWord? a = some (Int64.ofInt x)) : Wraps x (op.apply s) := by
  refine ⟨_, ?_, Word.toInt_ofInt_modEq x⟩
  rw [UnaryOp.apply, ofValue_of_word hs]
  change Except.ok (op.onNumber (.int a)).toScalar = _
  rw [UnaryOp.onNumber, h]
  rfl

/-- The operators on two scalars that stand for words, and on one of them, come to the exact result
modulo 2^64. Division is rounded down. It is refused for the divisor zero, and nothing else is. -/
theorem computes_words_exactly (hs : s.word? = some a) (ht : t.word? = some b) :
    Wraps (a.toInt + b.toInt) ((BinaryOp.arithmetic .add).apply s t) ∧
    Wraps (a.toInt - b.toInt) ((BinaryOp.arithmetic .sub).apply s t) ∧
    Wraps (a.toInt * b.toInt) ((BinaryOp.arithmetic .mul).apply s t) ∧
    Wraps (max a.toInt b.toInt) ((BinaryOp.arithmetic .max).apply s t) ∧
    (b.toInt = 0 → (BinaryOp.arithmetic .div).apply s t = .error .divisionByZero) ∧
    (b.toInt ≠ 0 →
      Wraps ⌊(a.toInt / b.toInt : ℚ)⌋ ((BinaryOp.arithmetic .div).apply s t)) ∧
    Wraps (-a.toInt) (UnaryOp.negate.apply s) ∧
    Wraps |a.toInt| (UnaryOp.abs.apply s) ∧
    Wraps (a.toInt ^ 2) (UnaryOp.square.apply s) ∧
    Wraps a.toInt.sign (UnaryOp.sign.apply s) := by
  refine ⟨wraps_arithmetic hs ht ?_, wraps_arithmetic hs ht ?_, wraps_arithmetic hs ht ?_,
    wraps_arithmetic hs ht ?_, fun hb => ?_, fun hb => wraps_arithmetic hs ht ?_,
    wraps_unary hs ?_, wraps_unary hs ?_, wraps_unary hs ?_, wraps_unary hs ?_⟩
  · rw [Arithmetic.onWords?, Int64.ofInt_add, Int64.ofInt_toInt, Int64.ofInt_toInt]
  · rw [Arithmetic.onWords?, Int64.ofInt_sub, Int64.ofInt_toInt, Int64.ofInt_toInt]
  · rw [Arithmetic.onWords?, Int64.ofInt_mul, Int64.ofInt_toInt, Int64.ofInt_toInt]
  · rw [Arithmetic.onWords?, Word.max_eq_ofInt]
  · obtain rfl : b = 0 := Int64.toInt_inj.mp hb
    exact Arithmetic.apply_of_ofValue .div (ofValue_of_word hs) (ofValue_of_word ht)
  · rw [Arithmetic.onWords?, Word.floorDiv_eq_floor hb]
    rfl
  · rw [UnaryOp.onWord?, Int64.ofInt_neg, Int64.ofInt_toInt]
  · rw [UnaryOp.onWord?, Word.abs_eq_ofInt]
  · rw [UnaryOp.onWord?, sq, Int64.ofInt_mul, Int64.ofInt_toInt]
  · rw [UnaryOp.onWord?, Word.sign_eq_ofInt]

/-- The least word by -1: the quotient is one that no word stands for. -/
theorem computes_words_exactly_least :
    let s : Scalar := .int (-0x8000000000000000)
    let t : Scalar := .int (-1)
    s.word? = some (-0x8000000000000000) ∧ t.word? = some (-1) ∧ (-1 : Int64).toInt ≠ 0 ∧
      Wraps ⌊(((-0x8000000000000000 : Int64).toInt : ℚ) / (-1 : Int64).toInt : ℚ)⌋
        ((BinaryOp.arithmetic .div).apply s t) ∧
      (BinaryOp.arithmetic .div).apply s t = .ok (.int (-0x8000000000000000)) := by
  intro s t
  have hne : (-1 : Int64).toInt ≠ 0 := by decide
  obtain ⟨-, -, -, -, -, hdiv, -⟩ := computes_words_exactly (s := s) (t := t) rfl rfl
  exact ⟨rfl, rfl, hne, hdiv hne, rfl⟩

end Scalar

end Dataflow
