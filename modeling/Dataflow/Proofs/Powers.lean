import Dataflow.Proofs.Folding
import Dataflow.Proofs.Wrapping

/-!
# Powers of words

A word raised to an exponent that is not negative is again a word, and the exact power modulo 2^64,
as long as the exponent is below 2^32. With a larger exponent both are taken as doubles. So an array
of powers consists of words exactly if all exponents are below that bound.
-/

namespace Dataflow

/-- Squaring the base halves the exponent. -/
theorem Word.power_ofInt (x : Int) (n : Nat) : power (Int64.ofInt x) n = Int64.ofInt (x ^ n) := by
  induction n using Nat.strongRecOn generalizing x with
  | ind n ih =>
    rw [power]
    split
    · next h =>
      rw [h, pow_zero]
      rfl
    · next h =>
      have hhalf : power (Int64.ofInt x * Int64.ofInt x) (n / 2) =
          Int64.ofInt (x ^ (2 * (n / 2))) := by
        rw [← Int64.ofInt_mul, ih (n / 2) (by omega), pow_mul, sq]
      simp only [hhalf]
      split
      · next hodd =>
        rw [← Int64.ofInt_mul, ← pow_succ']
        congr 2
        omega
      · next heven =>
        congr 2
        omega

namespace Scalar

/-- The power of two words whose exponent is not negative. -/
def power (m n : Int64) : Scalar :=
  if n.toInt < 2 ^ 32 then .int (Int64.ofInt (m.toInt ^ n.toInt.toNat))
  else .float ((Word.toFloat m).pow (Word.toFloat n))

theorem pow_eq_power {m n : Int64} (hn : 0 ≤ n.toInt) :
    (BinaryOp.arithmetic .pow).apply (.scalar (.int m)) (.scalar (.int n)) = .ok (power m n) := by
  have hbounds : (0 ≤ n ∧ n < 0x100000000) ↔ n.toInt < 2 ^ 32 := by
    rw [Int64.le_iff_toInt_le, Int64.lt_iff_toInt_lt]
    exact and_iff_right hn
  rw [BinaryOp.apply_arithmetic, Arithmetic.apply_of_ofValue .pow rfl rfl, Arithmetic.onNumbers,
    Arithmetic.onWords?, if_congr hbounds rfl rfl, power]
  split
  · rw [← Word.power_ofInt, Int64.ofInt_toInt]
    rfl
  · rfl

end Scalar

namespace Value

variable {a b : Value}

/-- The entries of the table of powers. -/
theorem Rect.exists_powers (ha : a.Rect) (hb : b.Rect) (hdims : a.dims = b.dims)
    (hbases : ∀ s ∈ a.scalars, ∃ m, s = .int m)
    (hexponents : ∀ s ∈ b.scalars, ∃ n : Int64, s = .int n ∧ 0 ≤ n.toInt) :
    ∃ w, binary (.arithmetic .pow) a b = .ok w ∧ w.Rect ∧ w.dims = a.dims ∧
      ∀ i ∈ indices a.dims, ∃ m n : Int64, a.at? i = some (.int m) ∧ b.at? i = some (.int n) ∧
        w.at? i = some (.power m n) := by
  have hentries : ∀ i ∈ indices a.dims, ∃ z,
      (BinaryOp.arithmetic .pow).apply (a.item i) (b.item i) = .ok z ∧
        ∃ m n : Int64, a.at? i = some (.int m) ∧ b.at? i = some (.int n) ∧ z = .power m n := by
    intro i hi
    have hbase := ha.at?_eq_item hi
    have hexponent := hb.at?_eq_item (hdims ▸ hi)
    obtain ⟨m, hm⟩ := hbases _ (mem_scalars_of_at? hbase)
    obtain ⟨n, hn, hnonneg⟩ := hexponents _ (mem_scalars_of_at? hexponent)
    rw [hbase, hexponent, hm, hn]
    exact ⟨_, Scalar.pow_eq_power hnonneg, m, n, rfl, rfl, rfl⟩
  obtain ⟨w, hw, hrect, hitems⟩ := exists_tabulate hentries
  have hshape : w.dims = a.dims := (dims_of_tabulate hw).trans (visible_dims a)
  refine ⟨w, (ha.binary_eq_tabulate hb hdims).trans hw, hrect, hshape, fun i hi => ?_⟩
  obtain ⟨m, n, hm, hn, hpower⟩ := (hitems i hi).2
  exact ⟨m, n, hm, hn, hpower ▸ hrect.at?_eq_item (hshape ▸ hi)⟩

/-- Words raised to exponents that are not negative come to a table of the same extents. Where the
exponent is below 2^32, its entry is the word that is the exact power modulo 2^64, and elsewhere the
power of the two as doubles. So all of the entries are words exactly if all exponents are below
2^32. -/
theorem Rect.raises_words (ha : a.Rect) (hb : b.Rect) (hdims : a.dims = b.dims)
    (hbases : ∀ s ∈ a.scalars, ∃ m, s = .int m)
    (hexponents : ∀ s ∈ b.scalars, ∃ n : Int64, s = .int n ∧ 0 ≤ n.toInt) :
    ∃ w, binary (.arithmetic .pow) a b = .ok w ∧ w.Rect ∧ w.dims = a.dims ∧
      (∀ i ∈ indices a.dims, ∃ m n : Int64, a.at? i = some (.int m) ∧ b.at? i = some (.int n) ∧
        (n.toInt < 2 ^ 32 → ∃ r, w.at? i = some (.int r) ∧
          r.toInt ≡ m.toInt ^ n.toInt.toNat [ZMOD 2 ^ 64]) ∧
        (2 ^ 32 ≤ n.toInt →
          w.at? i = some (.float ((Word.toFloat m).pow (Word.toFloat n))))) ∧
      ((∀ s ∈ w.scalars, ∃ r, s = .int r) ↔ ∀ n, .int n ∈ b.scalars → n.toInt < 2 ^ 32) := by
  obtain ⟨w, hw, hrect, hshape, hentries⟩ := ha.exists_powers hb hdims hbases hexponents
  -- Whether an entry is a word is told by the exponent at its index, and by nothing else.
  refine ⟨w, hw, hrect, hshape, fun i hi => ?_, fun h n hn => ?_, fun h s hs => ?_⟩
  · obtain ⟨m, n, hm, hn, hpower⟩ := hentries i hi
    refine ⟨m, n, hm, hn, fun hlt => ?_, fun hle => ?_⟩
    · rw [Scalar.power, if_pos hlt] at hpower
      exact ⟨_, hpower, Word.toInt_ofInt_modEq _⟩
    · rwa [Scalar.power, if_neg hle.not_gt] at hpower
  · obtain ⟨i, hi, hat⟩ := hb.mem_scalars_iff.mp hn
    obtain ⟨m, n', -, hn', hpower⟩ := hentries i (hdims ▸ hi)
    cases hat.symm.trans hn'
    by_contra hge
    rw [Scalar.power, if_neg hge] at hpower
    obtain ⟨r, hr⟩ := h _ (mem_scalars_of_at? hpower)
    cases hr
  · obtain ⟨i, hi, hat⟩ := hrect.mem_scalars_iff.mp hs
    obtain ⟨m, n, -, hn, hpower⟩ := hentries i (hshape ▸ hi)
    rw [Scalar.power, if_pos (h n (mem_scalars_of_at? hn))] at hpower
    exact ⟨_, Option.some.inj (hat.symm.trans hpower)⟩

/-- Powers that no word stands for, one of them with the largest exponent that is taken in words. -/
theorem Rect.raises_words_past_largest :
    let a := ofWords [3, -2]
    let b := ofWords [41, 0xFFFFFFFF]
    a.Rect ∧ b.Rect ∧ a.dims = b.dims ∧ (∀ s ∈ a.scalars, ∃ m, s = .int m) ∧
      (∀ s ∈ b.scalars, ∃ n : Int64, s = .int n ∧ 0 ≤ n.toInt) ∧
      ∃ w, binary (.arithmetic .pow) a b = .ok w ∧ (∀ s ∈ w.scalars, ∃ r, s = .int r) ∧
        ∃ r, w.at? [0] = some (.int r) ∧ r.toInt ≡ 3 ^ 41 [ZMOD 2 ^ 64] := by
  intro a b
  have hbases : ∀ s ∈ a.scalars, ∃ m, s = .int m := by simp [a, scalars_ofWords]
  have hexponents : ∀ s ∈ b.scalars, ∃ n : Int64, s = .int n ∧ 0 ≤ n.toInt := by
    simp [b, scalars_ofWords]
  obtain ⟨w, hw, -, -, hentries, hwords⟩ :=
    (rect_ofWords [3, -2]).raises_words (rect_ofWords [41, 0xFFFFFFFF]) rfl hbases hexponents
  obtain ⟨m, n, hm, hn, hsmall, -⟩ := hentries [0] (by decide)
  cases hm
  cases hn
  exact ⟨rect_ofWords _, rect_ofWords _, rfl, hbases, hexponents, w, hw,
    hwords.mpr (by simp [scalars_ofWords]), hsmall (by decide)⟩

/-- The exponent 2^32 makes a double of a power of 1. -/
theorem raises_words_fails :
    ¬ ∀ a b : Value, a.Rect → b.Rect → a.dims = b.dims → (∀ s ∈ a.scalars, ∃ m, s = .int m) →
      (∀ s ∈ b.scalars, ∃ n : Int64, s = .int n ∧ 0 ≤ n.toInt) →
      ∃ w, binary (.arithmetic .pow) a b = .ok w ∧ w.Rect ∧ w.dims = a.dims ∧
        ∀ i ∈ indices a.dims, ∃ m n r : Int64, a.at? i = some (.int m) ∧
          b.at? i = some (.int n) ∧ w.at? i = some (.int r) ∧
          r.toInt ≡ m.toInt ^ n.toInt.toNat [ZMOD 2 ^ 64] := by
  intro h
  have hbases : ∀ s ∈ (ofWords [1]).scalars, ∃ m, s = .int m := by simp [scalars_ofWords]
  have hexponents : ∀ s ∈ (ofWords [0x100000000]).scalars,
      ∃ n : Int64, s = .int n ∧ 0 ≤ n.toInt := by simp [scalars_ofWords]
  have ha := rect_ofWords [1]
  have hb := rect_ofWords [0x100000000]
  obtain ⟨w, hw, -, -, hwords⟩ := h _ _ ha hb rfl hbases hexponents
  obtain ⟨w', hw', -, -, hpowers⟩ := ha.exists_powers hb rfl hbases hexponents
  cases hw.symm.trans hw'
  obtain ⟨-, -, r, -, -, hr, -⟩ := hwords [0] (by decide)
  obtain ⟨m, n, -, hn, hpower⟩ := hpowers [0] (by decide)
  cases hn
  rw [Scalar.power, if_neg (by decide)] at hpower
  cases hr.symm.trans hpower

end Value

end Dataflow
