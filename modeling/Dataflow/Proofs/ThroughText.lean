import Dataflow.Proofs.Casting
import Dataflow.Proofs.ReadBack

/-!
# Casting numbers through text

A number that is written out and read again is the number that it was, so a cast to a numeric type
may go through text. Only the check for finite numbers is lost on the way: a double that is not
finite has no whole number, but its text is accepted as one.
-/

namespace Dataflow

namespace Scalar

variable {d : DType} {s t : Scalar}

/-- A word or a double, which is written as a numeral; truth values are written as words of the
language. -/
def IsNumeral : Scalar → Prop
  | .int _ => True
  | .float _ => True
  | .bool _ => False
  | .str _ => False

/-! ## Reading the text of a number -/

theorem castFloat_text (h : s.IsNumeral) : (str s.text).castFloat = s.castFloat := by
  cases s with
  | int i =>
    rw [castFloat, text, Decimal.trimBlanks_text, Decimal.readFloat?_text]
    rfl
  | float x =>
    rw [castFloat, text, Decimal.trimBlanks_display, Decimal.readFloat?_display]
    rfl
  | bool b => exact h.elim
  | str text => exact h.elim

theorem castInt_text_int (d : DType) (i : Int64) : (str (int i).text).castInt d = .ok i := by
  rw [castInt, text, Decimal.trimBlanks_text, Decimal.readInt?_text]

/-- Here a double that is not finite is cut off like any other. -/
theorem castInt_text_float (d : DType) (x : Float) :
    (str (float x).text).castInt d = .ok (Word.ofFloat x) := by
  rw [castInt, text, Decimal.trimBlanks_display, Decimal.readInt?_display,
    Decimal.readFloat?_display]

/-! ## Numeric types -/

theorem cast_congr_of_isFloat (hd : d.isFloat = true) (h : s.castFloat = t.castFloat) :
    s.cast d = t.cast d := by
  cases d with
  | float32 | float64 => rw [cast, cast, h]
  | _ => cases hd

theorem cast_congr_of_isInteger (hd : d.isInteger = true) (h : s.castInt d = t.castInt d) :
    s.cast d = t.cast d := by
  cases d with
  | int32 | int16 => rw [cast, cast, h]
  | _ => cases hd

theorem exists_cast_of_isFloat (hd : d.isFloat = true) {x : Float} (h : s.castFloat = .ok x) :
    ∃ t, s.cast d = .ok t := by
  cases d with
  | float32 | float64 => exact ⟨_, by rw [cast, h]; rfl⟩
  | _ => cases hd

theorem exists_cast_iff_of_isInteger (hd : d.isInteger = true) :
    (∃ t, s.cast d = .ok t) ↔ ∃ i, s.castInt d = .ok i := by
  cases d with
  | int32 | int16 =>
    rw [cast]
    cases s.castInt _ with
    | ok i => exact iff_of_true ⟨_, rfl⟩ ⟨i, rfl⟩
    | error e =>
      refine iff_of_false ?_ ?_
      · rintro ⟨t, ht⟩
        cases ht
      · rintro ⟨i, hi⟩
        cases hi
  | _ => cases hd

/-! ## The way through text -/

/-- The text of a number has a place in every numeric type. -/
theorem exists_cast_text (hd : d.isNumeric = true) (h : s.IsNumeral) :
    ∃ t, (str s.text).cast d = .ok t := by
  rcases Bool.or_eq_true_iff.mp hd with hfloat | hinteger
  · obtain ⟨x, hx⟩ : ∃ x, s.castFloat = .ok x := by
      cases s with
      | int i => exact ⟨_, rfl⟩
      | float x => exact ⟨x, rfl⟩
      | bool b => exact h.elim
      | str text => exact h.elim
    exact exists_cast_of_isFloat hfloat ((castFloat_text h).trans hx)
  · rw [exists_cast_iff_of_isInteger hinteger]
    cases s with
    | int i => exact ⟨i, castInt_text_int d i⟩
    | float x => exact ⟨_, castInt_text_float d x⟩
    | bool b => exact h.elim
    | str text => exact h.elim

/-- The way through text gives what the direct way does, where the direct way is open. -/
theorem cast_text (hd : d.isNumeric = true) (h : s.IsNumeral)
    (hfinite : d.isInteger = true → ∀ x, s = float x → x.isFinite = true) :
    (str s.text).cast d = s.cast d := by
  rcases Bool.or_eq_true_iff.mp hd with hfloat | hinteger
  · exact cast_congr_of_isFloat hfloat (castFloat_text h)
  · refine cast_congr_of_isInteger hinteger ?_
    cases s with
    | int i => exact castInt_text_int d i
    | float x =>
      rw [castInt_text_float, castInt, if_pos (hfinite hinteger x rfl)]
    | bool b => exact h.elim
    | str text => exact h.elim

theorem isFinite_of_cast (hd : d.isInteger = true) {x : Float}
    (h : ∃ t, (float x).cast d = .ok t) : x.isFinite = true := by
  obtain ⟨i, hi⟩ := (exists_cast_iff_of_isInteger hd).mp h
  by_contra hx
  rw [castInt, if_neg hx] at hi
  cases hi

theorem castString_of_isNumeral (h : s.IsNumeral) : s.cast .string = .ok (str s.text) := by
  cases s with
  | str text => exact h.elim
  | _ => rfl

end Scalar

namespace Value

variable {v w : Value} {d : DType}

theorem cast_string_bind_cast (hv : ∀ s ∈ v.scalars, s.IsNumeral) (hd : d.isNumeric = true)
    (hfinite : d.isInteger = true → ∀ x, .float x ∈ v.scalars → x.isFinite = true) :
    (v.cast .string >>= Value.cast d) = .ok w ↔ v.cast d = .ok w := by
  refine cast_bind_cast fun s hs t => ?_
  rw [Scalar.castString_of_isNumeral (hv s hs), ← Scalar.cast_text hd (hv s hs)]
  · rfl
  · rintro hinteger x rfl
    exact hfinite hinteger x hs

/-- Through text, words and doubles are always cast to a numeric type, and what the direct cast
gives is the same. The direct cast gives nothing only if a double that is not finite has to become a
whole number. -/
theorem casts_through_text {v : Value} {d : DType} (hv : ∀ s ∈ v.scalars, s.IsNumeral)
    (hd : d.isNumeric = true) :
    (∃ w, (v.cast .string >>= Value.cast d) = .ok w) ∧
      ∀ w, v.cast d = .ok w ↔ (v.cast .string >>= Value.cast d) = .ok w ∧
        (d.isInteger = true → ∀ x, .float x ∈ v.scalars → x.isFinite = true) := by
  refine ⟨?_, fun w => ⟨fun h => ?_, fun ⟨h, hfinite⟩ => ?_⟩⟩
  · refine exists_cast_bind_cast_iff.mpr fun s hs => ?_
    rw [Scalar.castString_of_isNumeral (hv s hs)]
    exact Scalar.exists_cast_text hd (hv s hs)
  · -- A direct cast that succeeds has met no double without a whole number.
    have hfinite : d.isInteger = true → ∀ x, .float x ∈ v.scalars → x.isFinite = true :=
      fun hinteger x hx =>
        Scalar.isFinite_of_cast hinteger (exists_cast_iff.mp ⟨w, h⟩ (.float x) hx)
    exact ⟨(cast_string_bind_cast hv hd hfinite).mpr h, hfinite⟩
  · exact (cast_string_bind_cast hv hd hfinite).mp h

/-- Numbers of both kinds, the largest word among them, as 16-bit words. -/
theorem casts_through_text_ragged :
    let v : Value := .array [.array [.scalar (.int 9223372036854775807), .scalar (.float (-2.5))],
      .scalar (.float 1e20)]
    let w : Value := .array [.array [.scalar (.int (-1)), .scalar (.int (-2))],
      .scalar (.int (-1))]
    (v.cast .string >>= Value.cast .int16) = .ok w ∧ v.cast .int16 = .ok w := by
  intro v w
  have hv : ∀ s ∈ v.scalars, s.IsNumeral := by simp [v, Scalar.IsNumeral]
  have hw : v.cast .int16 = .ok w := rfl
  exact ⟨(((casts_through_text hv rfl).2 w).mp hw).1, hw⟩

/-- The text of NaN is accepted as the whole number 0, and NaN itself is refused. -/
theorem casts_through_text_fails :
    let v : Value := .scalar (.float (0.0 / 0.0))
    (∀ s ∈ v.scalars, s.IsNumeral) ∧ DType.int32.isNumeric = true ∧
      ¬ ((∃ w, (v.cast .string >>= Value.cast .int32) = .ok w) ↔ ∃ w, v.cast .int32 = .ok w) := by
  intro v
  have hthrough : (v.cast .string >>= Value.cast .int32) = .ok (.scalar (.int 0)) := rfl
  have hdirect : v.cast .int32 = .error (.invalidCast (.float (0.0 / 0.0)) .int32) := rfl
  refine ⟨by simp [v, Scalar.IsNumeral], rfl, fun h => ?_⟩
  obtain ⟨w, hw⟩ := h.mp ⟨_, hthrough⟩
  cases hdirect.symm.trans hw

end Value

end Dataflow
