import Dataflow.Cast
import Dataflow.Proofs.Shortest

/-!
# Numbers read back from their text

The text of a word is read as that word, and the text of a double as that double, NaN, infinities
and the sign of zero included. None of the two has a blank in it, and only the text of a word reads
as a whole number.
-/

namespace Dataflow.Decimal

open Binary (leadingWeight)

/-! ## Decimals in the interval of a double -/

section Nearest

variable {x : Float} {digits : ℕ} {scale : ℤ}

namespace Binary

variable {b : Binary} {r : ℚ}

theorem Attracts.lower_bound (hb : b.Canonical) (h : b.Attracts r) :
    (10 : ℚ) ^ (-324 : ℤ) < r := by
  have hpow : 2 ^ 1075 < 10 ^ 324 := by decide +kernel
  have hm : (1 : ℚ) ≤ b.significand := by exact_mod_cast hb.pos
  have hleast := hb.least
  calc (10 : ℚ) ^ (-324 : ℤ) < 2 ^ (-1075 : ℤ) := by
        rw [zpow_neg, zpow_neg]
        exact inv_strictAnti₀ (by positivity) (by exact_mod_cast hpow)
    _ ≤ 2 ^ (b.exponent + (-1)) := zpow_le_zpow_right₀ one_le_two (by omega)
    _ = 2 * b.quarter := by rw [two_zpow_exponent_add]; norm_num
    _ ≤ b.low := mul_le_mul_of_nonneg_right (by split <;> linarith) b.quarter_pos.le
    _ ≤ r := h.low_le

theorem Attracts.upper_bound (hb : b.Canonical) (h : b.Attracts r) :
    r < (10 : ℚ) ^ (309 : ℤ) := by
  have hpow : 2 ^ 1024 ≤ 10 ^ 309 := by decide +kernel
  have hgreatest := hb.greatest
  calc r < 2 ^ (b.exponent + 53) := h.lt_next_binade hb
    _ ≤ 2 ^ (1024 : ℤ) := zpow_le_zpow_right₀ one_le_two (by omega)
    _ ≤ 10 ^ (309 : ℤ) := by exact_mod_cast hpow

theorem floor_of_isWhole (h : b.isWhole = true) : (b.floor : ℚ) = b.value := by
  have hdvd : 2 ^ (-b.exponent).toNat ∣ b.significand := by
    rw [isWhole, Nat.one_shiftLeft, beq_iff_eq] at h
    exact Nat.dvd_of_mod_eq_zero h
  rw [floor_eq_div, value_eq_div, Nat.cast_div (hdvd.mul_right _) (by positivity)]

/-- A whole number that a double attracts is the double itself, unless the double is so large that
it has no fraction anyway. -/
theorem Attracts.isWhole {n : ℕ} (h : b.Attracts n) : b.isWhole = true := by
  rw [Binary.isWhole, Nat.one_shiftLeft, beq_iff_eq]
  rcases le_or_gt 0 b.exponent with hlarge | hsmall
  · have hzero : (-b.exponent).toNat = 0 := by omega
    rw [hzero, pow_zero, Nat.mod_one]
  · -- Measured in last digits of the double, the number is whole as the significand is.
    have hunit := zpow_eq_div_pow (a := 2) two_ne_zero b.exponent
    have hzero : b.exponent.toNat = 0 := by omega
    have hdigits : (n : ℚ) / 2 ^ b.exponent = (n * 2 ^ (-b.exponent).toNat : ℕ) := by
      rw [hunit, hzero, pow_zero, div_div_eq_mul_div, div_one]
      push_cast
      rfl
    have hsame : b.significand = n * 2 ^ (-b.exponent).toNat :=
      h.within_half.eq (hdigits ▸ nearest_self _)
    rw [hsame, Nat.mul_mod_left]

end Binary

/-- A decimal that a double attracts is read as that double, apart from the sign. -/
theorem toBits_nearest (hx : x.isFinite = true) (hpos : 0 < (Binary.ofFloat x).significand)
    (h : (Binary.ofFloat x).Attracts (digits * 10 ^ scale)) :
    (nearest digits scale).toBits.toNat = x.toBits.toNat % Single.signWeight := by
  have hb := Binary.canonical_ofFloat hx hpos
  have hlow := h.lower_bound hb
  have hhigh := h.upper_bound hb
  have hdigits : digits ≠ 0 := by
    rintro rfl
    have := h.pos hb
    simp at this
  have hten : (1 : ℚ) < 10 := by norm_num
  -- The place of a number and its magnitude bound each other.
  have hplace_low : -324 < ((Nat.toDigits 10 digits).length : ℤ) + scale := by
    rw [← zpow_lt_zpow_iff_right₀ hten, zpow_add₀ (by norm_num), zpow_natCast]
    refine hlow.trans (mul_lt_mul_of_pos_right ?_ (by positivity))
    exact_mod_cast lt_pow_length_toDigits digits
  have hplace_high : ((Nat.toDigits 10 digits).length - 1 : ℕ) + scale < 309 := by
    rw [← zpow_lt_zpow_iff_right₀ hten, zpow_add₀ (by norm_num), zpow_natCast]
    refine lt_of_le_of_lt (mul_le_mul_of_nonneg_right ?_ (by positivity)) hhigh
    exact_mod_cast pow_le_of_length_toDigits hdigits
  have hlength := Nat.length_toDigits_pos (b := 10) (n := digits)
  simp only [nearest]
  rw [if_neg (by omega), if_neg (by omega)]
  refine toBits_nearestDouble_ofFloat hx hpos (Nat.pow_pos (by decide)) ?_
  rw [zpow_eq_div_pow (by norm_num) scale] at h
  rw [Nat.pow_eq, Nat.pow_eq]
  push_cast
  rwa [mul_div_assoc]

end Nearest

/-! ## Digits -/

variable {ds whole fraction cs : List Char}

theorem ofDigits_toDigits (n : ℕ) : ofDigits (Nat.toDigits 10 n) = n :=
  Nat.ofDigitChars_ten_toDigits

theorem isDigit_of_mem_toDigits {n : ℕ} : ∀ c ∈ Nat.toDigits 10 n, c.isDigit = true :=
  fun _ => Nat.isDigit_of_mem_toDigits (by decide) (by decide)

theorem takeDigits_append (hd : ∀ c ∈ ds, c.isDigit = true)
    (hcs : ∀ c ∈ cs.head?, c.isDigit = false) : takeDigits (ds ++ cs) = (ds, cs) := by
  rw [takeDigits, List.span_eq_takeWhile_dropWhile, List.takeWhile_append_of_pos hd,
    List.dropWhile_append_of_pos hd]
  cases cs with
  | nil => simp
  | cons c cs => simp [hcs c rfl]

theorem takeDigits_of_forall (hd : ∀ c ∈ ds, c.isDigit = true) : takeDigits ds = (ds, []) := by
  have hnil : ∀ c ∈ ([] : List Char).head?, c.isDigit = false := nofun
  have htake := takeDigits_append hd hnil
  rwa [List.append_nil] at htake

/-- Digits on both sides of a point write `digits * 10 ^ scale`. -/
structure Writes (whole fraction : List Char) (digits : ℕ) (scale : ℤ) : Prop where
  nonempty : whole ≠ []
  isDigit : ∀ c ∈ whole ++ fraction, c.isDigit = true
  value : ofDigits (whole ++ fraction) = digits
  length : -(fraction.length : ℤ) = scale

theorem Writes.readMagnitude? {digits : ℕ} {scale : ℤ} (h : Writes whole fraction digits scale) :
    readMagnitude? (whole ++ '.' :: fraction) = some (nearest digits scale) := by
  have hwhole : takeDigits (whole ++ '.' :: fraction) = (whole, '.' :: fraction) :=
    takeDigits_append (fun c hc => h.isDigit c (List.mem_append_left _ hc)) (by simp)
  have hfraction : takeDigits fraction = (fraction, []) :=
    takeDigits_of_forall fun c hc => h.isDigit c (List.mem_append_right whole hc)
  simp [Decimal.readMagnitude?, hwhole, hfraction, h.nonempty, readExponent?, h.value, h.length]

theorem readMagnitude?_digits (hne : whole ≠ []) (hd : ∀ c ∈ whole, c.isDigit = true) :
    readMagnitude? whole = some (nearest (ofDigits whole) 0) := by
  simp [readMagnitude?, takeDigits_of_forall hd, hne, readExponent?]

/-! ## Signs -/

/-- The sign in front of a negative number. -/
def signChars (negative : Bool) : List Char := if negative then ['-'] else []

theorem takeSign_signChars {c : Char} (negative : Bool) (hc : c.isDigit = true) :
    takeSign (signChars negative ++ c :: cs) = (negative, c :: cs) := by
  cases negative with
  | true => rfl
  | false =>
    change takeSign (c :: cs) = _
    unfold takeSign
    split
    case h_3 => rfl
    all_goals
      next h =>
        cases h
        cases hc

theorem toLower_of_isDigit {c : Char} (hc : c.isDigit = true) : c.toLower = c := by
  simp only [Char.isDigit, Bool.and_eq_true, decide_eq_true_eq] at hc
  rw [Char.toLower, dif_neg]
  exact fun h => absurd (UInt32.le_trans h.1 hc.2) (by decide)

/-- A text that begins with a digit is none of the names. -/
theorem readFloat?_signed {c : Char} (negative : Bool) (hc : c.isDigit = true) :
    readFloat? (signChars negative ++ c :: cs) =
      (readMagnitude? (c :: cs)).map fun x => if negative then -x else x := by
  have hname {name : String} (h : String.ofList ((c :: cs).map Char.toLower) = name) :
      name.toList.head? = some c := by
    rw [← h, String.toList_ofList, List.map_cons, toLower_of_isDigit hc]
    rfl
  simp only [readFloat?, takeSign_signChars negative hc]
  refine congrArg (Option.map _) ?_
  split
  case h_4 => rfl
  all_goals
    next h =>
      cases hname h
      cases hc

theorem readInt?_signed {c : Char} (negative : Bool) (hc : ∀ d ∈ c :: cs, d.isDigit = true) :
    readInt? (signChars negative ++ c :: cs) =
      let n : ℤ := if negative then -ofDigits (c :: cs) else ofDigits (c :: cs)
      if Int64.minValue.toInt ≤ n ∧ n ≤ Int64.maxValue.toInt then some (Int64.ofInt n)
      else none := by
  simp only [readInt?, takeSign_signChars negative (hc c List.mem_cons_self)]
  rw [if_neg]
  simpa using hc

/-! ## Words -/

theorem toList_toString_int (n : ℤ) :
    (toString n).toList = signChars (decide (n < 0)) ++ Nat.toDigits 10 n.natAbs := by
  rw [Int.toString_eq_repr]
  cases n with
  | ofNat m => exact Nat.toList_repr
  | negSucc m =>
    change ("-" ++ (m + 1).repr).toList = _
    rw [String.toList_append, Nat.toList_repr, decide_eq_true (Int.negSucc_lt_zero m)]
    rfl

theorem exists_digit_cons (n : ℕ) : ∃ c cs, Nat.toDigits 10 n = c :: cs :=
  List.exists_cons_of_ne_nil Nat.toDigits_ne_nil

theorem readInt?_text (i : Int64) : readInt? (toString i.toInt).toList = some i := by
  obtain ⟨c, cs, hcs⟩ := exists_digit_cons i.toInt.natAbs
  have hdigit : ∀ d ∈ c :: cs, d.isDigit = true := hcs ▸ isDigit_of_mem_toDigits
  have hvalue : (if decide (i.toInt < 0) then -(ofDigits (c :: cs) : ℤ) else ofDigits (c :: cs)) =
      i.toInt := by
    rw [← hcs, ofDigits_toDigits]
    simp only [decide_eq_true_eq]
    split <;> omega
  rw [toList_toString_int, hcs, readInt?_signed _ hdigit, hvalue]
  simp only
  rw [if_pos ⟨i.minValue_le_toInt, i.toInt_le⟩, Int64.ofInt_toInt]

theorem nearest_zero_scale {n : ℕ} (h : n < 2 ^ 64) : nearest n 0 = nearestDouble n 1 := by
  have hlength : (Nat.toDigits 10 n).length ≤ 20 :=
    (Nat.length_toDigits_le_iff (by decide) (by decide)).mpr (h.trans (by decide))
  simp only [nearest]
  by_cases hzero : n = 0
  · rw [if_pos (.inl hzero), nearestDouble, if_pos hzero]
  · rw [if_neg (by omega), if_neg (by omega)]
    exact congrArg (nearestDouble · 1) (Nat.mul_one n)

theorem readFloat?_text (i : Int64) :
    readFloat? (toString i.toInt).toList = some (Word.toFloat i) := by
  obtain ⟨c, cs, hcs⟩ := exists_digit_cons i.toInt.natAbs
  have hdigit : ∀ d ∈ c :: cs, d.isDigit = true := hcs ▸ isDigit_of_mem_toDigits
  have hnegative : i < 0 ↔ i.toInt < 0 := Int64.lt_iff_toInt_lt
  rw [toList_toString_int, hcs, readFloat?_signed _ (hdigit c List.mem_cons_self),
    readMagnitude?_digits (List.cons_ne_nil c cs) hdigit, ← hcs, ofDigits_toDigits,
    nearest_zero_scale (Word.natAbs_lt i), Option.map_some]
  simp only [Word.toFloat, decide_eq_true_eq, hnegative]

/-! ## Parts of the text of a double -/

variable {x : Float}

theorem toList_signText (x : Float) : (signText x).toList = signChars (isNegative x) := by
  rw [signText, signChars]
  split <;> rfl

theorem bits_of_significand_eq_zero (h : (Binary.ofFloat x).significand = 0) :
    x.toBits.toNat % Single.signWeight = 0 := by
  simp only [Binary.ofFloat] at h
  split at h
  · next hbiased =>
    simp only [Single.signWeight, leadingWeight] at *
    omega
  · simp only [leadingWeight] at h
    omega

/-- A whole number is written with all of its digits and a zero. -/
theorem toBits_nearest_whole (hx : x.isFinite = true)
    (hwhole : (Binary.ofFloat x).isWhole = true) :
    (nearest (10 * (Binary.ofFloat x).floor) (-1)).toBits.toNat =
      x.toBits.toNat % Single.signWeight := by
  rcases Nat.eq_zero_or_pos (Binary.ofFloat x).significand with hzero | hpos
  · have hfloor : (Binary.ofFloat x).floor = 0 := by
      rw [Binary.floor, hzero, Nat.zero_shiftLeft, Nat.zero_shiftRight]
    rw [hfloor, bits_of_significand_eq_zero hzero]
    rfl
  · refine toBits_nearest hx hpos ?_
    have hvalue := Binary.attracts_value (Binary.ofFloat x)
    rw [← Binary.floor_of_isWhole hwhole] at hvalue
    convert hvalue using 1
    push_cast
    norm_num
    ring

/-! ## Digits around a point -/

section Positional

variable {n places : ℕ}

theorem toList_pushn (text : String) (c : Char) (n : ℕ) :
    (text.pushn c n).toList = text.toList ++ List.replicate n c := by
  rw [String.pushn_eq_repeat_push]
  induction n with
  | zero => exact (List.append_nil _).symm
  | succ n ih =>
    rw [Nat.repeat, String.toList_push, ih, List.append_assoc, List.replicate_succ']

theorem ofDigits_replicate_append (n : ℕ) (ds : List Char) :
    ofDigits (List.replicate n '0' ++ ds) = ofDigits ds := by
  change Nat.ofDigitChars 10 (List.replicate n '0' ++ ds) 0 = Nat.ofDigitChars 10 ds 0
  rw [Nat.ofDigitChars_append, Nat.ofDigitChars_replicate_zero, Nat.mul_zero]

/-- The point is among the digits. -/
theorem writes_inside (h : places < (Nat.toDigits 10 n).length) :
    Writes ((Nat.toDigits 10 n).take ((Nat.toDigits 10 n).length - places))
      ((Nat.toDigits 10 n).drop ((Nat.toDigits 10 n).length - places)) n (-places) where
  nonempty := by
    rw [← List.length_pos_iff, List.length_take]
    omega
  isDigit := by
    rw [List.take_append_drop]
    exact isDigit_of_mem_toDigits
  value := by rw [List.take_append_drop, ofDigits_toDigits]
  length := by
    rw [List.length_drop]
    omega

/-- The digits do not reach the point. -/
theorem writes_outside (h : (Nat.toDigits 10 n).length ≤ places) :
    Writes ['0'] (List.replicate (places - (Nat.toDigits 10 n).length) '0' ++ Nat.toDigits 10 n) n
      (-places) where
  nonempty := List.cons_ne_nil _ _
  isDigit c hc := by
    simp only [List.mem_append, List.mem_singleton, List.mem_replicate] at hc
    rcases hc with rfl | ⟨-, rfl⟩ | hc
    · rfl
    · rfl
    · exact isDigit_of_mem_toDigits c hc
  value := by
    rw [← List.append_assoc, ← List.replicate_one, List.replicate_append_replicate,
      ofDigits_replicate_append, ofDigits_toDigits]
  length := by
    rw [List.length_append, List.length_replicate]
    omega

/-- A whole number with a zero after the point. -/
theorem writes_whole (n : ℕ) : Writes (Nat.toDigits 10 n) ['0'] (10 * n) (-1) where
  nonempty := Nat.toDigits_ne_nil
  isDigit c hc := by
    rcases List.mem_append.mp hc with hc | hc
    · exact isDigit_of_mem_toDigits c hc
    · rw [List.mem_singleton.mp hc]
      rfl
  value := by
    change Nat.ofDigitChars 10 (Nat.toDigits 10 n ++ ['0']) 0 = 10 * n
    rw [Nat.ofDigitChars_append, Nat.ofDigitChars_ten_toDigits]
    rfl
  length := rfl

theorem exists_writes_positional {d : Shortest} (h : d.scale < 0) :
    ∃ whole fraction, d.positional.toList = whole ++ '.' :: fraction ∧
      Writes whole fraction d.digits d.scale := by
  obtain ⟨places, hscale⟩ : ∃ places : ℕ, d.scale = -places := ⟨(-d.scale).toNat, by omega⟩
  have htext : d.digitText.toList = Nat.toDigits 10 d.digits := by
    rw [Shortest.digitText, Nat.toString_eq_repr, Nat.toList_repr]
  have hlength : d.digitText.length = (Nat.toDigits 10 d.digits).length := by
    rw [← String.length_toList, htext]
  have hplaces : (-d.scale).toNat = places := by omega
  have hpos : places ≠ 0 := by omega
  rw [hscale]
  simp only [Shortest.positional, hplaces, if_neg hpos, hlength]
  rcases Nat.lt_or_ge places (Nat.toDigits 10 d.digits).length with hinside | houtside
  · refine ⟨_, _, ?_, writes_inside hinside⟩
    rw [if_pos hinside, htext]
    simp
  · refine ⟨_, _, ?_, writes_outside houtside⟩
    rw [if_neg houtside.not_gt, String.toList_append, String.toList_append, toList_pushn, htext]
    simp

end Positional

/-! ## The text of a double -/

section Display

theorem toList_display_whole (h : isWhole x = true) :
    (display x).toList = signChars (isNegative x) ++
      (Nat.toDigits 10 (Binary.ofFloat x).floor ++ ['.', '0']) := by
  have hx : x.isFinite = true := (Bool.and_eq_true_iff.mp h).1
  rw [display, if_neg (by simp [hx]), if_pos h, String.toList_append, String.toList_append,
    toList_signText, Nat.toString_eq_repr, Nat.toList_repr, List.append_assoc]
  rfl

theorem toList_display_fraction (hx : x.isFinite = true) (h : ¬ isWhole x = true) :
    (display x).toList =
      signChars (isNegative x) ++ (Shortest.ofFloat x).positional.toList := by
  rw [display, if_neg (by simp [hx]), if_neg h, String.toList_append, toList_signText]

/-- A double that is not whole has digits after the point. -/
theorem scale_neg_of_not_isWhole (hattracts : (Binary.ofFloat x).Attracts
      ((Shortest.ofFloat x).digits * 10 ^ (Shortest.ofFloat x).scale))
    (h : ¬ (Binary.ofFloat x).isWhole = true) : (Shortest.ofFloat x).scale < 0 := by
  by_contra hscale
  obtain ⟨n, hn⟩ := Int.eq_ofNat_of_zero_le (not_lt.mp hscale)
  rw [hn, zpow_natCast] at hattracts
  exact h (Binary.Attracts.isWhole (n := (Shortest.ofFloat x).digits * 10 ^ n)
    (by exact_mod_cast hattracts))

/-- The text of a finite double is its sign and a decimal that is read as its magnitude. -/
theorem exists_writes (hx : x.isFinite = true) :
    ∃ whole fraction digits scale,
      (display x).toList = signChars (isNegative x) ++ (whole ++ '.' :: fraction) ∧
        Writes whole fraction digits scale ∧
        (nearest digits scale).toBits.toNat = x.toBits.toNat % Single.signWeight := by
  by_cases hwhole : (Binary.ofFloat x).isWhole = true
  · exact ⟨_, _, _, _, toList_display_whole (by rw [isWhole, hx, hwhole]; rfl), writes_whole _,
      toBits_nearest_whole hx hwhole⟩
  · have hpos : 0 < (Binary.ofFloat x).significand := by
      refine Nat.pos_of_ne_zero fun hzero => hwhole ?_
      rw [Binary.isWhole, hzero, Nat.zero_mod]
      rfl
    have hattracts : (Binary.ofFloat x).Attracts
        ((Shortest.ofFloat x).digits * 10 ^ (Shortest.ofFloat x).scale) := by
      rw [Shortest.ofFloat, if_neg hpos.ne']
      exact Shortest.attracts_ofBinary (Binary.canonical_ofFloat hx hpos)
    have hscale := scale_neg_of_not_isWhole hattracts hwhole
    obtain ⟨whole, fraction, htext, hwrites⟩ := exists_writes_positional hscale
    refine ⟨whole, fraction, _, _, ?_, hwrites, toBits_nearest hx hpos hattracts⟩
    rw [toList_display_fraction hx (by rw [isWhole, hx, Bool.true_and]; exact hwhole), htext]

/-- The doubles that are not finite are NaN and the two infinities. -/
theorem display_of_not_isFinite (hx : ¬ x.isFinite = true) :
    x = 0.0 / 0.0 ∧ (display x).toList = ['N', 'a', 'N'] ∨
      (if isNegative x then -(1.0 / 0.0) else 1.0 / 0.0) = x ∧
        (display x).toList = signChars (isNegative x) ++ ['i', 'n', 'f'] := by
  rw [display, if_pos (by simp [hx]), nonfiniteText]
  by_cases hnan : x.isNaN = true
  · rw [if_pos hnan]
    rw [Float.isNaN_eq_decide_eq_nan, decide_eq_true_iff] at hnan
    exact .inl ⟨hnan, rfl⟩
  · rw [if_neg hnan, String.toList_append, toList_signText]
    have hnot : x.isNaN = false := by simpa using hnan
    refine .inr ⟨Double.signed_eq hnot ?_, rfl⟩
    have hle := Double.magnitude_le_of_isNaN hnot
    have hge := not_lt.mp (mt Double.isFinite_iff_magnitude.mpr hx)
    exact Eq.trans (by decide +kernel) (le_antisymm hge hle)

/-- The text of a double reads as that double. -/
theorem readFloat?_display (x : Float) : readFloat? (display x).toList = some x := by
  by_cases hx : x.isFinite = true
  · obtain ⟨whole, fraction, digits, scale, htext, hwrites, hbits⟩ := exists_writes hx
    obtain ⟨c, cs, rfl⟩ := List.exists_cons_of_ne_nil hwrites.nonempty
    have hnan : x.isNaN = false :=
      Double.isNaN_of_magnitude_le (Double.isFinite_iff_magnitude.mp hx).le
    rw [htext, List.cons_append, readFloat?_signed _ (hwrites.isDigit c List.mem_cons_self),
      ← List.cons_append, hwrites.readMagnitude?, Option.map_some, Double.signed_eq hnan hbits]
  · obtain ⟨hnan, htext⟩ | ⟨hinf, htext⟩ := display_of_not_isFinite hx
    · rw [htext, hnan]
      rfl
    · have hread (negative : Bool) : readFloat? (signChars negative ++ ['i', 'n', 'f']) =
          some (if negative then -(1.0 / 0.0) else 1.0 / 0.0) := by
        cases negative <;> rfl
      rw [htext, hread, hinf]

/-- The text of a double does not read as a whole number. -/
theorem readInt?_display (x : Float) : readInt? (display x).toList = none := by
  by_cases hx : x.isFinite = true
  · obtain ⟨whole, fraction, digits, scale, htext, hwrites, -⟩ := exists_writes hx
    obtain ⟨c, cs, rfl⟩ := List.exists_cons_of_ne_nil hwrites.nonempty
    have hdigit := hwrites.isDigit c List.mem_cons_self
    -- The point is among the characters after the sign, and is not a digit.
    rw [htext, List.cons_append, readInt?, takeSign_signChars _ hdigit]
    simp
  · obtain ⟨-, htext⟩ | ⟨-, htext⟩ := display_of_not_isFinite hx
    · rw [htext]
      rfl
    · rw [htext]
      cases isNegative x <;> rfl

end Display

/-! ## Blanks -/

section Blanks

theorem isBlank_of_isDigit {c : Char} (hc : c.isDigit = true) : Text.isBlank c = false := by
  simp only [Char.isDigit, Bool.and_eq_true, decide_eq_true_eq, ge_iff_le,
    UInt32.le_iff_toNat_le] at hc
  have hlow : 48 ≤ c.toNat := hc.1
  have hhigh : c.toNat ≤ 57 := hc.2
  simp only [Text.isBlank, Bool.or_eq_false_iff, Bool.and_eq_false_imp, decide_eq_true_eq,
    decide_eq_false_iff_not, not_le, beq_eq_false_iff_ne, ne_eq]
  omega

theorem isBlank_of_mem_signChars {c : Char} {negative : Bool} (hc : c ∈ signChars negative) :
    Text.isBlank c = false := by
  cases negative with
  | true =>
    rw [List.mem_singleton.mp hc]
    rfl
  | false => cases hc

theorem trimBlanks_of_forall (h : ∀ c ∈ cs, Text.isBlank c = false) : Text.trimBlanks cs = cs := by
  have hdrop {cs : List Char} (h : ∀ c ∈ cs, Text.isBlank c = false) :
      cs.dropWhile Text.isBlank = cs := by
    cases cs with
    | nil => rfl
    | cons c cs => exact List.dropWhile_cons_of_neg (by simp [h c List.mem_cons_self])
  rw [Text.trimBlanks, hdrop h, hdrop, List.reverse_reverse]
  exact fun c hc => h c (List.mem_reverse.mp hc)

theorem trimBlanks_text (n : ℤ) : Text.trimBlanks (toString n).toList = (toString n).toList := by
  refine trimBlanks_of_forall fun c hc => ?_
  rw [toList_toString_int] at hc
  rcases List.mem_append.mp hc with hc | hc
  · exact isBlank_of_mem_signChars hc
  · exact isBlank_of_isDigit (isDigit_of_mem_toDigits c hc)

theorem trimBlanks_display (x : Float) :
    Text.trimBlanks (display x).toList = (display x).toList := by
  refine trimBlanks_of_forall fun c hc => ?_
  by_cases hx : x.isFinite = true
  · obtain ⟨whole, fraction, digits, scale, htext, hwrites, -⟩ := exists_writes hx
    rw [htext] at hc
    simp only [List.mem_append, List.mem_cons] at hc
    rcases hc with hc | hc | rfl | hc
    · exact isBlank_of_mem_signChars hc
    · exact isBlank_of_isDigit (hwrites.isDigit c (List.mem_append_left _ hc))
    · rfl
    · exact isBlank_of_isDigit (hwrites.isDigit c (List.mem_append_right _ hc))
  · obtain ⟨-, htext⟩ | ⟨-, htext⟩ := display_of_not_isFinite hx
    · rw [htext] at hc
      simp only [List.mem_cons, List.not_mem_nil, or_false] at hc
      rcases hc with rfl | rfl | rfl <;> rfl
    · rw [htext] at hc
      simp only [List.mem_append, List.mem_cons, List.not_mem_nil, or_false] at hc
      rcases hc with hc | rfl | rfl | rfl
      · exact isBlank_of_mem_signChars hc
      all_goals rfl

end Blanks

end Dataflow.Decimal
