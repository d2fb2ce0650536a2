import Dataflow.Proofs.Boxes
import Dataflow.Proofs.ReadBack

/-!
# Whole numbers in values

Which values count as a whole number or a list of them, and which numbers those are. A float counts
for the rational number that it is, if that is whole. A word is exact unless the float lies beyond
the range of words, where it is the nearest one.
-/

theorem Except.mapM_eq_ok_iff {ε α β : Type} {f : α → Except ε β} {xs : List α} {ys : List β} :
    xs.mapM f = .ok ys ↔ List.Forall₂ (fun x y => f x = .ok y) xs ys := by
  induction xs generalizing ys with
  | nil =>
    rw [List.mapM_nil, List.forall₂_nil_left_iff]
    exact ⟨fun h => (Except.ok.inj h).symm, fun h => h ▸ rfl⟩
  | cons x xs ih =>
    rw [List.mapM_cons]
    constructor
    · intro h
      obtain ⟨y, hy, h⟩ := Except.bind_eq_ok.mp h
      obtain ⟨ys', hys, h⟩ := Except.bind_eq_ok.mp h
      cases h
      exact .cons hy (ih.mp hys)
    · intro h
      cases h with
      | cons hy hys => rw [hy, ih.mpr hys]; rfl

namespace Dataflow

theorem forall₂_congr_of_mem {α β : Type} {R S : α → β → Prop} {xs : List α} {ys : List β}
    (h : ∀ x ∈ xs, ∀ y, R x y ↔ S x y) : List.Forall₂ R xs ys ↔ List.Forall₂ S xs ys := by
  constructor
  · intro hR
    exact ((List.forall₂_and_left xs ys).mpr ⟨h, hR⟩).imp fun x y ⟨hxy, hr⟩ => (hxy y).mp hr
  · intro hS
    exact ((List.forall₂_and_left xs ys).mpr ⟨h, hS⟩).imp fun x y ⟨hxy, hs⟩ => (hxy y).mpr hs

/-- Two relations from item to item one after the other. -/
theorem exists_forall₂_iff {α β γ : Type} {R : α → β → Prop} {S : β → γ → Prop} {xs : List α}
    {zs : List γ} : (∃ ys, List.Forall₂ R xs ys ∧ List.Forall₂ S ys zs) ↔
      List.Forall₂ (fun x z => ∃ y, R x y ∧ S y z) xs zs := by
  constructor
  · rintro ⟨ys, hR, hS⟩
    induction hR generalizing zs with
    | nil =>
      cases hS
      exact .nil
    | cons hxy _ ih =>
      cases hS with
      | cons hyz hS => exact .cons ⟨_, hxy, hyz⟩ (ih hS)
  · intro h
    induction h with
    | nil => exact ⟨[], .nil, .nil⟩
    | cons hxz _ ih =>
      obtain ⟨y, hxy, hyz⟩ := hxz
      obtain ⟨ys, hR, hS⟩ := ih
      exact ⟨y :: ys, .cons hxy hR, .cons hyz hS⟩

/-! ## Doubles -/

namespace Decimal.Binary

/-- A fraction is missing exactly if the magnitude is a natural number. -/
theorem isWhole_iff {b : Binary} : b.isWhole = true ↔ ∃ n : ℕ, b.value = n := by
  refine ⟨fun h => ⟨b.floor, (floor_of_isWhole h).symm⟩, fun ⟨n, hn⟩ => ?_⟩
  rw [isWhole, Nat.one_shiftLeft, beq_iff_eq]
  rcases le_or_gt 0 b.exponent with hlarge | hsmall
  · have hzero : (-b.exponent).toNat = 0 := by omega
    rw [hzero, pow_zero, Nat.mod_one]
  · have hzero : b.exponent.toNat = 0 := by omega
    rw [value_eq_div, div_eq_iff (by positivity), hzero, pow_zero, mul_one] at hn
    rw [show b.significand = n * 2 ^ (-b.exponent).toNat by exact_mod_cast hn]
    exact Nat.mul_mod_left _ _

end Decimal.Binary

namespace Double

open Decimal

/-- The rational number that a finite double is. -/
def rational (x : Float) : ℚ :=
  if isNegative x then -(Binary.ofFloat x).value else (Binary.ofFloat x).value

/-- The double without its fraction. -/
def truncated (x : Float) : Int :=
  let magnitude : Int := (Binary.ofFloat x).floor
  if isNegative x then -magnitude else magnitude

theorem rational_of_isWhole {x : Float} (h : isWhole x = true) : rational x = truncated x := by
  have hvalue := Binary.floor_of_isWhole (Bool.and_eq_true_iff.mp h).2
  unfold rational truncated
  split <;> push_cast <;> rw [hvalue]

theorem exists_rational_iff {x : Float} {n : Int} :
    x.isFinite = true ∧ rational x = n ↔ isWhole x = true ∧ truncated x = n := by
  refine ⟨fun ⟨hfinite, hn⟩ => ?_, fun ⟨hwhole, hn⟩ => ?_⟩
  · have hmagnitude : (Binary.ofFloat x).value = n.natAbs := by
      have hpos : 0 ≤ (Binary.ofFloat x).value := by unfold Binary.value; positivity
      rw [Nat.cast_natAbs, Int.cast_abs, ← hn, rational]
      split
      · rw [abs_neg, abs_of_nonneg hpos]
      · rw [abs_of_nonneg hpos]
    have hwhole : isWhole x = true :=
      Bool.and_eq_true_iff.mpr ⟨hfinite, Binary.isWhole_iff.mpr ⟨_, hmagnitude⟩⟩
    rw [rational_of_isWhole hwhole] at hn
    exact ⟨hwhole, by exact_mod_cast hn⟩
  · rw [rational_of_isWhole hwhole, hn]
    exact ⟨(Bool.and_eq_true_iff.mp hwhole).1, rfl⟩

end Double

namespace Word

/-- The number is one of the words. -/
def Fits (n : Int) : Prop := -0x8000000000000000 ≤ n ∧ n < 0x8000000000000000

instance (n : Int) : Decidable (Fits n) := inferInstanceAs (Decidable (_ ∧ _))

theorem fits_toInt (d : Int64) : Fits d.toInt := ⟨d.le_toInt, d.toInt_lt⟩

theorem Fits.toInt_ofIntClamp {n : Int} (h : Fits n) : (Int64.ofIntClamp n).toInt = n :=
  Int64.toInt_ofIntClamp h.1 (Int.lt_add_one_iff.mp h.2)

theorem ofIntClamp_toInt (i : Int64) : Int64.ofIntClamp i.toInt = i :=
  Int64.toInt_inj.mp (fits_toInt i).toInt_ofIntClamp

theorem ofFloat_eq {x : Float} (h : x.isFinite = true) :
    ofFloat x = Int64.ofIntClamp (Double.truncated x) := by
  have hnan := Double.isNaN_of_magnitude_le (Double.isFinite_iff_magnitude.mp h).le
  rw [ofFloat, hnan]
  rfl

end Word

/-! ## Scalars -/

namespace Scalar

/-- The whole number that a scalar stands for, if it does. -/
def Denotes : Scalar → Int → Prop
  | .int i, n => i.toInt = n
  | .bool b, n => (if b then 1 else 0) = n
  | .float x, n => x.isFinite = true ∧ Double.rational x = n
  | .str _, _ => False

/-- Whole numbers are read as the words nearest to them. -/
theorem asInt_eq_ok {s : Scalar} {d : Int64} :
    s.asInt = .ok d ↔ ∃ n, s.Denotes n ∧ d = Int64.ofIntClamp n := by
  cases s with
  | int i =>
    rw [asInt, Except.ok.injEq]
    refine ⟨fun h => ⟨_, rfl, h ▸ (Word.ofIntClamp_toInt i).symm⟩, ?_⟩
    rintro ⟨_, rfl, rfl⟩
    exact (Word.ofIntClamp_toInt i).symm
  | bool b =>
    rw [asInt, Except.ok.injEq]
    constructor
    · rintro rfl
      exact ⟨_, rfl, by cases b <;> decide⟩
    · rintro ⟨_, rfl, rfl⟩
      cases b <;> decide
  | float x =>
    simp only [asInt, Denotes, Double.exists_rational_iff]
    split
    · rename_i hwhole
      rw [Word.ofFloat_eq (Bool.and_eq_true_iff.mp hwhole).1, Except.ok.injEq]
      exact ⟨fun h => ⟨_, ⟨hwhole, rfl⟩, h.symm⟩, fun ⟨_, ⟨_, hn⟩, hd⟩ => by rw [hn, hd]⟩
    · rename_i hwhole
      exact ⟨nofun, fun ⟨_, ⟨h, _⟩, _⟩ => absurd h hwhole⟩
  | str t => exact ⟨nofun, fun ⟨_, h, _⟩ => h.elim⟩

/-- Reading a whole number and then looking at the word. -/
theorem exists_asInt_iff {s : Scalar} {P : Int64 → Prop} :
    (∃ d, s.asInt = .ok d ∧ P d) ↔ ∃ n, s.Denotes n ∧ P (Int64.ofIntClamp n) := by
  simp only [asInt_eq_ok]
  constructor
  · rintro ⟨_, ⟨n, hn, rfl⟩, h⟩
    exact ⟨n, hn, h⟩
  · rintro ⟨n, hn, h⟩
    exact ⟨_, ⟨n, hn, rfl⟩, h⟩

/-- Only floats stand for numbers beyond the words. -/
theorem Denotes.fits {s : Scalar} {n : Int} (h : s.Denotes n)
    (hfloat : ∀ x, s = .float x → Word.Fits n) : Word.Fits n := by
  cases s with
  | int i =>
    cases h
    exact Word.fits_toInt i
  | bool b =>
    cases h
    cases b <;> decide
  | float x => exact hfloat x rfl
  | str t => exact h.elim

end Scalar

/-! ## Values -/

namespace Value

open List

variable {v : Value} {ss : List Scalar}

/-- The value is a flat array of the scalars, or the only one of them. -/
def Lists : Value → List Scalar → Prop
  | .scalar s, ss => ss = [s]
  | .array items, ss => items = ss.map .scalar

theorem Lists.scalars (h : v.Lists ss) : v.scalars = ss := by
  cases v with
  | scalar s => exact h.symm
  | array items =>
    cases h
    rw [scalars_array, List.flatMap_map]
    exact List.flatMap_singleton' ss

theorem forall₂_asInt {items : List Value} {ds : List Int64}
    (h : Forall₂ (fun v d => v.asInt = .ok d) items ds) :
    ∃ ss, items = ss.map .scalar ∧ Forall₂ (fun s d => s.asInt = .ok d) ss ds := by
  induction h with
  | nil => exact ⟨[], rfl, .nil⟩
  | @cons v d items ds hd _ ih =>
    obtain ⟨ss, rfl, hss⟩ := ih
    cases v with
    | scalar s => exact ⟨s :: ss, rfl, .cons hd hss⟩
    | array items => cases hd

/-- The view of a list holds the views of its scalars. -/
theorem asInts_eq_ok {ds : List Int64} :
    v.asInts = .ok ds ↔ ∃ ss, v.Lists ss ∧ Forall₂ (fun s d => s.asInt = .ok d) ss ds := by
  cases v with
  | scalar s =>
    constructor
    · intro h
      obtain ⟨d, hd, h⟩ := Except.bind_eq_ok.mp h
      cases h
      exact ⟨[s], rfl, .cons hd .nil⟩
    · rintro ⟨ss, rfl, h⟩
      cases h with
      | cons hd hnil =>
        cases hnil
        exact Except.bind_eq_ok.mpr ⟨_, hd, rfl⟩
  | array items =>
    rw [asInts, Except.mapM_eq_ok_iff]
    constructor
    · exact forall₂_asInt
    · rintro ⟨ss, rfl, h⟩
      exact forall₂_map_left_iff.mpr h

theorem extent_eq_ok {d : Int64} {k : Nat} : extent d = .ok k ↔ d.toInt = k := by
  unfold extent
  split <;> rename_i hd <;> rw [Int64.lt_iff_toInt_lt, Int64.toInt_zero] at hd
  · exact ⟨nofun, fun h => by omega⟩
  · rw [Except.ok.injEq]
    omega

theorem asExtents_eq_ok {ks : List Nat} :
    v.asExtents = .ok ks ↔
      ∃ ds, v.asInts = .ok ds ∧ Forall₂ (fun (d : Int64) (k : Nat) => d.toInt = k) ds ks := by
  refine Except.bind_eq_ok.trans (exists_congr fun ds => and_congr_right fun _ => ?_)
  rw [Except.mapM_eq_ok_iff]
  simp only [extent_eq_ok]

/-- No float in the value stands for a whole number beyond the words. -/
def Ranged (v : Value) : Prop :=
  ∀ x n, .float x ∈ v.scalars → (Scalar.float x).Denotes n → Word.Fits n

theorem Ranged.fits (hv : v.Ranged) (hss : v.Lists ss) {s : Scalar} (hs : s ∈ ss) {n : Int}
    (hn : s.Denotes n) : Word.Fits n := by
  refine hn.fits fun x hx => ?_
  cases hx
  exact hv x n (hss.scalars ▸ hs) hn

/-- A view lists whole numbers, each as the word nearest to it. -/
theorem asInts_eq_ok_clamp {ds : List Int64} : v.asInts = .ok ds ↔ ∃ ss, v.Lists ss ∧
    Forall₂ (fun s d => ∃ n, s.Denotes n ∧ d = Int64.ofIntClamp n) ss ds := by
  simp only [asInts_eq_ok, Scalar.asInt_eq_ok]

theorem asExtents_eq_ok_clamp {ks : List Nat} : v.asExtents = .ok ks ↔ ∃ ss, v.Lists ss ∧
    Forall₂ (fun s (k : Nat) => ∃ n, s.Denotes n ∧ (Int64.ofIntClamp n).toInt = k) ss ks := by
  simp only [asExtents_eq_ok, asInts_eq_ok_clamp, ← Scalar.asInt_eq_ok, ← exists_and_right,
    and_assoc]
  rw [exists_comm]
  simp only [exists_and_left, exists_forall₂_iff, Scalar.exists_asInt_iff]

/-- Where every whole number is a word, it is the word nearest to it. -/
theorem Ranged.asInts_eq_ok (hv : v.Ranged) {ds : List Int64} : v.asInts = .ok ds ↔
    ∃ ss, v.Lists ss ∧ Forall₂ (fun s d => s.Denotes d.toInt) ss ds := by
  refine asInts_eq_ok_clamp.trans (exists_congr fun ss => and_congr_right fun hss => ?_)
  refine forall₂_congr_of_mem fun s hs d => ⟨?_, fun hd => ⟨_, hd, ?_⟩⟩
  · rintro ⟨n, hn, rfl⟩
    rwa [(hv.fits hss hs hn).toInt_ofIntClamp]
  · exact (Word.ofIntClamp_toInt d).symm

theorem Ranged.asExtents_eq_ok (hv : v.Ranged) {ks : List Nat} : v.asExtents = .ok ks ↔
    ∃ ss, v.Lists ss ∧ Forall₂ (fun s (k : Nat) => s.Denotes k) ss ks := by
  refine asExtents_eq_ok_clamp.trans (exists_congr fun ss => and_congr_right fun hss => ?_)
  refine forall₂_congr_of_mem fun s hs k => ⟨?_, fun hk => ⟨_, hk, ?_⟩⟩
  · rintro ⟨n, hn, hk⟩
    rwa [← hk, (hv.fits hss hs hn).toInt_ofIntClamp]
  · exact (hv.fits hss hs hk).toInt_ofIntClamp

/-- A float that stands for no word is refused, wherever it stands in the value. -/
theorem Ranged.asInts_ne_ok (hv : v.Ranged) {x : Float} (hx : .float x ∈ v.scalars)
    (hnot : ∀ n, Word.Fits n → ¬ (Scalar.float x).Denotes n) (ds : List Int64) :
    v.asInts ≠ .ok ds := by
  intro hds
  -- A view reads every scalar of the value, so it would have read the float as a word.
  obtain ⟨ss, hss, hall⟩ := hv.asInts_eq_ok.mp hds
  rw [hss.scalars] at hx
  obtain ⟨i, hi, hxi⟩ := List.getElem_of_mem hx
  have hd := hall.get hi (hall.length_eq ▸ hi)
  rw [List.get_eq_getElem, hxi] at hd
  exact hnot _ (Word.fits_toInt _) hd

/-- The views list whole numbers, each as the word nearest to it. As long as no float stands for a
number beyond the words, a view is exact, and exactly the values that list whole numbers have one;
any other float is refused, wherever it stands in the value. -/
theorem reads_whole_numbers (v : Value) :
    (∀ ds, v.asInts = .ok ds ↔ ∃ ss, v.Lists ss ∧
      Forall₂ (fun s d => ∃ n, s.Denotes n ∧ d = Int64.ofIntClamp n) ss ds) ∧
    (∀ ks, v.asExtents = .ok ks ↔ ∃ ss, v.Lists ss ∧
      Forall₂ (fun s (k : Nat) => ∃ n, s.Denotes n ∧ (Int64.ofIntClamp n).toInt = k) ss ks) ∧
    (v.Ranged →
      (∀ ds, v.asInts = .ok ds ↔ ∃ ss, v.Lists ss ∧
        Forall₂ (fun s d => s.Denotes d.toInt) ss ds) ∧
      (∀ ks, v.asExtents = .ok ks ↔ ∃ ss, v.Lists ss ∧
        Forall₂ (fun s (k : Nat) => s.Denotes k) ss ks) ∧
      ∀ x, .float x ∈ v.scalars → (∀ n, Word.Fits n → ¬ (Scalar.float x).Denotes n) →
        (∀ ds, v.asInts ≠ .ok ds) ∧ ∀ ks, v.asExtents ≠ .ok ks) := by
  refine ⟨fun _ => asInts_eq_ok_clamp, fun _ => asExtents_eq_ok_clamp, fun hv => ?_⟩
  refine ⟨fun _ => hv.asInts_eq_ok, fun _ => hv.asExtents_eq_ok, fun x hx hnot => ?_⟩
  refine ⟨hv.asInts_ne_ok hx hnot, fun ks hks => ?_⟩
  obtain ⟨ds, hds, -⟩ := asExtents_eq_ok.mp hks
  exact hv.asInts_ne_ok hx hnot ds hds

/-- A truth value, a negative word and a whole float; one of the floats that are not whole. -/
theorem reads_whole_numbers_three :
    let v := Value.array [.scalar (.bool true), .scalar (.int (-5)),
      .scalar (.float (.ofBits 0x4008000000000000))]
    v.Ranged ∧ v.asInts = .ok [1, -5, 3] ∧
      ∃ ss, v.Lists ss ∧ Forall₂ (fun s (d : Int64) => s.Denotes d.toInt) ss [1, -5, 3] := by
  intro v
  have hranged : v.Ranged := by
    intro x n hx hn
    obtain rfl : x = .ofBits 0x4008000000000000 := by simpa [v] using hx
    obtain ⟨-, rfl⟩ := Double.exists_rational_iff.mp hn
    decide +kernel
  have hread : v.asInts = .ok [1, -5, 3] := rfl
  obtain ⟨-, -, hexact⟩ := reads_whole_numbers v
  exact ⟨hranged, hread, ((hexact hranged).1 _).mp hread⟩

/-- The float 2^63 is whole, but read as the largest word. -/
theorem reads_whole_numbers_fails :
    ¬ ∀ v ds, Value.asInts v = .ok ds →
      ∃ ss, v.Lists ss ∧ Forall₂ (fun s (d : Int64) => s.Denotes d.toInt) ss ds := by
  intro h
  have hread : (Value.scalar (.float (.ofBits 0x43E0000000000000))).asInts =
      .ok [0x7FFFFFFFFFFFFFFF] := rfl
  obtain ⟨ss, rfl, hall⟩ := h _ _ hread
  cases hall with
  | cons hd _ =>
    obtain ⟨-, hd⟩ := Double.exists_rational_iff.mp hd
    revert hd
    decide +kernel

end Value

end Dataflow
