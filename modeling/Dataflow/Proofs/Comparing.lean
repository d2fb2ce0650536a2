import Dataflow.Proofs.Symmetry

/-!
# Comparisons

The six comparisons of two scalars read the same order: of strings, of words exactly, and of other
numbers as doubles. A string and a number have none, and are merely unequal. NaN has none with any
number, so that only inequality holds of it.
-/

namespace Dataflow

/-! ## The order of two numbers -/

theorem Double.compare?_eq_none_iff {x y : Float} :
    compare? x y = none ↔ x.isNaN = true ∨ y.isNaN = true := by
  refine ⟨fun h => ?_, compare?_of_isNaN⟩
  by_contra hnan
  obtain ⟨hx, hy⟩ : x.isNaN = false ∧ y.isNaN = false := by simpa using hnan
  cases (compare?_eq_place hx hy).symm.trans h

namespace Number

theorem isNaN_toFloat_int (a : Int64) : (int a).toFloat.isNaN = false := (Word.toFloat_spec a).1

/-- Two numbers have an order unless one of them is NaN. -/
theorem compare?_eq_none_iff {x y : Number} :
    compare? x y = none ↔ x.toFloat.isNaN = true ∨ y.toFloat.isNaN = true := by
  cases x with
  | int a =>
    cases y with
    | int b =>
      rw [isNaN_toFloat_int, isNaN_toFloat_int]
      exact iff_of_false nofun (not_or.mpr ⟨Bool.false_ne_true, Bool.false_ne_true⟩)
    | float y => exact Double.compare?_eq_none_iff
  | float x => cases y <;> exact Double.compare?_eq_none_iff

end Number

namespace Scalar

def isString : Scalar → Bool
  | .str _ => true
  | _ => false

def isNaN : Scalar → Bool
  | .float x => x.isNaN
  | _ => false

theorem isNaN_eq_of_ofValue {s : Scalar} {x : Number} (h : Number.ofValue (.scalar s) = .ok x) :
    s.isNaN = x.toFloat.isNaN := by
  cases s with
  | int a | bool b =>
    cases h
    exact (Number.isNaN_toFloat_int _).symm
  | float x =>
    cases h
    rfl
  | str text => cases h

end Scalar

/-! ## Comparisons of scalars -/

namespace Comparison

variable {s t : Scalar}

/-- The comparison is computed, and it holds. -/
def HoldsFor (op : Comparison) (s t : Scalar) : Prop :=
  (BinaryOp.comparison op).apply s t = .ok (.bool true)

/-- The comparisons that need an order. -/
def ordering : List Comparison := [.less, .greater, .lessEqual, .greaterEqual]

/-- Two strings, or two numbers, are compared by one order, which is there unless one of them is
NaN. -/
theorem exists_order (h : s.isString = t.isString) :
    ∃ o, (o = none ↔ s.isNaN = true ∨ t.isNaN = true) ∧
      ∀ op, (BinaryOp.comparison op).apply s t = .ok (.bool (op.holds o)) := by
  rcases s.isString_or_number with ⟨u, rfl⟩ | ⟨x, hx⟩
  · cases t with
    | str v => exact ⟨some (compareOfLessAndEq u v), by simp [Scalar.isNaN], fun op => rfl⟩
    | _ => cases h
  · rcases t.isString_or_number with ⟨v, rfl⟩ | ⟨y, hy⟩
    · cases s with
      | str u => cases hx
      | _ => cases h
    · refine ⟨Number.compare? x y, ?_, fun op => ?_⟩
      · rw [Number.compare?_eq_none_iff, Scalar.isNaN_eq_of_ofValue hx,
          Scalar.isNaN_eq_of_ofValue hy]
      · rw [BinaryOp.apply_comparison, op.apply_of_ofValue hx hy]
        rfl

/-- A string and a number are only unequal. -/
theorem apply_mixed (h : s.isString ≠ t.isString) (op : Comparison) :
    (BinaryOp.comparison op).apply s t = .bool <$> op.onMixed s t := by
  cases s <;> cases t <;> first | rfl | exact absurd rfl h

theorem apply_mirrored_ok_iff (op : Comparison) (r : Scalar) :
    (BinaryOp.comparison op).apply s t = .ok r ↔
      (BinaryOp.comparison op.mirrored).apply t s = .ok r :=
  ((op.apply_mirrored s t).bind fun _ => .ok _).ok_iff r

/-! ## What holds of an order -/

/-- The one of the strict comparisons and equality that an order stands for. -/
def ofOrdering : Ordering → Comparison
  | .lt => .less
  | .eq => .equal
  | .gt => .greater

theorem holds_iff_eq_ofOrdering {op : Comparison} (hop : op ∈ [less, equal, greater])
    (o : Ordering) : op.holds (some o) = true ↔ op = ofOrdering o := by
  revert hop
  cases op <;> cases o <;> decide

theorem existsUnique_holds (o : Ordering) :
    ∃! op, op ∈ [less, equal, greater] ∧ op.holds (some o) = true := by
  have hmem : ofOrdering o ∈ [less, equal, greater] := by cases o <;> decide
  exact ⟨ofOrdering o, ⟨hmem, (holds_iff_eq_ofOrdering hmem o).mpr rfl⟩,
    fun op hop => (holds_iff_eq_ofOrdering hop.1 o).mp hop.2⟩

theorem holds_notEqual (o : Option Ordering) : notEqual.holds o = !equal.holds o := by
  rcases o with _ | _ | _ | _ <;> rfl

theorem holds_lessEqual (o : Option Ordering) :
    lessEqual.holds o = (less.holds o || equal.holds o) := by
  rcases o with _ | _ | _ | _ <;> rfl

theorem holds_greaterEqual (o : Option Ordering) :
    greaterEqual.holds o = (greater.holds o || equal.holds o) := by
  rcases o with _ | _ | _ | _ <;> rfl

theorem holds_none (op : Comparison) : op.holds none = decide (op = notEqual) := by
  cases op <;> rfl

/-! ## The six together -/

theorem exists_equal (s t : Scalar) :
    ∃ r, (BinaryOp.comparison .equal).apply s t = .ok (.bool r) ∧
      (BinaryOp.comparison .notEqual).apply s t = .ok (.bool !r) := by
  by_cases h : s.isString = t.isString
  · obtain ⟨o, -, happly⟩ := exists_order h
    exact ⟨_, happly .equal, holds_notEqual o ▸ happly .notEqual⟩
  · exact ⟨false, apply_mixed h .equal, apply_mixed h .notEqual⟩

theorem apply_eq_error (h : s.isString ≠ t.isString) {op : Comparison} (hop : op ∈ ordering) :
    (BinaryOp.comparison op).apply s t =
      .error (.typeMismatch .comparableScalars (s.text ++ " and " ++ t.text)) := by
  rw [apply_mixed h]
  cases op with
  | equal | notEqual => exact absurd hop (by decide)
  | _ => rfl

theorem exists_apply_iff {op : Comparison} (hop : op ∈ ordering) :
    (∃ r, (BinaryOp.comparison op).apply s t = .ok (.bool r)) ↔ s.isString = t.isString := by
  constructor
  · rintro ⟨r, hr⟩
    by_contra h
    cases (apply_eq_error h hop).symm.trans hr
  · intro h
    obtain ⟨o, -, happly⟩ := exists_order h
    exact ⟨_, happly op⟩

theorem trichotomy (h : s.isString = t.isString) (hs : s.isNaN = false) (ht : t.isNaN = false) :
    (∃! op, op ∈ [less, equal, greater] ∧ op.HoldsFor s t) ∧
      (lessEqual.HoldsFor s t ↔ less.HoldsFor s t ∨ equal.HoldsFor s t) ∧
      (greaterEqual.HoldsFor s t ↔ greater.HoldsFor s t ∨ equal.HoldsFor s t) := by
  obtain ⟨o, hnone, happly⟩ := exists_order h
  have hholds (op : Comparison) : op.HoldsFor s t ↔ op.holds o = true := by
    simp [HoldsFor, happly]
  simp only [hholds, holds_lessEqual, holds_greaterEqual, Bool.or_eq_true, true_and]
  cases o with
  | none => simp [hs, ht] at hnone
  | some o => exact ⟨existsUnique_holds o, trivial⟩

theorem apply_of_isNaN (h : s.isString = t.isString) (hnan : s.isNaN = true ∨ t.isNaN = true)
    (op : Comparison) :
    (BinaryOp.comparison op).apply s t = .ok (.bool (decide (op = notEqual))) := by
  obtain ⟨o, hnone, happly⟩ := exists_order h
  rw [happly, hnone.mpr hnan, holds_none]

/-- The six comparisons of two scalars agree with each other. Equality and inequality are always
computed, and opposite. The other four are computed exactly if both scalars are strings or none is,
and otherwise refused with the texts of the two. Where they are computed and no NaN is involved,
exactly one of the strict ones and equality holds, and the weak ones are what their names say. Of
NaN and a number only inequality holds. Each comparison comes to what the mirrored one comes to for
the operands in the other order. -/
theorem comparisons_cohere (s t : Scalar) :
    (∃ r, (BinaryOp.comparison .equal).apply s t = .ok (.bool r) ∧
      (BinaryOp.comparison .notEqual).apply s t = .ok (.bool !r)) ∧
    (∀ op ∈ ordering,
      ((∃ r, (BinaryOp.comparison op).apply s t = .ok (.bool r)) ↔ s.isString = t.isString) ∧
      (s.isString ≠ t.isString → (BinaryOp.comparison op).apply s t =
        .error (.typeMismatch .comparableScalars (s.text ++ " and " ++ t.text)))) ∧
    (s.isString = t.isString → s.isNaN = false → t.isNaN = false →
      (∃! op, op ∈ [less, equal, greater] ∧ op.HoldsFor s t) ∧
      (lessEqual.HoldsFor s t ↔ less.HoldsFor s t ∨ equal.HoldsFor s t) ∧
      (greaterEqual.HoldsFor s t ↔ greater.HoldsFor s t ∨ equal.HoldsFor s t)) ∧
    (s.isString = false → t.isString = false → s.isNaN = true ∨ t.isNaN = true →
      ∀ op, (BinaryOp.comparison op).apply s t = .ok (.bool (decide (op = notEqual)))) ∧
    (∀ op r, (BinaryOp.comparison op).apply s t = .ok r ↔
      (BinaryOp.comparison op.mirrored).apply t s = .ok r) :=
  ⟨exists_equal s t, fun _ hop => ⟨exists_apply_iff hop, fun h => apply_eq_error h hop⟩,
    trichotomy, fun hs ht hnan op => apply_of_isNaN (hs.trans ht.symm) hnan op,
    apply_mirrored_ok_iff⟩

/-- A word and a double, a string and a word, and a word and NaN. -/
theorem comparisons_cohere_kinds :
    let one : Scalar := .int 1
    let more : Scalar := .float 1.5
    let text : Scalar := .str "one"
    let nan : Scalar := .float (0.0 / 0.0)
    (one.isString = more.isString ∧ one.isNaN = false ∧ more.isNaN = false ∧
      ∃! op, op ∈ [less, equal, greater] ∧ op.HoldsFor one more) ∧
    (less ∈ ordering ∧ text.isString ≠ one.isString ∧ (BinaryOp.comparison .less).apply text one =
      .error (.typeMismatch .comparableScalars (text.text ++ " and " ++ one.text))) ∧
    (one.isString = false ∧ nan.isString = false ∧ nan.isNaN = true ∧
      ∀ op, (BinaryOp.comparison op).apply one nan = .ok (.bool (decide (op = notEqual)))) := by
  intro one more text nan
  have hmore : more.isNaN = false := by decide +kernel
  have hnan : nan.isNaN = true := by decide +kernel
  obtain ⟨-, -, hordered, -⟩ := comparisons_cohere one more
  obtain ⟨-, hmixed, -⟩ := comparisons_cohere text one
  obtain ⟨-, -, -, hunordered, -⟩ := comparisons_cohere one nan
  exact ⟨⟨rfl, rfl, hmore, (hordered rfl rfl hmore).1⟩,
    ⟨by decide, by decide, (hmixed .less (by decide)).2 (by decide)⟩,
    ⟨rfl, rfl, hnan, hunordered rfl rfl (.inr hnan)⟩⟩

end Comparison

end Dataflow
