import Dataflow.Matrix.Dense
import Dataflow.Proofs.Folding

/-!
# Packing values

A rectangular value is determined by its extents and by its scalars in row-major order, so packing
it and unpacking it again keeps its nesting. What is packed is checked by the number of its scalars
only, in 64 bits. A ragged value is refused unless this is the number that the extents along its
first items call for.
-/

theorem Except.mapM_result {ε α β γ : Type} (f : β → γ) (g : α → Except ε β) (xs : List α) :
    xs.mapM (fun x => f <$> g x) = List.map f <$> xs.mapM g := by
  induction xs with
  | nil => rfl
  | cons x xs ih =>
    rw [List.mapM_cons, List.mapM_cons, ih]
    cases g x with
    | error e => rfl
    | ok y => cases xs.mapM g <;> rfl

namespace Dataflow

namespace Value

/-! ## Nesting the scalars of a value -/

theorem Rect.length_scalars {v : Value} (h : v.Rect) : v.scalars.length = volume v.dims := by
  induction h with
  | scalar s => rfl
  | @array vs items even ih =>
    cases vs with
    | nil => rfl
    | cons w ws =>
      have hitem : ∀ v ∈ w :: ws, v.scalars.length = volume w.dims := by
        intro v hv
        rw [ih v hv, even w List.mem_cons_self v hv]
      rw [dims_array_cons, volume, scalars_array, List.length_flatMap, List.map_congr_left hitem,
        List.map_const', List.sum_replicate_nat, List.length_cons]

/-- Items with equally many scalars are found again among the scalars of all of them. -/
theorem blocks_flatMap_scalars {size : Nat} {vs : List Value}
    (h : ∀ v ∈ vs, v.scalars.length = size) :
    blocks size vs.length (vs.flatMap scalars) = vs.map scalars := by
  induction vs with
  | nil => rfl
  | cons v vs ih =>
    have hv := h v List.mem_cons_self
    rw [List.length_cons, List.flatMap_cons, blocks, List.take_left' hv, List.drop_left' hv,
      ih fun w hw => h w (List.mem_cons_of_mem v hw), List.map_cons]

/-- A rectangular value is its scalars, nested with its extents. -/
theorem Rect.nest_scalars {v : Value} (h : v.Rect) : nest v.dims v.scalars = v := by
  induction h with
  | scalar s => rfl
  | @array vs items even ih =>
    cases vs with
    | nil => rfl
    | cons w ws =>
      have hsize : ∀ v ∈ w :: ws, v.scalars.length = volume w.dims := by
        intro v hv
        rw [(items v hv).length_scalars, even w List.mem_cons_self v hv]
      have hitem : ∀ v ∈ w :: ws, nest w.dims v.scalars = v := by
        intro v hv
        rw [even w List.mem_cons_self v hv]
        exact ih v hv
      rw [dims_array_cons, scalars_array, nest, ← List.length_cons (a := w),
        blocks_flatMap_scalars hsize, List.map_map]
      exact congrArg Value.array ((List.map_congr_left hitem).trans (List.map_id _))

section Traverse

variable {g : Scalar → Except Fault Scalar}

mutual

/-- The scalars of the result are what is put in the place of the scalars. -/
theorem scalars_traverse : (v : Value) →
    scalars <$> v.traverse (fun s => do return .scalar (← g s)) = v.scalars.mapM g
  | .scalar s => by
    rw [scalars_scalar, List.mapM_cons, traverse]
    cases g s <;> rfl
  | .array vs => by
    rw [traverse, scalars, ← scalarsOfItems_traverseItems vs]
    cases traverseItems (fun s => do return .scalar (← g s)) vs <;> rfl

theorem scalarsOfItems_traverseItems : (vs : List Value) →
    scalarsOfItems <$> traverseItems (fun s => do return .scalar (← g s)) vs =
      (scalarsOfItems vs).mapM g
  | [] => rfl
  | v :: vs => by
    rw [scalarsOfItems, List.mapM_append, ← scalars_traverse v, ← scalarsOfItems_traverseItems vs,
      traverseItems]
    cases v.traverse (fun s => do return .scalar (← g s)) with
    | error e => rfl
    | ok w => cases traverseItems (fun s => do return .scalar (← g s)) vs <;> rfl

end

/-- What is put in the place of the scalars of a rectangular value is nested as the value is. -/
theorem Rect.traverse_eq_nest {v : Value} (h : v.Rect) {ss : List Scalar}
    (hss : v.scalars.mapM g = .ok ss) :
    v.traverse (fun s => do return .scalar (← g s)) = .ok (nest v.dims ss) := by
  obtain ⟨w, hw, rfl⟩ := Except.map_eq_ok.mp ((scalars_traverse v).trans hss)
  have hrect : w.Rect := rect_of_tabulate (h.traverse_eq_tabulate.symm.trans hw)
  rw [hw, ← dims_of_traverse hw, hrect.nest_scalars]

end Traverse

end Value

/-! ## What is packed -/

namespace Scalar

def isDouble : Scalar → Bool
  | .float _ => true
  | _ => false

/-- What a scalar comes back as when it was packed: a double if there are doubles beside it, and
otherwise a word. -/
def packed (doubles : Bool) (s : Scalar) : Except Fault Scalar :=
  if doubles then .float <$> s.asFloat else .int <$> s.asInt

theorem isNumber_of_packed {doubles : Bool} {s t : Scalar} (h : s.packed doubles = .ok t) :
    s.IsNumber := by
  cases s with
  | str s => cases doubles <;> cases h
  | _ => trivial

/-- Without doubles beside it, a number is a word. -/
theorem exists_packed {doubles : Bool} {s : Scalar} (hs : s.IsNumber)
    (h : s.isDouble = true → doubles = true) : ∃ t, s.packed doubles = .ok t := by
  cases doubles with
  | true =>
    cases s with
    | str s => cases hs
    | _ => exact ⟨_, rfl⟩
  | false =>
    cases s with
    | str s => cases hs
    | float x => cases h rfl
    | _ => exact ⟨_, rfl⟩

theorem isWord_eq_not_isDouble {s : Scalar} (hs : s.IsNumber) :
    Dense.isWord s = !s.isDouble := by
  cases s with
  | str s => cases hs
  | _ => rfl

end Scalar

/-- Whether there is a double among the scalars. -/
def Value.hasDouble (v : Value) : Bool := v.scalars.any Scalar.isDouble

/-- Counted in 64 bits, there are as many scalars as the extents along the first items call for. -/
def Value.Tallies (v : Value) : Prop := counted v.scalars.length = counted (volume v.dims)

theorem Value.Rect.tallies {v : Value} (h : v.Rect) : v.Tallies :=
  congrArg counted h.length_scalars

namespace Dense

open Value

theorem all_isWord {v : Value} (h : ∀ s ∈ v.scalars, s.IsNumber) :
    v.scalars.all isWord = !v.hasDouble := by
  rw [hasDouble, List.not_any_eq_all_not, Bool.eq_iff_iff, List.all_eq_true, List.all_eq_true]
  exact forall₂_congr fun s hs => by rw [Scalar.isWord_eq_not_isDouble (h s hs)]

theorem of_ofValue {v : Value} {d : Dense} (h : ofValue v = .ok d) :
    v.Tallies ∧ d.dims = v.dims := by
  unfold ofValue at h
  by_cases hcount : counted v.scalars.length = counted (volume v.dims)
  · refine ⟨hcount, ?_⟩
    rw [if_neg (not_not.mpr hcount)] at h
    split at h
    all_goals
      obtain ⟨-, -, h⟩ := Except.bind_eq_ok.mp h
      obtain ⟨entries, -, h⟩ := Except.bind_eq_ok.mp h
      cases h
      rfl
  · rw [if_pos hcount] at h
    cases h

/-- With the right number of scalars, only their kinds matter. -/
theorem scalars_ofValue {v : Value} (h : v.Tallies) :
    (fun d => d.entries.toScalars) <$> ofValue v =
      v.scalars.mapM (Scalar.packed (!v.scalars.all isWord)) := by
  unfold ofValue
  rw [Tallies] at h
  rw [if_neg (not_not.mpr h)]
  cases v.scalars.all isWord with
  | true =>
    refine Eq.trans ?_ (Except.mapM_result Scalar.int Scalar.asInt v.scalars).symm
    cases v.scalars.mapM Scalar.asInt <;> rfl
  | false =>
    refine Eq.trans ?_ (Except.mapM_result Scalar.float Scalar.asFloat v.scalars).symm
    cases v.scalars.mapM Scalar.asFloat <;> rfl

/-- Numbers are packed if there are as many as the extents call for. -/
theorem exists_ofValue_iff {v : Value} :
    (∃ d, ofValue v = .ok d) ↔ v.Tallies ∧ ∀ s ∈ v.scalars, s.IsNumber := by
  constructor
  · rintro ⟨d, hd⟩
    obtain ⟨hcount, -⟩ := of_ofValue hd
    refine ⟨hcount, fun s hs => ?_⟩
    have hpacked := scalars_ofValue hcount
    rw [hd] at hpacked
    obtain ⟨j, hj, rfl⟩ := List.getElem_of_mem hs
    obtain ⟨hj', hs⟩ := Except.getElem_of_mapM hpacked.symm hj
    exact Scalar.isNumber_of_packed hs
  · rintro ⟨hcount, hnumbers⟩
    have hdoubles : ∀ s ∈ v.scalars, ∃ t, s.packed (!v.scalars.all isWord) = .ok t ∧ True := by
      intro s hs
      have hdouble : s.isDouble = true → (!v.scalars.all isWord) = true := by
        intro hdouble
        rw [all_isWord hnumbers, Bool.not_not]
        exact List.any_eq_true.mpr ⟨s, hs, hdouble⟩
      obtain ⟨t, ht⟩ := Scalar.exists_packed (hnumbers s hs) hdouble
      exact ⟨t, ht, trivial⟩
    obtain ⟨ss, hss, -⟩ := Except.exists_mapM hdoubles
    obtain ⟨d, hd, -⟩ := Except.map_eq_ok.mp ((scalars_ofValue hcount).trans hss)
    exact ⟨d, hd⟩

end Dense

namespace Value

theorem Rect.traverse_of_ofValue {v : Value} (h : v.Rect) {d : Dense}
    (hd : Dense.ofValue v = .ok d) :
    v.traverse (fun s => do return .scalar (← s.packed v.hasDouble)) = .ok d.toValue := by
  obtain ⟨hcount, hnumbers⟩ := Dense.exists_ofValue_iff.mp ⟨d, hd⟩
  have hpacked := Dense.scalars_ofValue hcount
  rw [hd, Dense.all_isWord hnumbers, Bool.not_not] at hpacked
  rw [h.traverse_eq_nest hpacked.symm, Dense.toValue, (Dense.of_ofValue hd).2]

/-- If a value is rectangular, or has another number of scalars than the extents along its first
items call for, where both are counted in 64 bits, then it is packed exactly if it is rectangular
and all of its scalars are numbers. Unpacking gives the value back in its nesting, with doubles for
all of its scalars if there is a double among them, and with words for all of them otherwise. -/
theorem packs_rectangular {v : Value} (h : v.Tallies → v.Rect) :
    ((∃ d, Dense.ofValue v = .ok d) ↔ v.Rect ∧ ∀ s ∈ v.scalars, s.IsNumber) ∧
    ∀ d, Dense.ofValue v = .ok d →
      v.traverse (fun s => do return .scalar (← s.packed v.hasDouble)) = .ok d.toValue := by
  refine ⟨Dense.exists_ofValue_iff.trans (and_congr_left fun _ => ⟨h, Rect.tallies⟩),
    fun d hd => ?_⟩
  exact (h (Dense.of_ofValue hd).1).traverse_of_ofValue hd

/-- Truth values beside a number, in two rows. -/
theorem packs_rectangular_rows :
    let v : Value := .array [.array [.scalar (.bool true), .scalar (.int 2)],
      .array [.scalar (.bool false), .scalar (.bool true)]]
    (v.Tallies → v.Rect) ∧
      ∃ d, Dense.ofValue v = .ok d ∧
        v.traverse (fun s => do return .scalar (← s.packed v.hasDouble)) = .ok d.toValue ∧
        v.hasDouble = false := by
  intro v
  have hrow (s t : Scalar) : (Value.array [.scalar s, .scalar t]).Rect :=
    .array (by simp [Rect.scalar]) (by simp [dims])
  have hv : v.Rect := .array (by simp [hrow]) (by simp [dims])
  have hnumbers : ∀ s ∈ v.scalars, s.IsNumber := by simp [v, Scalar.IsNumber]
  obtain ⟨hpacks, hunpacked⟩ := packs_rectangular (v := v) fun _ => hv
  obtain ⟨d, hd⟩ := hpacks.mpr ⟨hv, hnumbers⟩
  exact ⟨fun _ => hv, d, hd, hunpacked d hd, rfl⟩

/-- Three rows with two scalars, with one and with three are packed as three rows with two. -/
theorem packs_rectangular_fails :
    ¬ ∀ v : Value, (∃ d, Dense.ofValue v = .ok d) ↔ v.Rect ∧ ∀ s ∈ v.scalars, s.IsNumber := by
  intro h
  let row (ns : List Int64) : Value := .array (ns.map fun n => .scalar (.int n))
  -- Six scalars are as many as three rows with two call for.
  obtain ⟨hrect, -⟩ := (h (.array [row [1, 2], row [3], row [4, 5, 6]])).mp ⟨_, rfl⟩
  cases hrect with
  | array items even => cases even (row [1, 2]) (by simp) (row [3]) (by simp)

end Value

end Dataflow
