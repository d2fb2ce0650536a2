import Dataflow.Proofs.Symmetry
import Dataflow.Proofs.Typing

/-!
# Casting as a projection

A cast replaces scalars and nothing else, and what it gives is left alone by the same cast. So a
cast to a narrow type may go through the wide type of the same kind first: words wrap and doubles
are rounded only once.
-/

namespace Dataflow

/-- Where the scalars of a value stand. -/
inductive Nesting where
  | scalar
  | array (items : List Nesting)

namespace Value

mutual

/-- The value without what its scalars are. -/
def nesting : Value → Nesting
  | .scalar _ => .scalar
  | .array items => .array (nestings items)

def nestings : List Value → List Nesting
  | [] => []
  | v :: vs => v.nesting :: nestings vs

end

/-! ## One walk after another -/

section Traverse

variable {f g : Scalar → Except Fault Value}

theorem traverse_eq_ok_congr {v w : Value}
    (h : ∀ s ∈ v.scalars, ∀ w, f s = .ok w ↔ g s = .ok w) :
    v.traverse f = .ok w ↔ v.traverse g = .ok w :=
  (traverse_corresponds v fun s hs => .of_ok_iff (h s hs)).ok_iff w

theorem traverse_array_eq_ok {vs : List Value} {w : Value} :
    (array vs).traverse f = .ok w ↔ ∃ ws, traverseItems f vs = .ok ws ∧ array ws = w := by
  refine Except.bind_eq_ok.trans (exists_congr fun ws => and_congr_right' ?_)
  exact iff_of_eq (Except.ok.injEq _ _)

theorem traverseItems_cons_eq_ok {v : Value} {vs ws : List Value} :
    traverseItems f (v :: vs) = .ok ws ↔
      ∃ w, v.traverse f = .ok w ∧ ∃ rest, traverseItems f vs = .ok rest ∧ w :: rest = ws := by
  refine Except.bind_eq_ok.trans (exists_congr fun w => and_congr_right' ?_)
  refine Except.bind_eq_ok.trans (exists_congr fun rest => and_congr_right' ?_)
  exact iff_of_eq (Except.ok.injEq _ _)

mutual

theorem nesting_traverse (hf : ∀ s w, f s = .ok w → w.nesting = .scalar) :
    (v : Value) → ∀ {w}, v.traverse f = .ok w → w.nesting = v.nesting
  | .scalar s, w, h => hf s w h
  | .array vs, w, h => by
    obtain ⟨ws, hws, rfl⟩ := traverse_array_eq_ok.mp h
    exact congrArg Nesting.array (nestings_traverseItems hf vs hws)

theorem nestings_traverseItems (hf : ∀ s w, f s = .ok w → w.nesting = .scalar) :
    (vs : List Value) → ∀ {ws}, traverseItems f vs = .ok ws → nestings ws = nestings vs
  | [], ws, h => by
    cases h
    rfl
  | v :: vs, ws, h => by
    obtain ⟨w, hw, rest, hrest, rfl⟩ := traverseItems_cons_eq_ok.mp h
    exact congrArg₂ List.cons (nesting_traverse hf v hw) (nestings_traverseItems hf vs hrest)

end

mutual

/-- A walk succeeds if it does at every scalar. -/
theorem exists_traverse_iff : (v : Value) →
    ((∃ w, v.traverse f = .ok w) ↔ ∀ s ∈ v.scalars, ∃ w, f s = .ok w)
  | .scalar s => by rw [scalars_scalar, List.forall_mem_singleton, traverse]
  | .array vs => by
    rw [scalars, ← exists_traverseItems_iff vs]
    constructor
    · rintro ⟨w, hw⟩
      obtain ⟨ws, hws, -⟩ := traverse_array_eq_ok.mp hw
      exact ⟨ws, hws⟩
    · rintro ⟨ws, hws⟩
      exact ⟨array ws, traverse_array_eq_ok.mpr ⟨ws, hws, rfl⟩⟩

theorem exists_traverseItems_iff : (vs : List Value) →
    ((∃ ws, traverseItems f vs = .ok ws) ↔ ∀ s ∈ scalarsOfItems vs, ∃ w, f s = .ok w)
  | [] => iff_of_true ⟨[], rfl⟩ nofun
  | v :: vs => by
    rw [scalarsOfItems, List.forall_mem_append, ← exists_traverse_iff v,
      ← exists_traverseItems_iff vs]
    constructor
    · rintro ⟨ws, hws⟩
      obtain ⟨w, hw, rest, hrest, -⟩ := traverseItems_cons_eq_ok.mp hws
      exact ⟨⟨w, hw⟩, rest, hrest⟩
    · rintro ⟨⟨w, hw⟩, rest, hrest⟩
      exact ⟨w :: rest, traverseItems_cons_eq_ok.mpr ⟨w, hw, rest, hrest, rfl⟩⟩

end

mutual

/-- Two walks succeed together when the walk that does both at every scalar does. They may fail at
another scalar than it, since it does not wait for the first walk to end. -/
theorem traverse_bind_traverse : (v : Value) → ∀ {u},
    (v.traverse f >>= fun w => w.traverse g) = .ok u ↔
      v.traverse (fun s => f s >>= fun w => w.traverse g) = .ok u
  | .scalar s, u => Iff.rfl
  | .array vs, u => by
    rw [traverse_array_eq_ok, Except.bind_eq_ok]
    constructor
    · rintro ⟨w, hw, hu⟩
      obtain ⟨ws, hws, rfl⟩ := traverse_array_eq_ok.mp hw
      obtain ⟨us, hus, rfl⟩ := traverse_array_eq_ok.mp hu
      have hboth := Except.bind_eq_ok.mpr ⟨ws, hws, hus⟩
      exact ⟨us, (traverseItems_bind_traverseItems vs).mp hboth, rfl⟩
    · rintro ⟨us, h, rfl⟩
      obtain ⟨ws, hws, hus⟩ := Except.bind_eq_ok.mp ((traverseItems_bind_traverseItems vs).mpr h)
      exact ⟨.array ws, traverse_array_eq_ok.mpr ⟨ws, hws, rfl⟩,
        traverse_array_eq_ok.mpr ⟨us, hus, rfl⟩⟩

theorem traverseItems_bind_traverseItems : (vs : List Value) → ∀ {us},
    (traverseItems f vs >>= traverseItems g) = .ok us ↔
      traverseItems (fun s => f s >>= fun w => w.traverse g) vs = .ok us
  | [], us => Iff.rfl
  | v :: vs, us => by
    rw [traverseItems_cons_eq_ok, Except.bind_eq_ok]
    constructor
    · rintro ⟨ws, hws, hus⟩
      obtain ⟨w, hw, rest, hrest, rfl⟩ := traverseItems_cons_eq_ok.mp hws
      obtain ⟨u, hu, us', hus', rfl⟩ := traverseItems_cons_eq_ok.mp hus
      exact ⟨u, (traverse_bind_traverse v).mp (Except.bind_eq_ok.mpr ⟨w, hw, hu⟩), us',
        (traverseItems_bind_traverseItems vs).mp (Except.bind_eq_ok.mpr ⟨rest, hrest, hus'⟩), rfl⟩
    · rintro ⟨u, hu, us', hus', rfl⟩
      obtain ⟨w, hw, hwu⟩ := Except.bind_eq_ok.mp ((traverse_bind_traverse v).mpr hu)
      obtain ⟨rest, hrest, hus⟩ :=
        Except.bind_eq_ok.mp ((traverseItems_bind_traverseItems vs).mpr hus')
      exact ⟨w :: rest, traverseItems_cons_eq_ok.mpr ⟨w, hw, rest, hrest, rfl⟩,
        traverseItems_cons_eq_ok.mpr ⟨u, hwu, us', hus, rfl⟩⟩

end

end Traverse

variable {d d₁ d₂ : DType}

/-- A cast puts a scalar in the place of every scalar. -/
theorem nesting_cast {v w : Value} (h : v.cast d = .ok w) : w.nesting = v.nesting := by
  refine nesting_traverse (fun s w hs => ?_) v h
  obtain ⟨t, -, ht⟩ := Except.bind_eq_ok.mp hs
  cases ht
  rfl

theorem cast_scalar_eq_ok {s : Scalar} {w : Value} :
    (scalar s).cast d = .ok w ↔ ∃ t, s.cast d = .ok t ∧ scalar t = w := by
  refine Except.bind_eq_ok.trans (exists_congr fun t => and_congr_right' ?_)
  exact iff_of_eq (Except.ok.injEq _ _)

theorem exists_cast_iff {v : Value} :
    (∃ w, v.cast d = .ok w) ↔ ∀ s ∈ v.scalars, ∃ t, s.cast d = .ok t := by
  refine (exists_traverse_iff v).trans (forall₂_congr fun s _ => ?_)
  change (∃ w, (scalar s).cast d = .ok w) ↔ _
  simp only [cast_scalar_eq_ok]
  rw [exists_comm]
  simp only [exists_and_left, exists_eq', and_true]

theorem cast_bind_cast_scalar_eq_ok {s : Scalar} {w : Value} :
    ((scalar s).cast d₁ >>= Value.cast d₂) = .ok w ↔
      ∃ t, (s.cast d₁ >>= Scalar.cast d₂) = .ok t ∧ scalar t = w := by
  rw [Except.bind_eq_ok]
  constructor
  · rintro ⟨u, hu, hw⟩
    obtain ⟨r, hr, rfl⟩ := cast_scalar_eq_ok.mp hu
    obtain ⟨t, ht, rfl⟩ := cast_scalar_eq_ok.mp hw
    exact ⟨t, Except.bind_eq_ok.mpr ⟨r, hr, ht⟩, rfl⟩
  · rintro ⟨t, ht, rfl⟩
    obtain ⟨r, hr, ht⟩ := Except.bind_eq_ok.mp ht
    exact ⟨scalar r, cast_scalar_eq_ok.mpr ⟨r, hr, rfl⟩, cast_scalar_eq_ok.mpr ⟨t, ht, rfl⟩⟩

/-- Two casts in a row give what one cast gives if they do so on scalars. -/
theorem cast_bind_cast {v w : Value}
    (h : ∀ s ∈ v.scalars, ∀ t, (s.cast d₁ >>= Scalar.cast d₂) = .ok t ↔ s.cast d = .ok t) :
    (v.cast d₁ >>= Value.cast d₂) = .ok w ↔ v.cast d = .ok w := by
  refine (traverse_bind_traverse v).trans (traverse_eq_ok_congr fun s hs w => ?_)
  change ((scalar s).cast d₁ >>= Value.cast d₂) = .ok w ↔ (scalar s).cast d = .ok w
  simp only [cast_bind_cast_scalar_eq_ok, cast_scalar_eq_ok, h s hs]

theorem exists_cast_bind_cast_iff {v : Value} :
    (∃ w, (v.cast d₁ >>= Value.cast d₂) = .ok w) ↔
      ∀ s ∈ v.scalars, ∃ t, (s.cast d₁ >>= Scalar.cast d₂) = .ok t := by
  refine (exists_congr fun w => traverse_bind_traverse v).trans
    ((exists_traverse_iff v).trans (forall₂_congr fun s _ => ?_))
  change (∃ w, ((scalar s).cast d₁ >>= Value.cast d₂) = .ok w) ↔ _
  simp only [cast_bind_cast_scalar_eq_ok]
  rw [exists_comm]
  simp only [exists_and_left, exists_eq', and_true]

end Value

/-! ## Narrowing -/

namespace Scalar

/-- The element type shows only in the faults. -/
theorem castInt_eq_ok (s : Scalar) (d d' : DType) (i : Int64) :
    s.castInt d = .ok i ↔ s.castInt d' = .ok i := by
  cases s with
  | int | bool => rfl
  | float x =>
    simp only [castInt]
    split <;> simp
  | str text =>
    simp only [castInt]
    split <;> simp

theorem cast_int32_bind_int16 (s t : Scalar) :
    (s.cast .int32 >>= Scalar.cast .int16) = .ok t ↔ s.cast .int16 = .ok t := by
  cases hi : s.castInt .int32 with
  | ok i =>
    rw [cast, cast, hi, (castInt_eq_ok s .int32 .int16 i).mp hi]
    -- Cutting a word down to 16 bits does not see what the cut to 32 bits took off.
    change Except.ok (int i.toInt32.toInt64.toInt16.toInt64) = Except.ok t ↔
      Except.ok (int i.toInt16.toInt64) = Except.ok t
    rw [Int32.toInt16_toInt64, Int64.toInt16_toInt32]
  | error e =>
    -- The two types fail together, so there is nothing to compare.
    have hnone (i : Int64) : s.castInt .int16 ≠ .ok i := fun h => by
      cases hi.symm.trans ((castInt_eq_ok s .int16 .int32 i).mp h)
    rw [cast, cast, hi]
    cases h : s.castInt .int16 with
    | ok i => exact absurd h (hnone i)
    | error e' => exact iff_of_false (fun ht => by cases ht) fun ht => by cases ht

theorem cast_float64_bind_float32 (s t : Scalar) :
    (s.cast .float64 >>= Scalar.cast .float32) = .ok t ↔ s.cast .float32 = .ok t := by
  simp only [cast]
  cases s.castFloat <;> rfl

end Scalar

namespace Value

/-- Casting keeps the nesting and gives a value that the same cast leaves alone. A narrow type may
be reached through the wide one of the same kind. -/
theorem casts_project (v : Value) :
    (∀ d w, v.cast d = .ok w → w.nesting = v.nesting ∧ w.cast d = .ok w) ∧
      (∀ w, (v.cast .int32 >>= Value.cast .int16) = .ok w ↔ v.cast .int16 = .ok w) ∧
      ∀ w, (v.cast .float64 >>= Value.cast .float32) = .ok w ↔ v.cast .float32 = .ok w := by
  refine ⟨fun d w h => ⟨nesting_cast h, cast_cast h⟩, fun w => ?_, fun w => ?_⟩
  · exact cast_bind_cast fun s _ => s.cast_int32_bind_int16
  · exact cast_bind_cast fun s _ => s.cast_float64_bind_float32

/-- A ragged value of four kinds of scalars as 16-bit words. -/
theorem casts_project_ragged :
    let v : Value := .array [.array [.scalar (.int 70000), .scalar (.float 2.5)],
      .array [.scalar (.str "12")], .scalar (.bool true)]
    let w : Value := .array [.array [.scalar (.int 4464), .scalar (.int 2)],
      .array [.scalar (.int 12)], .scalar (.int 1)]
    v.cast .int16 = .ok w ∧ w.nesting = v.nesting ∧ w.cast .int16 = .ok w ∧
      (v.cast .int32 >>= Value.cast .int16) = .ok w := by
  intro v w
  have hw : v.cast .int16 = .ok w := rfl
  obtain ⟨hcast, hwrap, -⟩ := casts_project v
  exact ⟨hw, (hcast .int16 w hw).1, (hcast .int16 w hw).2, (hwrap w).mpr hw⟩

end Value

end Dataflow
