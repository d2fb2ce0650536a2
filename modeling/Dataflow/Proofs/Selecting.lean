import Dataflow.Evaluation.Kernels
import Dataflow.Proofs.Broadcasting
import Dataflow.Proofs.Casting
import Dataflow.Proofs.Rectangular

/-!
# Selecting

A selection walks through a condition and two values at once, level by level, and repeats none of
them. It succeeds exactly if the three have their scalars in the same places, however ragged these
are, and takes each scalar as it is from the one value or the other. Where the nestings part, the
shapes of what stands there differ, so that the refusal always names two different shapes.
-/

namespace Dataflow

namespace Value

/-! ## Nesting -/

theorem nesting_cons_inj {v w : Value} {vs ws : List Value} :
    (array (v :: vs)).nesting = (array (w :: ws)).nesting ↔
      v.nesting = w.nesting ∧ (array vs).nesting = (array ws).nesting := by
  simp [nesting, nestings]

/-- Values of one nesting have the same shape. -/
theorem dims_eq_of_nesting_eq : {v w : Value} → v.nesting = w.nesting → v.dims = w.dims
  | .scalar _, .scalar _, _ => rfl
  | .scalar _, .array _, h => by cases h
  | .array _, .scalar _, h => by cases h
  | .array [], .array [], _ => rfl
  | .array [], .array (_ :: _), h => by cases h
  | .array (_ :: _), .array [], h => by cases h
  | .array (v :: vs), .array (w :: ws), h => by
    obtain ⟨hfirst, hrest⟩ := nesting_cons_inj.mp h
    have hlength : vs.length = ws.length := by
      rw [length_eq_headD_dims vs, length_eq_headD_dims ws, dims_eq_of_nesting_eq hrest]
    rw [dims_array_cons, dims_array_cons, dims_eq_of_nesting_eq hfirst, hlength]

/-! ## Three values -/

/-- What combining three values by `g` comes to: a value of their common nesting, or a refusal that
names two different shapes. -/
inductive Zipped (g : Scalar → Scalar → Scalar → Scalar) (p x y : Value) :
    Except Fault Value → Prop where
  | ok {w : Value} (left : x.nesting = p.nesting) (right : y.nesting = p.nesting)
    (nesting : w.nesting = p.nesting)
    (items : ∀ i u, w.at? i = some u ↔
      ∃ c s t, p.at? i = some c ∧ x.at? i = some s ∧ y.at? i = some t ∧ g c s t = u) :
    Zipped g p x y (.ok w)
  | parted {expected got : List Nat} (differ : expected ≠ got)
    (unequal : ¬ (x.nesting = p.nesting ∧ y.nesting = p.nesting)) :
    Zipped g p x y (.error (.shapeMismatch expected got))

variable {g : Scalar → Scalar → Scalar → Scalar} {p x y : Value} {ps xs ys : List Value}

/-- Shapes that differ are reported, and only values of another nesting have them. -/
theorem Zipped.of_dims (h : ¬ (x.dims = p.dims ∧ y.dims = p.dims)) :
    Zipped g p x y (.error (zip3.unequalNesting p x y)) := by
  refine .parted ?_ fun hnesting => ?_
  · split
    · next hx => exact hx.symm
    · next hx => exact fun hy => h ⟨not_not.mp hx, hy.symm⟩
  · exact h ⟨dims_eq_of_nesting_eq hnesting.1, dims_eq_of_nesting_eq hnesting.2⟩

theorem Zipped.scalars (c s t : Scalar) :
    Zipped g (.scalar c) (.scalar s) (.scalar t) (.ok (.scalar (g c s t))) := by
  refine .ok rfl rfl rfl fun i u => ?_
  cases i with
  | nil => simp [at?]
  | cons j js => simp [at?]

theorem Zipped.nil : Zipped g (.array []) (.array []) (.array []) (.ok (.array [])) := by
  refine .ok rfl rfl rfl fun i u => ?_
  cases i with
  | nil => simp [at?]
  | cons j js => simp [at?]

/-- The first items are combined before the others. -/
theorem Zipped.cons {first : Except Fault Value} {rest : Except Fault (List Value)}
    (hfirst : Zipped g p x y first)
    (hrest : Zipped g (.array ps) (.array xs) (.array ys) (array <$> rest)) :
    Zipped g (.array (p :: ps)) (.array (x :: xs)) (.array (y :: ys))
      (array <$> do let w ← first; let ws ← rest; return w :: ws) := by
  cases hfirst with
  | parted differ unequal =>
    refine .parted differ fun h => unequal ?_
    exact ⟨(nesting_cons_inj.mp h.1).1, (nesting_cons_inj.mp h.2).1⟩
  | @ok w left right nesting items =>
    cases rest with
    | error e =>
      cases hrest with
      | parted differ unequal =>
        refine .parted differ fun h => unequal ?_
        exact ⟨(nesting_cons_inj.mp h.1).2, (nesting_cons_inj.mp h.2).2⟩
    | ok ws =>
      cases hrest with
      | ok left' right' nesting' items' =>
        refine .ok (nesting_cons_inj.mpr ⟨left, left'⟩) (nesting_cons_inj.mpr ⟨right, right'⟩)
          (nesting_cons_inj.mpr ⟨nesting, nesting'⟩) fun i u => ?_
        -- An index into the array leads into its first item or into the rest.
        rcases i with _ | ⟨_ | j, js⟩
        · simp [at?]
        · exact items js u
        · exact items' (j :: js) u

mutual

theorem zip3_zipped : (p x y : Value) →
    Zipped g p x y (zip3 (fun c s t => .ok (.scalar (g c s t))) p x y)
  | .array ps, .array xs, .array ys => by
    rw [zip3]
    split
    · next h => exact zip3Items_zipped ps xs ys h.1 h.2
    · next h =>
      refine .of_dims fun hdims => h ?_
      simp only [length_eq_headD_dims, hdims, and_self]
  | .scalar c, .scalar s, .scalar t => .scalars c s t
  | .scalar _, .array xs, _ => .of_dims fun h => dims_array_ne_nil xs h.1
  | .scalar _, .scalar _, .array ys => .of_dims fun h => dims_array_ne_nil ys h.2
  | .array ps, .scalar _, _ => .of_dims fun h => dims_array_ne_nil ps h.1.symm
  | .array ps, .array _, .scalar _ => .of_dims fun h => dims_array_ne_nil ps h.2.symm

theorem zip3Items_zipped : (ps xs ys : List Value) → ps.length = xs.length →
    ps.length = ys.length → Zipped g (.array ps) (.array xs) (.array ys)
      (array <$> zip3Items (fun c s t => .ok (.scalar (g c s t))) ps xs ys)
  | [], [], [], _, _ => .nil
  | p :: ps, x :: xs, y :: ys, hx, hy =>
    .cons (zip3_zipped p x y)
      (zip3Items_zipped ps xs ys (Nat.succ.inj hx) (Nat.succ.inj hy))

end

/-- A selection takes each scalar from the one value or the other. -/
theorem select_zipped (p x y : Value) :
    Zipped (fun c s t => if c.truthy then s else t) p x y (select p x y) :=
  zip3_zipped p x y

end Value

/-! ## The kernel -/

namespace Arguments

open Value

variable {args : Arguments} {p a b : Value}

theorem compute_select {γ : Type} (backend : Backend) (rng : Source γ)
    (hkernel : args.kernel = .select) (hpred : args.value? "pred" = some p)
    (ha : args.operands[0]? = some a) (hb : args.operands[1]? = some b) :
    (args.compute backend rng).outcome = Failure.ofFault (Value.select p a b) := by
  rw [compute, hkernel]
  simp only [Arguments.select, hpred, operand, ha, hb]
  rfl

/-- The kernel selects among scalars in the same places and broadcasts nothing: it succeeds if and
only if the condition and both operands have one nesting. The result has that nesting too, and each
of its scalars is the one of the first operand where the condition is true, and the one of the
second operand elsewhere. Other arguments are refused for their shapes. -/
theorem selects_in_place {γ : Type} (backend : Backend) (rng : Source γ)
    (hkernel : args.kernel = .select) (hpred : args.value? "pred" = some p)
    (ha : args.operands[0]? = some a) (hb : args.operands[1]? = some b) :
    ((∃ w, (args.compute backend rng).outcome = .ok w) ↔
      a.nesting = p.nesting ∧ b.nesting = p.nesting) ∧
    (∀ w, (args.compute backend rng).outcome = .ok w → w.nesting = p.nesting ∧
      ∀ i u, w.at? i = some u ↔ ∃ c s t, p.at? i = some c ∧ a.at? i = some s ∧
        b.at? i = some t ∧ (if c.truthy then s else t) = u) ∧
    (¬ (a.nesting = p.nesting ∧ b.nesting = p.nesting) → ∃ expected got, expected ≠ got ∧
      (args.compute backend rng).outcome = .error (.fault (.shapeMismatch expected got))) := by
  rw [compute_select backend rng hkernel hpred ha hb]
  generalize hselect : Value.select p a b = outcome
  have hzipped := hselect ▸ select_zipped p a b
  cases hzipped with
  | @ok w left right nesting items =>
    refine ⟨iff_of_true ⟨w, rfl⟩ ⟨left, right⟩, fun w' hw' => ?_, fun h => absurd ⟨left, right⟩ h⟩
    cases hw'
    exact ⟨nesting, items⟩
  | parted differ unequal =>
    refine ⟨iff_of_false ?_ unequal, ?_, fun _ => ⟨_, _, differ, rfl⟩⟩
    · rintro ⟨w, hw⟩
      cases hw
    · intro w hw
      cases hw

/-- A ragged selection of scalars of four kinds, and one of whose operands is a scalar, which would
be repeated if anything was. -/
theorem selects_in_place_ragged :
    let p : Value := .array [.array [.scalar (.bool true), .scalar (.int 0)], .scalar (.str "")]
    let a : Value := .array [.array [.scalar (.int 1), .scalar (.int 2)], .scalar (.str "a")]
    let b : Value :=
      .array [.array [.scalar (.float 0.5), .scalar (.bool false)], .scalar (.float 2.5)]
    let w : Value := .array [.array [.scalar (.int 1), .scalar (.bool false)], .scalar (.float 2.5)]
    let args : Arguments := ⟨.select, .unknown, [a, b], [("pred", .value p)]⟩
    let repeated : Arguments := { args with operands := [a, .scalar (.int 0)] }
    args.kernel = .select ∧ args.value? "pred" = some p ∧ args.operands[0]? = some a ∧
      args.operands[1]? = some b ∧ (args.compute .cpu .dry).outcome = .ok w ∧
      w.nesting = p.nesting ∧ (∃ expected got, expected ≠ got ∧
        (repeated.compute .cpu .dry).outcome =
          .error (.fault (.shapeMismatch expected got))) := by
  intro p a b w args repeated
  have hw : (args.compute .cpu .dry).outcome = .ok w := rfl
  have hkernel : args.kernel = .select ∧ repeated.kernel = .select := ⟨rfl, rfl⟩
  obtain ⟨-, hresult, -⟩ := selects_in_place .cpu .dry hkernel.1 rfl rfl rfl
  obtain ⟨-, -, hrefused⟩ := selects_in_place .cpu .dry hkernel.2 rfl rfl rfl
  exact ⟨rfl, rfl, rfl, rfl, hw, (hresult w hw).1, hrefused fun h => nomatch h.2⟩

end Arguments

end Dataflow
