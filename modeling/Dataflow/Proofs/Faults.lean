import Dataflow.Axis.Argmax
import Dataflow.Cast
import Dataflow.Matrix.Product
import Dataflow.Proofs.Outcome
import Dataflow.Rearrange.Concat
import Dataflow.Rearrange.Pad
import Dataflow.Rearrange.Slice

/-!
# Faults that do not arise

An operator is only applied as what it is, so that no operation on values ever comes to an
arithmetic operator where one is compared, or to a comparison where one is computed.
-/

namespace Dataflow

open Except

/-- Whether the fault says that an operator of the wrong kind was applied. -/
def Fault.isMisuse : Fault → Bool
  | .notArithmetic _ | .notComparison _ => true
  | _ => false

/-- The computation never comes to an operator of the wrong kind. -/
abbrev Proper {α : Type} (x : Except Fault α) : Prop := FailsWith (·.isMisuse = false) x

/-! ## Scalars -/

theorem Number.ofValue_proper (v : Value) : Proper (Number.ofValue v) := by
  unfold ofValue
  split <;> first | exact .ok _ | exact .fail rfl

theorem Word.floorDiv_proper (a b : Int64) : Proper (floorDiv a b) := by
  exact .ite (.fail rfl) (.ite (.ok _) (.ok _))

namespace Arithmetic

theorem onWords?_proper (op : Arithmetic) (a b : Int64) : Proper (op.onWords? a b) := by
  cases op with
  | div => exact (Word.floorDiv_proper a b).bind fun _ => .ok _
  | _ => exact .ok _

theorem onNumbers_proper (op : Arithmetic) (a b : Number) : Proper (op.onNumbers a b) := by
  unfold onNumbers
  split
  · refine (op.onWords?_proper _ _).bind fun r => ?_
    split <;> exact .ok _
  · exact .ok _

theorem apply_proper (op : Arithmetic) (a b : Value) : Proper (op.apply a b) := by
  unfold apply
  split
  · exact .ok _
  · exact (Number.ofValue_proper a).bind fun x => (Number.ofValue_proper b).bind fun y =>
      (onNumbers_proper _ x y).bind fun _ => .ok _

end Arithmetic

namespace Comparison

theorem onMixed_proper (op : Comparison) (a b : Value) : Proper (op.onMixed a b) := by
  unfold onMixed
  split <;> first | exact .ok _ | exact .fail rfl

theorem apply_proper (op : Comparison) (a b : Value) : Proper (op.apply a b) := by
  unfold apply
  split
  · exact .ok _
  · exact op.onMixed_proper _ _
  · exact op.onMixed_proper _ _
  · exact (Number.ofValue_proper a).bind fun _ => (Number.ofValue_proper b).bind fun _ => .ok _

end Comparison

/-- Every operator is taken for what it is. -/
theorem BinaryOp.apply_proper (op : BinaryOp) (a b : Value) : Proper (op.apply a b) := by
  cases op with
  | arithmetic op => exact op.apply_proper a b
  | comparison op => exact (op.apply_proper a b).bind fun _ => .ok _

theorem UnaryOp.apply_proper (op : UnaryOp) (a : Value) : Proper (op.apply a) :=
  (Number.ofValue_proper a).bind fun _ => .ok _

namespace Scalar

theorem asFloat_proper (s : Scalar) : Proper s.asFloat := by
  cases s <;> first | exact .ok _ | exact .fail rfl

theorem asInt_proper (s : Scalar) : Proper s.asInt := by
  unfold asInt
  split
  · exact .ok _
  · exact .ite (.ok _) (.fail rfl)
  · exact .ok _
  · exact .fail rfl

theorem castFloat_proper (s : Scalar) : Proper s.castFloat := by
  unfold castFloat
  split
  · split
    · exact .ok _
    · exact .fail rfl
  · exact asFloat_proper _

theorem castInt_proper (dtype : DType) (s : Scalar) : Proper (s.castInt dtype) := by
  unfold castInt
  split
  · exact .ok _
  · exact .ite (.ok _) (.fail rfl)
  · exact .ok _
  · dsimp only
    split <;> first | exact .ok _ | exact .fail rfl

theorem castBool_proper (s : Scalar) : Proper s.castBool := by
  unfold castBool
  split
  · split <;> first | exact .ok _ | exact .fail rfl
  · exact .ok _

theorem cast_proper (dtype : DType) (s : Scalar) : Proper (s.cast dtype) := by
  cases dtype with
  | float32 | float64 => exact s.castFloat_proper.bind fun _ => .ok _
  | int32 | int16 => exact (s.castInt_proper _).bind fun _ => .ok _
  | boolean => exact s.castBool_proper.bind fun _ => .ok _
  | string | unknown => exact .ok _

end Scalar

namespace Value

/-! ## Elementwise -/

mutual

theorem traverse_proper {f : Scalar → Except Fault Value} (hf : ∀ s, Proper (f s)) :
    (v : Value) → Proper (v.traverse f)
  | .scalar s => hf s
  | .array items => (traverseItems_proper hf items).bind fun _ => .ok _

theorem traverseItems_proper {f : Scalar → Except Fault Value} (hf : ∀ s, Proper (f s)) :
    (vs : List Value) → Proper (traverseItems f vs)
  | [] => .ok []
  | v :: vs => (traverse_proper hf v).bind fun _ => (traverseItems_proper hf vs).bind fun _ => .ok _

end

theorem broadcast_proper {f : Scalar → Scalar → Except Fault Value} (hf : ∀ s t, Proper (f s t))
    (a b : Value) : Proper (broadcast f a b) := by
  fun_induction broadcast f a b with
  | case1 s t => exact hf s t
  | case2 xs t => exact traverse_proper (fun s => hf s t) _
  | case3 s ys => exact traverse_proper (fun t => hf s t) _
  | case4 _ _ _ ih => exact ih
  | case5 _ _ _ _ ih => exact ih
  | case6 => exact .fail rfl
  | case7 xs ys _ _ n _ ih =>
    exact (FailsWith.mapM fun p _ => ih p.1.1 p.1.2 p.2).bind fun _ => .ok _

mutual

theorem zip3_proper {f : Scalar → Scalar → Scalar → Except Fault Value}
    (hf : ∀ s t u, Proper (f s t u)) : (p x y : Value) → Proper (zip3 f p x y)
  | .array ps, .array xs, .array ys => by
    unfold zip3
    exact .ite ((zip3Items_proper hf ps xs ys).bind fun _ => .ok _) (.fail rfl)
  | .scalar p, .scalar x, .scalar y => hf p x y
  | .scalar _, .array _, _ | .scalar _, .scalar _, .array _ => .fail rfl
  | .array _, .scalar _, _ | .array _, .array _, .scalar _ => .fail rfl

theorem zip3Items_proper {f : Scalar → Scalar → Scalar → Except Fault Value}
    (hf : ∀ s t u, Proper (f s t u)) : (ps xs ys : List Value) → Proper (zip3Items f ps xs ys)
  | p :: ps, x :: xs, y :: ys =>
    (zip3_proper hf p x y).bind fun _ => (zip3Items_proper hf ps xs ys).bind fun _ => .ok _
  | [], _, _ | _ :: _, [], _ | _ :: _, _ :: _, [] => .ok []

end

theorem binary_proper (op : BinaryOp) (a b : Value) : Proper (binary op a b) :=
  broadcast_proper (fun s t => (op.apply_proper s t).bind fun _ => .ok _) a b

theorem unary_proper (op : UnaryOp) (a : Value) : Proper (unary op a) :=
  traverse_proper (fun s => (op.apply_proper s).bind fun _ => .ok _) a

theorem select_proper (p x y : Value) : Proper (select p x y) :=
  zip3_proper (fun _ _ _ => .ok _) p x y

theorem cast_proper (dtype : DType) (v : Value) : Proper (v.cast dtype) :=
  traverse_proper (fun s => (s.cast_proper dtype).bind fun _ => .ok _) v

/-! ## Views -/

theorem asFloat_proper : (v : Value) → Proper v.asFloat
  | .scalar s => s.asFloat_proper
  | .array _ => .fail rfl

/-! ## Rearranging -/

theorem itemsOfEach_proper (axis : Nat) (values : List Value) :
    Proper (itemsOfEach axis values) := by
  refine .mapM fun v _ => ?_
  cases v with
  | scalar => exact .fail rfl
  | array => exact .ok _

theorem concatAt_proper (axis : Nat) (values : List Value) : Proper (concatAt axis values) := by
  induction axis generalizing values with
  | zero => exact (itemsOfEach_proper 0 values).bind fun _ => .ok _
  | succ axis ih =>
    unfold concatAt
    refine (itemsOfEach_proper _ values).bind fun arrays => ?_
    have hjoin : ∀ n, Proper (do
        let items ← (List.range n).mapM fun i =>
          concatAt axis (arrays.filterMap fun items => items[i]?)
        return Value.array items) :=
      fun _ => (FailsWith.mapM fun _ _ => ih _).bind fun _ => .ok _
    dsimp only
    split
    · exact .abort rfl
    · exact hjoin _

theorem concat_proper (values : List Value) (axis : Int) : Proper (concat values axis) := by
  unfold concat
  split
  · exact .ok _
  · exact .ite (.fail rfl) (concatAt_proper ..)

theorem transpose_proper (v : Value) : Proper v.transpose := by
  unfold transpose
  split
  · exact .ok _
  · exact .ok _
  · dsimp only
    split
    · exact .fail rfl
    · exact .ok _
  · exact .fail rfl

theorem pad_proper (v : Value) (paddings : List (Nat × Nat)) (fill : Value) :
    Proper (v.pad paddings fill) :=
  .ite (.fail rfl) (.ok _)

theorem Target.read_proper (target : List Int) (seen : Target) : Proper (seen.read target) := by
  induction target generalizing seen with
  | nil => exact .ok _
  | cons d ds ih =>
    unfold read
    exact .ite (.ite (.fail rfl) (ih _)) (.ite (.fail rfl) (ih _))

theorem reshape_proper (v : Value) (target : List Int) : Proper (v.reshape target) := by
  refine (Target.read_proper target _).bind fun t => ?_
  split
  · exact .ok _
  · exact .fail rfl

theorem stop_proper (length start : Nat) (size : Int) : Proper (stop length start size) :=
  .ite (.ok _) (.ite (.fail rfl) (.ite (.fail rfl) (.ok _)))

theorem sliceAt_proper (box : List (Int × Int)) (v : Value) : Proper (sliceAt box v) := by
  induction box generalizing v with
  | nil => exact .ok _
  | cons first box ih =>
    obtain ⟨start, size⟩ := first
    have hcut : Proper (do
        let stop ← stop (v.items?.getD []).length start.toNat size
        return Value.array
          (← (((v.items?.getD []).take stop).drop start.toNat).mapM (sliceAt box))) :=
      (stop_proper ..).bind fun _ => (FailsWith.mapM fun _ _ => ih _).bind fun _ => .ok _
    exact .ite (.abort rfl) hcut

theorem slice_proper (v : Value) (starts sizes : List Int) : Proper (v.slice starts sizes) :=
  .ite (.fail rfl) (.ite (.fail rfl) (sliceAt_proper ..))

theorem index_proper (v : Value) (i : Int) : Proper (v.index i) := by
  unfold index
  split
  · exact .fail rfl
  · refine .ite (.fail rfl) ?_
    split
    · exact .ok _
    · exact .fail rfl

/-! ## Maxima -/

theorem argmaxFrom_proper (position : Nat) (best : Float) (next : Nat) (vs : List Value) :
    Proper (argmaxFrom position best next vs) := by
  induction vs generalizing position best next with
  | nil => exact .ok _
  | cons v vs ih =>
    exact v.asFloat_proper.bind fun _ => .ite (ih ..) (ih ..)

theorem column_proper (dims : List Nat) (j : Nat) (v : Value) : Proper (column dims j v) := by
  unfold column
  split
  · exact .ok _
  · exact .fail rfl

mutual

theorem argmaxAcross_proper (rest : List Value) : (first : Value) → Proper (argmaxAcross rest first)
  | .scalar s => s.asFloat_proper.bind fun _ => (argmaxFrom_proper ..).bind fun _ => .ok _
  | .array items => (argmaxColumns_proper rest _ 0 items).bind fun _ => .ok _

theorem argmaxColumns_proper (rest : List Value) (dims : List Nat) (j : Nat) :
    (items : List Value) → Proper (argmaxColumns rest dims j items)
  | [] => .ok []
  | item :: items =>
    (FailsWith.mapM fun _ _ => column_proper ..).bind fun others =>
      (argmaxAcross_proper others item).bind fun _ =>
        (argmaxColumns_proper rest dims (j + 1) items).bind fun _ => .ok _

end

theorem argmaxAt_proper (axis : Nat) (v : Value) : Proper (argmaxAt axis v) := by
  induction axis generalizing v with
  | zero =>
    cases v with
    | scalar => exact .fail rfl
    | array items =>
      cases items with
      | nil => exact .fail rfl
      | cons first rest => exact argmaxAcross_proper rest first
  | succ axis ih =>
    cases v with
    | scalar => exact .fail rfl
    | array items =>
      rw [argmaxAt]
      exact (FailsWith.mapM fun _ _ => ih _).bind fun _ => .ok _

theorem argmax_proper (v : Value) (axis : Int) : Proper (v.argmax axis) :=
  .ite (.fail rfl) (argmaxAt_proper ..)

end Value

/-! ## Reductions -/

namespace Reduction

theorem divide_proper (n : Nat) (s : Scalar) : Proper (divide n s) := by
  unfold divide
  split
  · exact .ok _
  · exact (Scalar.asInt_proper _).bind fun _ => .ok _

theorem fold_proper (r : Reduction) (dtype : DType) (items : List Value) :
    Proper (r.fold dtype items) := by
  cases items with
  | nil => exact .ok _
  | cons first rest =>
    refine (FailsWith.foldlM (Value.binary_proper r.operator) rest first).bind fun total => ?_
    exact .ite (Value.traverse_proper (fun s => (divide_proper _ s).bind fun _ => .ok _) total)
      (.ok _)

theorem alongAxis_proper (r : Reduction) (dtype : DType) (keepDims : Bool) (axis : Nat)
    (v : Value) : Proper (r.alongAxis dtype keepDims axis v) := by
  induction axis generalizing v with
  | zero =>
    cases v with
    | scalar => exact .fail rfl
    | array items => exact (r.fold_proper dtype items).bind fun _ => .ok _
  | succ axis ih =>
    cases v with
    | scalar => exact .fail rfl
    | array items =>
      unfold alongAxis
      exact (FailsWith.mapM fun _ _ => ih _).bind fun _ => .ok _

theorem alongAxes_proper (r : Reduction) (dtype : DType) (keepDims : Bool) (axes : List Nat)
    (v : Value) : Proper (r.alongAxes dtype keepDims axes v).outcome := by
  induction axes generalizing v with
  | nil => exact .ok _
  | cons axis axes ih =>
    unfold alongAxes
    split
    · rename_i heq
      exact .fail ((r.alongAxis_proper dtype keepDims axis v).error _ heq)
    · exact ih _

theorem order_proper (v : Value) (axes : List Int) : Proper (order v axes) := by
  refine (FailsWith.mapM fun axis _ => ?_).bind fun _ => .ok _
  exact .ite (.fail rfl) (.ite (.fail rfl) (.ok _))

theorem reduce_proper (r : Reduction) (dtype : DType) (keepDims : Bool) (axes : Option (List Int))
    (v : Value) : Proper (r.reduce dtype keepDims axes v).outcome := by
  unfold reduce
  split
  · split
    · exact .ok _
    · exact (r.fold_proper dtype _).bind fun _ => .ok _
  · split
    · rename_i heq
      exact .fail ((order_proper v _).error _ heq)
    · split
      · exact .ok _
      · exact r.alongAxes_proper ..

end Reduction

/-! ## Products -/

theorem Dense.ofValue_proper (v : Value) : Proper (Dense.ofValue v) := by
  have hpack : Proper (if v.scalars.all Dense.isWord then do
      return ⟨v.dims, .words (← v.scalars.mapM Scalar.asInt)⟩
    else do
      return (⟨v.dims, .doubles (← v.scalars.mapM Scalar.asFloat)⟩ : Dense)) :=
    .ite ((FailsWith.mapM fun s _ => s.asInt_proper).bind fun _ => .ok _)
      ((FailsWith.mapM fun s _ => s.asFloat_proper).bind fun _ => .ok _)
  exact .ite (.abort rfl) hpack

theorem Value.factors_proper (a b : Value) (transposeA transposeB : Bool) :
    Proper (a.factors b transposeA transposeB) := by
  have hpacked : ∀ a b, Proper (do return (← Dense.ofValue a, ← Dense.ofValue b)) := fun a b =>
    (Dense.ofValue_proper a).bind fun _ => (Dense.ofValue_proper b).bind fun _ => .ok _
  refine .ite (a.transpose_proper.bind fun _ => ?_) ?_
  all_goals
    refine .ite (b.transpose_proper.bind fun _ => ?_) ?_
    all_goals exact hpacked _ _

/-- A backend applies no operators of the program. -/
structure Backend.Proper (backend : Backend) : Prop where
  doubles : ∀ a b m k n, Dataflow.Proper (backend.doubles a b m k n)
  words : ∀ a b m k n, Dataflow.Proper (backend.words a b m k n)

theorem Backend.cpu_proper : Backend.cpu.Proper := by
  have hlength : ∀ {α : Type} (operand : String) (entries : List α) (rows cols : Nat),
      Dataflow.Proper (Backend.cpu.checkLength operand entries rows cols) := by
    intro α operand entries rows cols
    unfold Backend.cpu.checkLength
    split
    · exact .ok _
    · exact .fail rfl
  exact ⟨fun _ _ _ _ _ => (hlength ..).bind fun _ => (hlength ..).bind fun _ => .ok _,
    fun _ _ _ _ _ => (hlength ..).bind fun _ => (hlength ..).bind fun _ => .ok _⟩

theorem Dense.multiply_proper {backend : Backend} (h : backend.Proper) (a b : Dense) :
    Proper (a.multiply backend b) := by
  unfold multiply
  split
  · refine .ite (.abort rfl) ?_
    split
    · exact (h.words ..).bind fun _ => .ok _
    · exact (h.doubles ..).bind fun _ => .ok _
  · exact .fail rfl
  · exact .fail rfl

end Dataflow
