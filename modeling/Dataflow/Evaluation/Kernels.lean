import Dataflow.Axis.Argmax
import Dataflow.Evaluation.Event
import Dataflow.Evaluation.Sampling
import Dataflow.Matrix.Product
import Dataflow.Rearrange.Concat
import Dataflow.Rearrange.Pad
import Dataflow.Rearrange.Slice

/-!
# Kernels

Each kernel as a function of its arguments. Apart from the products, which go to a backend, and the
random arrays, which draw from a generator, a kernel depends on nothing else.
-/

namespace Dataflow

/-- What computing a kernel gives: reports, an outcome, and the random numbers that are left. -/
structure Computation (γ : Type) where
  reports : List Report
  outcome : Except Failure Value
  rng : Source γ

namespace Arguments

/-! ## Operators -/

def binary (args : Arguments) : Except Failure Value :=
  match args.op.binary? with
  | none => .error (args.invalid "op" .notBinary)
  | some op => do
    let a ← args.operand 0
    let b ← args.operand 1
    Failure.ofFault (Value.binary op a b)

def unary (args : Arguments) : Except Failure Value :=
  match args.op.unary? with
  | none => .error (args.invalid "op" .notUnary)
  | some op => do Failure.ofFault (Value.unary op (← args.operand 0))

/-! ## Arrays -/

def index (args : Arguments) : Except Failure Value := do
  let i ← args.int "index" (← args.operand 1)
  Failure.ofFault ((← args.operand 0).index i)

/-- Without sizes, a slice reaches to the end of each axis. -/
def slice (args : Arguments) : Except Failure Value := do
  let starts ← args.ints "begin" (← args.operandOr 1 "begin")
  let sizes ←
    match args.value? "size" with
    | some v => args.ints "size" v
    | none => pure (starts.map fun _ => -1)
  Failure.ofFault ((← args.operand 0).slice starts sizes)

def concat (args : Arguments) : Except Failure Value := do
  let values ← args.values "values"
  let axis ← args.int? "axis"
  Failure.ofFault (Value.concat values (axis.getD 0))

/-- Without a number of columns, the matrix is square. -/
def eye (args : Arguments) : Except Failure Value := do
  let rows ← args.count "num_rows" (← args.operandOr 0 "num_rows")
  let cols ←
    match args.operandOr? 1 "num_columns" with
    | some v => args.count "num_columns" v
    | none => pure rows
  return .eye rows cols args.dtype

def fillOf (filling : Filling) (dtype : DType) : Value :=
  match filling with
  | .zeros => .scalar dtype.zero
  | .ones => .scalar dtype.one

def fill (args : Arguments) (filling : Filling) : Except Failure Value := do
  let dims ← args.extents "shape" (← args.operandOr 0 "shape")
  return .filled dims (fillOf filling args.dtype)

def fillLike (args : Arguments) (filling : Filling) : Except Failure Value := do
  let v ← args.operand 0
  return .filled v.dims (fillOf filling (args.dtypeFor v))

def shape (args : Arguments) : Except Failure Value := do
  return .array ((← args.operand 0).dims.map fun d => .scalar (.int (Int64.ofNat d)))

def rank (args : Arguments) : Except Failure Value := do
  return .scalar (.int (Int64.ofNat (← args.operand 0).rank))

def reshape (args : Arguments) : Except Failure Value := do
  let target ← args.ints "shape" (← args.operandOr 1 "shape")
  Failure.ofFault ((← args.operand 0).reshape target)

def paddings (args : Arguments) : Except Failure (List (Nat × Nat)) :=
  match args.value? "paddings" with
  | some (.array pairs) => pairs.mapM fun pair => do
    match ← args.extents "paddings" pair with
    | [before, after] => return (before, after)
    | _ => throw (args.invalid "paddings" .notTwoExtents)
  | _ => .error (args.invalid "paddings" .notPairs)

/-- Without a fill value, a value is padded with zeros of its element type. -/
def pad (args : Arguments) : Except Failure Value := do
  let paddings ← args.paddings
  let v ← args.operand 0
  let fill := (args.value? "constant_values").getD (.scalar (args.dtypeFor v).zero)
  Failure.ofFault (v.pad paddings fill)

def select (args : Arguments) : Except Failure Value := do
  match args.value? "pred" with
  | none => throw (args.invalid "pred" .missing)
  | some pred =>
    let a ← args.operand 0
    let b ← args.operand 1
    Failure.ofFault (Value.select pred a b)

/-! ## Axes -/

/-- The axes that are given by the second operand or by an option, as one number or as a list. -/
def axes (args : Arguments) : Except Failure (Option (List Int)) :=
  match args.operandOr? 1 "axis" with
  | none => .ok none
  | some v => some <$> args.ints "axis" v

def argmax (args : Arguments) : Except Failure Value := do
  let axis ←
    match ← args.axes with
    | none => pure 0
    | some [axis] => pure axis
    | some _ => throw (args.invalid "axis" .severalAxes)
  Failure.ofFault ((← args.operand 0).argmax axis)

/-! ## All kernels -/

/-- A reduction reports each axis that it enters. -/
def reduce (args : Arguments) (how : Reduction) : List Report × Except Failure Value :=
  match args.operand 0, args.axes with
  | .error failure, _ => ([], .error failure)
  | _, .error failure => ([], .error failure)
  | .ok v, .ok axes =>
    let keepDims := args.flag "keepdims" || args.flag "keep_dims"
    let trail := how.reduce (args.dtypeFor v) keepDims axes v
    (trail.entered.map fun axis => .reducing axis how, Failure.ofFault trail.outcome)

/-- A product is reported once its operands have been packed. -/
def matmul (args : Arguments) (backend : Backend) : List Report × Except Failure Value :=
  let packed : Except Failure (Dense × Dense) := do
    let a ← args.operand 0
    let b ← args.operand 1
    Failure.ofFault (a.factors b (args.flag "transpose_a") (args.flag "transpose_b"))
  match packed with
  | .error failure => ([], .error failure)
  | .ok (p, q) =>
    ([.multiplying (.known p.dims) (.known q.dims) backend.name],
      Failure.ofFault (Dense.toValue <$> p.multiply backend q))

/-- Computes the kernel of the arguments. -/
def compute {γ : Type} (args : Arguments) (backend : Backend) (rng : Source γ) :
    Computation γ :=
  let plain (outcome : Except Failure Value) : Computation γ := ⟨[], outcome, rng⟩
  match args.kernel with
  | .binary _ => plain args.binary
  | .unary _ => plain args.unary
  | .cast => plain do Failure.ofFault ((← args.operand 0).cast args.dtype)
  | .argmax => plain args.argmax
  | .index => plain args.index
  | .slice => plain args.slice
  | .concat => plain args.concat
  | .transpose => plain do Failure.ofFault (← args.operand 0).transpose
  | .eye => plain args.eye
  | .fill filling => plain (args.fill filling)
  | .fillLike filling => plain (args.fillLike filling)
  | .shape => plain args.shape
  | .rank => plain args.rank
  | .reshape => plain args.reshape
  | .pad => plain args.pad
  | .select => plain args.select
  | .reduce how =>
    let (reports, outcome) := args.reduce how
    ⟨reports, outcome, rng⟩
  | .matmul =>
    let (reports, outcome) := args.matmul backend
    ⟨reports, outcome, rng⟩
  | .random distribution =>
    let (outcome, generator) := Sampling.sample rng.library args distribution rng.generator
    ⟨[], outcome, { rng with generator }⟩

end Arguments

end Dataflow
