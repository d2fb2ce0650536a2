import Dataflow.Axis.Reduction

/-!
# Operations of a graph

The operations that a node can perform. A kernel computes a value from the values of its operands
and options and does nothing else. A control operation decides itself which operands are evaluated,
and may write a variable.
-/

namespace Dataflow

/-- What an assignment does with the value that the variable has. -/
inductive Update where
  | set
  | add
  | sub
deriving DecidableEq

inductive Filling where
  | zeros
  | ones
deriving DecidableEq

inductive Distribution where
  | uniform
  | normal
deriving DecidableEq

inductive Kernel where
  | binary (op : BinaryOp)
  | unary (op : UnaryOp)
  | reduce (how : Reduction)
  | cast
  | argmax
  | index
  | slice
  | concat
  | transpose
  | eye
  | fill (filling : Filling)
  | fillLike (filling : Filling)
  | shape
  | rank
  | matmul
  | reshape
  | pad
  | select
  | random (distribution : Distribution)
deriving DecidableEq

inductive Control where
  | assign (update : Update)
  | flowGroup
  | identity
  | stopGradient
  | print
  | cond
  | gradients
deriving DecidableEq

inductive Op where
  | kernel (k : Kernel)
  | control (c : Control)
deriving DecidableEq

/-! ## Tags -/

def UnaryOp.tag : UnaryOp → String
  | .negate => "negate"
  | .abs => "abs"
  | .tanh => "tanh"
  | .tan => "tan"
  | .sin => "sin"
  | .cos => "cos"
  | .log => "log"
  | .exp => "exp"
  | .sqrt => "sqrt"
  | .square => "square"
  | .sign => "sign"

def Kernel.tag : Kernel → String
  | .binary op => op.tag
  | .unary op => op.tag
  | .reduce .sum => "reduce_sum"
  | .reduce .mean => "reduce_mean"
  | .reduce .prod => "reduce_prod"
  | .cast => "cast"
  | .argmax => "argmax"
  | .index => "index"
  | .slice => "slice"
  | .concat => "concat"
  | .transpose => "transpose"
  | .eye => "eye"
  | .fill .zeros => "zeros"
  | .fill .ones => "ones"
  | .fillLike .zeros => "zeros_like"
  | .fillLike .ones => "ones_like"
  | .shape => "shape"
  | .rank => "rank"
  | .matmul => "matmul"
  | .reshape => "reshape"
  | .pad => "pad"
  | .select => "where"
  | .random .uniform => "random_uniform"
  | .random .normal => "random_normal"

def Control.tag : Control → String
  | .assign .set => "assign"
  | .assign .add => "assign_add"
  | .assign .sub => "assign_sub"
  | .flowGroup => "flow_group"
  | .identity => "identity"
  | .stopGradient => "stop_gradient"
  | .print => "print"
  | .cond => "cond"
  | .gradients => "gradients"

namespace Op

/-- The name of the operation. -/
def tag : Op → String
  | .kernel k => k.tag
  | .control c => c.tag

/-- The tag in the form of a constructor name. -/
def label (op : Op) : String := Text.camel op.tag

/-- Every operation, in the order in which they are numbered. -/
def all : List Op := [
  .kernel (.binary (.arithmetic .add)), .kernel (.binary (.arithmetic .sub)),
  .kernel (.binary (.arithmetic .mul)), .kernel (.binary (.arithmetic .pow)),
  .kernel (.binary (.arithmetic .div)), .kernel (.binary (.arithmetic .max)),
  .kernel (.unary .negate),
  .kernel (.binary (.comparison .equal)), .kernel (.binary (.comparison .notEqual)),
  .kernel (.binary (.comparison .less)), .kernel (.binary (.comparison .greater)),
  .kernel (.binary (.comparison .lessEqual)), .kernel (.binary (.comparison .greaterEqual)),
  .kernel (.unary .abs), .kernel (.unary .tanh), .kernel (.unary .tan), .kernel (.unary .sin),
  .kernel (.unary .cos), .kernel (.unary .log), .kernel (.unary .exp), .kernel (.unary .sqrt),
  .kernel (.unary .square), .kernel (.unary .sign),
  .kernel .cast, .kernel .argmax, .kernel .index, .kernel .slice, .kernel .concat,
  .kernel (.reduce .sum), .kernel (.reduce .mean), .kernel (.reduce .prod),
  .kernel .transpose, .kernel .eye, .kernel (.fill .zeros), .kernel (.fill .ones),
  .kernel (.fillLike .zeros), .kernel (.fillLike .ones), .kernel .shape, .kernel .rank,
  .kernel .matmul, .kernel .reshape, .kernel .pad, .kernel .select,
  .control .cond, .control (.assign .set), .control (.assign .add), .control (.assign .sub),
  .control .flowGroup, .control .identity, .control .stopGradient, .control .print,
  .kernel (.random .uniform), .kernel (.random .normal), .control .gradients]

/-- The operation with the given tag. -/
def ofTag? (tag : String) : Option Op :=
  all.find? fun op => op.tag == tag

/-! ## Properties -/

/-- The least and the greatest number of operands. The operations on a sequence of nodes have it
among their options and take no operands. -/
def arity : Op → Nat × Nat
  | .kernel (.binary _) | .kernel .index | .kernel .matmul | .kernel .select => (2, 2)
  | .kernel (.unary _) | .kernel .cast | .kernel .transpose | .kernel (.fillLike _)
  | .kernel .shape | .kernel .rank | .kernel .pad => (1, 1)
  | .kernel .argmax | .kernel .slice | .kernel (.reduce _) | .kernel .reshape => (1, 2)
  | .kernel .eye => (0, 2)
  | .kernel (.fill _) => (0, 1)
  | .kernel .concat | .kernel (.random _) => (0, 0)
  | .control .cond | .control (.assign _) => (2, 2)
  | .control .identity | .control .stopGradient | .control .print => (1, 1)
  | .control .gradients => (0, 2)
  | .control .flowGroup => (0, 0)

def binary? : Op → Option BinaryOp
  | .kernel (.binary op) => some op
  | _ => none

def unary? : Op → Option UnaryOp
  | .kernel (.unary op) => some op
  | _ => none

def reduction? : Op → Option Reduction
  | .kernel (.reduce r) => some r
  | _ => none

def isComparison (op : Op) : Bool :=
  op.binary?.any BinaryOp.isComparison

def isControl : Op → Bool
  | .kernel _ => false
  | .control _ => true

end Op

end Dataflow
