import Dataflow.Graph.Failure
import Dataflow.Value.Views

/-!
# Arguments of kernels

The operands and options of a kernel after every node among them has been evaluated, and the ways in
which kernels read them.
-/

namespace Dataflow

/-- An option without nodes. -/
inductive Resolved where
  | value (v : Value)
  | values (vs : List Value)

structure Arguments where
  kernel : Kernel
  /-- The element type of the node that is evaluated. -/
  dtype : DType
  operands : List Value
  options : List (String × Resolved)

namespace Arguments

/-- The operation that the arguments are for. -/
def op (args : Arguments) : Op := .kernel args.kernel

def invalid (args : Arguments) (key : String) (objection : Objection) : Failure :=
  .invalidOption args.op key objection

/-- The operand at position `i`. -/
def operand (args : Arguments) (i : Nat) : Except Failure Value :=
  match args.operands[i]? with
  | some v => .ok v
  | none => .error (.arity args.op (.atLeast (i + 1)) args.operands.length)

/-- The value of an option. -/
def value? (args : Arguments) (key : String) : Option Value :=
  match args.options.lookup key with
  | some (.value v) => some v
  | _ => none

/-- The operand at position `i` if there is one, else the option. -/
def operandOr? (args : Arguments) (i : Nat) (key : String) : Option Value :=
  (args.operands[i]?).or (args.value? key)

/-- The operand at position `i` or the option; one of them has to be there. -/
def operandOr (args : Arguments) (i : Nat) (key : String) : Except Failure Value :=
  match args.operandOr? i key with
  | some v => .ok v
  | none => .error (args.invalid key .missing)

/-- The values of an option that lists nodes. -/
def values (args : Arguments) (key : String) : Except Failure (List Value) :=
  match args.options.lookup key with
  | some (.values vs) => .ok vs
  | _ => .error (args.invalid key .notNodes)

def flag (args : Arguments) (key : String) : Bool :=
  (args.value? key).any Value.truthy

/-- A reading of the value that was given for an option. -/
def read {α : Type} (args : Arguments) (key : String) : Except Fault α → Except Failure α
  | .ok x => .ok x
  | .error f => .error (args.invalid key (.unreadable f))

def int (args : Arguments) (key : String) (v : Value) : Except Failure Int :=
  args.read key (Int64.toInt <$> v.asInt)

def ints (args : Arguments) (key : String) (v : Value) : Except Failure (List Int) :=
  args.read key (List.map Int64.toInt <$> v.asInts)

def extents (args : Arguments) (key : String) (v : Value) : Except Failure (List Nat) :=
  args.read key v.asExtents

/-- A number of rows or columns. -/
def count (args : Arguments) (key : String) (v : Value) : Except Failure Nat := do
  let n ← args.int key v
  if n < 0 then throw (args.invalid key .negative)
  return n.toNat

/-- The whole number that an option gives, if it is there. -/
def int? (args : Arguments) (key : String) : Except Failure (Option Int) :=
  match args.value? key with
  | some v => some <$> args.int key v
  | none => .ok none

/-- The number that an option gives, or else `default`. -/
def float (args : Arguments) (key : String) (default : Float) : Except Failure Float :=
  match args.value? key with
  | some v => args.read key v.asFloat
  | none => .ok default

/-- The element type of the node, or that of `v` if the node has none. -/
def dtypeFor (args : Arguments) (v : Value) : DType :=
  match args.dtype with
  | .unknown => .ofValue v
  | t => t

end Arguments

end Dataflow
