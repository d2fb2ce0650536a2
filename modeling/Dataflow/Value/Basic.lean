/-!
# Values

A value is a scalar or a list of values, nested to any depth. Nothing forces the items of an
array to have equal extents: the accessors that need a shape follow the first item of each level,
and the operations that need a rectangular value say what they do with a ragged one.
-/

namespace Dataflow

/-- An element of a tensor. Integers are 64-bit words, so integer arithmetic wraps. -/
inductive Scalar where
  | bool (b : Bool)
  | int (i : Int64)
  | float (x : Float)
  | str (s : String)
deriving Inhabited

/-- A scalar, or an array of values. -/
inductive Value where
  | scalar (s : Scalar)
  | array (items : List Value)
deriving Inhabited

instance : Coe Scalar Value := ⟨.scalar⟩

/-! ## Scalars -/

namespace Scalar

/-- Scalars of different kinds differ; floats compare as numbers, so a NaN differs from itself and
the two zeros are equal. -/
protected def beq : Scalar → Scalar → Bool
  | .bool a, .bool b => a == b
  | .int a, .int b => a == b
  | .float a, .float b => a == b
  | .str a, .str b => a == b
  | _, _ => false

instance : BEq Scalar := ⟨Scalar.beq⟩

/-- A number is true unless it is zero or NaN, a string unless it is empty. -/
def truthy : Scalar → Bool
  | .bool b => b
  | .int i => i != 0
  | .float x => x != 0.0 && !x.isNaN
  | .str s => s != ""

/-- The name of the scalar's kind. -/
def kindName : Scalar → String
  | .bool _ => "bool"
  | .int _ => "int"
  | .float _ => "float"
  | .str _ => "string"

end Scalar

namespace Value

/-! ## Equality -/

mutual

/-- Values are equal when their nesting is and their scalars are, position by position. -/
protected def beq : Value → Value → Bool
  | .scalar a, .scalar b => a == b
  | .array xs, .array ys => beqItems xs ys
  | _, _ => false

def beqItems : List Value → List Value → Bool
  | [], [] => true
  | x :: xs, y :: ys => x.beq y && beqItems xs ys
  | _, _ => false

end

instance : BEq Value := ⟨Value.beq⟩

/-! ## Shape -/

/-- The number of axes along the first items: 0 for a scalar, 1 for an empty array. -/
def rank : Value → Nat
  | .scalar _ => 0
  | .array [] => 1
  | .array (v :: _) => v.rank + 1

/-- The extents along the first items. An empty array ends the walk, since it has no first item. -/
def dims : Value → List Nat
  | .scalar _ => []
  | .array [] => [0]
  | .array (v :: vs) => (vs.length + 1) :: v.dims

@[simp] theorem dims_array_nil : (Value.array []).dims = [0] := rfl

@[simp] theorem dims_array_cons (v : Value) (vs : List Value) :
    (Value.array (v :: vs)).dims = (vs.length + 1) :: v.dims := rfl

theorem length_dims : (v : Value) → v.dims.length = v.rank
  | .scalar _ => rfl
  | .array [] => rfl
  | .array (v :: _) => by simp [dims, rank, length_dims v]

/-- The items of an array. -/
def items? : Value → Option (List Value)
  | .scalar _ => none
  | .array items => some items

def isArray : Value → Bool
  | .scalar _ => false
  | .array _ => true

def isScalar : Value → Bool
  | .scalar _ => true
  | .array _ => false

/-- The extent of the outermost axis; a scalar counts as one item. -/
def length : Value → Nat
  | .scalar _ => 1
  | .array items => items.length

def isEmpty : Value → Bool
  | .scalar _ => false
  | .array items => items.isEmpty

/-! ## Scalars of a value -/

mutual

/-- All scalars in row-major order. -/
def scalars : Value → List Scalar
  | .scalar s => [s]
  | .array items => scalarsOfItems items

def scalarsOfItems : List Value → List Scalar
  | [] => []
  | v :: vs => v.scalars ++ scalarsOfItems vs

end

theorem scalarsOfItems_eq (vs : List Value) : scalarsOfItems vs = vs.flatMap scalars := by
  induction vs with
  | nil => rfl
  | cons v vs ih => simp [scalarsOfItems, ih]

@[simp] theorem scalars_scalar (s : Scalar) : (Value.scalar s).scalars = [s] := rfl

@[simp] theorem scalars_array (vs : List Value) :
    (Value.array vs).scalars = vs.flatMap scalars := scalarsOfItems_eq vs

/-- A scalar counts as its own truth value, an array is true when it has items. -/
def truthy : Value → Bool
  | .scalar s => s.truthy
  | .array items => !items.isEmpty

/-- Whether every scalar inside is true; an empty array is. -/
def allTruthy (v : Value) : Bool :=
  v.scalars.all Scalar.truthy

/-- The nested array of the given extents that holds copies of `fill`. -/
def filled : List Nat → Value → Value
  | [], fill => fill
  | n :: ns, fill => .array (List.replicate n (filled ns fill))

section Traverse

variable {m : Type → Type} [Monad m]

mutual

/-- Puts `f s` in the place of every scalar `s`, in row-major order, and keeps the nesting. -/
def traverse (f : Scalar → m Value) : Value → m Value
  | .scalar s => f s
  | .array items => do return .array (← traverseItems f items)

def traverseItems (f : Scalar → m Value) : List Value → m (List Value)
  | [] => pure []
  | v :: vs => do
    let w ← v.traverse f
    let ws ← traverseItems f vs
    return w :: ws

end

end Traverse

end Value

end Dataflow
