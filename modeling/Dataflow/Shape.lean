import Dataflow.Fault

/-!
# Static shapes

What is known of the extents of a node before it is evaluated. An extent may be open, and
broadcasting two shapes resolves an open extent as far as the other shape tells it.
-/

namespace Dataflow

/-- A list of extents, from the outermost axis to the innermost; an open extent is `none`. -/
structure Shape where
  dims : List (Option Nat)
deriving DecidableEq, Inhabited

namespace Shape

/-- The shape without open extents. -/
def known (dims : List Nat) : Shape := ⟨dims.map some⟩

/-- The shape of a scalar. -/
def scalar : Shape := ⟨[]⟩

def rank (s : Shape) : Nat := s.dims.length

/-- The extent of axis `i`, if it is known. -/
def extent? (s : Shape) (i : Nat) : Option Nat := s.dims[i]?.join

/-- The extents, if all are known. -/
def toList? (s : Shape) : Option (List Nat) := s.dims.mapM id

/-- The extents, with zero in the place of an open one. -/
def toListOrZero (s : Shape) : List Nat := s.dims.map (·.getD 0)

def text (s : Shape) : String :=
  bracketed (s.dims.map fun | some d => toString d | none => "?")

/-- The shape with its axes in the opposite order. -/
def reverse (s : Shape) : Shape := ⟨s.dims.reverse⟩

/-! ## Broadcasting -/

/-- The extent of two axes that meet. One meets any extent and leaves it as it is; an open extent
takes over a known one, since the two have to be equal or the open one has to be one. -/
def commonExtent? : Option Nat → Option Nat → Option (Option Nat)
  | some p, some q =>
    if p = q then some (some p)
    else if p = 1 then some (some q)
    else if q = 1 then some (some p)
    else none
  | some p, none => some (if p = 1 then none else some p)
  | none, some q => some (if q = 1 then none else some q)
  | none, none => some none

/-- Broadcasts extents that are listed from the innermost axis on. Where one list ends, its axes
count as one. -/
def broadcastReversed? : List (Option Nat) → List (Option Nat) → Option (List (Option Nat))
  | [], bs => some bs
  | as, [] => some as
  | a :: as, b :: bs => do return (← commonExtent? a b) :: (← broadcastReversed? as bs)

/-- The shape of two broadcast values, aligned at their innermost axes. -/
def broadcast (a b : Shape) : Except Fault Shape :=
  match broadcastReversed? a.dims.reverse b.dims.reverse with
  | some dims => .ok ⟨dims.reverse⟩
  | none => .error (.incompatibleShapes a.toListOrZero b.toListOrZero)

end Shape

end Dataflow
