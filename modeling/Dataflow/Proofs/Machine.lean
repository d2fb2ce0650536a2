import Dataflow.Proofs.Outcome
import Dataflow.Proofs.Sizes
import Dataflow.Proofs.Views

/-!
# Machine integers

Positions and extents are counted in integers of 64 bits, signed ones where they come from a value.
A step is checked here where it is made: its exact result has to be one of the integers of its type,
and an item has to be there when it is taken. A computation that passes all checks reports what the
same computation on unbounded numbers gives.
-/

/-- A step that succeeds hands its result on. -/
theorem Except.bind_of_eq_ok {ε α β : Type} {x : Except ε α} {a : α} {f : α → Except ε β}
    (h : x = .ok a) : (x >>= f) = f a := by
  subst h
  rfl

theorem Except.error_bind {ε α β : Type} {e : ε} {f : α → Except ε β} :
    ((.error e : Except ε α) >>= f) = .error e := rfl

theorem Except.ok_bind {ε α β : Type} {a : α} {f : α → Except ε β} :
    ((.ok a : Except ε α) >>= f) = f a := rfl

namespace Dataflow

open Except

/-- Why a computation on machine integers ends without a result. -/
inductive Halt where
  /-- The exact result of a step is not in the range of its type. -/
  | overflow
  /-- An item was taken that is not there. -/
  | outOfBounds
  /-- The computation itself reports a fault. -/
  | fault (f : Fault)

/-- A computation whose steps are checked. -/
abbrev Checked (α : Type) := Except Halt α

namespace Checked

variable {α β : Type}

/-- A number as a signed integer. -/
def word (n : Int) : Checked Int :=
  if Word.Fits n then .ok n else .error .overflow

/-- A number as an unsigned integer. -/
def size (n : Int) : Checked Nat :=
  if 0 ≤ n ∧ n < UInt64.size then .ok n.toNat else .error .overflow

/-- The item at position `i`. -/
def item (xs : List α) (i : Nat) : Checked α :=
  match xs[i]? with
  | some x => .ok x
  | none => .error .outOfBounds

/-- The items from position `first` up to position `last`. -/
def part (xs : List α) (first last : Nat) : Checked (List α) :=
  if first ≤ last ∧ last ≤ xs.length then .ok ((xs.take last).drop first)
  else .error .outOfBounds

/-- The result of a computation without steps that have to be checked. -/
def report : Except Fault α → Checked α
  | .ok a => .ok a
  | .error f => .error (.fault f)

/-! ## Steps that pass -/

theorem word_eq {n : Int} (h : Word.Fits n) : word n = .ok n := if_pos h

theorem word_natCast {n : Nat} (h : n < 0x8000000000000000) : word n = .ok (n : Int) :=
  word_eq ⟨by omega, by omega⟩

theorem word_pred {n : Nat} (hpos : 0 < n) (h : n < 0x8000000000000000) :
    word (n - 1) = .ok ((n : Int) - 1) :=
  word_eq ⟨by omega, by omega⟩

theorem size_natCast {n : Nat} (h : n < UInt64.size) : size n = .ok n := by
  rw [size, if_pos ⟨Int.natCast_nonneg n, Int.ofNat_lt.mpr h⟩, Int.toNat_natCast]

theorem size_eq {n : Int} (h : Word.Fits n) (hn : 0 ≤ n) : size n = .ok n.toNat := by
  rw [size, if_pos]
  rw [Word.Fits] at h
  rw [show ((UInt64.size : Nat) : Int) = 0x10000000000000000 from rfl]
  omega

theorem item_eq {xs : List α} {i : Nat} (h : i < xs.length) : item xs i = .ok xs[i] := by
  rw [item, List.getElem?_eq_getElem h]

theorem part_eq {xs : List α} {first last : Nat} (h : first ≤ last) (hlast : last ≤ xs.length) :
    part xs first last = .ok ((xs.take last).drop first) := if_pos ⟨h, hlast⟩

/-! ## Results -/

theorem report_ok {a : α} : report (.ok a) = .ok a := rfl

theorem report_error {f : Fault} : report (.error f : Except Fault α) = .error (.fault f) := rfl

theorem report_bind {x : Except Fault α} {f : α → Except Fault β} :
    report (x >>= f) = report x >>= fun a => report (f a) := by
  cases x <;> rfl

theorem mapM_report {f : α → Checked β} {g : α → Except Fault β} {xs : List α}
    (h : ∀ x ∈ xs, f x = report (g x)) : xs.mapM f = report (xs.mapM g) := by
  induction xs with
  | nil => rfl
  | cons x xs ih =>
    obtain ⟨hx, hxs⟩ := List.forall_mem_cons.mp h
    rw [List.mapM_cons, List.mapM_cons, hx, ih hxs, report_bind]
    simp only [report_bind]
    rfl

/-! ## Ranks and positions -/

/-- The rank, counted from the innermost axis outwards. -/
def rank : Value → Checked Nat
  | .scalar _ => .ok 0
  | .array [] => size ((1 + 0 : Nat) : Int)
  | .array (v :: _) => do
    let inner ← rank v
    size (1 + inner : Nat)

theorem rank_eq : {v : Value} → v.rank < UInt64.size → rank v = .ok v.rank
  | .scalar _, _ => rfl
  | .array [], h => size_natCast h
  | .array (v :: _), h => by
    rw [Value.rank, Nat.add_comm] at h
    rw [rank, Value.rank, Nat.add_comm v.rank]
    exact Except.bind_eq_ok.mpr ⟨v.rank, rank_eq (Nat.lt_of_add_left_lt h), size_natCast h⟩

theorem rank_of_within {v : Value} (h : v.Within 0x8000000000000000) : rank v = .ok v.rank :=
  rank_eq (Nat.lt_trans h.rank (by decide))

/-- A position on an axis of extent `n`; a negative one counts from the end. -/
def position (n : Nat) (i : Int) : Checked Int :=
  if i < 0 then do word (i + (← word n)) else .ok i

theorem position_eq {n : Nat} {i : Int} (hn : n < 0x8000000000000000) (hi : Word.Fits i) :
    position n i = .ok (if i < 0 then i + n else i) ∧ Word.Fits (if i < 0 then i + n else i) := by
  unfold position
  split
  · have hsum : Word.Fits (i + n) := by
      rw [Word.Fits] at hi ⊢
      omega
    rw [word_natCast hn]
    exact ⟨word_eq hsum, hsum⟩
  · exact ⟨rfl, hi⟩

/-- The items of an array. The fault that there is no such axis is made up beforehand, with the axis
as a signed integer in it. -/
def itemsAlong (axis : Nat) (rank : Checked Nat) (v : Value) : Checked (List Value) := do
  let axis ← word axis
  let rank ← rank
  match v.items? with
  | some items => return items
  | none => throw (.fault (.invalidAxis axis rank))

theorem itemsAlong_scalar {axis n : Nat} {s : Scalar} (h : axis < 0x8000000000000000) :
    itemsAlong axis (.ok n) (.scalar s) = .error (.fault (.invalidAxis axis n)) := by
  rw [itemsAlong, word_natCast h]
  rfl

theorem itemsAlong_array {axis n : Nat} {items : List Value} (h : axis < 0x8000000000000000) :
    itemsAlong axis (.ok n) (.array items) = .ok items := by
  rw [itemsAlong, word_natCast h]
  rfl

end Checked

end Dataflow
