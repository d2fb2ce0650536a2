import Dataflow.Proofs.Extents
import Dataflow.Proofs.Faults

/-!
# Refusals of kernels

A kernel that refuses its arguments does so in its own name: for a fault of the values, for an
operand that it cannot do without or for an option. The failure of another node never comes out of a
kernel, and neither does one that speaks of a mistake in the choice of the kernel.
-/

namespace Dataflow

open Except

/-- Whether the failure speaks of a mistake that is ruled out when nodes are added, or by the way in
which operations are dispatched: an operation that does not exist or lacks operands, a node that
does not exist or is no operation, a kernel or an operator of the wrong kind, or a sample that was
not drawn. -/
def Failure.isInternal : Failure → Bool
  | .unknownOperation _ | .arity .. | .notAnOperation _ | .noSuchNode _ => true
  | .invalidOption _ _ .noSamples => true
  | .invalidOption _ key _ => key == "op"
  | .fault f => f.isMisuse
  | _ => false

/-- The failures that a kernel can raise itself. -/
inductive Arguments.Refuses (args : Arguments) (backend : Backend) : Failure → Prop
  | fault {f : Fault} (h : backend.Proper → f.isMisuse = false) : Refuses args backend (.fault f)
  | operand {i : Nat} (hneeded : i < args.op.arity.1) (hmissing : args.operands[i]? = none) :
      Refuses args backend (.arity args.op (.atLeast (i + 1)) args.operands.length)
  | option {key : String} {objection : Objection}
      (h : (Failure.invalidOption args.op key objection).isInternal = false) :
      Refuses args backend (.invalidOption args.op key objection)

namespace Arguments

variable {args : Arguments} {backend : Backend} {e : Failure}

theorem Refuses.isWrapped (h : args.Refuses backend e) : e.isWrapped = false := by
  cases h <;> rfl

/-- With all operands in place, a kernel speaks of no internal mistake. -/
theorem Refuses.isInternal (h : args.Refuses backend e) (hbackend : backend.Proper)
    (harity : args.op.arity.1 ≤ args.operands.length) : e.isInternal = false := by
  cases h with
  | fault h => exact h hbackend
  | operand hneeded hmissing =>
    have := List.getElem?_eq_none_iff.mp hmissing
    omega
  | option h => exact h

/-- The computation fails in the name of the kernel, if at all. -/
abbrev Owns {α : Type} (args : Arguments) (backend : Backend) (x : Except Failure α) : Prop :=
  FailsWith (args.Refuses backend) x

/-! ## Reading arguments -/

theorem owns_fault {α : Type} {x : Except Fault α} (h : Proper x) :
    args.Owns backend (Failure.ofFault x) := by
  cases x with
  | ok a => exact .ok a
  | error f => exact .fail (.fault fun _ => h.error f rfl)

theorem owns_invalid {α : Type} {key : String} {objection : Objection}
    (h : (args.invalid key objection).isInternal = false) :
    args.Owns backend (.error (args.invalid key objection) : Except Failure α) :=
  .fail (.option h)

theorem owns_operand {i : Nat} (h : i < args.op.arity.1) :
    args.Owns backend (args.operand i) := by
  unfold operand
  split
  · exact .ok _
  · rename_i hmissing
    exact .fail (.operand h hmissing)

variable {key : String} (hkey : (key == "op") = false)

include hkey

theorem owns_operandOr (i : Nat) : args.Owns backend (args.operandOr i key) := by
  unfold operandOr
  split
  · exact .ok _
  · exact owns_invalid hkey

theorem owns_values : args.Owns backend (args.values key) := by
  unfold values
  split
  · exact .ok _
  · exact owns_invalid hkey

theorem owns_read {α : Type} {x : Except Fault α} : args.Owns backend (args.read key x) := by
  cases x with
  | ok a => exact .ok a
  | error f => exact owns_invalid hkey

theorem owns_count {v : Value} : args.Owns backend (args.count key v) :=
  (owns_read hkey).bind fun _ => .ite (.abort (.option hkey)) (.ok _)

theorem owns_int? : args.Owns backend (args.int? key) := by
  unfold int?
  split
  · exact (owns_read hkey).map _
  · exact .ok _

theorem owns_float {default : Float} : args.Owns backend (args.float key default) := by
  unfold float
  split
  · exact owns_read hkey
  · exact .ok _

omit hkey

/-! ## Operators -/

theorem owns_binary {op : BinaryOp} (hop : args.op.binary? = some op) (h : 1 < args.op.arity.1) :
    args.Owns backend args.binary := by
  unfold binary
  rw [hop]
  exact (owns_operand (by omega)).bind fun a => (owns_operand h).bind fun b =>
    owns_fault (Value.binary_proper op a b)

theorem owns_unary {op : UnaryOp} (hop : args.op.unary? = some op) (h : 0 < args.op.arity.1) :
    args.Owns backend args.unary := by
  unfold unary
  rw [hop]
  exact (owns_operand h).bind fun a => owns_fault (Value.unary_proper op a)

/-! ## Arrays -/

theorem owns_index (h : 1 < args.op.arity.1) : args.Owns backend args.index :=
  (owns_operand h).bind fun _ => (owns_read rfl).bind fun i =>
    (owns_operand (by omega)).bind fun v => owns_fault (v.index_proper i)

theorem owns_slice (h : 0 < args.op.arity.1) : args.Owns backend args.slice := by
  refine (owns_operandOr rfl 1).bind fun _ => (owns_read rfl).bind fun starts => ?_
  have hrest : ∀ sizes,
      args.Owns backend (do Failure.ofFault ((← args.operand 0).slice starts sizes)) :=
    fun _ => (owns_operand h).bind fun v => owns_fault (v.slice_proper _ _)
  dsimp only
  split
  · exact (owns_read rfl).bind hrest
  · exact hrest _

theorem owns_concat : args.Owns backend args.concat :=
  (owns_values rfl).bind fun values => (owns_int? rfl).bind fun _ =>
    owns_fault (Value.concat_proper values _)

theorem owns_eye : args.Owns backend args.eye := by
  refine (owns_operandOr rfl 0).bind fun _ => (owns_count rfl).bind fun rows => ?_
  dsimp only
  split
  · exact (owns_count rfl).bind fun _ => .ok _
  · exact .ok _

theorem owns_fill (filling : Filling) : args.Owns backend (args.fill filling) :=
  (owns_operandOr rfl 0).bind fun _ => (owns_read rfl).bind fun _ => .ok _

theorem owns_reshape (h : 0 < args.op.arity.1) : args.Owns backend args.reshape :=
  (owns_operandOr rfl 1).bind fun _ => (owns_read rfl).bind fun target =>
    (owns_operand h).bind fun v => owns_fault (v.reshape_proper target)

theorem owns_paddings : args.Owns backend args.paddings := by
  unfold paddings
  split
  · refine .mapM fun pair _ => (owns_read rfl).bind fun extents => ?_
    split
    · exact .ok _
    · exact owns_invalid rfl
  · exact owns_invalid rfl

theorem owns_pad (h : 0 < args.op.arity.1) : args.Owns backend args.pad :=
  owns_paddings.bind fun paddings => (owns_operand h).bind fun v =>
    owns_fault (v.pad_proper paddings _)

theorem owns_select (h : 1 < args.op.arity.1) : args.Owns backend args.select := by
  unfold select
  split
  · exact owns_invalid rfl
  · exact (owns_operand (by omega)).bind fun a => (owns_operand h).bind fun b =>
      owns_fault (Value.select_proper _ a b)

/-! ## Axes -/

theorem owns_axes : args.Owns backend args.axes := by
  unfold axes
  split
  · exact .ok _
  · exact (owns_read rfl).map _

theorem owns_argmax (h : 0 < args.op.arity.1) : args.Owns backend args.argmax := by
  have hrest : ∀ axis, args.Owns backend (do Failure.ofFault ((← args.operand 0).argmax axis)) :=
    fun axis => (owns_operand h).bind fun v => owns_fault (v.argmax_proper axis)
  refine owns_axes.bind fun axes => ?_
  dsimp only
  split
  · exact hrest 0
  · exact hrest _
  · exact .abort (.option rfl)

theorem owns_reduce (how : Reduction) (h : 0 < args.op.arity.1) :
    args.Owns backend (args.reduce how).2 := by
  unfold reduce
  split
  · rename_i heq
    exact .fail ((owns_operand h).error _ heq)
  · rename_i heq _
    exact .fail (owns_axes.error _ heq)
  · exact owns_fault (how.reduce_proper ..)

/-! ## Products -/

theorem owns_matmul (h : 1 < args.op.arity.1) : args.Owns backend (args.matmul backend).2 := by
  have hpacked : args.Owns backend (do
      let a ← args.operand 0
      let b ← args.operand 1
      Failure.ofFault (a.factors b (args.flag "transpose_a") (args.flag "transpose_b"))) :=
    (owns_operand (by omega)).bind fun a => (owns_operand h).bind fun b =>
      owns_fault (a.factors_proper b _ _)
  unfold matmul
  dsimp only
  split
  · rename_i e heq
    exact .fail (hpacked.error e heq)
  · rename_i p q _
    cases hproduct : Dense.toValue <$> p.multiply backend q with
    | ok v => exact .ok v
    | error f =>
      refine .fail (.fault fun hbackend => ?_)
      exact ((Dense.multiply_proper hbackend p q).map _).error f hproduct

/-! ## Random arrays -/

theorem owns_sampler (distribution : Distribution) :
    args.Owns backend (Sampler.read args distribution) := by
  cases distribution with
  | normal =>
    exact (owns_float rfl).bind fun _ => (owns_float rfl).bind fun _ =>
      .ite (.ok _) (.fail (.option rfl))
  | uniform =>
    exact (owns_float rfl).bind fun _ => (owns_float rfl).bind fun _ =>
      .ite (.ok _) (.fail (.option rfl))

theorem owns_plan (distribution : Distribution) :
    args.Owns backend (Sampling.plan args distribution) := by
  have hshape : args.Owns backend (Sampling.shape args) := by
    unfold Sampling.shape
    split
    · exact owns_read rfl
    · exact .ok _
  refine hshape.bind fun dims => .ite (.abort (.option rfl)) ?_
  dsimp only
  split
  · exact .fail (.option rfl)
  · exact (owns_int? rfl).bind fun _ => (owns_sampler distribution).bind fun _ => .ok _

theorem length_draws {α γ : Type} (draw : γ → α × γ) (n : Nat) (g : γ) :
    (Rng.draws draw n g).1.length = n := by
  induction n generalizing g with
  | zero => rfl
  | succ n ih => simp [Rng.draws, ih]

/-- There is a sample for a scalar. -/
theorem owns_arrange {dims : List Int} {samples : List Float}
    (h : Sampling.elements? dims = some samples.length) :
    args.Owns backend (Sampling.arrange args dims samples) := by
  have hrest : ∀ shaped : Value, args.Owns backend (Failure.ofFault (shaped.cast args.dtype)) :=
    fun shaped => owns_fault (shaped.cast_proper _)
  unfold Sampling.arrange
  dsimp only
  split
  · rename_i hnone
    have hempty : samples = [] := by simpa using hnone
    simp [hempty, Sampling.elements?] at h
  · exact hrest _
  · exact (owns_fault (Value.reshape_proper _ _)).bind hrest

theorem owns_build {γ : Type} (lib : Library γ) (sampler : Sampler) :
    args.Owns backend (lib.build args sampler) := by
  unfold Library.build
  split <;> split
  · exact .ok _
  · exact .fail (.option rfl)
  · exact .ok _
  · exact .fail (.option rfl)

theorem owns_prepare {γ : Type} (lib : Library γ) (distribution : Distribution) :
    args.Owns backend (Sampling.prepare lib args distribution) :=
  (owns_plan distribution).bind fun _ => (owns_build lib _).bind fun _ => .ok _

theorem owns_sample {γ : Type} (lib : Library γ) (distribution : Distribution) (shared : γ) :
    args.Owns backend (Sampling.sample lib args distribution shared).1 := by
  unfold Sampling.sample
  split
  · rename_i e heq
    exact .fail ((owns_prepare lib distribution).error e heq)
  all_goals
    rename_i heq
    obtain ⟨sampler, hplan, -⟩ := Sampling.exists_plan_of_prepare heq
    exact owns_arrange (by rw [length_draws, (Sampling.extents_of_plan hplan).2])

/-! ## All kernels -/

theorem needed {kernel : Kernel} {i : Nat} (h : args.kernel = kernel)
    (hi : i < (Op.kernel kernel).arity.1) : i < args.op.arity.1 := by
  rwa [op, h]

/-- Whatever a kernel is computed on, it fails in its own name if it fails. -/
theorem owns_compute {γ : Type} (backend : Backend) (rng : Source γ) :
    args.Owns backend (args.compute backend rng).outcome := by
  unfold compute
  dsimp only
  split
  all_goals rename_i hkernel
  · exact owns_binary (congrArg (Op.binary? ∘ Op.kernel) hkernel) (needed hkernel Nat.one_lt_two)
  · exact owns_unary (congrArg (Op.unary? ∘ Op.kernel) hkernel) (needed hkernel Nat.zero_lt_one)
  · exact (owns_operand (needed hkernel Nat.zero_lt_one)).bind fun v => owns_fault (v.cast_proper _)
  · exact owns_argmax (needed hkernel Nat.zero_lt_one)
  · exact owns_index (needed hkernel Nat.one_lt_two)
  · exact owns_slice (needed hkernel Nat.zero_lt_one)
  · exact owns_concat
  · exact (owns_operand (needed hkernel Nat.zero_lt_one)).bind fun v =>
      owns_fault v.transpose_proper
  · exact owns_eye
  · exact owns_fill _
  · exact (owns_operand (needed hkernel Nat.zero_lt_one)).bind fun _ => .ok _
  · exact (owns_operand (needed hkernel Nat.zero_lt_one)).bind fun _ => .ok _
  · exact (owns_operand (needed hkernel Nat.zero_lt_one)).bind fun _ => .ok _
  · exact owns_reshape (needed hkernel Nat.zero_lt_one)
  · exact owns_pad (needed hkernel Nat.zero_lt_one)
  · exact owns_select (needed hkernel Nat.one_lt_two)
  · exact owns_reduce _ (needed hkernel Nat.zero_lt_one)
  · exact owns_matmul (needed hkernel Nat.one_lt_two)
  · exact owns_sample ..

end Arguments

end Dataflow
