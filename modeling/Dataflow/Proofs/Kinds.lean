import Dataflow.Proofs.Axes
import Dataflow.Proofs.Casting
import Dataflow.Proofs.Extents

/-!
# Element types of results

A cast leaves a value as it is if it does so with each of its scalars. The scalars of most results
follow those of the operands; those of a comparison, a count or a position are of one kind whatever
the operands are, and some kernels write scalars of the element type that they are told.
-/

namespace Dataflow

/-! ## Scalars of results -/

namespace Value

variable {P : Scalar → Prop}

theorem forall_mem_scalars_array {vs : List Value} :
    (∀ s ∈ (array vs).scalars, P s) ↔ ∀ v ∈ vs, ∀ s ∈ v.scalars, P s := by
  rw [scalars_array]
  exact List.forall_mem_flatMap

mutual

theorem forall_mem_scalars_of_traverse {f : Scalar → Except Fault Value}
    (hf : ∀ s w, f s = .ok w → ∀ t ∈ w.scalars, P t) :
    (v : Value) → ∀ {w}, v.traverse f = .ok w → ∀ t ∈ w.scalars, P t
  | .scalar s, w, h => hf s w h
  | .array vs, w, h => by
    obtain ⟨ws, hws, rfl⟩ := traverse_array_eq_ok.mp h
    exact forall_mem_scalars_array.mpr (forall_mem_scalars_of_traverseItems hf vs hws)

theorem forall_mem_scalars_of_traverseItems {f : Scalar → Except Fault Value}
    (hf : ∀ s w, f s = .ok w → ∀ t ∈ w.scalars, P t) :
    (vs : List Value) → ∀ {ws}, traverseItems f vs = .ok ws → ∀ w ∈ ws, ∀ t ∈ w.scalars, P t
  | [], ws, h => by
    cases h
    exact nofun
  | v :: vs, ws, h => by
    obtain ⟨w, hw, rest, hrest, rfl⟩ := traverseItems_cons_eq_ok.mp h
    exact List.forall_mem_cons.mpr ⟨forall_mem_scalars_of_traverse hf v hw,
      forall_mem_scalars_of_traverseItems hf vs hrest⟩

end

theorem forall_mem_scalars_of_broadcast {f : Scalar → Scalar → Except Fault Value}
    (hf : ∀ s t w, f s t = .ok w → ∀ r ∈ w.scalars, P r) {a b v : Value}
    (h : broadcast f a b = .ok v) : ∀ r ∈ v.scalars, P r := by
  -- Repeating a value and taking items apart end in the same combinator.
  fun_induction broadcast f a b generalizing v with
  | case1 s t => exact hf s t v h
  | case2 xs t => exact forall_mem_scalars_of_traverse (fun s => hf s t) _ h
  | case3 s ys => exact forall_mem_scalars_of_traverse (fun t => hf s t) _ h
  | case4 _ _ _ ih => exact ih h
  | case5 _ _ _ _ ih => exact ih h
  | case6 => cases h
  | case7 xs ys _ _ n _ ih =>
    obtain ⟨items, hitems, h⟩ := Except.bind_eq_ok.mp h
    cases h
    refine forall_mem_scalars_array.mpr fun item hitem => ?_
    obtain ⟨p, -, hp⟩ := Except.exists_of_mem_mapM hitems hitem
    exact ih p.1.1 p.1.2 p.2 hp

theorem forall_mem_scalars_filled {s : Scalar} (hs : P s) (ns : List Nat) :
    ∀ t ∈ (filled ns (.scalar s)).scalars, P t := by
  induction ns with
  | nil => simpa [filled] using hs
  | cons n ns ih =>
    refine forall_mem_scalars_array.mpr fun v hv => ?_
    rwa [List.eq_of_mem_replicate hv]

theorem forall_mem_scalars_eye {rows cols : Nat} {d : DType} (hzero : P d.zero) (hone : P d.one) :
    ∀ s ∈ (eye rows cols d).scalars, P s := by
  refine forall_mem_scalars_array.mpr (List.forall_mem_map.mpr fun i _ => ?_)
  refine forall_mem_scalars_array.mpr (List.forall_mem_map.mpr fun j _ => ?_)
  rw [scalars_scalar, List.forall_mem_singleton]
  split
  · exact hone
  · exact hzero

end Value

/-! ## Counts and positions -/

/-- The scalar is the word for a natural number below `n`. -/
def Scalar.IsBelow (n : Nat) (s : Scalar) : Prop := ∃ k < n, s = .int (Int64.ofNat k)

theorem Scalar.IsBelow.mono {n m : Nat} {s : Scalar} (h : s.IsBelow n) (hle : n ≤ m) :
    s.IsBelow m := by
  obtain ⟨k, hk, rfl⟩ := h
  exact ⟨k, Nat.lt_of_lt_of_le hk hle, rfl⟩

/-- The numbers below 2^31 lose nothing in 32 bits. -/
theorem Scalar.IsBelow.cast_int32 {s : Scalar} (h : s.IsBelow 0x80000000) :
    s.cast .int32 = .ok s := by
  obtain ⟨k, hk, rfl⟩ := h
  have hword : (Int64.ofNat k).toInt = k := Int64.toInt_ofNat_of_lt (Nat.lt_trans hk (by decide))
  -- A number below 2^31 is balanced modulo 2^32, so the shorter word stands for it as well.
  have hfits : (Int64.ofNat k).toInt32.toInt64 = Int64.ofNat k := by
    rw [← Int64.toInt_inj, Int32.toInt_toInt64, Int64.toInt_toInt32, hword]
    exact Int.bmod_eq_of_le (by omega) (by omega)
  exact congrArg (fun i => Except.ok (Scalar.int i)) hfits

namespace Value

theorem Within.dims_lt {n : Nat} : {v : Value} → v.Within n → ∀ d ∈ v.dims, d < n
  | .scalar _, _ => nofun
  | .array [], h => List.forall_mem_singleton.mpr (Nat.zero_lt_of_lt h.depth)
  | .array (_ :: _), h =>
    List.forall_mem_cons.mpr ⟨h.length, (h.item List.mem_cons_self).dims_lt⟩

mutual

theorem isBelow_of_argmaxAcross {rest : List Value} :
    (first : Value) → ∀ {v}, argmaxAcross rest first = .ok v →
      ∀ s ∈ v.scalars, s.IsBelow (1 + rest.length)
  | .scalar s, v, h => by
    obtain ⟨best, -, h⟩ := Except.bind_eq_ok.mp h
    obtain ⟨position, hposition, h⟩ := Except.bind_eq_ok.mp h
    cases h
    exact List.forall_mem_singleton.mpr
      ⟨position, Checked.le_of_argmaxFrom Nat.zero_lt_one hposition, rfl⟩
  | .array items, v, h => by
    obtain ⟨ws, hws, h⟩ := Except.bind_eq_ok.mp h
    cases h
    exact forall_mem_scalars_array.mpr (isBelow_of_argmaxColumns items hws)

theorem isBelow_of_argmaxColumns {rest : List Value} {dims : List Nat} {j : Nat} :
    (items : List Value) → ∀ {vs}, argmaxColumns rest dims j items = .ok vs →
      ∀ v ∈ vs, ∀ s ∈ v.scalars, s.IsBelow (1 + rest.length)
  | [], vs, h => by
    cases h
    exact nofun
  | item :: items, vs, h => by
    obtain ⟨others, hothers, h⟩ := Except.bind_eq_ok.mp h
    obtain ⟨w, hw, h⟩ := Except.bind_eq_ok.mp h
    obtain ⟨ws, hws, h⟩ := Except.bind_eq_ok.mp h
    cases h
    -- A column has an item of every value on the axis, or there is no result.
    have hlength : others.length = rest.length := Except.length_of_mapM hothers
    exact List.forall_mem_cons.mpr
      ⟨hlength ▸ isBelow_of_argmaxAcross item hw, isBelow_of_argmaxColumns items hws⟩

end

theorem isBelow_of_argmaxAt {n axis : Nat} {v w : Value} (hv : v.Within n)
    (h : argmaxAt axis v = .ok w) : ∀ s ∈ w.scalars, s.IsBelow n := by
  induction axis generalizing v w with
  | zero =>
    rcases v with s | _ | ⟨first, rest⟩
    · cases h
    · cases h
    · have hlength : 1 + rest.length ≤ n := Nat.add_comm 1 _ ▸ Nat.le_of_lt hv.length
      exact fun s hs => (isBelow_of_argmaxAcross first h s hs).mono hlength
  | succ axis ih =>
    cases v with
    | scalar s => cases h
    | array items =>
      rw [argmaxAt] at h
      obtain ⟨ws, hws, h⟩ := Except.bind_eq_ok.mp h
      cases h
      refine forall_mem_scalars_array.mpr fun u hu => ?_
      obtain ⟨item, hitem, hitemu⟩ := Except.exists_of_mem_mapM hws hu
      exact ih (hv.item hitem) hitemu

/-- The position of a maximum is one on the axis. -/
theorem isBelow_of_argmax {n : Nat} {axis : Int} {v w : Value} (hv : v.Within n)
    (h : v.argmax axis = .ok w) : ∀ s ∈ w.scalars, s.IsBelow n := by
  unfold argmax at h
  dsimp only at h
  generalize (if axis < 0 then axis + v.rank else axis) = position at h
  split at h
  · cases h
  · exact isBelow_of_argmaxAt hv h

/-! ## Casts that change nothing -/

mutual

theorem traverse_eq_self {f : Scalar → Except Fault Value} :
    (v : Value) → (∀ s ∈ v.scalars, f s = .ok (.scalar s)) → v.traverse f = .ok v
  | .scalar s, h => h s (List.mem_singleton_self s)
  | .array vs, h =>
    traverse_array_eq_ok.mpr ⟨vs, traverseItems_eq_self vs (forall_mem_scalars_array.mp h), rfl⟩

theorem traverseItems_eq_self {f : Scalar → Except Fault Value} :
    (vs : List Value) → (∀ v ∈ vs, ∀ s ∈ v.scalars, f s = .ok (.scalar s)) →
      traverseItems f vs = .ok vs
  | [], _ => rfl
  | v :: vs, h =>
    have ⟨hv, hvs⟩ := List.forall_mem_cons.mp h
    traverseItems_cons_eq_ok.mpr
      ⟨v, traverse_eq_self v hv, vs, traverseItems_eq_self vs hvs, rfl⟩

end

theorem cast_eq_self {d : DType} {v : Value} (h : ∀ s ∈ v.scalars, s.cast d = .ok s) :
    v.cast d = .ok v :=
  traverse_eq_self v fun s hs => by rw [h s hs]; rfl

end Value

/-- Zero and one are written as the element type has them. -/
theorem DType.cast_zero (d : DType) : d.zero.cast d = .ok d.zero := by
  cases d <;> rfl

theorem DType.cast_one (d : DType) : d.one.cast d = .ok d.one := by
  cases d <;> rfl

/-! ## Kernels -/

/-- The element type of the results, if it is the same whatever the kernel is given. -/
def Kernel.ownDType? : Kernel → Option DType
  | .binary (.comparison _) => some .boolean
  | .shape | .rank | .argmax => some .int32
  | _ => none

/-- Whether the element type of the results is known before the kernel is computed: it is the one of
the kernel, or the one that the node declares. -/
def Kernel.settlesDType : Kernel → Bool
  | .cast | .eye | .fill _ | .fillLike _ => true
  | kernel => kernel.ownDType?.isSome

namespace Arguments

variable {args : Arguments} {v : Value} {n : Nat}

theorem within_of_operand (hargs : ∀ w ∈ args.operands, w.Within n) {i : Nat} {w : Value}
    (h : args.operand i = .ok w) : w.Within n :=
  hargs w (List.mem_of_getElem? (operand_eq_ok h))

/-- Comparing scalars gives truth values, whatever is compared. -/
theorem cast_binary {op : Comparison} (hkernel : args.kernel = .binary (.comparison op))
    (h : args.binary = .ok v) : v.cast .boolean = .ok v := by
  have hop : args.op.binary? = some (.comparison op) := by rw [Arguments.op, hkernel]; rfl
  rw [binary, hop] at h
  obtain ⟨a, -, h⟩ := Except.bind_eq_ok.mp h
  obtain ⟨b, -, h⟩ := Except.bind_eq_ok.mp h
  refine Value.cast_eq_self (Value.forall_mem_scalars_of_broadcast (fun s t w hw => ?_)
    (Failure.ofFault_eq_ok h))
  obtain ⟨r, hr, hw⟩ := Except.bind_eq_ok.mp hw
  rw [BinaryOp.apply_comparison] at hr
  obtain ⟨b, -, hr⟩ := Except.bind_eq_ok.mp hr
  cases hr
  cases hw
  exact List.forall_mem_singleton.mpr rfl

theorem cast_shape (hargs : ∀ w ∈ args.operands, w.Within 0x80000000) (h : args.shape = .ok v) :
    v.cast .int32 = .ok v := by
  obtain ⟨w, hw, h⟩ := Except.bind_eq_ok.mp h
  cases h
  refine Value.cast_eq_self (Value.forall_mem_scalars_array.mpr (List.forall_mem_map.mpr ?_))
  intro d hd
  have hlt := (within_of_operand hargs hw).dims_lt d hd
  exact List.forall_mem_singleton.mpr (Scalar.IsBelow.cast_int32 ⟨d, hlt, rfl⟩)

theorem cast_rank (hargs : ∀ w ∈ args.operands, w.Within 0x80000000) (h : args.rank = .ok v) :
    v.cast .int32 = .ok v := by
  obtain ⟨w, hw, h⟩ := Except.bind_eq_ok.mp h
  cases h
  have hlt := (within_of_operand hargs hw).rank
  exact Value.cast_eq_self
    (List.forall_mem_singleton.mpr (Scalar.IsBelow.cast_int32 ⟨w.rank, hlt, rfl⟩))

theorem exists_argmax_of_argmax (h : args.argmax = .ok v) :
    ∃ w axis, args.operand 0 = .ok w ∧ w.argmax axis = .ok v := by
  obtain ⟨axes, -, h⟩ := Except.bind_eq_ok.mp h
  have hfound : ∀ {axis : Int}, (do Failure.ofFault ((← args.operand 0).argmax axis)) = .ok v →
      ∃ w axis, args.operand 0 = .ok w ∧ w.argmax axis = .ok v := by
    intro axis h
    obtain ⟨w, hw, h⟩ := Except.bind_eq_ok.mp h
    exact ⟨w, axis, hw, Failure.ofFault_eq_ok h⟩
  dsimp only at h
  split at h
  · exact hfound h
  · exact hfound h
  · cases h

theorem exists_eye_of_eye (h : args.eye = .ok v) : ∃ rows cols, v = .eye rows cols args.dtype := by
  obtain ⟨given, -, h⟩ := Except.bind_eq_ok.mp h
  obtain ⟨rows, -, h⟩ := Except.bind_eq_ok.mp h
  dsimp only at h
  split at h
  · obtain ⟨cols, -, h⟩ := Except.bind_eq_ok.mp h
    cases h
    exact ⟨rows, cols, rfl⟩
  · cases h
    exact ⟨rows, rows, rfl⟩

theorem cast_argmax (hargs : ∀ w ∈ args.operands, w.Within 0x80000000)
    (h : args.argmax = .ok v) : v.cast .int32 = .ok v := by
  obtain ⟨w, axis, hw, h⟩ := exists_argmax_of_argmax h
  have hbelow := Value.isBelow_of_argmax (within_of_operand hargs hw) h
  exact Value.cast_eq_self fun s hs => (hbelow s hs).cast_int32

theorem cast_filled {filling : Filling} {d : DType} (ns : List Nat) :
    (Value.filled ns (fillOf filling d)).cast d = .ok (Value.filled ns (fillOf filling d)) := by
  cases filling with
  | zeros => exact Value.cast_eq_self (Value.forall_mem_scalars_filled d.cast_zero ns)
  | ones => exact Value.cast_eq_self (Value.forall_mem_scalars_filled d.cast_one ns)

/-- Without a declared element type that of the operand is taken, and any value has the unknown
one. -/
theorem cast_fillLike {filling : Filling} (h : args.fillLike filling = .ok v) :
    v.cast args.dtype = .ok v := by
  obtain ⟨w, -, h⟩ := Except.bind_eq_ok.mp h
  cases h
  -- The operand decides only where casting changes nothing anyway.
  by_cases hunknown : args.dtype = .unknown
  · rw [hunknown]
    exact Value.cast_eq_self fun _ _ => rfl
  · have hdtype : args.dtypeFor w = args.dtype := by
      unfold dtypeFor
      split
      · rename_i h
        exact absurd h hunknown
      · rfl
    rw [hdtype]
    exact cast_filled _

/-- The results have the element type that is declared, if the one of the kernel is declared. -/
theorem cast_compute {γ : Type} {backend : Backend} {rng : Source γ}
    (hsettles : args.kernel.settlesDType = true)
    (hdtype : ∀ d, args.kernel.ownDType? = some d → args.dtype = d)
    (hargs : ∀ w ∈ args.operands, w.Within 0x80000000)
    (h : (args.compute backend rng).outcome = .ok v) : v.cast args.dtype = .ok v := by
  -- Kernels that leave the element type open are ruled out; each of the others has a lemma.
  cases hk : args.kernel <;> rw [hk] at hsettles hdtype <;> simp only [compute, hk] at h
  case binary op =>
    cases op with
    | arithmetic op => cases hsettles
    | comparison op =>
      rw [hdtype _ rfl]
      exact cast_binary hk h
  case cast =>
    obtain ⟨w, -, h⟩ := Except.bind_eq_ok.mp h
    exact Value.cast_cast (Failure.ofFault_eq_ok h)
  case argmax =>
    rw [hdtype _ rfl]
    exact cast_argmax hargs h
  case eye =>
    obtain ⟨rows, cols, rfl⟩ := exists_eye_of_eye h
    exact Value.cast_eq_self
      (Value.forall_mem_scalars_eye args.dtype.cast_zero args.dtype.cast_one)
  case fill filling =>
    obtain ⟨_, -, h⟩ := Except.bind_eq_ok.mp h
    obtain ⟨ns, -, h⟩ := Except.bind_eq_ok.mp h
    cases h
    exact cast_filled ns
  case fillLike filling => exact cast_fillLike h
  case shape =>
    rw [hdtype _ rfl]
    exact cast_shape hargs h
  case rank =>
    rw [hdtype _ rfl]
    exact cast_rank hargs h
  all_goals cases hsettles

end Arguments

end Dataflow
