import Dataflow.Evaluation.Kernels
import Dataflow.Graph.Inference
import Dataflow.Proofs.Broadcasting

/-!
# Extents of results

Which extents the result of a kernel has, for the kernels whose static shape is inferred. An array
without items has no further axes, so extents are only possible if none but the last is zero.
-/

namespace Dataflow

open Except

theorem Failure.ofFault_eq_ok {α : Type} {x : Except Fault α} {a : α}
    (h : Failure.ofFault x = .ok a) : x = .ok a := by
  cases x <;> cases h
  rfl

/-- Values of the shape exist: no axis lies inside one without items. -/
def Shape.Possible (s : Shape) : Prop := some 0 ∉ s.dims.dropLast

instance (s : Shape) : Decidable s.Possible := inferInstanceAs (Decidable (_ ∉ _))

theorem Shape.known_inj {ms ns : List Nat} : known ms = known ns ↔ ms = ns := by
  simp [known, List.map_inj_right]

theorem Shape.possible_known {ns : List Nat} : (known ns).Possible ↔ 0 ∉ ns.dropLast := by
  simp [Possible, known, ← List.map_dropLast]

namespace Value

/-! ## Arrays -/

theorem eq_nil_of_zero_notMem {ns : List Nat} (h : 0 ∉ (0 :: ns).dropLast) : ns = [] := by
  cases ns with
  | nil => rfl
  | cons m ns => simp at h

theorem zero_notMem_of_cons {n : Nat} {ns : List Nat} (h : 0 ∉ (n :: ns).dropLast) :
    0 ∉ ns.dropLast := by
  cases ns with
  | nil => exact h
  | cons m ns => exact fun h0 => h (List.mem_cons_of_mem n h0)

theorem dims_filled_scalar {ns : List Nat} (hzero : 0 ∉ ns.dropLast) (s : Scalar) :
    (filled ns (.scalar s)).dims = ns := by
  induction ns with
  | nil => rfl
  | cons n ns ih =>
    cases n with
    | zero => rw [eq_nil_of_zero_notMem hzero]; rfl
    | succ n => simp [filled, List.replicate_succ, ih (zero_notMem_of_cons hzero)]

theorem dims_map_scalar {α : Type} (f : α → Scalar) (xs : List α) :
    (Value.array (xs.map fun x => .scalar (f x))).dims = [xs.length] := by
  cases xs with
  | nil => rfl
  | cons x xs => simp [dims]

theorem dims_transpose {v w : Value} (h : v.transpose = .ok w)
    (hzero : 0 ∉ v.dims.reverse.dropLast) : w.dims = v.dims.reverse := by
  have hlength := v.length_dims
  unfold transpose at h
  split at h
  · rename_i hrank
    cases h
    rw [List.length_eq_zero_iff.mp (hlength.trans hrank)]
    rfl
  · rename_i hrank
    cases h
    obtain ⟨n, hn⟩ := List.length_eq_one_iff.mp (hlength.trans hrank)
    rw [hn]
    rfl
  · rename_i hrank
    obtain ⟨rows, rfl⟩ := eq_array_of_rank hrank
    cases rows with
    | nil => cases hrank
    | cons row rows =>
      obtain ⟨items, rfl⟩ := eq_array_of_rank (Nat.succ.inj hrank)
      cases items with
      | nil => simp at hzero
      | cons item items =>
        -- The first row and its first scalar are enough to tell the extents.
        obtain ⟨s, rfl⟩ := eq_scalar_of_rank (Nat.succ.inj (Nat.succ.inj hrank))
        dsimp only at h
        split at h
        · cases h
        · cases h
          simp [items?, length, List.range_succ_eq_map, rowItem, dims]
  · cases h

theorem length_take_volume {n : Nat} {ns : List Nat} {flat : List Scalar}
    (h : flat.length = volume ((n + 1) :: ns)) : (flat.take (volume ns)).length = volume ns := by
  rw [List.length_take, h, volume, Nat.succ_mul]
  omega

theorem length_blocks (size n : Nat) (flat : List Scalar) : (blocks size n flat).length = n := by
  induction n generalizing flat with
  | zero => rfl
  | succ n ih => rw [blocks, List.length_cons, ih]

theorem dims_nest {ns : List Nat} {flat : List Scalar} (hzero : 0 ∉ ns.dropLast)
    (hlength : flat.length = volume ns) : (nest ns flat).dims = ns := by
  induction ns generalizing flat with
  | nil =>
    cases flat with
    | nil => cases hlength
    | cons s flat => rfl
  | cons n ns ih =>
    cases n with
    | zero => rw [eq_nil_of_zero_notMem hzero]; rfl
    | succ n =>
      rw [nest, blocks, List.map_cons, dims_array_cons, List.length_map, length_blocks,
        ih (zero_notMem_of_cons hzero) (length_take_volume hlength)]

/-- Reading extents without an open one multiplies them up, counted in 64 bits. -/
theorem read_map_toInt {seen : Target} (ns : List Nat) (hseen : seen.known < UInt64.size) :
    Target.read seen (ns.map Int.ofNat) =
      .ok { seen with known := counted (seen.known * volume ns) } := by
  induction ns generalizing seen with
  | nil => rw [volume, Nat.mul_one, counted_of_lt hseen]; rfl
  | cons n ns ih =>
    have hopen : Int.ofNat n ≠ -1 := by simp
    have hneg : ¬ Int.ofNat n < 0 := by simp
    rw [List.map_cons, Target.read, if_neg hopen, if_neg hneg, ih (counted_lt _), volume,
      ← Nat.mul_assoc]
    exact congrArg (fun known => Except.ok { seen with known }) (counted_counted_mul ..)

theorem dims_reshape {v w : Value} {ns : List Nat} (hzero : 0 ∉ ns.dropLast)
    (hsize : volume ns < UInt64.size) (h : v.reshape (ns.map Int.ofNat) = .ok w) : w.dims = ns := by
  unfold reshape at h
  rw [read_map_toInt ns (by decide)] at h
  obtain ⟨t, ht, h⟩ := bind_eq_ok.mp h
  cases ht
  split at h
  · rename_i extents hextents
    cases h
    rw [Target.extents?, if_neg Bool.false_ne_true, Nat.one_mul, counted_of_lt hsize] at hextents
    split at hextents
    · rename_i hvolume
      cases hextents
      rw [List.map_map, show Int.toNat ∘ Int.ofNat = id from rfl, List.map_id]
      exact dims_nest hzero hvolume.symm
    · cases hextents
  · cases h

/-- A cast keeps the extents. -/
theorem dims_cast {v w : Value} {dtype : DType} (h : v.cast dtype = .ok w) : w.dims = v.dims :=
  dims_of_traverse h

theorem dims_unary {op : UnaryOp} {v w : Value} (h : v.unary op = .ok w) : w.dims = v.dims :=
  dims_of_traverse h

theorem dims_binary {op : BinaryOp} {a b w : Value} {σ : Shape}
    (halike : (Shape.known a.dims).Alike (.known b.dims))
    (hσ : (Shape.known a.dims).broadcast (.known b.dims) = .ok σ)
    (h : Value.binary op a b = .ok w) : σ = .known w.dims := by
  rw [broadcast_known, (staticDims?_eq_some_iff_alike h).mpr halike] at hσ
  exact (Except.ok.inj hσ).symm

theorem dims_binary_of_dims_eq {op : BinaryOp} {a b w : Value} (hdims : a.dims = b.dims)
    (h : Value.binary op a b = .ok w) : w.dims = a.dims := by
  have halike : (Shape.known a.dims).Alike (.known b.dims) := by
    rw [hdims]
    exact ⟨.of_rank_le (Nat.le_refl _), .of_rank_le (Nat.le_refl _)⟩
  have hstatic : staticDims? a.dims b.dims = some a.dims := by
    rw [← hdims, staticDims?, commonDims?_self, onesTo, Nat.sub_self]
    rfl
  rw [(staticDims?_eq_some_iff_alike h).mpr halike] at hstatic
  exact Option.some.inj hstatic

theorem map_toInt_of_extents {ds : List Int64} {ns : List Nat} (h : ds.mapM extent = .ok ns) :
    ds.map Int64.toInt = ns.map Int.ofNat := by
  induction ds generalizing ns with
  | nil =>
    cases h
    rfl
  | cons d ds ih =>
    rw [List.mapM_cons] at h
    obtain ⟨n, hn, h⟩ := bind_eq_ok.mp h
    obtain ⟨ns', hns, h⟩ := bind_eq_ok.mp h
    cases h
    unfold extent at hn
    split at hn
    · cases hn
    · rename_i hd
      cases hn
      have hd : 0 ≤ d.toInt := by simpa [Int64.lt_iff_toInt_lt] using hd
      rw [List.map_cons, List.map_cons, ih hns, Int.ofNat_eq_natCast, Int.toNat_of_nonneg hd]

/-- The extents that a value lists are the whole numbers that it lists. -/
theorem exists_asInts_of_asExtents {v : Value} {ns : List Nat} (h : v.asExtents = .ok ns) :
    ∃ ds, v.asInts = .ok ds ∧ ds.map Int64.toInt = ns.map Int.ofNat := by
  obtain ⟨ds, hds, h⟩ := bind_eq_ok.mp h
  exact ⟨ds, hds, map_toInt_of_extents h⟩

end Value

/-! ## Random arrays -/

namespace Sampling

theorem shape_eq_ok {args : Arguments} {v : Value} {ns : List Nat} {dims : List Int}
    (hv : args.value? "shape" = some v) (hns : v.asExtents = .ok ns)
    (h : shape args = .ok dims) : dims = ns.map Int.ofNat := by
  obtain ⟨ds, hds, hmap⟩ := Value.exists_asInts_of_asExtents hns
  rw [shape, hv] at h
  dsimp only at h
  rw [Arguments.ints, hds] at h
  cases h
  exact hmap

theorem dims_arrange {args : Arguments} {ns : List Nat} {samples : List Float} {v : Value}
    (hzero : 0 ∉ ns.dropLast) (hsize : volume ns < UInt64.size)
    (h : arrange args (ns.map Int.ofNat) samples = .ok v) : v.dims = ns := by
  unfold arrange at h
  cases ns with
  | nil =>
    cases samples with
    | nil => cases h
    | cons x samples => exact Value.dims_cast (Failure.ofFault_eq_ok h)
  | cons n ns =>
    obtain ⟨shaped, hshaped, hcast⟩ := bind_eq_ok.mp h
    rw [Value.dims_cast (Failure.ofFault_eq_ok hcast)]
    exact Value.dims_reshape hzero hsize (Failure.ofFault_eq_ok hshaped)

/-- The count of elements so far goes on to the product of all extents without leaving the 64
bits. -/
theorem foldlM_elements {seen n : Nat} {ns : List Nat} (hseen : seen < UInt64.size)
    (h : (ns.map Int.ofNat).foldlM (fun n d =>
      if n * d.toNat < UInt64.size then some (n * d.toNat) else none) seen = some n) :
    n = seen * volume ns ∧ n < UInt64.size := by
  induction ns generalizing seen with
  | nil =>
    cases h
    exact ⟨(Nat.mul_one _).symm, hseen⟩
  | cons m ns ih =>
    rw [List.map_cons, List.foldlM_cons] at h
    split at h
    · rename_i hlt
      obtain ⟨hn, hsize⟩ := ih hlt h
      exact ⟨by rw [hn, volume, ← Nat.mul_assoc]; rfl, hsize⟩
    · cases h

theorem elements?_eq_some {n : Nat} {ns : List Nat} (h : elements? (ns.map Int.ofNat) = some n) :
    n = volume ns ∧ n < UInt64.size := by
  obtain ⟨hn, hsize⟩ := foldlM_elements (by decide) h
  exact ⟨hn.trans (Nat.one_mul _), hsize⟩

/-- A plan reads the extents before anything else, and counts their elements. -/
theorem extents_of_plan {args : Arguments} {distribution : Distribution} {dims : List Int}
    {n : Nat} {seed : Option UInt64} {sampler : Sampler}
    (h : plan args distribution = .ok (dims, n, seed, sampler)) :
    shape args = .ok dims ∧ elements? dims = some n := by
  obtain ⟨listed, hlisted, h⟩ := bind_eq_ok.mp h
  dsimp only at h
  split at h
  · cases h
  · split at h
    · cases h
    · rename_i helements
      obtain ⟨seed', -, h⟩ := bind_eq_ok.mp h
      obtain ⟨sampler', -, h⟩ := bind_eq_ok.mp h
      cases h
      exact ⟨hlisted, helements⟩

/-- What is prepared was planned. -/
theorem exists_plan_of_prepare {γ : Type} {lib : Library γ} {args : Arguments}
    {distribution : Distribution} {dims : List Int} {n : Nat} {seed : Option UInt64}
    {draw : γ → Float × γ} (h : prepare lib args distribution = .ok (dims, n, seed, draw)) :
    ∃ sampler, plan args distribution = .ok (dims, n, seed, sampler) ∧
      lib.build args sampler = .ok draw := by
  obtain ⟨⟨dims', n', seed', sampler⟩, hplan, h⟩ := bind_eq_ok.mp h
  obtain ⟨draw', hbuild, h⟩ := bind_eq_ok.mp h
  cases h
  exact ⟨sampler, hplan, hbuild⟩

theorem exists_arrange_of_sample {γ : Type} {lib : Library γ} {args : Arguments}
    {distribution : Distribution} {rng rng' : γ} {v : Value}
    (h : sample lib args distribution rng = (.ok v, rng')) :
    ∃ dims n samples, shape args = .ok dims ∧ elements? dims = some n ∧
      arrange args dims samples = .ok v := by
  unfold sample at h
  split at h
  · cases h
  all_goals
    rename_i hprepare
    obtain ⟨sampler, hplan, -⟩ := exists_plan_of_prepare hprepare
    obtain ⟨hshape, helements⟩ := extents_of_plan hplan
    exact ⟨_, _, _, hshape, helements, congrArg Prod.fst h⟩

end Sampling

/-! ## Kernels -/

/-- The operation has one place to take its extents from, and what it broadcasts repeats to each
other. -/
structure Operation.Regular (o : Operation) (g : Graph) : Prop where
  alike : ∀ {op : BinaryOp} {a b σ : Shape}, o.op = .kernel (.binary op) →
    g.shapeOf o.operands[0]? = some a → g.shapeOf o.operands[1]? = some b → a.broadcast b = .ok σ →
    a.Alike b
  listed : ∀ {filling : Filling}, o.op = .kernel (.fill filling) →
    o.operands = [] ∨ Graph.listedShape o.options = none

/-- The arguments are for the operation, and its operands have the extents that the graph knows. -/
structure Arguments.Shaped (args : Arguments) (g : Graph) (o : Operation) : Prop where
  kernel : o.op = .kernel args.kernel
  length : args.operands.length = o.operands.length
  operand : ∀ {i : Nat} {v : Value} {σ : Shape}, args.operands[i]? = some v →
    g.shapeOf o.operands[i]? = some σ → σ = .known v.dims
  literal : ∀ {v : Value}, o.options.get? "shape" = some (.value v) → args.value? "shape" = some v

namespace Arguments

variable {args : Arguments} {g : Graph} {o : Operation} {σ : Shape} {v : Value}

theorem operand_eq_ok {i : Nat} (h : args.operand i = .ok v) : args.operands[i]? = some v := by
  unfold operand at h
  split at h <;> cases h
  assumption

/-- What a literal option lists is read back. -/
theorem Shaped.exists_listed (h : args.Shaped g o) (hσ : Graph.listedShape o.options = some σ) :
    ∃ w ns, args.value? "shape" = some w ∧ w.asExtents = .ok ns ∧ σ = .known ns := by
  unfold Graph.listedShape at hσ
  split at hσ
  · rename_i w hw
    split at hσ
    · rename_i ns hns
      cases hσ
      exact ⟨w, ns, h.literal hw, hns, rfl⟩
    · cases hσ
  · cases hσ

theorem Shaped.binary {op : BinaryOp} (h : args.Shaped g o) (hregular : o.Regular g)
    (hkernel : args.kernel = .binary op) (hσ : g.resultShape o = some σ)
    (hrun : args.binary = .ok v) : σ = .known v.dims := by
  have hop : o.op = .kernel (.binary op) := hkernel ▸ h.kernel
  simp only [Graph.resultShape, hop, List.head?_eq_getElem?] at hσ
  obtain ⟨σa, ha, hσ⟩ := Option.bind_eq_some_iff.mp hσ
  obtain ⟨σb, hb, hσ⟩ := Option.bind_eq_some_iff.mp hσ
  unfold Arguments.binary at hrun
  split at hrun
  · cases hrun
  · obtain ⟨a, hargA, hrun⟩ := Except.bind_eq_ok.mp hrun
    obtain ⟨b, hargB, hrun⟩ := Except.bind_eq_ok.mp hrun
    cases h.operand (operand_eq_ok hargA) ha
    cases h.operand (operand_eq_ok hargB) hb
    split at hσ
    · rename_i τ hτ
      cases hσ
      exact Value.dims_binary (hregular.alike hop ha hb hτ) hτ (Failure.ofFault_eq_ok hrun)
    · cases hσ

theorem Shaped.fill {filling : Filling} (h : args.Shaped g o) (hregular : o.Regular g)
    (hkernel : args.kernel = .fill filling) (hσ : g.resultShape o = some σ) (hpossible : σ.Possible)
    (hrun : args.fill filling = .ok v) : σ = .known v.dims := by
  have hop : o.op = .kernel (.fill filling) := hkernel ▸ h.kernel
  simp only [Graph.resultShape, hop] at hσ
  obtain ⟨w, ns, hw, hns, rfl⟩ := h.exists_listed hσ
  have hnone : args.operands = [] := by
    have hoperands := (hregular.listed hop).resolve_right (by simp [hσ])
    rw [← List.length_eq_zero_iff, h.length, hoperands]
    rfl
  obtain ⟨u, hu, hrun⟩ := Except.bind_eq_ok.mp hrun
  obtain ⟨dims, hdims, hrun⟩ := Except.bind_eq_ok.mp hrun
  rw [operandOr, operandOr?, hnone, hw] at hu
  cases hu
  rw [extents, hns] at hdims
  cases hdims
  cases hrun
  cases filling <;>
    exact congrArg _ (Value.dims_filled_scalar (Shape.possible_known.mp hpossible) _).symm

theorem Shaped.random {γ : Type} {lib : Library γ} {distribution : Distribution} {rng rng' : γ}
    (h : args.Shaped g o) (hkernel : args.kernel = .random distribution)
    (hσ : g.resultShape o = some σ) (hpossible : σ.Possible)
    (hrun : Sampling.sample lib args distribution rng = (.ok v, rng')) : σ = .known v.dims := by
  have hop : o.op = .kernel (.random distribution) := hkernel ▸ h.kernel
  simp only [Graph.resultShape, hop] at hσ
  obtain ⟨w, ns, hw, hns, rfl⟩ := h.exists_listed hσ
  obtain ⟨dims, n, samples, hdims, helements, harrange⟩ := Sampling.exists_arrange_of_sample hrun
  cases Sampling.shape_eq_ok hw hns hdims
  obtain ⟨rfl, hsize⟩ := Sampling.elements?_eq_some helements
  have hzero := Shape.possible_known.mp hpossible
  exact congrArg _ (Sampling.dims_arrange hzero hsize harrange).symm

/-- What is known of the shape of the result before the kernel is computed holds afterwards. -/
theorem Shaped.compute {γ : Type} {backend : Backend} {rng : Source γ} (h : args.Shaped g o)
    (hregular : o.Regular g) (hσ : g.resultShape o = some σ) (hpossible : σ.Possible)
    (hrun : (args.compute backend rng).outcome = .ok v) : σ = .known v.dims := by
  -- The shape of the first operand, for the kernels that keep to it.
  have hfirst : ∀ {w : Value} {τ : Shape}, args.operand 0 = .ok w →
      g.shapeOf o.operands.head? = some τ → τ = .known w.dims := fun hw hτ =>
    h.operand (operand_eq_ok hw) (List.head?_eq_getElem? ▸ hτ)
  have hop := h.kernel
  have hall := hσ
  cases hk : args.kernel <;> rw [hk] at hop <;> simp only [Graph.resultShape, hop] at hσ <;>
    simp only [Arguments.compute, hk] at hrun
  case binary op => exact h.binary hregular hk hall hrun
  case fill filling => exact h.fill hregular hk hall hpossible hrun
  case random distribution => exact h.random hk hall hpossible (Prod.ext hrun rfl)
  case unary op =>
    unfold Arguments.unary at hrun
    split at hrun
    · cases hrun
    · obtain ⟨w, hw, hrun⟩ := Except.bind_eq_ok.mp hrun
      rw [hfirst hw hσ, Value.dims_unary (Failure.ofFault_eq_ok hrun)]
  case cast =>
    obtain ⟨w, hw, hrun⟩ := Except.bind_eq_ok.mp hrun
    rw [hfirst hw hσ, Value.dims_cast (Failure.ofFault_eq_ok hrun)]
  case transpose =>
    obtain ⟨w, hw, hrun⟩ := Except.bind_eq_ok.mp hrun
    obtain ⟨τ, hτ, rfl⟩ := Option.map_eq_some_iff.mp hσ
    cases hfirst hw hτ
    have hreverse : (Shape.known w.dims).reverse = .known w.dims.reverse := by
      simp [Shape.reverse, Shape.known]
    rw [hreverse] at hpossible ⊢
    rw [Value.dims_transpose (Failure.ofFault_eq_ok hrun) (Shape.possible_known.mp hpossible)]
  case fillLike filling =>
    obtain ⟨w, hw, hrun⟩ := Except.bind_eq_ok.mp hrun
    cases hfirst hw hσ
    cases hrun
    have hzero := Shape.possible_known.mp hpossible
    cases filling <;> exact congrArg _ (Value.dims_filled_scalar hzero _).symm
  case shape =>
    obtain ⟨w, hw, hrun⟩ := Except.bind_eq_ok.mp hrun
    obtain ⟨τ, hτ, rfl⟩ := Option.map_eq_some_iff.mp hσ
    cases hfirst hw hτ
    cases hrun
    rw [Value.dims_map_scalar]
    simp [Shape.rank, Shape.known]
  case rank =>
    obtain ⟨w, hw, hrun⟩ := Except.bind_eq_ok.mp hrun
    cases hrun
    cases hσ
    rfl
  all_goals cases hσ

end Arguments

end Dataflow
